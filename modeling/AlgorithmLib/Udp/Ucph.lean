import AlgorithmLib.Library.Bytes

/-!
`leaf/network/receiver/ucph_receiver.go`: the header of a datagram and the body of an
authentication request. The order of the fields in the first byte depends on the byte order of the
machine; a slice that is too short is an index out of range, which is `none`.
-/

set_option autoImplicit false

namespace AlgorithmLib.Udp

open Bytes

structure Ucph where
  ver : UInt8
  hlen : UInt8
  request : UInt8
  encrypt : UInt8
  flag : UInt8
  requestId : UInt8
  fragments : UInt8
  clientSid : UInt32
  command : UInt16
  paramLen : UInt16
  deriving DecidableEq, Repr

structure ClientAuthRequest where
  action : UInt8
  version : UInt8
  rand1 : List UInt8
  username : List UInt8
  uuid : List UInt8
  deriving DecidableEq, Repr

namespace Ucph

def getLen : UInt32 := 12

def newUcph (cmd paramLen : UInt16) (isRequest isEnc flag : UInt8) : Ucph :=
  { ver := 1, hlen := (getLen / 4).toUInt8, request := isRequest, encrypt := isEnc, flag := flag
    requestId := 0, fragments := 0, clientSid := 0, command := cmd, paramLen := paramLen }

def buildFirst (little : Bool) (hdr : Ucph) : UInt8 :=
  if little then hdr.ver <<< 5 ||| hdr.hlen <<< 2 ||| hdr.request <<< 1 ||| hdr.encrypt
  else hdr.ver ||| hdr.hlen <<< 3 ||| hdr.request <<< 6 ||| hdr.encrypt <<< 7

def pack (little : Bool) (hdr : Ucph) : List UInt8 :=
  hdr.buildFirst little :: hdr.flag :: hdr.requestId :: hdr.fragments ::
    (beBytes 4 hdr.clientSid.toNat ++ beBytes 2 hdr.command.toNat ++ beBytes 2 hdr.paramLen.toNat)

def unpack (little : Bool) : List UInt8 → Option Ucph
  | first :: flag :: requestId :: fragments :: data =>
    if 8 ≤ data.length then
      some
        { ver := if little then first >>> 5 &&& 7 else first &&& 7
          hlen := if little then first >>> 2 &&& 7 else first >>> 3 &&& 7
          request := if little then first >>> 1 &&& 1 else first >>> 6 &&& 1
          encrypt := if little then first &&& 1 else first >>> 7 &&& 1
          flag := flag
          requestId := requestId
          fragments := fragments
          clientSid := UInt32.ofNat (beValue (data.take 4))
          command := UInt16.ofNat (beValue ((data.drop 4).take 2))
          paramLen := UInt16.ofNat (beValue ((data.drop 6).take 2)) }
    else none
  | _ => none

/-- The fields of the first byte fit their bits. -/
def Fits (hdr : Ucph) : Prop :=
  hdr.ver < 8 ∧ hdr.hlen < 8 ∧ hdr.request < 2 ∧ hdr.encrypt < 2

instance (hdr : Ucph) : Decidable hdr.Fits :=
  inferInstanceAs (Decidable (_ ∧ _ ∧ _ ∧ _))

end Ucph

def ClientAuthRequest.getLen : UInt32 := 40

/-- `ClientAuthRequest.Unpack`, which ends the user name with a zero byte, and leaves a `Uuid` that
is cut off zero -/
def ClientAuthRequest.unpack (b : List UInt8) : Option ClientAuthRequest :=
  if 24 ≤ b.length then
    some
      { action := b.getD 0 0
        version := b.getD 1 0
        rand1 := (b.drop 4).take 4
        username := ((b.drop 8).take 16).set 15 0
        uuid := if 40 ≤ b.length then (b.drop 24).take 16 else List.replicate 16 0 }
  else none

namespace Ucph

theorem first_round_trip (little : Bool) :
    ∀ ver hlen : Fin 8, ∀ request encrypt : Fin 2,
      let v := UInt8.ofNat ver
      let h := UInt8.ofNat hlen
      let r := UInt8.ofNat request
      let e := UInt8.ofNat encrypt
      let first := if little then v <<< 5 ||| h <<< 2 ||| r <<< 1 ||| e
        else v ||| h <<< 3 ||| r <<< 6 ||| e <<< 7
      (if little then first >>> 5 &&& 7 else first &&& 7) = v ∧
        (if little then first >>> 2 &&& 7 else first >>> 3 &&& 7) = h ∧
        (if little then first >>> 1 &&& 1 else first >>> 6 &&& 1) = r ∧
        (if little then first &&& 1 else first >>> 7 &&& 1) = e := by
  cases little <;> decide +kernel

/-- A packed header is unpacked, whatever follows it. -/
theorem unpack_pack (little : Bool) (hdr : Ucph) (h : hdr.Fits) (data : List UInt8) :
    unpack little (hdr.pack little ++ data) = some hdr := by
  obtain ⟨hver, hhlen, hrequest, hencrypt⟩ := h
  have hfirst := first_round_trip little ⟨hdr.ver.toNat, hver⟩ ⟨hdr.hlen.toNat, hhlen⟩
    ⟨hdr.request.toNat, hrequest⟩ ⟨hdr.encrypt.toNat, hencrypt⟩
  simp only [UInt8.ofNat_toNat] at hfirst
  obtain ⟨hv, hh, hr, he⟩ := hfirst
  have hsid : hdr.clientSid.toNat < 256 ^ 4 := hdr.clientSid.toNat_lt
  have hcommand : hdr.command.toNat < 256 ^ 2 := hdr.command.toNat_lt
  have hlen : hdr.paramLen.toNat < 256 ^ 2 := hdr.paramLen.toNat_lt
  obtain ⟨h4, h2, h2'⟩ := take_fields (beBytes_length 4 hdr.clientSid.toNat)
    (beBytes_length 2 hdr.command.toNat) (beBytes_length 2 hdr.paramLen.toNat) (data)
  have hlength : 8 ≤ (beBytes 4 hdr.clientSid.toNat ++ beBytes 2 hdr.command.toNat ++
      beBytes 2 hdr.paramLen.toNat ++ data).length := by
    simp only [List.length_append, beBytes_length]
    omega
  simp only [pack, List.cons_append, unpack, if_pos hlength, h4, h2, h2', buildFirst, hv, hh, hr,
    he, beValue_beBytes_of_lt hsid, beValue_beBytes_of_lt hcommand, beValue_beBytes_of_lt hlen,
    UInt32.ofNat_toNat, UInt16.ofNat_toNat]

end Ucph

end AlgorithmLib.Udp
