import AlgorithmLib.Udp.Ucph

/-!
`leaf/network/receiver/tcph_receiver.go`: the other header with the same first byte, and what becomes
of either header between two machines. The fields of more than one byte are in network order; where
the four fields are in the first byte depends on the machine.
-/

set_option autoImplicit false

namespace AlgorithmLib.Udp

open Bytes

structure Tcph where
  ver : UInt8
  hlen : UInt8
  request : UInt8
  encrypt : UInt8
  flag : UInt8
  command : UInt16
  paramLen : UInt32
  rsv : UInt32
  deriving DecidableEq, Repr

namespace Tcph

def buildFirst (little : Bool) (hdr : Tcph) : UInt8 :=
  if little then hdr.ver <<< 5 ||| hdr.hlen <<< 2 ||| hdr.request <<< 1 ||| hdr.encrypt
  else hdr.ver ||| hdr.hlen <<< 3 ||| hdr.request <<< 6 ||| hdr.encrypt <<< 7

def pack (little : Bool) (hdr : Tcph) : List UInt8 :=
  hdr.buildFirst little :: hdr.flag ::
    (beBytes 2 hdr.command.toNat ++ beBytes 4 hdr.paramLen.toNat ++ beBytes 4 hdr.rsv.toNat)

def unpack (little : Bool) : List UInt8 → Option Tcph
  | first :: flag :: data =>
    if 10 ≤ data.length then
      some
        { ver := if little then first >>> 5 &&& 7 else first &&& 7
          hlen := if little then first >>> 2 &&& 7 else first >>> 3 &&& 7
          request := if little then first >>> 1 &&& 1 else first >>> 6 &&& 1
          encrypt := if little then first &&& 1 else first >>> 7 &&& 1
          flag := flag
          command := UInt16.ofNat (beValue (data.take 2))
          paramLen := UInt32.ofNat (beValue ((data.drop 2).take 4))
          rsv := UInt32.ofNat (beValue ((data.drop 6).take 4)) }
    else none
  | _ => none

/-- The fields of the first byte fit their bits. -/
def Fits (hdr : Tcph) : Prop :=
  hdr.ver < 8 ∧ hdr.hlen < 8 ∧ hdr.request < 2 ∧ hdr.encrypt < 2

instance (hdr : Tcph) : Decidable hdr.Fits :=
  inferInstanceAs (Decidable (_ ∧ _ ∧ _ ∧ _))

end Tcph

def firstOf (little : Bool) (ver hlen request encrypt : UInt8) : UInt8 :=
  if little then ver <<< 5 ||| hlen <<< 2 ||| request <<< 1 ||| encrypt
  else ver ||| hlen <<< 3 ||| request <<< 6 ||| encrypt <<< 7

/-- `getFirstFromByte` -/
def fieldsOf (little : Bool) (first : UInt8) : UInt8 × UInt8 × UInt8 × UInt8 :=
  (if little then first >>> 5 &&& 7 else first &&& 7,
    if little then first >>> 2 &&& 7 else first >>> 3 &&& 7,
    if little then first >>> 1 &&& 1 else first >>> 6 &&& 1,
    if little then first &&& 1 else first >>> 7 &&& 1)

def Symmetric (ver hlen request encrypt : UInt8) : Prop :=
  hlen = 7 * encrypt ∧ ver = 5 * encrypt + 2 * request

instance (ver hlen request encrypt : UInt8) : Decidable (Symmetric ver hlen request encrypt) :=
  inferInstanceAs (Decidable (_ ∧ _))

theorem fieldsOf_firstOf_fin (w r : Bool) : ∀ ver hlen : Fin 8, ∀ request encrypt : Fin 2,
    let v := UInt8.ofNat ver
    let h := UInt8.ofNat hlen
    let q := UInt8.ofNat request
    let e := UInt8.ofNat encrypt
    fieldsOf r (firstOf w v h q e) = (v, h, q, e) ↔ w = r ∨ Symmetric v h q e := by
  cases w <;> cases r <;> decide +kernel

theorem fieldsOf_firstOf (w r : Bool) {ver hlen request encrypt : UInt8} (hver : ver < 8)
    (hhlen : hlen < 8) (hrequest : request < 2) (hencrypt : encrypt < 2) :
    fieldsOf r (firstOf w ver hlen request encrypt) = (ver, hlen, request, encrypt) ↔
      w = r ∨ Symmetric ver hlen request encrypt := by
  have h := fieldsOf_firstOf_fin w r ⟨ver.toNat, hver⟩ ⟨hlen.toNat, hhlen⟩
    ⟨request.toNat, hrequest⟩ ⟨encrypt.toNat, hencrypt⟩
  simpa only [UInt8.ofNat_toNat] using h

def symmetricBytes : List UInt8 := [0x00, 0x42, 0xBD, 0xFF]

theorem firstOf_fieldsOf_fin (w r : Bool) : ∀ b : Fin 256,
    let first := UInt8.ofNat b
    let (v, h, q, e) := fieldsOf r first
    firstOf w v h q e = first ↔ w = r ∨ first ∈ symmetricBytes := by
  cases w <;> cases r <;> decide +kernel

theorem firstOf_fieldsOf (w r : Bool) (first : UInt8) :
    firstOf w (fieldsOf r first).1 (fieldsOf r first).2.1 (fieldsOf r first).2.2.1
      (fieldsOf r first).2.2.2 = first ↔ w = r ∨ first ∈ symmetricBytes := by
  have h := firstOf_fieldsOf_fin w r ⟨first.toNat, first.toNat_lt⟩
  simpa only [UInt8.ofNat_toNat] using h

namespace Ucph

theorem unpack_pack_fields (w r : Bool) (hdr : Ucph) : unpack r (hdr.pack w) =
    some { hdr with
      ver := (fieldsOf r (hdr.buildFirst w)).1
      hlen := (fieldsOf r (hdr.buildFirst w)).2.1
      request := (fieldsOf r (hdr.buildFirst w)).2.2.1
      encrypt := (fieldsOf r (hdr.buildFirst w)).2.2.2 } := by
  have hsid : hdr.clientSid.toNat < 256 ^ 4 := hdr.clientSid.toNat_lt
  have hcommand : hdr.command.toNat < 256 ^ 2 := hdr.command.toNat_lt
  have hlen : hdr.paramLen.toNat < 256 ^ 2 := hdr.paramLen.toNat_lt
  obtain ⟨h4, h2, h2'⟩ := take_fields (beBytes_length 4 hdr.clientSid.toNat)
    (beBytes_length 2 hdr.command.toNat) (beBytes_length 2 hdr.paramLen.toNat) []
  rw [List.append_nil] at h4 h2 h2'
  have hlength : 8 ≤ (beBytes 4 hdr.clientSid.toNat ++ beBytes 2 hdr.command.toNat ++
      beBytes 2 hdr.paramLen.toNat).length := by
    simp only [List.length_append, beBytes_length]
    omega
  simp only [pack, unpack, if_pos hlength, h4, h2, h2', fieldsOf, beValue_beBytes_of_lt hsid,
    beValue_beBytes_of_lt hcommand, beValue_beBytes_of_lt hlen, UInt32.ofNat_toNat,
    UInt16.ofNat_toNat]

theorem unpack_pack_iff (w r : Bool) (hdr : Ucph) (h : hdr.Fits) :
    unpack r (hdr.pack w) = some hdr ↔
      w = r ∨ Symmetric hdr.ver hdr.hlen hdr.request hdr.encrypt := by
  obtain ⟨hver, hhlen, hrequest, hencrypt⟩ := h
  rw [← fieldsOf_firstOf w r hver hhlen hrequest hencrypt, unpack_pack_fields]
  obtain ⟨ver, hlen, request, encrypt, flag, requestId, fragments, clientSid, command, paramLen⟩ := hdr
  simp [Prod.ext_iff, firstOf, buildFirst]

theorem pack_unpack_iff (w r : Bool) (b : List UInt8) (h : b.length = 12) :
    (unpack r b).map (pack w) = some b ↔ w = r ∨ b.headD 0 ∈ symmetricBytes := by
  obtain - | ⟨first, - | ⟨flag, - | ⟨requestId, - | ⟨fragments, data⟩⟩⟩⟩ := b
  · cases h
  · cases h
  · cases h
  · cases h
  · have hdata : data.length = 4 + 2 + 2 := by simpa using h
    have h4 : (data.take 4).length = 4 := by simp [hdata]
    have h2 : ((data.drop 4).take 2).length = 2 := by simp [hdata]
    have h2' : ((data.drop 6).take 2).length = 2 := by simp [hdata]
    rw [List.headD_cons, ← firstOf_fieldsOf]
    simp only [unpack, hdata, if_pos (Nat.le_refl 8), Option.map_some, pack,
      UInt32.toNat_ofNat_of_lt' (beValue_lt h4), UInt16.toNat_ofNat_of_lt' (beValue_lt h2),
      UInt16.toNat_ofNat_of_lt' (beValue_lt h2'), beBytes_beValue h4, beBytes_beValue h2,
      beBytes_beValue h2', Option.some.injEq, List.cons.injEq, true_and]
    rw [append_fields hdata]
    exact and_iff_left rfl

end Ucph

namespace Tcph

theorem unpack_pack_fields (w r : Bool) (hdr : Tcph) : unpack r (hdr.pack w) =
    some { hdr with
      ver := (fieldsOf r (hdr.buildFirst w)).1
      hlen := (fieldsOf r (hdr.buildFirst w)).2.1
      request := (fieldsOf r (hdr.buildFirst w)).2.2.1
      encrypt := (fieldsOf r (hdr.buildFirst w)).2.2.2 } := by
  have hcommand : hdr.command.toNat < 256 ^ 2 := hdr.command.toNat_lt
  have hlen : hdr.paramLen.toNat < 256 ^ 4 := hdr.paramLen.toNat_lt
  have hrsv : hdr.rsv.toNat < 256 ^ 4 := hdr.rsv.toNat_lt
  obtain ⟨h2, h4, h4'⟩ := take_fields (beBytes_length 2 hdr.command.toNat)
    (beBytes_length 4 hdr.paramLen.toNat) (beBytes_length 4 hdr.rsv.toNat) []
  rw [List.append_nil] at h2 h4 h4'
  have hlength : 10 ≤ (beBytes 2 hdr.command.toNat ++ beBytes 4 hdr.paramLen.toNat ++
      beBytes 4 hdr.rsv.toNat).length := by
    simp only [List.length_append, beBytes_length]
    omega
  simp only [pack, unpack, if_pos hlength, h2, h4, h4', fieldsOf, beValue_beBytes_of_lt hcommand,
    beValue_beBytes_of_lt hlen, beValue_beBytes_of_lt hrsv, UInt32.ofNat_toNat,
    UInt16.ofNat_toNat]

theorem unpack_pack_iff (w r : Bool) (hdr : Tcph) (h : hdr.Fits) :
    unpack r (hdr.pack w) = some hdr ↔
      w = r ∨ Symmetric hdr.ver hdr.hlen hdr.request hdr.encrypt := by
  obtain ⟨hver, hhlen, hrequest, hencrypt⟩ := h
  rw [← fieldsOf_firstOf w r hver hhlen hrequest hencrypt, unpack_pack_fields]
  obtain ⟨ver, hlen, request, encrypt, flag, command, paramLen, rsv⟩ := hdr
  simp [Prod.ext_iff, firstOf, buildFirst]

theorem pack_unpack_iff (w r : Bool) (b : List UInt8) (h : b.length = 12) :
    (unpack r b).map (pack w) = some b ↔ w = r ∨ b.headD 0 ∈ symmetricBytes := by
  obtain - | ⟨first, - | ⟨flag, data⟩⟩ := b
  · cases h
  · cases h
  · have hdata : data.length = 2 + 4 + 4 := by simpa using h
    have h2 : (data.take 2).length = 2 := by simp [hdata]
    have h4 : ((data.drop 2).take 4).length = 4 := by simp [hdata]
    have h4' : ((data.drop 6).take 4).length = 4 := by simp [hdata]
    rw [List.headD_cons, ← firstOf_fieldsOf]
    simp only [unpack, hdata, if_pos (Nat.le_refl 10), Option.map_some, pack,
      UInt16.toNat_ofNat_of_lt' (beValue_lt h2), UInt32.toNat_ofNat_of_lt' (beValue_lt h4),
      UInt32.toNat_ofNat_of_lt' (beValue_lt h4'), beBytes_beValue h2, beBytes_beValue h4,
      beBytes_beValue h4', Option.some.injEq, List.cons.injEq, true_and]
    rw [append_fields hdata]
    exact and_iff_left rfl

end Tcph

/-- A header is read as it was written, and twelve bytes are written as they were read, if and only
if the two machines have the same byte order, or the first byte is one that both show alike. -/
theorem wire_format_lossless (w r : Bool) :
    (∀ hdr : Ucph, hdr.Fits → (Ucph.unpack r (hdr.pack w) = some hdr ↔
        w = r ∨ hdr.hlen = 7 * hdr.encrypt ∧ hdr.ver = 5 * hdr.encrypt + 2 * hdr.request)) ∧
      (∀ b : List UInt8, b.length = 12 → ((Ucph.unpack r b).map (Ucph.pack w) = some b ↔
        w = r ∨ b.headD 0 ∈ [0x00, 0x42, 0xBD, 0xFF])) ∧
      (∀ hdr : Tcph, hdr.Fits → (Tcph.unpack r (hdr.pack w) = some hdr ↔
        w = r ∨ hdr.hlen = 7 * hdr.encrypt ∧ hdr.ver = 5 * hdr.encrypt + 2 * hdr.request)) ∧
      ∀ b : List UInt8, b.length = 12 → ((Tcph.unpack r b).map (Tcph.pack w) = some b ↔
        w = r ∨ b.headD 0 ∈ [0x00, 0x42, 0xBD, 0xFF]) :=
  ⟨Ucph.unpack_pack_iff w r, Ucph.pack_unpack_iff w r, Tcph.unpack_pack_iff w r,
    Tcph.pack_unpack_iff w r⟩

/-- The header of a request between two machines of one kind. -/
theorem wire_format_lossless_request :
    Ucph.unpack true ((Ucph.newUcph 242 40 1 0 0).pack true) = some (Ucph.newUcph 242 40 1 0 0) :=
  ((wire_format_lossless true true).1 _ (by decide)).mpr (.inl rfl)

/-- The same header, written on a little endian machine and read on a big endian one. -/
theorem wire_format_lossy :
    (Ucph.unpack false ((Ucph.newUcph 242 40 1 0 0).pack true)).map
      (fun hdr => (hdr.ver, hdr.hlen, hdr.request, hdr.encrypt)) = some (6, 5, 0, 0) ∧
      Ucph.unpack false ((Ucph.newUcph 242 40 1 0 0).pack true) ≠
        some (Ucph.newUcph 242 40 1 0 0) := by
  decide +kernel

end AlgorithmLib.Udp
