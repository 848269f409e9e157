import AlgorithmLib.Udp.Ucph

/-!
`leaf/network/udp/session/udp_session.go`: the requests of a session wait in a queue until they are
answered, and the one in front is sent again and again; a request of the other side is taken when
its 8-bit number is the current one or the next.
-/

set_option autoImplicit false

namespace AlgorithmLib.Udp

structure Flags where
  cmd : UInt32
  isRequest : Bool
  isReliable : Bool
  flags : UInt8
  reqId : UInt8
  deriving DecidableEq, Repr

structure ClientSession where
  cid : UInt32
  sendQueue : List (List UInt8)
  sendRetry : Nat
  myRequestId : UInt8
  peerRequestId : UInt8
  deriving DecidableEq, Repr

/-- The requests in `CreateSession`. -/
def createSession (cid : UInt32) : ClientSession :=
  { cid := cid, sendQueue := [], sendRetry := 0, myRequestId := 0, peerRequestId := 0 }

namespace ClientSession

variable (little : Bool)

def packet (ucph : Ucph) (arg : List UInt8) : List UInt8 :=
  { ucph with paramLen := UInt16.ofNat arg.length }.pack little ++ arg

def requestAdd (ucph : Ucph) : List (List UInt8) → ClientSession → ClientSession
  | [], s => s
  | arg :: args, s =>
    requestAdd ucph args
      { s with
        sendQueue := s.sendQueue ++ [packet little { ucph with requestId := s.myRequestId } arg]
        myRequestId := s.myRequestId + 1 }

def requestDel (s : ClientSession) : ClientSession :=
  { s with sendQueue := s.sendQueue.tail, sendRetry := 0 }

def checkRequestId (s : ClientSession) (ucph : Ucph) : ClientSession × Bool :=
  if ucph.requestId = s.peerRequestId then (s, true)
  else if ucph.requestId = s.peerRequestId + 1 then
    ({ s with peerRequestId := s.peerRequestId + 1 }, true)
  else (s, false)

def checkReplyId (s : ClientSession) (reply : Ucph) : Option Bool :=
  match s.sendQueue with
  | [] => some false
  | msg :: _ => (Ucph.unpack little msg).map fun ucph => reply.requestId = ucph.requestId

/-- A turn of the loop of `ReadMsg` on this message, with the message when it is returned. -/
def readMsg (s : ClientSession) (msg : List UInt8) :
    Option (ClientSession × Option (List UInt8)) :=
  match Ucph.unpack little msg with
  | none => none
  | some ucph =>
    if ucph.command = 242 then some (s, some msg)
    else if ucph.request = 1 then
      let (s, ok) := s.checkRequestId ucph
      some (s, if ok then some msg else none)
    else
      (s.checkReplyId little ucph).map fun ok =>
        if ok then (s.requestDel, some msg) else (s, none)

/-- `WriteMsg`, with the datagrams it sends at once. -/
def writeMsg (s : ClientSession) (f : Flags) (args : List (List UInt8)) :
    ClientSession × List (List UInt8) :=
  let ucph :=
    { Ucph.newUcph f.cmd.toUInt16 0 (if f.isRequest then 1 else 0) 0 f.flags with
      clientSid := s.cid, requestId := f.reqId }
  if f.isRequest && f.isReliable then (s.requestAdd little ucph args, [])
  else (s, args.map (packet little ucph))

/-- A turn of the goroutine of `CreateSession` that sends the request in front. -/
def sendFront (s : ClientSession) : ClientSession × Option (List UInt8) :=
  match s.sendQueue with
  | msg :: _ =>
    ({ s with sendRetry := (if s.sendRetry ≥ 3 then 2 else s.sendRetry) + 1 }, some msg)
  | [] => ({ s with sendRetry := 0 }, none)

variable {little}

theorem unpack_packet (ucph : Ucph) (h : ucph.Fits) (arg : List UInt8) :
    Ucph.unpack little (packet little ucph arg) =
      some { ucph with paramLen := UInt16.ofNat arg.length } :=
  Ucph.unpack_pack little { ucph with paramLen := UInt16.ofNat arg.length } h arg

def IsNumbered (little : Bool) (id : UInt8) (msg : List UInt8) : Prop :=
  ∃ ucph, Ucph.unpack little msg = some ucph ∧ ucph.request = 1 ∧ ucph.command ≠ 242 ∧
    ucph.requestId = id

theorem requestAdd_spec {ucph : Ucph} (hfits : ucph.Fits) (hrequest : ucph.request = 1)
    (hcommand : ucph.command ≠ 242) (args : List (List UInt8)) {s : ClientSession} {n : Nat}
    (hn : s.myRequestId = UInt8.ofNat n) :
    ∃ msgs, (s.requestAdd little ucph args).sendQueue = s.sendQueue ++ msgs ∧
      (∀ i msg, msgs[i]? = some msg → IsNumbered little (UInt8.ofNat (n + i)) msg) ∧
      (s.requestAdd little ucph args).myRequestId = UInt8.ofNat (n + msgs.length) ∧
      (s.requestAdd little ucph args).peerRequestId = s.peerRequestId := by
  induction args generalizing s n with
  | nil => exact ⟨[], by simp [requestAdd], by simp, hn, rfl⟩
  | cons arg args ih =>
    have hnext : s.myRequestId + 1 = UInt8.ofNat (n + 1) := by
      rw [hn, UInt8.ofNat_add]
      rfl
    obtain ⟨msgs, hqueue, hnumbered, hid, hpeer⟩ := ih
      (s := { s with
        sendQueue := s.sendQueue ++ [packet little { ucph with requestId := s.myRequestId } arg]
        myRequestId := s.myRequestId + 1 }) hnext
    refine ⟨packet little { ucph with requestId := s.myRequestId } arg :: msgs, ?_,
      fun i msg hmsg => ?_, ?_, hpeer⟩
    · rw [requestAdd, hqueue, List.append_assoc, List.singleton_append]
    · cases i with
      | zero =>
        rw [List.getElem?_cons_zero, Option.some.injEq] at hmsg
        subst hmsg
        exact ⟨_, unpack_packet { ucph with requestId := s.myRequestId } hfits arg,
          hrequest, hcommand, hn⟩
      | succ i =>
        have hrest := hnumbered i msg hmsg
        rwa [show n + 1 + i = n + (i + 1) by omega] at hrest
    · rw [requestAdd, hid, List.length_cons, show n + 1 + msgs.length = n + (msgs.length + 1) by omega]

theorem writeMsg_request (little : Bool) (s : ClientSession) {cmd : UInt32} (hcmd : cmd.toUInt16 ≠ 242)
    (flags reqId : UInt8) (args : List (List UInt8)) {n : Nat}
    (hn : s.myRequestId = UInt8.ofNat n) :
    ∃ msgs, (s.writeMsg little ⟨cmd, true, true, flags, reqId⟩ args).1.sendQueue =
        s.sendQueue ++ msgs ∧
      (∀ i msg, msgs[i]? = some msg → IsNumbered little (UInt8.ofNat (n + i)) msg) ∧
      (s.writeMsg little ⟨cmd, true, true, flags, reqId⟩ args).1.myRequestId =
        UInt8.ofNat (n + msgs.length) ∧
      (s.writeMsg little ⟨cmd, true, true, flags, reqId⟩ args).1.peerRequestId =
        s.peerRequestId := by
  have hfits : Ucph.Fits { Ucph.newUcph cmd.toUInt16 0 1 0 flags with
      clientSid := s.cid, requestId := reqId } :=
    (by decide : (Ucph.newUcph 0 0 1 0 0).Fits)
  exact requestAdd_spec hfits rfl hcmd args hn

theorem writeMsg_reply (little : Bool) (s : ClientSession) (cmd : UInt32) (isReliable : Bool)
    (flags reqId : UInt8) (args : List (List UInt8)) :
    (s.writeMsg little ⟨cmd, false, isReliable, flags, reqId⟩ args).1 = s ∧
      ∀ msg ∈ (s.writeMsg little ⟨cmd, false, isReliable, flags, reqId⟩ args).2,
        ∃ ucph, Ucph.unpack little msg = some ucph ∧ ucph.request = 0 ∧ ucph.requestId = reqId := by
  have hfits : Ucph.Fits { Ucph.newUcph cmd.toUInt16 0 0 0 flags with
      clientSid := s.cid, requestId := reqId } :=
    (by decide : (Ucph.newUcph 0 0 0 0 0).Fits)
  refine ⟨rfl, fun msg hmsg => ?_⟩
  obtain ⟨arg, -, rfl⟩ := List.mem_map.mp hmsg
  exact ⟨_, unpack_packet _ hfits arg, rfl, rfl⟩

theorem readMsg_request (s : ClientSession) {id : UInt8} {msg : List UInt8}
    (h : IsNumbered little id msg) :
    s.readMsg little msg =
      if id = s.peerRequestId then some (s, some msg)
      else if id = s.peerRequestId + 1 then
        some ({ s with peerRequestId := s.peerRequestId + 1 }, some msg)
      else some (s, none) := by
  obtain ⟨ucph, hunpack, hrequest, hcommand, rfl⟩ := h
  simp only [readMsg, hunpack, hcommand, if_false, hrequest, if_true, checkRequestId]
  split
  · rfl
  · split <;> rfl

theorem readMsg_reply (s : ClientSession) {ucph : Ucph} {msg : List UInt8}
    (hunpack : Ucph.unpack little msg = some ucph) (hrequest : ucph.request = 0) :
    s.readMsg little msg =
      if ucph.command = 242 then some (s, some msg)
      else
        (s.checkReplyId little ucph).map fun ok =>
          if ok then (s.requestDel, some msg) else (s, none) := by
  have hne : ¬ (0 : UInt8) = 1 := by decide
  simp only [readMsg, hunpack, hrequest, hne, if_false]

end ClientSession

end AlgorithmLib.Udp
