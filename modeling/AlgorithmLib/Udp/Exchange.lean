import AlgorithmLib.Library.Run
import AlgorithmLib.Library.Stutter
import AlgorithmLib.Udp.ClientSession

/-!
Two sessions exchange requests over a network that loses, duplicates, delays and reorders
datagrams. A datagram is remembered with the request it carries or answers, by its place among the
requests that were ever made; the sessions see its bytes only.
-/

set_option autoImplicit false

namespace AlgorithmLib.Udp

inductive Party where
  | left
  | right
  deriving DecidableEq, Repr

def Party.other : Party → Party
  | .left => .right
  | .right => .left

structure Datagram where
  dest : Party
  isReply : Bool
  index : Nat
  bytes : List UInt8
  deriving DecidableEq, Repr

def Datagram.asker (d : Datagram) : Party := if d.isReply then d.dest else d.dest.other

/-- The sessions and the requests that their goroutines are about to send; what each session passed
to `RequestAdd`, how many of these it has taken off its queue, and the requests that its `ReadMsg`
returned; what is in flight. -/
structure Exchange where
  session : Party → ClientSession
  sending : Party → Option (List UInt8 × Nat)
  added : Party → List (List UInt8)
  removed : Party → Nat
  delivered : Party → List (List UInt8 × Nat)
  flight : List Datagram

inductive ExchangeAct where
  /-- `WriteMsg` with a reliable request -/
  | write (p : Party) (cmd : UInt32) (flags reqId : UInt8) (args : List (List UInt8))
  /-- the goroutine of a session gets the request in front -/
  | front (p : Party)
  /-- and sends it -/
  | send (p : Party)
  /-- a datagram arrives; a copy of it stays in flight -/
  | arrive (k : Nat)
  | lose (k : Nat)
  /-- the application answers a request that it was given -/
  | reply (p : Party) (k : Nat) (cmd : UInt32) (isReliable : Bool) (flags : UInt8)
      (args : List (List UInt8))
  deriving DecidableEq, Repr

namespace Exchange

def init (cid : Party → UInt32) : Exchange :=
  { session := fun p => createSession (cid p), sending := fun _ => none, added := fun _ => []
    removed := fun _ => 0, delivered := fun _ => [], flight := [] }

variable (little : Bool)

def isRequest (msg : List UInt8) : Bool :=
  match Ucph.unpack little msg with
  | none => false
  | some ucph => ucph.request = 1

def step (s : Exchange) : ExchangeAct → Option Exchange
  | .write p cmd flags reqId args =>
    if cmd.toUInt16 ≠ 242 then
      let old := s.session p
      let new := (old.writeMsg little ⟨cmd, true, true, flags, reqId⟩ args).1
      some
        { s with
          session := Function.update s.session p new
          added := Function.update s.added p
            (s.added p ++ new.sendQueue.drop old.sendQueue.length) }
    else none
  | .front p =>
    let (new, msg) := (s.session p).sendFront
    some
      { s with
        session := Function.update s.session p new
        sending := Function.update s.sending p (msg.map (·, s.removed p)) }
  | .send p =>
    some
      { s with
        sending := Function.update s.sending p none
        flight := s.flight ++
          (s.sending p).toList.map fun (msg, i) => ⟨p.other, false, i, msg⟩ }
  | .arrive k =>
    match s.flight[k]? with
    | none => none
    | some d =>
      let old := s.session d.dest
      (old.readMsg little d.bytes).map fun (new, msg) =>
        { s with
          session := Function.update s.session d.dest new
          removed := Function.update s.removed d.dest
            (s.removed d.dest + (old.sendQueue.length - new.sendQueue.length))
          delivered := Function.update s.delivered d.dest
            (s.delivered d.dest ++ (msg.toList.filter (isRequest little)).map (·, d.index)) }
  | .lose k => some { s with flight := s.flight.eraseIdx k }
  | .reply p k cmd isReliable flags args =>
    match (s.delivered p)[k]? with
    | none => none
    | some (m, i) =>
      (Ucph.unpack little m).map fun ucph =>
        let (new, msgs) :=
          (s.session p).writeMsg little ⟨cmd, false, isReliable, flags, ucph.requestId⟩ args
        { s with
          session := Function.update s.session p new
          flight := s.flight ++ msgs.map (⟨p.other, true, i, ·⟩) }

/-- No datagram of a request or of its reply is in flight once the request 255 places behind it
has come to the front of its queue. -/
def Timely (s : Exchange) : Prop :=
  ∀ d ∈ s.flight, ¬ (d.index + 255 ≤ s.removed d.asker ∧
    d.index + 255 < (s.added d.asker).length)

instance (s : Exchange) : Decidable s.Timely :=
  inferInstanceAs (Decidable (∀ d ∈ s.flight, _))

end Exchange

end AlgorithmLib.Udp
