import AlgorithmLib.Epoll.MinHeap
import AlgorithmLib.Library.Keyed
import AlgorithmLib.Library.Links

/-!
`zebra_epoll/cl_thread.c`: the scheduler of callbacks on sockets, timers and events. Threads are
numbered in the order of their `calloc`. What the code does to a read thread and to a write
thread is written once, with the side as a parameter. A failed assertion writes to address 0;
such a call is `none`.
-/

set_option autoImplicit false

namespace AlgorithmLib.Epoll

def maxEvent : Nat := 64

def has (word flag : BitVec 32) : Bool := word &&& flag ≠ 0

inductive ThreadType where
  | unused
  | read
  | write
  | timer
  | event
  | ready
  deriving DecidableEq, Repr

inductive Side where
  | read
  | write
  deriving DecidableEq, Repr

namespace Side

def other : Side → Side
  | .read => .write
  | .write => .read

def type : Side → ThreadType
  | .read => .read
  | .write => .write

/-- `CL_SOCKETS_READ`, `CL_SOCKETS_WRITE` -/
def flag : Side → BitVec 32
  | .read => 1#32
  | .write => 2#32

/-- `CL_SOCKETS_READ_PERSIST`, `CL_SOCKETS_WRITE_PERSIST` -/
def persist : Side → BitVec 32
  | .read => 4#32
  | .write => 8#32

/-- The constant that `cl_thread_socket_set` clears in the type of a socket: `CL_SOCKETS_READ`,
and `CL_THREAD_WRITE`. -/
def cleared : Side → BitVec 32
  | .read => 1#32
  | .write => 2#32

/-- `EV_READ`, `EV_WRITE` -/
def ev : Side → BitVec 32
  | .read => 2#32
  | .write => 4#32

/-- `EPOLLIN`, `EPOLLOUT` -/
def epoll : Side → BitVec 32
  | .read => 1#32
  | .write => 4#32

end Side

def epollPri : BitVec 32 := 2#32

/-- `EPOLLERR|EPOLLHUP|EPOLLRDHUP` -/
def epollClosed : BitVec 32 := 8#32 ||| 16#32 ||| 8192#32

inductive ThreadU where
  | val (val : BitVec 32)
  | fd (fd : Int)
  | timer (node : Option Nat)
  deriving DecidableEq, Repr

/-- `cl_thread_t` without its link and its master. -/
structure ClThread where
  type : ThreadType
  func : Nat
  arg : Nat
  u : ThreadU
  deriving DecidableEq, Repr

inductive SocketOp where
  | add
  | added
  deriving DecidableEq, Repr

/-- `cl_thread_socket_t` -/
structure ClSocket where
  fd : Int
  type : BitVec 32
  op : SocketOp
  tRead : Option Nat
  tWrite : Option Nat
  deriving DecidableEq, Repr

def ClSocket.slot (s : ClSocket) : Side → Option Nat
  | .read => s.tRead
  | .write => s.tWrite

def ClSocket.setSlot (s : ClSocket) (d : Side) (t : Option Nat) : ClSocket :=
  match d with
  | .read => { s with tRead := t }
  | .write => { s with tWrite := t }

inductive CtlOp where
  | add
  | mod
  | del
  deriving DecidableEq, Repr

/-- The calls into the kernel. -/
inductive Call where
  | epollCtl (op : CtlOp) (fd : Int) (events : Option (BitVec 32))
  | epollWait (timeout : BitVec 32)
  deriving DecidableEq, Repr

/-- `cl_thread_master_t`; the tree of sockets as a list, how many threads were made, and the
kernel calls so far, the latest first. -/
structure Master where
  sockets : List ClSocket
  links : Links Nat ThreadType
  thread : Nat → ClThread
  made : Nat
  heap : TimeHeap
  calls : List Call

def zeroThread : ClThread := { type := .unused, func := 0, arg := 0, u := .val 0 }

def clThreadInit : Master :=
  { sockets := [], links := .empty, thread := fun _ => zeroThread, made := 0, heap := timeHeapInit
    calls := [] }

def clThreadSocketCalloc (sock : Int) : ClSocket :=
  { fd := sock, type := 0, op := .add, tRead := none, tWrite := none }

namespace Master

def clThreadSocketLookup (m : Master) (fd : Int) : Option ClSocket :=
  Keyed.lookup ClSocket.fd fd m.sockets

def setSocket (m : Master) (s : ClSocket) : Master :=
  { m with sockets := Keyed.update ClSocket.fd s.fd (fun _ => s) m.sockets }

def setThread (m : Master) (t : Nat) (r : ClThread) : Master :=
  { m with thread := Function.update m.thread t r }

/-- `stlc_list_del` -/
def unlink (m : Master) (t : Nat) : Master := { m with links := m.links.unlink t }

def call (m : Master) (c : Call) : Master := { m with calls := c :: m.calls }

def clThreadTrimHead (m : Master) (list : ThreadType) : Option (Nat × Master) :=
  match m.links.list list with
  | [] => none
  | t :: _ => some (t, m.unlink t)

def clThreadGet (m : Master) (type : ThreadType) (func arg : Nat) : Nat × Master :=
  let (t, m) := (m.clThreadTrimHead .unused).getD (m.made, { m with made := m.made + 1 })
  (t, m.setThread t { m.thread t with type := type, func := func, arg := arg })

def arm (m : Master) (s : ClSocket) (events : BitVec 32) : Master :=
  (m.setSocket { s with op := .added }).call
    (.epollCtl (if s.op = .add then .add else .mod) s.fd (some events))

def disarm (m : Master) (s : ClSocket) : Master :=
  (m.setSocket { s with op := .add }).call (.epollCtl .del s.fd none)

/-- `cl_thread_add_read` and `cl_thread_add_write`, with the thread they return. -/
def clThreadAdd (d : Side) (m : Master) (func arg : Nat) (sock : Int) (presist : Bool) :
    Option (Master × Option Nat) :=
  let m := { m with
    sockets := Keyed.lookupOrAppend ClSocket.fd sock (clThreadSocketCalloc sock) m.sockets }
  match m.clThreadSocketLookup sock with
  | none => none
  | some s =>
    if has s.type d.flag then some (m, none)
    else
      let (t, m) := m.clThreadGet d.type func arg
      let m := m.setThread t { m.thread t with u := .fd sock }
      if (s.slot d).isSome then none
      else
        let type := s.type ||| d.flag
        let events := if has type d.other.flag then d.epoll ||| d.other.epoll else d.epoll
        let type := if presist then type ||| d.persist else type &&& ~~~d.persist
        let m := m.arm { s.setSlot d (some t) with type := type } events
        some ({ m with links := m.links.addTail t d.type }, some t)

def clThreadAddRead := clThreadAdd .read

def clThreadAddWrite := clThreadAdd .write

/-- `cl_thread_add_timer` at this reading of the clock. -/
def clThreadAddTimer (m : Master) (now : BitVec 64) (func arg : Nat) (timer : BitVec 32) :
    Master × Nat :=
  let (t, m) := m.clThreadGet .timer func arg
  let (n, heap) := m.heap.timeHeapAddTimer now none (some t) timer
  let m := m.setThread t { m.thread t with u := .timer (some n) }
  ({ m with heap := heap, links := m.links.addTail t .timer }, t)

def clThreadAddEvent (m : Master) (func arg : Nat) (val : BitVec 32) : Master × Nat :=
  let (t, m) := m.clThreadGet .event func arg
  let m := m.setThread t { m.thread t with u := .val val }
  ({ m with links := m.links.addTail t .event }, t)

/-- `_cl_thread_cancel_read` and `_cl_thread_cancel_write`, which look for the master in the
thread of the slot. -/
def cancelSlot (d : Side) (m : Master) (s : ClSocket) : Option Master :=
  match s.slot d with
  | none => none
  | some t =>
    let type := s.type &&& ~~~d.flag &&& ~~~d.persist
    let s := { s.setSlot d none with type := type }
    let m := if has type d.other.flag then m.arm s d.other.epoll else m.disarm s
    some (m.unlink t)

/-- `cl_thread_cancel_read` and `cl_thread_cancel_write` -/
def cancelSide (d : Side) (m : Master) (t : Nat) : Option Master :=
  match (m.thread t).u with
  | .fd fd =>
    match m.clThreadSocketLookup fd with
    | none => some (m.unlink t)
    | some s => if s.slot d = some t then m.cancelSlot d s else none
  | _ => none

def clThreadCancelRead := cancelSide .read

def clThreadCancelWrite := cancelSide .write

def clThreadCancelTimer (m : Master) (t : Nat) : Option Master :=
  match (m.thread t).u with
  | .timer (some n) =>
    let m := { m with heap := m.heap.timeHeapDelTimer n }
    some ((m.setThread t { m.thread t with u := .timer none }).unlink t)
  | .timer none => some (m.unlink t)
  | _ => none

/-- `cl_thread_add_unuse`, and the end of `cl_thread_cancel` -/
def clThreadAddUnuse (m : Master) (t : Nat) : Master :=
  let m := m.setThread t { m.thread t with type := .unused }
  { m with links := m.links.addFront t .unused }

/-- `cl_thread_cancel`; the case of a ready thread has no `break` before the default one, which
writes to address 0. -/
def clThreadCancel (m : Master) (t : Nat) : Option Master :=
  match (m.thread t).type with
  | .read => (m.clThreadCancelRead t).map (·.clThreadAddUnuse t)
  | .write => (m.clThreadCancelWrite t).map (·.clThreadAddUnuse t)
  | .timer => (m.clThreadCancelTimer t).map (·.clThreadAddUnuse t)
  | .event => some ((m.unlink t).clThreadAddUnuse t)
  | .ready => none
  | .unused => none

/-- What `cl_thread_do_event` does for one side of the socket; `ctl` collects the sides whose
one-shot thread has its event. -/
def doEventSide (d : Side) (m : Master) (s : ClSocket) (what ctl : BitVec 32) :
    Option (Master × BitVec 32) :=
  if has what d.ev && has s.type d.flag then
    match s.slot d with
    | none => none
    | some t =>
      let ctl := if has s.type d.persist then ctl else ctl ||| d.ev
      if (m.thread t).type ≠ .ready then
        let m := (m.setThread t { m.thread t with type := .ready }).unlink t
        some ({ m with links := m.links.addFront t .ready }, ctl)
      else some (m, ctl)
  else some (m, ctl)

/-- The events of `cl_thread_do_event` from those of the kernel. -/
def whatOf (events : BitVec 32) : BitVec 32 :=
  let what := if has events epollClosed then Side.read.ev ||| Side.write.ev else 0#32
  let what := if has events (Side.read.epoll ||| epollPri) then what ||| Side.read.ev else what
  if has events Side.write.epoll then what ||| Side.write.ev else what

/-- The events that `cl_thread_do_event` goes on to wait for. -/
def eventsLeft (type ctl : BitVec 32) : BitVec 32 :=
  let e := if has type Side.read.flag then Side.read.epoll else 0#32
  let e := if has type Side.write.flag then e ||| Side.write.epoll else e
  let e := if has ctl Side.read.ev then e &&& ~~~Side.read.epoll else e
  if has ctl Side.write.ev then e &&& ~~~Side.write.epoll else e

/-- `cl_thread_do_event` on the socket of this descriptor. -/
def clThreadDoEvent (m : Master) (fd : Int) (events : BitVec 32) : Option Master := do
  let s ← m.clThreadSocketLookup fd
  let what := whatOf events
  let (m, ctl) ← m.doEventSide .read s what 0#32
  let (m, ctl) ← m.doEventSide .write s what ctl
  if ctl = 0 then some m
  else
    let e := eventsLeft s.type ctl
    if e = 0 then some (m.disarm s) else some (m.arm s e)

/-- What `cl_thread_socket_set` does for one side of the socket. -/
def socketSetSide (d : Side) (m : Master) (s : ClSocket) (t : Nat) : Master :=
  if has s.type d.persist then
    let m := m.setThread t { m.thread t with type := d.type }
    { m with links := m.links.addFront t d.type }
  else
    (m.setSocket { s.setSlot d none with type := s.type &&& ~~~d.cleared }).clThreadAddUnuse t

def clThreadSocketSet (m : Master) (t : Nat) : Option Master :=
  match (m.thread t).u with
  | .fd fd =>
    match m.clThreadSocketLookup fd with
    | none => some (m.clThreadAddUnuse t)
    | some s =>
      if s.slot .read = some t then some (m.socketSetSide .read s t)
      else if s.slot .write = some t then some (m.socketSetSide .write s t)
      else some m
  | _ => none

/-- `cl_thread_run`, with the copy it returns. -/
def clThreadRun (m : Master) (t : Nat) : Option (Master × ClThread) :=
  let fetch := m.thread t
  if (m.thread t).type = .ready then (m.clThreadSocketSet t).map (·, fetch)
  else some (m.clThreadAddUnuse t, fetch)

/-- The timeout of `epoll_wait`. -/
def clThreadTimerWait (m : Master) (now : BitVec 64) : BitVec 32 :=
  (m.heap.timeHeapTimeWait now).getD 1#32

end Master

/-- What the clock and the kernel answer in one iteration of the loop of `cl_thread_fetch`. -/
structure Answers where
  tickNow : BitVec 64
  waitNow : BitVec 64
  batch : List (Int × BitVec 32)
  deriving DecidableEq, Repr

namespace Master

/-- The sockets of a batch are known, each one is there once, and there are not too many. -/
def batchOk (m : Master) (batch : List (Int × BitVec 32)) : Bool :=
  (batch.map Prod.fst).Nodup && batch.length ≤ maxEvent &&
    batch.all (fun e => (m.clThreadSocketLookup e.1).isSome)

def doEvents (m : Master) : List (Int × BitVec 32) → Option Master
  | [] => some m
  | (fd, events) :: batch => (m.clThreadDoEvent fd events).bind (·.doEvents batch)

/-- One iteration of the loop of `cl_thread_fetch`, with the copy of the thread it returns. -/
def clThreadFetch (m : Master) (a : Answers) : Option (Master × Option ClThread) :=
  match m.clThreadTrimHead .event with
  | some (t, m) => (m.clThreadRun t).map (Prod.map id some)
  | none =>
    let (heap, args) := m.heap.clTimeHeapTick a.tickNow
    let m := { m with heap := heap }
    match args with
    | some t => ((m.unlink t).clThreadRun t).map (Prod.map id some)
    | none =>
      match m.clThreadTrimHead .ready with
      | some (t, m) => (m.clThreadRun t).map (Prod.map id some)
      | none =>
        let m := m.call (.epollWait (m.clThreadTimerWait a.waitNow))
        match m.doEvents a.batch with
        | none => none
        | some m =>
          match m.clThreadTrimHead .ready with
          | some (t, m) => (m.clThreadRun t).map (Prod.map id some)
          | none => some (m, none)

end Master

/-- The calls of the scheduler; a call of `cl_thread_fetch` is one step for each iteration. -/
inductive Act where
  | addRead (func arg : Nat) (sock : Int) (presist : Bool)
  | addWrite (func arg : Nat) (sock : Int) (presist : Bool)
  | addTimer (now : BitVec 64) (func arg : Nat) (timer : BitVec 32)
  | addEvent (func arg : Nat) (val : BitVec 32)
  | cancel (t : Nat)
  | fetch (a : Answers)
  deriving DecidableEq, Repr

/-- A call that returns normally. A thread can be cancelled while it is registered. -/
def step (m : Master) : Act → Option Master
  | .addRead func arg sock presist => (m.clThreadAddRead func arg sock presist).map Prod.fst
  | .addWrite func arg sock presist => (m.clThreadAddWrite func arg sock presist).map Prod.fst
  | .addTimer now func arg timer => some (m.clThreadAddTimer now func arg timer).1
  | .addEvent func arg val => some (m.clThreadAddEvent func arg val).1
  | .cancel t => if t < m.made then m.clThreadCancel t else none
  | .fetch a => if m.batchOk a.batch then (m.clThreadFetch a).map Prod.fst else none

/-- A call that a caller may make: a thread that is cancelled is registered and not ready, and
the kernel reports known sockets, each one once. -/
def permitted (m : Master) : Act → Prop
  | .cancel t => t < m.made ∧ (m.thread t).type ≠ .unused ∧ (m.thread t).type ≠ .ready
  | .fetch a => m.batchOk a.batch = true
  | _ => True

end AlgorithmLib.Epoll
