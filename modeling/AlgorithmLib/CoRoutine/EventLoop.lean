import AlgorithmLib.CoRoutine.Model
import AlgorithmLib.CoRoutine.Timeout
import AlgorithmLib.Library.Run

/-!
The event loop of one thread: `co_eventloop` in the main coroutine, and the coroutines that wait in
`co_poll` and in `co_cond_timedwait`. A wait is a `stTimeoutItem_t`, on the time wheel or on the
active list, which the loop empties; one for a condition is on the list of the condition as well.
The environment chooses what the running coroutine calls, what epoll reports and what the clock
says.
-/

set_option autoImplicit false

namespace AlgorithmLib.CoRoutine

/-- An item is the `stPoll_t` of a `co_poll`, or in the `stCoCondItem_t` of a condition. -/
inductive WaitFor where
  | poll
  | cond (link : Nat)
  deriving DecidableEq, Repr

/-- `stTimeoutItem_t`, with the `revents` of the `pollfd`s, `iRaiseCnt` and `iAllEventDetach` of a
`stPoll_t`. -/
structure TimeoutItem where
  ullExpireTime : Nat
  bTimeout : Bool
  pArg : CoId
  waitFor : WaitFor
  revents : List (BitVec 16)
  iRaiseCnt : Nat
  iAllEventDetach : Bool
  deriving DecidableEq, Repr

/-- One entry of `result->events`: the `stPollItem_t` with its index, and what happened. -/
structure EpollEvent where
  pPoll : Item
  fd : Nat
  events : BitVec 32
  deriving DecidableEq, Repr

/-- Between two turns of `co_eventloop`, or in the loop over the active list. -/
inductive LoopPc where
  | idle
  | processing (now : Nat)
  deriving DecidableEq, Repr

/-- `made` counts the items; `waits` says which one a coroutine is in `co_yield_env` for. -/
structure LoopSys where
  pTimeout : Timeout
  lists : ItemLists
  conds : Links Item Nat
  item : Item → TimeoutItem
  made : Nat
  waits : CoId → Option Item
  cEnd : CoId → Bool
  pCallStack : List CoId
  pc : LoopPc

def INT_MAX : Nat := 2147483647

/-- The flags that `POLLIN`, `POLLOUT`, `POLLHUP`, `POLLERR`, `POLLRDNORM` and `POLLWRNORM` share
with epoll. -/
def pollFlags : List Nat := [0x001, 0x004, 0x010, 0x008, 0x040, 0x100]

def epollEvent2Poll (events : BitVec 32) : BitVec 16 :=
  pollFlags.foldl (fun e flag =>
    if events &&& BitVec.ofNat 32 flag ≠ 0 then e ||| BitVec.ofNat 16 flag else e) 0

namespace LoopSys

/-- The main coroutine runs, and nothing waits. -/
def init (main : CoId) (iItemSize now : Nat) : LoopSys :=
  { pTimeout := .allocTimeout iItemSize now, lists := .empty, conds := .empty
    item := fun _ => { ullExpireTime := 0, bTimeout := false, pArg := main, waitFor := .poll
                       revents := [], iRaiseCnt := 0, iAllEventDetach := false }
    made := 0, waits := fun _ => none, cEnd := fun _ => false, pCallStack := [main], pc := .idle }

def setItem (s : LoopSys) (n : Item) (i : TimeoutItem) : LoopSys :=
  { s with item := Function.update s.item n i }

/-- The item that `co_poll` or `co_cond_timedwait` fills in. -/
def newItem (s : LoopSys) (i : TimeoutItem) : LoopSys :=
  { s.setItem s.made i with made := s.made + 1 }

def coYieldEnv (s : LoopSys) : Option LoopSys :=
  match s.pCallStack with
  | _ :: last :: rest => some { s with pCallStack := last :: rest }
  | _ => none

def addTimeout (s : LoopSys) (n : Item) (allNow : Nat) : AddRet × LoopSys :=
  match s.pTimeout.addTimeout s.lists n (s.item n).ullExpireTime allNow with
  | (ret, t, l) => (ret, { s with pTimeout := t, lists := l })

/-- `RemoveFromLink` and `AddTail` to the active list. -/
def activate (s : LoopSys) (n : Item) : LoopSys :=
  { s with lists := (s.lists.unlink n).addTail n .active }

/-- `co_poll` up to its `co_yield_env`, on `nfds` descriptors; without a wait when the timeout is
not added. `pollfunc` is not there for a timeout of 0. -/
def coPoll (s : LoopSys) (nfds : Nat) (timeout : Int) (now : Nat) : Option LoopSys :=
  match s.pCallStack with
  | self :: _ =>
    if timeout = 0 then none
    else
      let timeout := if timeout < 0 then INT_MAX else timeout.toNat
      let arg := s.made
      let (ret, s) := (s.newItem
        { ullExpireTime := now + timeout, bTimeout := false, pArg := self, waitFor := .poll
          revents := List.replicate nfds 0, iRaiseCnt := 0
          iAllEventDetach := false }).addTimeout arg now
      if ret = .ok then { s with waits := Function.update s.waits self (some arg) }.coYieldEnv
      else some s
  | [] => none

/-- `co_cond_timedwait` up to its `co_yield_ct`. -/
def coCondTimedwait (s : LoopSys) (link : Nat) (ms : Int) (now : Nat) : Option LoopSys :=
  match s.pCallStack with
  | self :: _ =>
    let psi := s.made
    let s := s.newItem
      { ullExpireTime := if 0 < ms then now + ms.toNat else 0, bTimeout := false, pArg := self
        waitFor := .cond link, revents := [], iRaiseCnt := 0, iAllEventDetach := false }
    let (ret, s) := if 0 < ms then s.addTimeout psi now else (.ok, s)
    if ret = .ok then
      { s with conds := s.conds.addTail psi link
               waits := Function.update s.waits self (some psi) }.coYieldEnv
    else some s
  | [] => none

/-- `co_cond_pop`, and the waiter goes to the active list. -/
def coCondSignal (s : LoopSys) (link : Nat) : LoopSys :=
  match s.conds.list link with
  | [] => s
  | sp :: _ => { s with conds := s.conds.unlink sp }.activate sp

def coCondBroadcast : Nat → LoopSys → Nat → LoopSys
  | 0, s, _ => s
  | waiters + 1, s, link =>
    match s.conds.list link with
    | [] => s
    | _ :: _ => coCondBroadcast waiters (s.coCondSignal link) link

def onPollPreparePfn (s : LoopSys) (e : EpollEvent) : LoopSys :=
  let i := s.item e.pPoll
  let i := { i with revents := i.revents.set e.fd (epollEvent2Poll e.events)
                    iRaiseCnt := i.iRaiseCnt + 1 }
  if i.iAllEventDetach then s.setItem e.pPoll i
  else (s.setItem e.pPoll { i with iAllEventDetach := true }).activate e.pPoll

/-- The loop that sets `bTimeout` on the items taken off the wheel. -/
def raiseTimeout (s : LoopSys) : LoopSys :=
  { s with item := fun n =>
      if n ∈ s.lists.list .timeout then { s.item n with bTimeout := true } else s.item n }

def takeTimeouts (s : LoopSys) (now : Nat) : LoopSys :=
  let (t, l) := s.pTimeout.takeAllTimeout s.lists now
  let s := { s with pTimeout := t, lists := l }.raiseTimeout
  { s with lists := s.lists.join .active .timeout, pc := .processing now }

/-- A turn of `co_eventloop` up to its loop over the active list. -/
def turn (s : LoopSys) (events : List EpollEvent) (now : Nat) : LoopSys :=
  (events.foldl onPollPreparePfn s).takeTimeouts now

/-- `co_resume`, up to the end of the call that the coroutine was waiting in. -/
def resumeWait (s : LoopSys) (co : CoId) (n : Item) : LoopSys :=
  let s := { s with pCallStack := co :: s.pCallStack, waits := Function.update s.waits co none }
  match (s.item n).waitFor with
  | .poll => { s with lists := s.lists.unlink n }
  | .cond _ => { s with conds := s.conds.unlink n }

/-- What the loop over the active list does with an item that it has popped. -/
def process (s : LoopSys) (lp : Item) (now : Nat) : LoopSys :=
  if (s.item lp).bTimeout = true ∧ now < (s.item lp).ullExpireTime then
    let (ret, s) := s.addTimeout lp now
    if ret = .ok then s.setItem lp { s.item lp with bTimeout := false }
    else s.resumeWait (s.item lp).pArg lp
  else s.resumeWait (s.item lp).pArg lp

end LoopSys

inductive LoopAct where
  | resume (co : CoId)
  /-- `co_yield_ct` -/
  | yield
  /-- the function of the coroutine returns -/
  | finish
  | poll (nfds : Nat) (timeout : Int) (now : Nat)
  | timedwait (link : Nat) (ms : Int) (now : Nat)
  | signal (link : Nat)
  | broadcast (link : Nat)
  /-- `co_epoll_wait` returns these events, and the clock says `now` -/
  | turn (events : List EpollEvent) (now : Nat)
  /-- the loop over the active list goes on -/
  | process
  deriving DecidableEq, Repr

/-- Epoll knows the descriptors of a `co_poll` as long as it waits. -/
def LoopSys.Registered (s : LoopSys) (e : EpollEvent) : Prop :=
  s.waits (s.item e.pPoll).pArg = some e.pPoll ∧ (s.item e.pPoll).waitFor = .poll

instance (s : LoopSys) : DecidablePred s.Registered :=
  fun _ => inferInstanceAs (Decidable (_ ∧ _))

def LoopSys.Runs (s : LoopSys) : Prop := s.pc = .idle ∨ 2 ≤ s.pCallStack.length

instance (s : LoopSys) : Decidable s.Runs := inferInstanceAs (Decidable (_ ∨ _))

def loopStep (s : LoopSys) : LoopAct → Option LoopSys
  | .resume co =>
    -- a coroutine that runs or has ended has nothing to go on with
    if ¬s.Runs ∨ co ∈ s.pCallStack ∨ s.cEnd co = true then none
    else
      match s.waits co with
      | none => some { s with pCallStack := co :: s.pCallStack }
      | some n => some (s.resumeWait co n)
  | .yield => s.coYieldEnv
  | .finish =>
    match s.pCallStack with
    | co :: _ => { s with cEnd := Function.update s.cEnd co true }.coYieldEnv
    | [] => none
  | .poll nfds timeout now => if s.Runs then s.coPoll nfds timeout now else none
  | .timedwait link ms now => if s.Runs then s.coCondTimedwait link ms now else none
  | .signal link => if s.Runs then some (s.coCondSignal link) else none
  | .broadcast link =>
    if s.Runs then some (LoopSys.coCondBroadcast (s.conds.list link).length s link) else none
  | .turn events now =>
    if s.pc = .idle ∧ s.pCallStack.length = 1 ∧ ∀ e ∈ events, s.Registered e then
      some (s.turn events now)
    else none
  | .process =>
    match s.pc with
    | .idle => none
    | .processing now =>
      if s.pCallStack.length = 1 then
        match s.lists.list .active with
        | [] => some { s with pc := .idle }
        | lp :: _ => some ({ s with lists := s.lists.unlink lp }.process lp now)
      else none

end AlgorithmLib.CoRoutine
