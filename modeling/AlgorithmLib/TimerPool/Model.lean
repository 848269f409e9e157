import AlgorithmLib.Library.Pool
import AlgorithmLib.TimeWheel.Manager

/-!
`itimer_pool`: timers whose records come from a pool, run by the thread that sets them. The
callbacks run inside `itimer_run`, and may set and cancel timers and call `itimer_run` again. The
due nodes of a call that is suspended in a callback are on a list of its own.
-/

set_option autoImplicit false

namespace AlgorithmLib.TimerPool

open TimeWheel (ItimerMgr ItimerEvt ItimerCore)

def defItimerPoolAddSize : Nat := 20

/-- Where a call of `itimer_run` is. Timers are numbered in the order in which they are set. -/
inductive Ctrl where
  /-- before the test of the loop of `itimer_mgr_run` -/
  | running (millisec : BitVec 32)
  /-- before the test of the outer loop of `itimer_internal_update` -/
  | updating (millisec jiffies : BitVec 32)
  /-- before the test of its loop over the due nodes -/
  | draining (millisec jiffies : BitVec 32)
  /-- in `itimer_evt_cb` for the record, entered for the timer, before the test of the loop over
  the runs that are due -/
  | firing (millisec jiffies : BitVec 32) (e count timer : Nat)
  /-- in the callback -/
  | calling (millisec jiffies : BitVec 32) (e count timer : Nat)
  deriving DecidableEq, Repr

inductive Event where
  /-- `itimer_set` has returned the timer -/
  | set (timer : Nat) (f : Option Nat) (data user : Nat)
  /-- `itimer_unset` of the timer has returned -/
  | unset (timer : Nat)
  /-- `itimer_evt_cb` was entered for the timer -/
  | expired (timer : Nat)
  /-- there the callback of the record was called while the record was that of `timer` -/
  | ran (entered timer : Nat) (f data user : Nat)
  deriving DecidableEq, Repr

structure Sys where
  mgr : ItimerMgr
  pool : Pool Unit
  evt : Nat → ItimerEvt
  /-- the calls of `itimer_run`, the innermost first, and what is left of the due nodes of the
  others; those of the innermost are on the list `queued` of the core -/
  ctrl : Option Ctrl
  suspended : List (Ctrl × List Nat)
  sets : Nat
  timer : Nat → Nat
  log : List Event

/-- A record as `calloc` leaves it. -/
def zeroEvt : ItimerEvt :=
  { period := 0, slap := 0, repeat_ := 0, running := false, callback := none, data := 0, user := 0
    mgr := false }

/-- `itimer_evt_pool_init` and `itimer_mgr_thread_init`; a node that `calloc` leaves is in no valid
state. -/
def Sys.init (millisec interval : BitVec 32) : Sys :=
  { mgr := TimeWheel.itimerMgrInit millisec interval
      (fun _ => { expires := 0, state := .bad, callback := none, data := 0 })
    pool := .empty
    evt := fun _ => zeroEvt
    ctrl := none
    suspended := []
    sets := 0
    timer := fun _ => 0
    log := [] }

namespace Sys

/-- The record is that of a timer: it was taken from the pool, and not given back. -/
def live (s : Sys) (e : Nat) : Bool := e < s.pool.made && s.pool.links.head e = none

def itimerSet (s : Sys) (f : Option Nat) (data user : Nat) (timer : BitVec 32) (repeat_ : Int) :
    Option Sys :=
  match s.pool.take () defItimerPoolAddSize with
  | none => none
  | some (e, pool) =>
    let (mgr, evt) := s.mgr.itimerEvtInit e f data user
    let (mgr, evt) := mgr.itimerEvtStart e evt timer repeat_
    some
      { s with
        mgr := mgr
        pool := pool
        evt := Function.update s.evt e evt
        sets := s.sets + 1
        timer := Function.update s.timer e s.sets
        log := .set s.sets f data user :: s.log }

/-- `itimer_unset`; the node leaves whatever list it is on. -/
def itimerUnset (s : Sys) (e : Nat) : Sys :=
  let (mgr, evt) := s.mgr.itimerEvtDestroy e
  { s with
    mgr := mgr
    pool := s.pool.give () e
    evt := Function.update s.evt e evt
    suspended := s.suspended.map fun c => (c.1, c.2.erase e)
    log := .unset (s.timer e) :: s.log }

/-- A call of `itimer_run`, with this reading of the clock. -/
def itimerRun (s : Sys) (millisec : BitVec 32) : Sys :=
  match s.ctrl with
  | none => { s with mgr := s.mgr.resync millisec, ctrl := some (.running millisec) }
  | some ctrl =>
    { s with
      mgr := { s.mgr.resync millisec with
        core := { s.mgr.core with links := s.mgr.core.links.drain .queued } }
      ctrl := some (.running millisec)
      suspended := (ctrl, s.mgr.core.links.list .queued) :: s.suspended }

/-- The call of `itimer_run` returns, to the one that was suspended if there is one. -/
def itimerRunReturn (s : Sys) : Sys :=
  match s.suspended with
  | [] => { s with ctrl := none }
  | (ctrl, due) :: suspended =>
    { s with
      mgr := { s.mgr with
        core := { s.mgr.core with links := s.mgr.core.links.fill due .queued } }
      ctrl := some ctrl
      suspended := suspended }

/-- `itimer_evt_cb` up to its loop over the runs. -/
def itimerEvtCb (s : Sys) (millisec jiffies : BitVec 32) (e : Nat) : Option Sys :=
  match s.mgr.itimerEvtExpire e (s.evt e) with
  | none => none
  | some (mgr, evt, r) =>
    some
      { s with
        mgr := mgr
        evt := Function.update s.evt e { evt with running := true }
        ctrl := some (.firing millisec jiffies e r.count (s.timer e))
        log := .expired (s.timer e) :: s.log }

/-- The next step of the innermost call of `itimer_run`. -/
def advance (s : Sys) : Option Sys :=
  match s.ctrl with
  | none => none
  | some (.running millisec) =>
    if s.mgr.due millisec then some { s with ctrl := some (.updating millisec s.mgr.jiffies) }
    else some s.itimerRunReturn
  | some (.updating millisec jiffies) =>
    if (jiffies - s.mgr.core.timerJiffies).slt 0#32 then
      some { s with mgr := s.mgr.endTick, ctrl := some (.running millisec) }
    else
      some
        { s with
          mgr := { s.mgr with core := s.mgr.core.beginTick }
          ctrl := some (.draining millisec jiffies) }
  | some (.draining millisec jiffies) =>
    match s.mgr.core.links.list .queued with
    | [] => some { s with ctrl := some (.updating millisec jiffies) }
    | n :: _ =>
      let node := s.mgr.core.node n
      let s :=
        { s with
          mgr := { s.mgr with
            core := { s.mgr.core with links := s.mgr.core.links.unlink n } } }
      if node.callback.isSome then s.itimerEvtCb millisec jiffies node.data else some s
  | some (.firing millisec jiffies e 0 _) =>
    some
      { s with
        evt := Function.update s.evt e { s.evt e with running := false }
        ctrl := some (.draining millisec jiffies) }
  | some (.firing millisec jiffies e (count + 1) timer) =>
    match (s.evt e).callback, (s.evt e).running with
    | some f, true =>
      some
        { s with
          ctrl := some (.calling millisec jiffies e count timer)
          log := .ran timer (s.timer e) f (s.evt e).data (s.evt e).user :: s.log }
    | _, _ => some { s with ctrl := some (.firing millisec jiffies e 0 timer) }
  | some (.calling millisec jiffies e count timer) =>
    some { s with ctrl := some (.firing millisec jiffies e count timer) }

/-- The program, outside of `itimer_run` or in a callback, can call the functions. -/
def open_ (s : Sys) : Bool :=
  match s.ctrl with
  | none => true
  | some (.calling ..) => true
  | _ => false

end Sys

inductive Act where
  | set (f : Option Nat) (data user : Nat) (timer : BitVec 32) (repeat_ : Int)
  | unset (e : Nat)
  | run (millisec : BitVec 32)
  | advance
  deriving DecidableEq, Repr

/-- Only live events are cancelled. -/
def step (s : Sys) : Act → Option Sys
  | .set f data user timer repeat_ =>
    if s.open_ then s.itimerSet f data user timer repeat_ else none
  | .unset e => if s.open_ && s.live e then some (s.itimerUnset e) else none
  | .run millisec => if s.open_ then some (s.itimerRun millisec) else none
  | .advance => s.advance

end AlgorithmLib.TimerPool
