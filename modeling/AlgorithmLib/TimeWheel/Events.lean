import AlgorithmLib.TimeWheel.CatchUp

/-!
The timer events of `itimer_internal.c` in a program: it starts and stops them between its calls of
`itimer_mgr_run` and in their callbacks, and `itimer_mgr_run` goes from tick to tick.
-/

set_option autoImplicit false

namespace AlgorithmLib.TimeWheel

/-- Where `itimer_mgr_run` is. -/
inductive EvtCtrl where
  /-- not running -/
  | idle
  /-- before the test of the loop of `itimer_mgr_run` -/
  | running (millisec : BitVec 32)
  /-- before the test of the outer loop of `itimer_internal_update` -/
  | updating (millisec jiffies : BitVec 32)
  /-- before the test of its loop over the due nodes -/
  | draining (millisec jiffies : BitVec 32)
  /-- in `itimer_evt_cb` for the event, before the test of the loop over the runs that are due -/
  | firing (millisec jiffies : BitVec 32) (n : NodeId) (count : Nat)
  /-- in the callback -/
  | calling (millisec jiffies : BitVec 32) (n : NodeId) (count : Nat)
  deriving DecidableEq, Repr

structure EvtSys where
  mgr : ItimerMgr
  evt : NodeId → ItimerEvt
  ctrl : EvtCtrl
  /-- how often the callback of the event was called -/
  runs : NodeId → Nat
  /-- `current` at the ticks that were processed, the latest first -/
  processed : List (BitVec 32)

namespace EvtSys

/-- All events initialised, with these callbacks and what they are called with. -/
def init (millisec interval : BitVec 32) (callback : NodeId → Option Nat)
    (data user : NodeId → Nat) : EvtSys :=
  { mgr := itimerMgrInit millisec interval (fun n => itimerNodeInit (some itimerEvtCb) n)
    evt := fun n =>
      { period := 0, slap := 0, repeat_ := 0, running := false, callback := callback n
        data := data n, user := user n, mgr := false }
    ctrl := .idle
    runs := fun _ => 0
    processed := [] }

/-- The program, outside of `itimer_mgr_run` or in a callback, can call the functions. -/
def open_ (s : EvtSys) : Bool :=
  match s.ctrl with
  | .idle => true
  | .calling .. => true
  | _ => false

def start (s : EvtSys) (n : NodeId) (period : BitVec 32) (repeat_ : Int) : EvtSys :=
  let (mgr, evt) := s.mgr.itimerEvtStart n (s.evt n) period repeat_
  { s with mgr := mgr, evt := Function.update s.evt n evt }

def stop (s : EvtSys) (n : NodeId) : EvtSys :=
  let (mgr, evt) := s.mgr.itimerEvtStop n (s.evt n)
  { s with mgr := mgr, evt := Function.update s.evt n evt }

/-- `itimer_evt_cb` up to its loop over the runs. -/
def evtCb (s : EvtSys) (millisec jiffies : BitVec 32) (n : NodeId) : Option EvtSys :=
  match s.mgr.itimerEvtExpire n (s.evt n) with
  | none => none
  | some (mgr, evt, r) =>
    some
      { s with
        mgr := mgr
        evt := Function.update s.evt n { evt with running := true }
        ctrl := .firing millisec jiffies n r.count }

/-- The next step of `itimer_mgr_run`. -/
def advance (s : EvtSys) : Option EvtSys :=
  match s.ctrl with
  | .idle => none
  | .running millisec =>
    if s.mgr.due millisec then some { s with ctrl := .updating millisec s.mgr.jiffies }
    else some { s with ctrl := .idle }
  | .updating millisec jiffies =>
    if (jiffies - s.mgr.core.timerJiffies).slt 0#32 then
      some { s with mgr := s.mgr.endTick, ctrl := .running millisec }
    else
      some
        { s with
          mgr := { s.mgr with core := s.mgr.core.beginTick }
          ctrl := .draining millisec jiffies }
  | .draining millisec jiffies =>
    match s.mgr.core.links.list .queued with
    | [] =>
      some
        { s with
          ctrl := .updating millisec jiffies
          processed := s.mgr.current :: s.processed }
    | n :: _ =>
      let node := s.mgr.core.node n
      let s :=
        { s with
          mgr := { s.mgr with
            core := { s.mgr.core with links := s.mgr.core.links.unlink n } } }
      if node.callback.isSome then s.evtCb millisec jiffies node.data else some s
  | .firing millisec jiffies n 0 =>
    some
      { s with
        evt := Function.update s.evt n { s.evt n with running := false }
        ctrl := .draining millisec jiffies }
  | .firing millisec jiffies n (count + 1) =>
    if (s.evt n).callback.isSome && (s.evt n).running then
      some
        { s with
          ctrl := .calling millisec jiffies n count
          runs := Function.update s.runs n (s.runs n + 1) }
    else some { s with ctrl := .firing millisec jiffies n 0 }
  | .calling millisec jiffies n count => some { s with ctrl := .firing millisec jiffies n count }

end EvtSys

inductive EvtAct where
  | start (n : NodeId) (period : BitVec 32) (repeat_ : Int)
  | stop (n : NodeId)
  /-- a call of `itimer_mgr_run`, with this reading of the clock -/
  | run (millisec : BitVec 32)
  | advance
  deriving DecidableEq, Repr

def evtStep (s : EvtSys) : EvtAct → Option EvtSys
  | .start n period repeat_ => if s.open_ then some (s.start n period repeat_) else none
  | .stop n => if s.open_ then some (s.stop n) else none
  | .run millisec =>
    if s.ctrl = .idle then
      some { s with mgr := s.mgr.resync millisec, ctrl := .running millisec }
    else none
  | .advance => s.advance

/-- In the loop of `itimer_internal_update` over the due nodes. -/
def EvtCtrl.inTick : EvtCtrl → Bool
  | .draining .. => true
  | .firing .. => true
  | .calling .. => true
  | _ => false

/-- The program starts or stops the event. -/
def EvtAct.touches (n : NodeId) : EvtAct → Bool
  | .start m _ _ => m = n
  | .stop m => m = n
  | .run _ => false
  | .advance => false

end AlgorithmLib.TimeWheel
