import Mathlib.Algebra.Order.Ring.Nat
import AlgorithmLib.TimeWheel.Core

/-!
`itimer_internal.c` above the core: the manager, which turns milliseconds into ticks, and the
timer events it runs. The record `n` of an event carries the node `n`.
-/

set_option autoImplicit false

namespace AlgorithmLib.TimeWheel

def ItimerCore.itimerNodeDestroy (c : ItimerCore) (n : NodeId) : ItimerCore :=
  if (c.node n).state ≠ .ok then c
  else
    { c with
      links := c.links.unlink n
      node := Function.update c.node n
        { expires := 0, state := .bad, callback := none, data := 0 } }

/-- `itimer_node_init` on the node of a record. -/
def ItimerCore.initNode (c : ItimerCore) (n : NodeId) (callback : Option Nat) (data : Nat) :
    ItimerCore :=
  { c with node := Function.update c.node n (itimerNodeInit callback data) }

structure ItimerMgr where
  interval : BitVec 32
  current : BitVec 32
  millisec : BitVec 32
  jiffies : BitVec 32
  core : ItimerCore

/-- `itimer_evt` without its node; of `mgr` there is one. -/
structure ItimerEvt where
  period : BitVec 32
  slap : BitVec 32
  repeat_ : Int
  running : Bool
  callback : Option Nat
  data : Nat
  user : Nat
  mgr : Bool
  deriving DecidableEq, Repr

def itimerEvtCb : Nat := 0

def itimerMgrLimit : BitVec 32 := 300000#32

/-- `itimer_mgr_init`, the nodes as they are. -/
def itimerMgrInit (millisec interval : BitVec 32) (node : NodeId → ItimerNode) : ItimerMgr :=
  { interval := if interval < 1#32 then 1#32 else interval
    current := millisec
    millisec := 0
    jiffies := 0
    core := itimerCoreInit 0 node }

namespace ItimerMgr

/-- `itimer_mgr_run` up to its loop. -/
def resync (m : ItimerMgr) (millisec : BitVec 32) : ItimerMgr :=
  let limit := m.interval * 64#32
  let diff := millisec - m.millisec
  if (itimerMgrLimit + limit).slt diff then { m with millisec := millisec }
  else if diff.slt (-itimerMgrLimit - limit) then { m with millisec := millisec }
  else m

/-- The test of the loop of `itimer_mgr_run`. -/
def due (m : ItimerMgr) (millisec : BitVec 32) : Bool :=
  !(millisec - m.millisec).slt 0#32

/-- The end of an iteration of the loop of `itimer_mgr_run`. -/
def endTick (m : ItimerMgr) : ItimerMgr :=
  { m with
    jiffies := m.jiffies + 1
    current := m.current + m.interval
    millisec := m.millisec + m.interval }

/-- How many ticks ahead an event is put whose time `slap` comes. -/
def expires (m : ItimerMgr) (slap : BitVec 32) : BitVec 32 :=
  let expires := (slap - m.current + m.interval - 1#32) / m.interval
  if expires ≥ 0x70000000#32 then 0x70000000#32 else expires

def itimerEvtStop (m : ItimerMgr) (n : NodeId) (evt : ItimerEvt) : ItimerMgr × ItimerEvt :=
  if evt.mgr then
    ({ m with core := (m.core.itimerNodeDel n).1 }, { evt with mgr := false, running := false })
  else (m, { evt with running := false })

def itimerEvtStart (m : ItimerMgr) (n : NodeId) (evt : ItimerEvt) (period : BitVec 32)
    (repeat_ : Int) : ItimerMgr × ItimerEvt :=
  let (m, evt) := if evt.mgr then m.itimerEvtStop n evt else (m, evt)
  let slap := m.current + period
  ({ m with core := m.core.itimerNodeAdd n (m.jiffies + m.expires slap) },
    { evt with period := period, repeat_ := repeat_, slap := slap, mgr := true, running := false })

def itimerEvtInit (m : ItimerMgr) (n : NodeId) (callback : Option Nat) (data user : Nat) :
    ItimerMgr × ItimerEvt :=
  ({ m with core := m.core.initNode n (some itimerEvtCb) n },
    { period := 0, slap := 0, repeat_ := 0, running := false, callback := callback, data := data
      user := user, mgr := false })

def itimerEvtDestroy (m : ItimerMgr) (n : NodeId) : ItimerMgr × ItimerEvt :=
  ({ m with core := m.core.itimerNodeDestroy n },
    { period := 0, slap := 0, repeat_ := 0, running := false, callback := none, data := 0
      user := 0, mgr := false })

end ItimerMgr

/-- What the loop of `itimer_evt_cb` over the elapsed periods leaves. -/
structure CatchUp where
  slap : BitVec 32
  repeat_ : Int
  count : Nat
  stop : Bool
  deriving DecidableEq, Repr

/-- The loop of `itimer_evt_cb` over the elapsed periods; `none` when the turns do not end it. -/
def catchUp (current period : BitVec 32) : Nat → BitVec 32 → Int → Nat → Option CatchUp
  | 0, _, _, _ => none
  | turns + 1, slap, repeat_, count =>
    if current ≥ slap then
      if repeat_ = 1 then some ⟨slap + period, repeat_, count + 1, true⟩
      else
        catchUp current period turns (slap + period)
          (if repeat_ > 1 then repeat_ - 1 else repeat_) (count + 1)
    else some ⟨slap, repeat_, count, false⟩

/-- Without a positive `repeat` the loop has seen every value of `slap` after 2^32 turns, and
with one it has ended. -/
def catchUpTurns : Nat := 2 ^ 32

/-- `itimer_evt_cb` up to the run of the callback: the event takes its next place, and the run
is due `count` times. -/
def ItimerMgr.itimerEvtExpire (m : ItimerMgr) (n : NodeId) (evt : ItimerEvt) :
    Option (ItimerMgr × ItimerEvt × CatchUp) :=
  if evt.mgr then
    (catchUp m.current evt.period catchUpTurns evt.slap evt.repeat_ 0).map fun r =>
      let evt := { evt with slap := r.slap, repeat_ := r.repeat_ }
      if r.stop then
        let (m, evt) := m.itimerEvtStop n evt
        (m, evt, r)
      else
        ({ m with core := m.core.itimerNodeAdd n (m.jiffies + m.expires r.slap) }, evt, r)
  else none

namespace ItimerMgr

variable {m m' : ItimerMgr} {n : NodeId} {evt evt' : ItimerEvt} {r : CatchUp}

theorem itimerEvtStop_eq (m : ItimerMgr) (n : NodeId) (evt : ItimerEvt) :
    m.itimerEvtStop n evt =
      ({ m with core := if evt.mgr then (m.core.itimerNodeDel n).1 else m.core },
        { evt with mgr := false, running := false }) := by
  obtain ⟨period, slap, repeat_, running, callback, data, user, mgr⟩ := evt
  cases mgr with
  | false => rfl
  | true => rfl

theorem itimerEvtStart_eq (m : ItimerMgr) (n : NodeId) (evt : ItimerEvt) (period : BitVec 32)
    (repeat_ : Int) :
    m.itimerEvtStart n evt period repeat_ =
      ({ m with
          core := (m.itimerEvtStop n evt).1.core.itimerNodeAdd n
            (m.jiffies + m.expires (m.current + period)) },
        { evt with
          period := period, repeat_ := repeat_, slap := m.current + period, mgr := true
          running := false }) := by
  cases hmgr : evt.mgr with
  | false => simp [itimerEvtStart, itimerEvtStop, hmgr, expires]
  | true => simp [itimerEvtStart, itimerEvtStop, hmgr, expires]

theorem itimerEvtExpire_cases
    (h : m.itimerEvtExpire n evt = some (m', evt', r)) :
    evt.mgr = true ∧ catchUp m.current evt.period catchUpTurns evt.slap evt.repeat_ 0 = some r ∧
      ((r.stop = true ∧ m' = { m with core := (m.core.itimerNodeDel n).1 } ∧
          evt' = { evt with
            slap := r.slap, repeat_ := r.repeat_, mgr := false, running := false }) ∨
        (r.stop = false ∧
          m' = { m with core := m.core.itimerNodeAdd n (m.jiffies + m.expires r.slap) } ∧
          evt' = { evt with slap := r.slap, repeat_ := r.repeat_ })) := by
  rw [itimerEvtExpire] at h
  split at h
  · rename_i hmgr
    obtain ⟨r', hr', h⟩ := Option.map_eq_some_iff.mp h
    dsimp only at h
    split at h
    · rename_i hstop
      simp only [itimerEvtStop, hmgr, if_true, Prod.mk.injEq] at h
      obtain ⟨rfl, rfl, rfl⟩ := h
      exact ⟨hmgr, hr', .inl ⟨hstop, rfl, by simp⟩⟩
    · rename_i hstop
      simp only [Prod.mk.injEq] at h
      obtain ⟨rfl, rfl, rfl⟩ := h
      exact ⟨hmgr, hr', .inr ⟨by simpa using hstop, rfl, rfl⟩⟩
  · cases h

theorem itimerEvtExpire_callback (h : m.itimerEvtExpire n evt = some (m', evt', r)) :
    evt'.callback = evt.callback := by
  obtain ⟨-, -, ⟨-, -, rfl⟩ | ⟨-, -, rfl⟩⟩ := itimerEvtExpire_cases h
  · rfl
  · rfl

end ItimerMgr

end AlgorithmLib.TimeWheel
