import Mathlib.Data.Prod.Lex
import Mathlib.Algebra.Order.Ring.Nat
import Mathlib.Algebra.Order.Ring.Int
import AlgorithmLib.Library.Run
import AlgorithmLib.TimeWheel.Manager
import AlgorithmLib.TimeWheel.Exact

/-!
The clock of the manager. `itimer_mgr_run` compares the low 32 bits of the time with `millisec`,
and goes from tick to tick until it is ahead; only a jump of the clock sets it anew. What the
callbacks do to the nodes leaves the counters as they are.
-/

set_option autoImplicit false

namespace AlgorithmLib.TimeWheel

/-- Where `itimer_mgr_run` is. -/
inductive MgrCtrl where
  /-- not running -/
  | idle
  /-- before the test of its loop -/
  | running (millisec : BitVec 32)
  /-- before the test of the outer loop of `itimer_internal_update` -/
  | updating (millisec jiffies : BitVec 32)
  /-- before the test of its loop over the due nodes -/
  | draining (millisec jiffies : BitVec 32)
  /-- in the callback of a node -/
  | calling (millisec jiffies : BitVec 32)
  deriving DecidableEq, Repr

structure MgrSys where
  mgr : ItimerMgr
  ctrl : MgrCtrl
  /-- the time of the last call of `itimer_mgr_run` -/
  last : Option Nat

inductive MgrEvent where
  /-- `itimer_mgr_run` calls `itimer_core_run` with `jiffies` -/
  | coreRun (millisec jiffies current : BitVec 32)
  /-- an iteration of `itimer_internal_update` begins -/
  | coreTick (timerJiffies : BitVec 32)
  deriving DecidableEq, Repr

namespace MgrSys

/-- All nodes initialised, with these callbacks. -/
def init (millisec interval : BitVec 32) (callback : NodeId → Option Nat) : MgrSys :=
  { mgr := itimerMgrInit millisec interval (fun n => itimerNodeInit (callback n) n)
    ctrl := .idle
    last := none }

/-- The program, outside of `itimer_mgr_run` or in a callback, can call the functions. -/
def open_ (s : MgrSys) : Bool :=
  match s.ctrl with
  | .idle => true
  | .calling .. => true
  | _ => false

def setCore (s : MgrSys) (core : ItimerCore) : MgrSys :=
  { s with mgr := { s.mgr with core := core } }

/-- The next step of `itimer_mgr_run`. -/
def advance (s : MgrSys) : Option MgrSys :=
  match s.ctrl with
  | .idle => none
  | .running millisec =>
    if s.mgr.due millisec then some { s with ctrl := .updating millisec s.mgr.jiffies }
    else some { s with ctrl := .idle }
  | .updating millisec jiffies =>
    if (jiffies - s.mgr.core.timerJiffies).slt 0#32 then
      some { s with mgr := s.mgr.endTick, ctrl := .running millisec }
    else some { s.setCore s.mgr.core.beginTick with ctrl := .draining millisec jiffies }
  | .draining millisec jiffies =>
    match s.mgr.core.links.list .queued with
    | [] => some { s with ctrl := .updating millisec jiffies }
    | n :: _ =>
      let fn := (s.mgr.core.node n).callback
      some
        { s.setCore { s.mgr.core with links := s.mgr.core.links.unlink n } with
          ctrl := if fn.isSome then .calling millisec jiffies else .draining millisec jiffies }
  | .calling millisec jiffies => some { s with ctrl := .draining millisec jiffies }

end MgrSys

/-- A callback ends with an `advance` of its own. Events start and stop with the node functions. -/
inductive MgrAct where
  | add (n : NodeId) (expires : BitVec 32)
  | del (n : NodeId)
  | mod (n : NodeId) (expires : BitVec 32)
  /-- a call of `itimer_mgr_run` with the low 32 bits of the time -/
  | run (now : Nat)
  | advance
  deriving DecidableEq, Repr

def MgrAct.isRun : MgrAct → Bool
  | .run _ => true
  | _ => false

def mgrStep (s : MgrSys) : MgrAct → Option MgrSys
  | .add n expires =>
    if s.open_ then some (s.setCore (s.mgr.core.itimerNodeAdd n expires)) else none
  | .del n => if s.open_ then some (s.setCore (s.mgr.core.itimerNodeDel n).1) else none
  | .mod n expires =>
    if s.open_ then some (s.setCore (s.mgr.core.itimerNodeMod n expires).1) else none
  | .run now =>
    if s.ctrl = .idle then
      some
        { mgr := s.mgr.resync (BitVec.ofNat 32 now)
          ctrl := .running (BitVec.ofNat 32 now)
          last := some now }
    else none
  | .advance => s.advance

namespace MgrSys

def shows (s : MgrSys) : MgrAct → List MgrEvent
  | .advance =>
    match s.ctrl with
    | .running millisec =>
      if s.mgr.due millisec then [.coreRun s.mgr.millisec s.mgr.jiffies s.mgr.current] else []
    | .updating _ jiffies =>
      if (jiffies - s.mgr.core.timerJiffies).slt 0#32 then []
      else [.coreTick s.mgr.core.timerJiffies]
    | _ => []
  | _ => []

/-- The tick of this number, counted from this state. -/
def tick (s : MgrSys) (k : Nat) : List MgrEvent :=
  [.coreRun (s.mgr.millisec + BitVec.ofNat 32 (k * s.mgr.interval.toNat))
      (s.mgr.jiffies + BitVec.ofNat 32 k)
      (s.mgr.current + BitVec.ofNat 32 (k * s.mgr.interval.toNat)),
    .coreTick (s.mgr.jiffies + BitVec.ofNat 32 k)]

/-- The time of the next tick of a manager that was run at this time. -/
def nextTick (s : MgrSys) (now : Nat) : Nat :=
  now + (s.mgr.millisec - BitVec.ofNat 32 now).toNat

end MgrSys

/-- The clock does not go back, and forth by no more than `ITIMER_MGR_LIMIT` at a time. -/
def paced (s : MgrSys) : MgrAct → Prop
  | .run now => ∀ before ∈ s.last, before ≤ now ∧ now ≤ before + 300000
  | _ => True

instance (s : MgrSys) : ∀ a, Decidable (paced s a)
  | .run now => inferInstanceAs
      (Decidable (∀ before ∈ s.last, before ≤ now ∧ now ≤ before + 300000))
  | .add .. | .del _ | .mod .. | .advance => .isTrue trivial

/-- What the manager has done until this time, from a state whose next tick was `first`. -/
def OnTime (s : MgrSys) (first : Nat) (t : MgrSys) (now : Nat) (trace : List MgrEvent) : Prop :=
  ∃ n, (∀ k, k < n ↔ first + k * s.mgr.interval.toNat ≤ now) ∧
    trace = (List.range n).flatMap s.tick ∧
    t.mgr.jiffies = s.mgr.jiffies + BitVec.ofNat 32 n ∧
    t.mgr.core.timerJiffies = t.mgr.jiffies ∧
    t.mgr.current = s.mgr.current + BitVec.ofNat 32 (n * s.mgr.interval.toNat) ∧
    t.mgr.millisec = s.mgr.millisec + BitVec.ofNat 32 (n * s.mgr.interval.toNat)

/-- A call comes to its end: it can take its next step, and takes finitely many of them, whatever
its callbacks do. -/
def Returns (s : MgrSys) : Prop :=
  (s.ctrl ≠ .idle → (mgrStep s .advance).isSome = true) ∧
    ∀ (f : Nat → MgrSys) (as : Nat → MgrAct), f 0 = s →
      (∀ i, mgrStep (f i) (as i) = some (f (i + 1))) → (∀ i, (as i).isRun = false) →
      ∃ i, ∀ j, i ≤ j → as j ≠ .advance

/-- The bound of `itimer_mgr_run` on the difference between the time and `millisec`. -/
def ItimerMgr.limit (m : ItimerMgr) : Nat := 300000 + 64 * m.interval.toNat

/-- How far the time is past `millisec`. -/
def ItimerMgr.ahead (m : ItimerMgr) (millisec : BitVec 32) : Int := (millisec - m.millisec).toInt

theorem toInt_sub_ofNat {now x : Nat} (h : x ≤ now + 2 ^ 31) (h' : now < x + 2 ^ 31) :
    (BitVec.ofNat 32 now - BitVec.ofNat 32 x).toInt = (now : Int) - x := by
  rw [BitVec.toInt_eq_toNat_cond, BitVec.toNat_sub, BitVec.toNat_ofNat, BitVec.toNat_ofNat]
  split <;> omega

namespace ItimerMgr

variable {m : ItimerMgr}

theorem due_iff (m : ItimerMgr) (millisec : BitVec 32) :
    m.due millisec = true ↔ 0 ≤ m.ahead millisec := by
  rw [due, ahead, Bool.not_eq_true', ← Bool.not_eq_true, BitVec.slt_iff_toInt_lt,
    BitVec.toInt_zero, Int.not_lt]

/-- Only a jump of the clock sets `millisec`. -/
theorem resync_eq (h : m.limit < 2 ^ 31) (millisec : BitVec 32) :
    m.resync millisec =
      if m.limit < (m.ahead millisec).natAbs then { m with millisec := millisec } else m := by
  unfold limit at h
  have hlimit : (itimerMgrLimit + m.interval * 64#32).toInt = m.limit := by
    rw [BitVec.toInt_eq_toNat_of_lt] <;>
      simp only [itimerMgrLimit, BitVec.toNat_add, BitVec.toNat_mul, BitVec.toNat_ofNat, limit] <;>
      omega
  have hneg : (-itimerMgrLimit - m.interval * 64#32).toInt = -m.limit := by
    have heq : -itimerMgrLimit - m.interval * 64#32 = -(itimerMgrLimit + m.interval * 64#32) := by
      rw [BitVec.neg_add, BitVec.sub_eq_add_neg]
    rw [heq, BitVec.toInt_neg, hlimit, Int.bmod_eq_of_le] <;> simp only [limit] <;> omega
  have hfst : (itimerMgrLimit + m.interval * 64#32).slt (millisec - m.millisec) = true ↔
      (m.limit : Int) < m.ahead millisec := by
    rw [BitVec.slt_iff_toInt_lt, hlimit, ahead]
  have hsnd : (millisec - m.millisec).slt (-itimerMgrLimit - m.interval * 64#32) = true ↔
      m.ahead millisec < -(m.limit : Int) := by
    rw [BitVec.slt_iff_toInt_lt, hneg, ahead]
  unfold resync
  simp only [hfst, hsnd]
  split
  · rw [if_pos (by omega)]
  · split
    · rw [if_pos (by omega)]
    · rw [if_neg (by omega)]

/-- A tick takes `millisec` on by the interval. -/
theorem ahead_endTick (h : m.limit < 2 ^ 31) {millisec : BitVec 32} (hdue : 0 ≤ m.ahead millisec) :
    m.endTick.ahead millisec = m.ahead millisec - m.interval.toNat := by
  unfold limit at h
  unfold ahead at hdue ⊢
  simp only [endTick]
  rw [BitVec.toInt_eq_toNat_cond] at hdue
  rw [BitVec.toInt_eq_toNat_cond, BitVec.toInt_eq_toNat_cond]
  simp only [BitVec.toNat_sub, BitVec.toNat_add] at hdue ⊢
  split at hdue <;> split <;> omega

end ItimerMgr

namespace MgrSys

/-- How far the manager is in its tick: `itimer_core_run` is called, and its iteration begins. -/
def phase (s : MgrSys) : Nat :=
  match s.ctrl with
  | .idle => 0
  | .running _ => 0
  | .updating _ jiffies => if (jiffies - s.mgr.core.timerJiffies).slt 0#32 then 2 else 1
  | .draining .. => 2
  | .calling .. => 2

def Placed (s : MgrSys) : Prop :=
  match s.ctrl with
  | .idle => s.mgr.core.timerJiffies = s.mgr.jiffies ∧
      ∀ now, s.last = some now → -s.mgr.limit ≤ s.mgr.ahead (BitVec.ofNat 32 now) ∧
        s.mgr.ahead (BitVec.ofNat 32 now) < 0
  | .running millisec => s.mgr.core.timerJiffies = s.mgr.jiffies ∧
      (∃ now, s.last = some now ∧ millisec = BitVec.ofNat 32 now) ∧
      -s.mgr.limit ≤ s.mgr.ahead millisec
  | .updating millisec jiffies => jiffies = s.mgr.jiffies ∧
      (s.mgr.core.timerJiffies = jiffies ∨ s.mgr.core.timerJiffies = jiffies + 1#32) ∧
      (∃ now, s.last = some now ∧ millisec = BitVec.ofNat 32 now) ∧ 0 ≤ s.mgr.ahead millisec
  | .draining millisec jiffies | .calling millisec jiffies => jiffies = s.mgr.jiffies ∧
      s.mgr.core.timerJiffies = jiffies + 1#32 ∧
      (∃ now, s.last = some now ∧ millisec = BitVec.ofNat 32 now) ∧ 0 ≤ s.mgr.ahead millisec

def inTick (s : MgrSys) : Bool :=
  match s.ctrl with
  | .draining .. => true
  | .calling .. => true
  | _ => false

def ticksLeft (s : MgrSys) : Nat :=
  match s.ctrl with
  | .idle => 0
  | .running millisec | .updating millisec _ | .draining millisec _ | .calling millisec _ =>
    (s.mgr.ahead millisec / s.mgr.interval.toNat + 1).toNat - s.phase / 2

def stepsLeft (s : MgrSys) : Nat :=
  match s.ctrl with
  | .idle => 0
  | .running _ => 2
  | .updating .. => if s.phase = 2 then 3 else 1
  | .draining .. => 2 * (s.mgr.core.links.list .queued).length + 4
  | .calling .. => 2 * (s.mgr.core.links.list .queued).length + 5

/-- A call has this much before it. -/
def work (s : MgrSys) : Nat ×ₗ Nat := toLex (s.ticksLeft, s.stepsLeft)

end MgrSys

structure MgrInv (s : MgrSys) : Prop where
  interval : 0 < s.mgr.interval.toNat
  limit : s.mgr.limit < 2 ^ 31
  timed : ∃ N due, Timed s.mgr.core N due
  queued : s.inTick = false → ∀ n, s.mgr.core.links.head n ≠ some .queued
  placed : s.Placed

theorem mgr_inv_init (millisec : BitVec 32) {interval : BitVec 32} (callback : NodeId → Option Nat)
    (hlimit : 64 * interval.toNat + 300000 < 2 ^ 31) :
    MgrInv (MgrSys.init millisec interval callback) := by
  refine ⟨?_, ?_, ⟨_, _, timed_init 0#32 callback⟩, fun _ n h => (by cases h),
    ⟨rfl, fun _ h => (by cases h)⟩⟩
  · simp only [MgrSys.init, itimerMgrInit]
    split
    · decide
    · next h => simpa [BitVec.lt_def, Nat.pos_iff_ne_zero] using h
  · simp only [MgrSys.init, itimerMgrInit, ItimerMgr.limit]
    split
    · decide
    · omega

def Moves (s t : MgrSys) (out : List MgrEvent) : Prop :=
  t.last = s.last ∧
    (t.mgr.millisec = s.mgr.millisec ∧ t.mgr.jiffies = s.mgr.jiffies ∧
      t.mgr.current = s.mgr.current ∧ t.mgr.interval = s.mgr.interval ∧
      (out = [] ∧ t.phase = s.phase ∨
        out = [.coreRun s.mgr.millisec s.mgr.jiffies s.mgr.current] ∧ s.phase = 0 ∧ t.phase = 1 ∨
        out = [.coreTick s.mgr.jiffies] ∧ s.phase = 1 ∧ t.phase = 2) ∨
      out = [] ∧ s.phase = 2 ∧ t.phase = 0 ∧ t.mgr = s.mgr.endTick ∧
        ∃ now, s.last = some now ∧ 0 ≤ s.mgr.ahead (BitVec.ofNat 32 now))

theorem slt_succ (jiffies : BitVec 32) : (jiffies - (jiffies + 1#32)).slt 0#32 = true := by
  rw [slt_zero_iff, BitVec.toNat_sub, BitVec.toNat_add]
  simp only [BitVec.toNat_ofNat]
  omega

theorem slt_self (jiffies : BitVec 32) : (jiffies - jiffies).slt 0#32 = false := by
  rw [BitVec.sub_self]
  rfl

theorem beginTick_timerJiffies {c : ItimerCore} {N : Nat} {due : NodeId → Option Nat}
    (h : Timed c N due) : c.beginTick.timerJiffies = c.timerJiffies + 1#32 := by
  rw [← h.cascades.2.1]
  rfl

theorem MgrSys.setCore_phase (s : MgrSys) {core : ItimerCore}
    (htj : core.timerJiffies = s.mgr.core.timerJiffies) : (s.setCore core).phase = s.phase := by
  simp only [phase, setCore, htj]

namespace MgrInv

variable {s t : MgrSys}

theorem change (h : MgrInv s) {a : MgrAct} (hrun : a.isRun = false) (ha : a ≠ .advance)
    (hstep : mgrStep s a = some t) :
    ∃ core, t = s.setCore core ∧ (∃ N due, Timed core N due) ∧
      (∀ n, core.links.head n = some .queued → s.mgr.core.links.head n = some .queued) ∧
      core.timerJiffies = s.mgr.core.timerJiffies ∧
      (core.links.list .queued).Sublist (s.mgr.core.links.list .queued) := by
  obtain ⟨N, due, htimed⟩ := h.timed
  cases a with
  | add n e =>
    simp only [mgrStep, Option.ite_none_right_eq_some, Option.some.injEq] at hstep
    have hadd := htimed.itimerNodeAdd n e
    exact ⟨_, hstep.2.symm, ⟨_, _, hadd⟩, fun _ => itimerNodeAdd_queued,
      hadd.now.trans htimed.now.symm, itimerNodeAdd_list_queued _ n e⟩
  | del n =>
    simp only [mgrStep, Option.ite_none_right_eq_some, Option.some.injEq] at hstep
    have hdel := (htimed.itimerNodeDel n).1
    exact ⟨_, hstep.2.symm, ⟨_, _, hdel⟩, fun _ => itimerNodeDel_queued,
      hdel.now.trans htimed.now.symm, itimerNodeDel_list_queued _ n⟩
  | mod n e =>
    simp only [mgrStep, Option.ite_none_right_eq_some, Option.some.injEq] at hstep
    have hmod := (htimed.itimerNodeDel n).1.itimerNodeAdd n e
    exact ⟨_, hstep.2.symm, ⟨_, _, hmod⟩,
      fun _ hm => itimerNodeDel_queued (itimerNodeAdd_queued hm), hmod.now.trans htimed.now.symm,
      (itimerNodeAdd_list_queued _ n e).trans (itimerNodeDel_list_queued _ n)⟩
  | run now => cases hrun
  | advance => exact absurd rfl ha

theorem setCore (h : MgrInv s) {core : ItimerCore} (htimed : ∃ N due, Timed core N due)
    (hqueued : ∀ n, core.links.head n = some .queued → s.mgr.core.links.head n = some .queued)
    (htj : core.timerJiffies = s.mgr.core.timerJiffies) : MgrInv (s.setCore core) where
  interval := h.interval
  limit := h.limit
  timed := htimed
  queued ht n hn := h.queued ht n (hqueued n hn)
  placed := by
    have hplaced := h.placed
    simp only [MgrSys.Placed, MgrSys.setCore, htj] at hplaced ⊢
    exact hplaced

theorem moves_setCore (s : MgrSys) {core : ItimerCore}
    (htj : core.timerJiffies = s.mgr.core.timerJiffies) : Moves s (s.setCore core) [] :=
  ⟨rfl, .inl ⟨rfl, rfl, rfl, rfl, .inl ⟨rfl, s.setCore_phase htj⟩⟩⟩

theorem work_setCore (s : MgrSys) {core : ItimerCore}
    (htj : core.timerJiffies = s.mgr.core.timerJiffies)
    (hlist : (core.links.list .queued).Sublist (s.mgr.core.links.list .queued)) :
    (s.setCore core).work ≤ s.work := by
  have hphase := s.setCore_phase htj
  have hticks : (s.setCore core).ticksLeft = s.ticksLeft := by
    simp only [MgrSys.ticksLeft, hphase]
    rfl
  have hsteps : (s.setCore core).stepsLeft ≤ s.stepsLeft := by
    have hlen := hlist.length_le
    simp only [MgrSys.stepsLeft, hphase]
    simp only [MgrSys.setCore]
    cases s.ctrl <;> dsimp only <;> omega
  rw [MgrSys.work, MgrSys.work, hticks, Prod.Lex.toLex_le_toLex]
  exact .inr ⟨rfl, hsteps⟩

theorem run (h : MgrInv s) (hidle : s.ctrl = .idle) (now : Nat) :
    MgrInv
      { mgr := s.mgr.resync (BitVec.ofNat 32 now), ctrl := .running (BitVec.ofNat 32 now)
        last := some now } := by
  have hplaced := h.placed
  simp only [MgrSys.Placed, hidle] at hplaced
  rw [ItimerMgr.resync_eq h.limit]
  split
  · refine ⟨h.interval, h.limit, h.timed, fun _ => h.queued (by rw [MgrSys.inTick, hidle]),
      hplaced.1, ⟨now, rfl, rfl⟩, ?_⟩
    simp [ItimerMgr.ahead]
  · refine ⟨h.interval, h.limit, h.timed, fun _ => h.queued (by rw [MgrSys.inTick, hidle]),
      hplaced.1, ⟨now, rfl, rfl⟩, ?_⟩
    show -(s.mgr.limit : Int) ≤ s.mgr.ahead (BitVec.ofNat 32 now)
    omega

theorem work_lt {s t : MgrSys} (hticks : t.ticksLeft = s.ticksLeft)
    (hsteps : t.stepsLeft < s.stepsLeft) : t.work < s.work := by
  rw [MgrSys.work, MgrSys.work, hticks, Prod.Lex.toLex_lt_toLex]
  exact .inr ⟨rfl, hsteps⟩

/-- `itimer_mgr_run` before the test of its loop. -/
theorem advance_running (h : MgrInv s) {millisec : BitVec 32} (hctrl : s.ctrl = .running millisec)
    (hstep : s.advance = some t) :
    MgrInv t ∧ Moves s t (s.shows .advance) ∧ t.work < s.work := by
  have hplaced := h.placed
  have hqueued := h.queued (by rw [MgrSys.inTick, hctrl])
  simp only [MgrSys.Placed, hctrl] at hplaced
  obtain ⟨htj, ⟨now, hlast, hnow⟩, hlimit⟩ := hplaced
  have hphase : s.phase = 0 := by rw [MgrSys.phase, hctrl]
  simp only [MgrSys.advance, hctrl] at hstep
  split at hstep
  · next hdue =>
    cases hstep
    have hahead := (s.mgr.due_iff millisec).mp hdue
    have hphase' : ({ s with ctrl := .updating millisec s.mgr.jiffies } : MgrSys).phase = 1 := by
      simp [MgrSys.phase, htj]
    refine ⟨⟨h.interval, h.limit, h.timed, fun _ => hqueued, rfl, .inl htj, ⟨now, hlast, hnow⟩,
      hahead⟩, ⟨rfl, .inl ⟨rfl, rfl, rfl, rfl, .inr (.inl ⟨?_, hphase, hphase'⟩)⟩⟩, work_lt ?_ ?_⟩
    · simp [MgrSys.shows, hctrl, hdue]
    · simp only [MgrSys.ticksLeft, hphase', hctrl, hphase]
    · simp [MgrSys.stepsLeft, hctrl, hphase']
  · next hdue =>
    cases hstep
    rw [s.mgr.due_iff millisec] at hdue
    refine ⟨⟨h.interval, h.limit, h.timed, fun _ => hqueued, htj, fun now' hlast' => ?_⟩,
      ⟨rfl, .inl ⟨rfl, rfl, rfl, rfl, .inl ⟨?_, ?_⟩⟩⟩, work_lt ?_ ?_⟩
    · have hlast' : s.last = some now' := hlast'
      rw [hlast, Option.some.injEq] at hlast'
      subst hnow hlast'
      exact ⟨hlimit, Int.not_le.mp hdue⟩
    · simp [MgrSys.shows, hctrl, s.mgr.due_iff millisec, hdue]
    · rw [hphase, MgrSys.phase]
    · -- the time is not past `millisec`
      have hdiv : s.mgr.ahead millisec / s.mgr.interval.toNat < 0 :=
        Int.ediv_neg_of_neg_of_pos (by omega) (by have := h.interval; omega)
      simp only [MgrSys.ticksLeft, hctrl]
      omega
    · simp [MgrSys.stepsLeft, hctrl]

/-- `itimer_internal_update` before the test of its outer loop. -/
theorem advance_updating (h : MgrInv s) {millisec jiffies : BitVec 32}
    (hctrl : s.ctrl = .updating millisec jiffies) (hstep : s.advance = some t) :
    MgrInv t ∧ Moves s t (s.shows .advance) ∧ t.work < s.work := by
  have hplaced := h.placed
  have hqueued := h.queued (by rw [MgrSys.inTick, hctrl])
  simp only [MgrSys.Placed, hctrl] at hplaced
  obtain ⟨rfl, htj, ⟨now, hlast, rfl⟩, hahead⟩ := hplaced
  have hnonneg := Int.ediv_nonneg hahead (Int.natCast_nonneg s.mgr.interval.toNat)
  have hleft : s.ticksLeft = (s.mgr.ahead (BitVec.ofNat 32 now) / s.mgr.interval.toNat + 1).toNat -
      s.phase / 2 := by rw [MgrSys.ticksLeft, hctrl]
  simp only [MgrSys.advance, hctrl] at hstep
  rcases htj with htj | htj
  · -- the tick begins
    have hslt := slt_self s.mgr.jiffies
    rw [htj, hslt, if_neg (by simp)] at hstep
    cases hstep
    obtain ⟨N, due, htimed⟩ := h.timed
    have hphase : s.phase = 1 := by simp [MgrSys.phase, hctrl, htj]
    have hbegin := beginTick_timerJiffies htimed
    refine ⟨⟨h.interval, h.limit, ⟨_, _, htimed.beginTick hqueued⟩, fun ht => (by cases ht), rfl,
      hbegin.trans (by rw [htj]), ⟨now, hlast, rfl⟩, hahead⟩,
      ⟨rfl, .inl ⟨rfl, rfl, rfl, rfl, .inr (.inr ⟨?_, hphase, rfl⟩)⟩⟩, ?_⟩
    · simp [MgrSys.shows, hctrl, htj]
    · rw [MgrSys.work, MgrSys.work, Prod.Lex.toLex_lt_toLex, hleft, hphase]
      left
      show (s.mgr.ahead (BitVec.ofNat 32 now) / s.mgr.interval.toNat + 1).toNat - 2 / 2 < _
      omega
  · -- the tick is over
    have hslt := slt_succ s.mgr.jiffies
    rw [htj, hslt, if_pos rfl] at hstep
    cases hstep
    have hphase : s.phase = 2 := by simp only [MgrSys.phase, hctrl, htj, hslt, if_true]
    have hend := ItimerMgr.ahead_endTick h.limit hahead
    have hlimit := h.limit
    refine ⟨⟨h.interval, h.limit, h.timed, fun _ => hqueued, htj, ⟨now, hlast, rfl⟩, ?_⟩,
      ⟨rfl, .inr ⟨?_, hphase, rfl, rfl, now, hlast, hahead⟩⟩, work_lt ?_ ?_⟩
    · show -(s.mgr.limit : Int) ≤ _
      rw [hend, ItimerMgr.limit]
      omega
    · simp only [MgrSys.shows, hctrl, htj, hslt, if_true]
    · have hpos : (s.mgr.interval.toNat : Int) ≠ 0 := by
        have := h.interval
        omega
      have hdiv : (s.mgr.ahead (BitVec.ofNat 32 now) - s.mgr.interval.toNat) /
          s.mgr.interval.toNat = s.mgr.ahead (BitVec.ofNat 32 now) / s.mgr.interval.toNat - 1 := by
        rw [Int.sub_ediv_of_dvd _ (Int.dvd_refl _), Int.ediv_self hpos]
      rw [hleft, hphase]
      show (s.mgr.endTick.ahead (BitVec.ofNat 32 now) / s.mgr.interval.toNat + 1).toNat - 0 / 2 = _
      rw [hend, hdiv]
      omega
    · simp [MgrSys.stepsLeft, hctrl, hphase]

/-- `itimer_internal_update` before the test of its loop over the due nodes, and its callbacks. -/
theorem advance_inTick (h : MgrInv s) (ht : s.inTick = true) (hstep : s.advance = some t) :
    MgrInv t ∧ Moves s t (s.shows .advance) ∧ t.work < s.work := by
  have hplaced := h.placed
  rw [MgrSys.advance] at hstep
  cases hctrl : s.ctrl with
  | idle => simp [MgrSys.inTick, hctrl] at ht
  | running millisec => simp [MgrSys.inTick, hctrl] at ht
  | updating millisec jiffies => simp [MgrSys.inTick, hctrl] at ht
  | calling millisec jiffies =>
    simp only [MgrSys.Placed, hctrl] at hplaced
    rw [hctrl] at hstep
    cases hstep
    refine ⟨⟨h.interval, h.limit, h.timed, fun ht => (by cases ht), hplaced⟩,
      ⟨rfl, .inl ⟨rfl, rfl, rfl, rfl, .inl ⟨?_, ?_⟩⟩⟩, work_lt ?_ ?_⟩
    · simp [MgrSys.shows, hctrl]
    · simp [MgrSys.phase, hctrl]
    · simp [MgrSys.ticksLeft, hctrl, MgrSys.phase]
    · simp [MgrSys.stepsLeft, hctrl]
  | draining millisec jiffies =>
    simp only [MgrSys.Placed, hctrl] at hplaced
    simp only [hctrl] at hstep
    obtain ⟨N, due, htimed⟩ := h.timed
    cases hlist : s.mgr.core.links.list .queued with
    | nil =>
      rw [hlist] at hstep
      cases hstep
      obtain ⟨hj, htj, hlast, hahead⟩ := hplaced
      have hphase : ({ s with ctrl := .updating millisec jiffies } : MgrSys).phase = 2 := by
        simp only [MgrSys.phase, htj, slt_succ, if_true]
      refine ⟨⟨h.interval, h.limit, h.timed, fun _ n hn => ?_, hj, .inr htj, hlast, hahead⟩,
        ⟨rfl, .inl ⟨rfl, rfl, rfl, rfl, .inl ⟨?_, ?_⟩⟩⟩, work_lt ?_ ?_⟩
      · have hmem := (htimed.wf.mem_iff _ n).mpr hn
        rw [hlist] at hmem
        cases hmem
      · simp [MgrSys.shows, hctrl]
      · rw [hphase, MgrSys.phase, hctrl]
      · rw [MgrSys.ticksLeft, MgrSys.ticksLeft, hctrl, hphase, MgrSys.phase, hctrl]
      · simp [MgrSys.stepsLeft, hctrl, hphase]
    | cons n ns =>
      rw [hlist] at hstep
      have hcount : (s.mgr.core.links.unlink n).list .queued = ns := by
        rw [htimed.wf.unlink_list, hlist, List.erase_cons_head]
      obtain ⟨ctrl, hctrl', rfl⟩ : ∃ ctrl,
          (ctrl = .calling millisec jiffies ∨ ctrl = .draining millisec jiffies) ∧
          { s.setCore { s.mgr.core with links := s.mgr.core.links.unlink n } with
            ctrl := ctrl } = t := by
        refine ⟨_, ?_, Option.some.inj hstep⟩
        split
        · exact .inl rfl
        · exact .inr rfl
      have hphase : s.phase = 2 := by rw [MgrSys.phase, hctrl]
      have hleft : s.ticksLeft = (s.mgr.ahead millisec / s.mgr.interval.toNat + 1).toNat -
          s.phase / 2 := by rw [MgrSys.ticksLeft, hctrl]
      have hsteps : s.stepsLeft = 2 * (n :: ns).length + 4 := by rw [MgrSys.stepsLeft, hctrl, hlist]
      refine ⟨⟨h.interval, h.limit, ⟨_, _, htimed.unlink n⟩, fun ht => ?_, ?_⟩,
        ⟨rfl, .inl ⟨rfl, rfl, rfl, rfl, .inl ⟨?_, ?_⟩⟩⟩, work_lt ?_ ?_⟩
      · rcases hctrl' with rfl | rfl <;> cases ht
      · rcases hctrl' with rfl | rfl <;> exact hplaced
      · simp [MgrSys.shows, hctrl]
      · rcases hctrl' with rfl | rfl <;> exact hphase.symm
      · rw [hleft, hphase]
        rcases hctrl' with rfl | rfl <;> rfl
      · rw [hsteps, List.length_cons, ← hcount]
        rcases hctrl' with rfl | rfl <;> simp only [MgrSys.stepsLeft, MgrSys.setCore] <;> omega

theorem advance (h : MgrInv s) (hstep : s.advance = some t) :
    MgrInv t ∧ Moves s t (s.shows .advance) ∧ t.work < s.work := by
  cases hctrl : s.ctrl with
  | idle => simp [MgrSys.advance, hctrl] at hstep
  | running millisec => exact h.advance_running hctrl hstep
  | updating millisec jiffies => exact h.advance_updating hctrl hstep
  | draining millisec jiffies => exact h.advance_inTick (by rw [MgrSys.inTick, hctrl]) hstep
  | calling millisec jiffies => exact h.advance_inTick (by rw [MgrSys.inTick, hctrl]) hstep

theorem step_of_not_run (h : MgrInv s) {a : MgrAct} (hrun : a.isRun = false)
    (hstep : mgrStep s a = some t) :
    MgrInv t ∧ Moves s t (s.shows a) ∧ t.work ≤ s.work ∧ (a = .advance → t.work < s.work) := by
  by_cases ha : a = .advance
  · subst ha
    obtain ⟨hinv, hmoves, hwork⟩ := h.advance hstep
    exact ⟨hinv, hmoves, le_of_lt hwork, fun _ => hwork⟩
  · obtain ⟨core, rfl, htimed, hqueued, htj, hlist⟩ := h.change hrun ha hstep
    refine ⟨h.setCore htimed hqueued htj, ?_, work_setCore s htj hlist, fun he => absurd he ha⟩
    have hnone : s.shows a = [] := by cases a <;> first | rfl | exact absurd rfl ha
    rw [hnone]
    exact moves_setCore s htj

theorem step (h : MgrInv s) {a : MgrAct} (hstep : mgrStep s a = some t) : MgrInv t := by
  cases hrun : a.isRun with
  | false => exact (h.step_of_not_run hrun hstep).1
  | true =>
    obtain ⟨now, rfl⟩ : ∃ now, a = .run now := by
      cases a <;> first | exact ⟨_, rfl⟩ | cases hrun
    simp only [mgrStep, Option.ite_none_right_eq_some, Option.some.injEq] at hstep
    obtain ⟨hidle, rfl⟩ := hstep
    exact h.run hidle now

theorem advance_isSome (s : MgrSys) (hctrl : s.ctrl ≠ .idle) :
    (mgrStep s .advance).isSome = true := by
  simp only [mgrStep, MgrSys.advance]
  split
  · next hidle => exact absurd hidle hctrl
  · split <;> rfl
  · split <;> rfl
  · split <;> rfl
  · rfl

theorem returns (h : MgrInv s) : Returns s := by
  refine ⟨advance_isSome s, fun f as hf hsteps hrun => ?_⟩
  refine Run.endless_of_measure (c := fun _ a => a.isRun = false) (q := fun a => a = .advance)
    MgrInv MgrSys.work (fun s a t hs ha hstep => ?_) (hf ▸ h) hrun hsteps
  obtain ⟨ht, -, hle, hlt⟩ := hs.step_of_not_run ha hstep
  exact ⟨ht, hle, hlt⟩

end MgrInv

/-- From the state `s`, whose next tick was at the time `first`, to `t` the manager has shown one
tick after the other; the time is within the limit. -/
structure Kept (s : MgrSys) (first : Nat) (t : MgrSys) (shown : List MgrEvent) (k now : Nat) :
    Prop where
  inv : MgrInv t
  interval : t.mgr.interval = s.mgr.interval
  last : t.last = some now
  millisec : t.mgr.millisec = BitVec.ofNat 32 (first + k * s.mgr.interval.toNat)
  jiffies : t.mgr.jiffies = s.mgr.jiffies + BitVec.ofNat 32 k
  current : t.mgr.current = s.mgr.current + BitVec.ofNat 32 (k * s.mgr.interval.toNat)
  shown : shown = (List.range k).flatMap s.tick ++ (s.tick k).take t.phase
  past : ∀ i, i < k → first + i * s.mgr.interval.toNat ≤ now
  before : first + k * s.mgr.interval.toNat ≤ now + s.mgr.limit
  after : now ≤ first + k * s.mgr.interval.toNat + s.mgr.limit

namespace Kept

variable {s t u : MgrSys} {first k now : Nat} {shown out : List MgrEvent}

theorem limit_eq (h : Kept s first t shown k now) : t.mgr.limit = s.mgr.limit := by
  rw [ItimerMgr.limit, ItimerMgr.limit, h.interval]

/-- The difference that `itimer_mgr_run` computes is that of the times. -/
theorem ahead (h : Kept s first t shown k now) {later : Nat} (hle : now ≤ later)
    (hnear : later ≤ first + k * s.mgr.interval.toNat + s.mgr.limit) :
    t.mgr.ahead (BitVec.ofNat 32 later) = (later : Int) - (first + k * s.mgr.interval.toNat : Nat) := by
  have hlimit := h.limit_eq ▸ h.inv.limit
  have hbefore := h.before
  rw [ItimerMgr.ahead, h.millisec, toInt_sub_ofNat (by omega) (by omega)]

theorem moves (h : Kept s first t shown k now) (hfirst : s.mgr.millisec = BitVec.ofNat 32 first)
    (hu : MgrInv u) (hmoves : Moves t u out) :
    ∃ k, Kept s first u (shown ++ out) k now := by
  have hmillisec : s.mgr.millisec + BitVec.ofNat 32 (k * s.mgr.interval.toNat) = t.mgr.millisec := by
    rw [hfirst, h.millisec, BitVec.ofNat_add]
  obtain ⟨hlast, ⟨hm, hj, hc, hi, hphase⟩ | ⟨rfl, hphase, hphase', hmgr, now', hnow, hahead⟩⟩ :=
    hmoves
  · refine ⟨k, hu, hi.trans h.interval, hlast.trans h.last, hm.trans h.millisec,
      hj.trans h.jiffies, hc.trans h.current, ?_, h.past, h.before, h.after⟩
    rw [h.shown]
    rcases hphase with ⟨rfl, hp⟩ | ⟨rfl, hp, hp'⟩ | ⟨rfl, hp, hp'⟩
    · rw [hp, List.append_nil]
    · rw [hp, hp', ← hmillisec, h.jiffies, h.current]
      simp [MgrSys.tick]
    · rw [hp, hp', h.jiffies]
      simp [MgrSys.tick]
  · rw [h.last, Option.some.injEq] at hnow
    subst hnow
    rw [h.ahead (Nat.le_refl _) h.after] at hahead
    have hle : first + k * s.mgr.interval.toNat ≤ now := by omega
    have hsucc : (k + 1) * s.mgr.interval.toNat = k * s.mgr.interval.toNat + s.mgr.interval.toNat :=
      Nat.succ_mul k _
    refine ⟨k + 1, hu, by rw [hmgr]; exact h.interval, hlast.trans h.last, ?_, ?_, ?_, ?_,
      fun i hik => ?_, ?_, ?_⟩
    · rw [hmgr, ItimerMgr.endTick, h.millisec, h.interval, hsucc, ← Nat.add_assoc,
        BitVec.ofNat_add _ s.mgr.interval.toNat, BitVec.ofNat_toNat, BitVec.setWidth_eq]
    · rw [hmgr, ItimerMgr.endTick, h.jiffies, BitVec.ofNat_add, ← BitVec.add_assoc]
      rfl
    · rw [hmgr, ItimerMgr.endTick, h.current, h.interval, hsucc, BitVec.ofNat_add,
        BitVec.ofNat_toNat, BitVec.setWidth_eq, BitVec.add_assoc]
    · rw [h.shown, hphase, hphase', List.range_succ, List.flatMap_append]
      simp [MgrSys.tick]
    · rcases Nat.lt_succ_iff_lt_or_eq.mp hik with hlt | rfl
      · exact h.past i hlt
      · exact hle
    · rw [hsucc, ItimerMgr.limit]
      omega
    · have hafter := h.after
      omega

/-- A call in time finds `millisec` near, and sets nothing. -/
theorem run (h : Kept s first t shown k now) (hidle : t.ctrl = .idle) {later : Nat}
    (hle : now ≤ later) (hpaced : later ≤ now + 300000) :
    Kept s first
      { mgr := t.mgr.resync (BitVec.ofNat 32 later), ctrl := .running (BitVec.ofNat 32 later)
        last := some later } shown k later := by
  have hplaced := h.inv.placed
  simp only [MgrSys.Placed, hidle] at hplaced
  have hbehind := (hplaced.2 now h.last).2
  rw [h.ahead (Nat.le_refl _) h.after] at hbehind
  have hlimit : 300000 ≤ s.mgr.limit := Nat.le_add_right _ _
  have hahead := h.ahead hle (by omega)
  have hbefore := h.before
  have hsame : t.mgr.resync (BitVec.ofNat 32 later) = t.mgr := by
    rw [ItimerMgr.resync_eq h.inv.limit, if_neg]
    rw [hahead, h.limit_eq]
    omega
  have hrun := h.inv.run hidle later
  rw [hsame] at hrun ⊢
  refine ⟨hrun, h.interval, rfl, h.millisec, h.jiffies, h.current, ?_, fun i hi => ?_, ?_, ?_⟩
  · rw [h.shown, MgrSys.phase, MgrSys.phase, hidle]
  · exact Nat.le_trans (h.past i hi) hle
  · omega
  · omega

theorem step (h : Kept s first t shown k now) (hfirst : s.mgr.millisec = BitVec.ofNat 32 first)
    {a : MgrAct} (hpaced : paced t a) (hstep : mgrStep t a = some u) :
    ∃ k now, Kept s first u (shown ++ t.shows a) k now := by
  cases hrun : a.isRun with
  | false =>
    obtain ⟨hu, hmoves, -⟩ := h.inv.step_of_not_run hrun hstep
    obtain ⟨k', hk'⟩ := h.moves hfirst hu hmoves
    exact ⟨k', now, hk'⟩
  | true =>
    cases a with
    | run later =>
      simp only [mgrStep, Option.ite_none_right_eq_some, Option.some.injEq] at hstep
      obtain ⟨hidle, rfl⟩ := hstep
      obtain ⟨hle, hlater⟩ := hpaced now h.last
      have hkept := h.run hidle hle hlater
      rw [← List.append_nil shown] at hkept
      exact ⟨k, later, hkept⟩
    | _ => cases hrun

theorem of_run (h : Kept s first t shown k now) (hfirst : s.mgr.millisec = BitVec.ofNat 32 first)
    {as : List MgrAct} (hpaced : Run.Meets mgrStep paced t as)
    (hrun : Run.run mgrStep t as = some u) :
    ∃ k now, Kept s first u (shown ++ Run.collect mgrStep MgrSys.shows t as) k now := by
  refine Run.collect_invariant (p := fun u shown => ∃ k now, Kept s first u shown k now)
    (fun t a u shown ht ha hstep => ?_) ⟨k, now, h⟩ hpaced hrun
  obtain ⟨k, now, ht⟩ := ht
  exact ht.step hfirst ha hstep

theorem onTime (h : Kept s first t shown k now) (hfirst : s.mgr.millisec = BitVec.ofNat 32 first)
    (hidle : t.ctrl = .idle) : OnTime s first t now shown := by
  have hplaced := h.inv.placed
  simp only [MgrSys.Placed, hidle] at hplaced
  have hbehind := (hplaced.2 now h.last).2
  rw [h.ahead (Nat.le_refl _) h.after] at hbehind
  refine ⟨k, fun i => ⟨h.past i, fun hi => ?_⟩, ?_, h.jiffies, hplaced.1, h.current, ?_⟩
  · by_contra hik
    have hmul := Nat.mul_le_mul_right s.mgr.interval.toNat (Nat.le_of_not_lt hik)
    omega
  · rw [h.shown, MgrSys.phase, hidle, List.take_zero, List.append_nil]
  · rw [h.millisec, hfirst, BitVec.ofNat_add]

theorem of_idle (h : MgrInv s) (hidle : s.ctrl = .idle) (hlast : s.last = some now) :
    Kept s (s.nextTick now) s [] 0 now ∧ s.mgr.millisec = BitVec.ofNat 32 (s.nextTick now) := by
  have hplaced := h.placed
  simp only [MgrSys.Placed, hidle, ItimerMgr.ahead] at hplaced
  obtain ⟨hlimit, hneg⟩ := hplaced.2 now hlast
  have hfirst : s.mgr.millisec = BitVec.ofNat 32 (s.nextTick now) := by
    apply BitVec.eq_of_toNat_eq
    simp only [MgrSys.nextTick, BitVec.toNat_ofNat, BitVec.toNat_sub]
    omega
  have hnear : (s.mgr.millisec - BitVec.ofNat 32 now).toNat ≤ s.mgr.limit := by
    rw [BitVec.toInt_eq_toNat_cond] at hlimit hneg
    simp only [BitVec.toNat_sub, BitVec.toNat_ofNat] at hlimit hneg ⊢
    split at hlimit <;> omega
  refine ⟨⟨h, rfl, hlast, ?_, ?_, ?_, ?_, fun i hi => absurd hi (Nat.not_lt_zero i), ?_, ?_⟩, hfirst⟩
  · simpa using hfirst
  · simp
  · simp
  · simp [MgrSys.phase, hidle]
  · rw [Nat.zero_mul, MgrSys.nextTick]
    omega
  · rw [MgrSys.nextTick]
    omega

theorem of_jump (h : MgrInv s) (hlast : s.last = some now) (hphase : s.phase = 0)
    (hnow : s.mgr.millisec = BitVec.ofNat 32 now) : Kept s now s [] 0 now := by
  refine ⟨h, rfl, hlast, ?_, ?_, ?_, ?_, fun i hi => absurd hi (Nat.not_lt_zero i), ?_, ?_⟩
  · simpa using hnow
  · simp
  · simp
  · simp [hphase]
  · rw [Nat.zero_mul]
    omega
  · omega

end Kept

theorem last_of_run {s t : MgrSys} {as : List MgrAct} (h : MgrInv s)
    (has : ∀ a ∈ as, a.isRun = false) (hrun : Run.run mgrStep s as = some t) :
    t.last = s.last := by
  refine (Run.run_invariant_of_meets (c := fun _ a => a.isRun = false)
    (p := fun u => MgrInv u ∧ u.last = s.last) (fun u a v hu ha hstep => ?_) ⟨h, rfl⟩
    (Run.meets_of_forall has s) hrun).2
  obtain ⟨hv, hmoves, -⟩ := hu.1.step_of_not_run ha hstep
  exact ⟨hv, hmoves.1.trans hu.2⟩

theorem mgr_inv_of_run {s t : MgrSys} {as : List MgrAct} (h : MgrInv s)
    (hrun : Run.run mgrStep s as = some t) : MgrInv t :=
  Run.run_invariant (fun _ _ _ hu hstep => hu.step hstep) h hrun

theorem paced_of_not_run {as : List MgrAct} (has : ∀ a ∈ as, a.isRun = false) (s : MgrSys) :
    Run.Meets mgrStep paced s as := by
  refine Run.Meets.of_invariant (c := fun _ a => a.isRun = false) (p := fun _ => True)
    (fun _ _ _ _ _ _ _ => trivial) (fun s a _ ha => ?_) trivial (Run.meets_of_forall has s)
  cases a with
  | run now => cases ha
  | _ => trivial

/-- A call at a time that is further than the limit from `millisec` runs one tick, which is now. -/
theorem jump {s t : MgrSys} {as : List MgrAct} {later : Nat} (h : MgrInv s)
    (hjump : s.mgr.limit < (s.mgr.ahead (BitVec.ofNat 32 later)).natAbs)
    (has : ∀ a ∈ as, a.isRun = false)
    (hrun : Run.run mgrStep s (.run later :: as) = some t) (ht : t.ctrl = .idle) :
    Run.collect mgrStep MgrSys.shows s (.run later :: as) =
        [.coreRun (BitVec.ofNat 32 later) s.mgr.jiffies s.mgr.current, .coreTick s.mgr.jiffies] ∧
      t.mgr.jiffies = s.mgr.jiffies + 1#32 ∧ t.mgr.core.timerJiffies = t.mgr.jiffies ∧
      t.mgr.current = s.mgr.current + s.mgr.interval ∧
      t.mgr.millisec = BitVec.ofNat 32 later + s.mgr.interval := by
  obtain ⟨u, hu, hrun⟩ := Run.run_cons.mp hrun
  have huinv := h.step hu
  rw [Run.collect_cons hu]
  simp only [mgrStep, ItimerMgr.resync_eq h.limit, if_pos hjump, Option.ite_none_right_eq_some,
    Option.some.injEq] at hu
  obtain ⟨-, rfl⟩ := hu
  have hpaced := paced_of_not_run has
    { mgr := { s.mgr with millisec := BitVec.ofNat 32 later }
      ctrl := .running (BitVec.ofNat 32 later), last := some later }
  obtain ⟨k, now, hkept⟩ := (Kept.of_jump huinv rfl rfl rfl).of_run rfl hpaced hrun
  have hlast := hkept.last
  rw [last_of_run huinv has hrun, Option.some.injEq] at hlast
  subst hlast
  obtain ⟨n, hn, htrace, hjiffies, hcore, hcurrent, hmillisec⟩ := hkept.onTime rfl ht
  have hone : n = 1 := by
    have hfst := hn 0
    have hsnd := hn 1
    have hpos := h.interval
    simp only at hfst hsnd
    omega
  subst hone
  refine ⟨?_, hjiffies, hcore, ?_, ?_⟩
  · rw [List.nil_append] at htrace
    rw [htrace]
    simp [MgrSys.shows, MgrSys.tick]
  · simpa using hcurrent
  · simpa using hmillisec

/-- `itimer_mgr_run` does not drift. From a state that a call has left, calls in time run the ticks
that fall until the time of the last one, each with the next jiffies, and no other ones; a call
after a jump of the clock, seen from `millisec`, runs one tick; and every call returns. -/
theorem itimer_mgr_run_no_drift (millisec interval : BitVec 32) (callback : NodeId → Option Nat)
    (s : MgrSys) (now : Nat) (hlimit : 64 * interval.toNat + 300000 < 2 ^ 31)
    (hs : Run.Reachable mgrStep (MgrSys.init millisec interval callback) s)
    (hidle : s.ctrl = .idle) (hlast : s.last = some now) :
    (∀ as t later, Run.Meets mgrStep paced s as → Run.run mgrStep s as = some t →
      t.ctrl = .idle → t.last = some later →
      OnTime s (s.nextTick now) t later (Run.collect mgrStep MgrSys.shows s as)) ∧
    (∀ later as t, s.mgr.limit < (s.mgr.ahead (BitVec.ofNat 32 later)).natAbs →
      (∀ a ∈ as, a.isRun = false) → Run.run mgrStep s (.run later :: as) = some t →
      t.ctrl = .idle →
      Run.collect mgrStep MgrSys.shows s (.run later :: as) =
          [.coreRun (BitVec.ofNat 32 later) s.mgr.jiffies s.mgr.current,
            .coreTick s.mgr.jiffies] ∧
        t.mgr.jiffies = s.mgr.jiffies + 1#32 ∧ t.mgr.core.timerJiffies = t.mgr.jiffies ∧
        t.mgr.current = s.mgr.current + s.mgr.interval ∧
        t.mgr.millisec = BitVec.ofNat 32 later + s.mgr.interval) ∧
    (∀ as t, Run.run mgrStep s as = some t → Returns t) := by
  have hinv := hs.invariant (mgr_inv_init millisec callback hlimit) (fun _ _ _ hu hstep => hu.step hstep)
  obtain ⟨hkept, hfirst⟩ := Kept.of_idle hinv hidle hlast
  refine ⟨fun as t later hpaced hrun ht hlater => ?_, fun later as t hjump has hrun ht => ?_,
    fun as t hrun => ?_⟩
  · obtain ⟨k, now', h⟩ := hkept.of_run hfirst hpaced hrun
    have hsame := h.last
    rw [hlater, Option.some.injEq] at hsame
    subst hsame
    exact h.onTime hfirst ht
  · exact jump hinv hjump has hrun ht
  · exact (mgr_inv_of_run hinv hrun).returns

/-- The clock jumps from 0, which is one tick. -/
def firstCall : List MgrAct :=
  [.add 3 1#32, .run 5000000, .advance, .advance, .advance, .advance, .advance]

/-- Two ticks; in the first one a callback adds its node again. -/
def laterCall : List MgrAct :=
  [.run 5000025, .advance, .advance, .advance, .add 3 7#32, .advance, .advance, .advance,
    .advance, .advance, .advance, .advance, .advance]

theorem itimer_mgr_run_no_drift_two :
    ∃ s t, Run.run mgrStep (MgrSys.init 0#32 10#32 some) firstCall = some s ∧
      Run.run mgrStep s laterCall = some t ∧ s.nextTick 5000000 = 5000010 ∧
      OnTime s (s.nextTick 5000000) t 5000025 (Run.collect mgrStep MgrSys.shows s laterCall) := by
  have hfirst : (Run.run mgrStep (MgrSys.init 0#32 10#32 some) firstCall).isSome = true := by
    decide +kernel
  have hlater : (Run.run mgrStep (Option.get _ hfirst) laterCall).isSome = true := by
    decide +kernel +revert
  have hleft : (Option.get _ hfirst).nextTick 5000000 = 5000010 ∧
      (Option.get _ hfirst).ctrl = .idle ∧ (Option.get _ hfirst).last = some 5000000 := by
    decide +kernel +revert
  have hpaced : Run.Meets mgrStep paced (Option.get _ hfirst) laterCall := by
    decide +kernel +revert
  have hdone : (Option.get _ hlater).ctrl = .idle ∧ (Option.get _ hlater).last = some 5000025 := by
    decide +kernel +revert
  have hs := (Option.some_get hfirst).symm
  have ht := (Option.some_get hlater).symm
  refine ⟨_, _, hs, ht, hleft.1, ?_⟩
  exact (itimer_mgr_run_no_drift 0#32 10#32 some _ 5000000 (by decide) ⟨firstCall, hs⟩ hleft.2.1
    hleft.2.2).1 laterCall _ 5000025 hpaced ht hdone.1 hdone.2

end AlgorithmLib.TimeWheel
