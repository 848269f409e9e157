import AlgorithmLib.DeadLock.Detection
import AlgorithmLib.DeadLock.HoldRecords

/-!
No deadlock is made up: a recorded circle is a real one as long as no bookkeeping of an unlock
overtakes an earlier one and leaves a record that names a thread that is through, and as long as
no thread locks a recursive mutex it holds, which the tables show as a thread that waits for
itself.
-/

set_option autoImplicit false

namespace AlgorithmLib.DeadLock

open Run

/-- A thread that the record of the mutex names does its bookkeeping for an unlock while it
is the only one that still has to: the record's count is 1. -/
def OnTime (s : Sys) : Act → Prop
  | .unlockAfter thd =>
    ∀ m, s.pc thd = .released m → s.tables.recorded m = some thd → s.tables.countOf m = 1
  | _ => True

/-- The thread a record names is the holder, or on its way to take the record away. -/
def Named (s : Sys) : Prop :=
  ∀ m u, 0 < s.tables.countOf m → s.tables.recorded m = some u →
    s.holder m = some u ∨ s.pc u = .released m

theorem Named.blockedOn {s : Sys} {late : UInt64 → List UInt64} (h : Inv s late) (hn : Named s)
    {thd1 thd2 : UInt64} (h12 : s.tables.WaitsFor thd1 thd2)
    (hback : Relation.ReflTransGen s.tables.WaitsFor thd2 thd1) : s.BlockedOn thd1 thd2 := by
  obtain ⟨m, ha, hc, hr⟩ := waitsFor_iff.mp h12
  -- the second thread waits as well
  obtain ⟨n, hw⟩ : ∃ n, s.tables.announced thd2 = some n := by
    rcases hback.cases_head with rfl | ⟨x, hx, -⟩
    · exact ⟨m, ha⟩
    · obtain ⟨n, hw, -⟩ := waitsFor_iff.mp hx
      exact ⟨n, hw⟩
  rw [h.requests, Option.map_eq_some_iff] at ha hw
  obtain ⟨c, hc1, rfl⟩ := ha
  obtain ⟨d, hd, -⟩ := hw
  rcases hn _ thd2 hc hr with hheld | hrel
  · obtain ⟨hown, hnot⟩ := Sys.holder_eq_some.mp hheld
    refine ⟨c, ?_, hown⟩
    -- a first thread that had acquired the mutex would be its owner
    cases hpc : s.pc thd1 with
    | requested e =>
      rw [hpc] at hc1
      cases hc1
      rfl
    | acquired e =>
      rw [hpc] at hc1
      cases hc1
      have he := h.acquired thd1 c hpc
      rw [hown, Option.some.injEq] at he
      rw [he, hpc] at hnot
      simp [Pc.acquiring] at hnot
    | idle =>
      rw [hpc] at hc1
      cases hc1
    | released k =>
      rw [hpc] at hc1
      cases hc1
  · rw [hrel] at hd
    cases hd

section Moved

variable {pc : UInt64 → Pc} {thd u : UInt64} {x y z : Pc}

theorem update_pc_of_ne (hthd : pc thd = x) (hu : pc u = y) (hne : x ≠ y) :
    Function.update pc thd z u = y := by
  have hut : u ≠ thd := by
    rintro rfl
    exact hne (hthd.symm.trans hu)
  rw [Function.update_of_ne hut, hu]

theorem pc_of_update (hu : Function.update pc thd z u = y) (hne : z ≠ y) :
    u ≠ thd ∧ pc u = y := by
  have hut : u ≠ thd := by
    rintro rfl
    rw [Function.update_self] at hu
    exact hne hu
  rw [Function.update_of_ne hut] at hu
  exact ⟨hut, hu⟩

end Moved

theorem named_init : Named Sys.init := by
  intro m u _ hr
  cases hr

theorem Named.step {s s' : Sys} {a : Act} {late : UInt64 → List UInt64} (h : Inv s late)
    (hn : Named s) (hon : OnTime s a) (hs : step s a = some s') : Named s' := by
  intro m u hc hr
  cases stepped_of_step hs with
  | before thd c hpc htables howner hpc' =>
    rw [htables] at hc hr
    rw [Sys.holder_of_quiet howner hpc' m (by rw [hpc]; rfl) rfl]
    refine (hn m u hc hr).imp_right (fun hrel => ?_)
    rw [hpc']
    exact update_pc_of_ne hpc hrel (by simp)
  | acquire thd c hpc hfree htables howner hpc' =>
    rw [htables] at hc hr
    rw [Sys.holder_acquire hpc hfree howner hpc']
    refine (hn m u hc hr).imp_right (fun hrel => ?_)
    rw [hpc']
    exact update_pc_of_ne hpc hrel (by simp)
  | after thd c hpc htables howner hpc' =>
    rw [htables, Tables.deadlockcheckAfter_countOf] at hc
    rw [htables, Tables.deadlockcheckAfter_recorded] at hr
    rw [h.holder_after hpc howner hpc']
    by_cases hm : m = c.lockAddr
    · rw [if_pos hm] at hr ⊢
      exact Or.inl hr
    · rw [if_neg hm] at hr hc ⊢
      refine (hn m u (by omega) hr).imp_right (fun hrel => ?_)
      rw [hpc']
      exact update_pc_of_ne hpc hrel (by simp)
  | release thd n hpc hheld htables howner hpc' =>
    rw [htables] at hc hr
    rw [Sys.holder_release hpc howner hpc']
    rcases hn m u hc hr with hhold | hrel
    · by_cases hm : m = n
      · -- the holder itself releases, and now owes its bookkeeping
        have hown := (Sys.holder_eq_some.mp hhold).1
        rw [hm, hheld, Option.some.injEq] at hown
        exact Or.inr (by rw [hpc', ← hown, Function.update_self, hm])
      · rw [if_neg hm]
        exact Or.inl hhold
    · rw [hpc']
      exact Or.inr (update_pc_of_ne hpc hrel (by simp))
  | unlockAfter thd n hpc htables howner hpc' =>
    rw [htables, Tables.deadlockcheckUnlockAfter_countOf] at hc
    rw [htables, Tables.deadlockcheckUnlockAfter_recorded _ _ _ _ (h.recorded_ne_none hpc)] at hr
    rw [Sys.holder_of_quiet howner hpc' m (by rw [hpc]; rfl) rfl]
    have hpos : 0 < s.tables.countOf m := by
      split at hc <;> omega
    refine (hn m u hpos hr).imp_right (fun hrel => ?_)
    by_cases hu : u = thd
    · -- the named thread takes the last entry away
      subst hu
      rw [hpc] at hrel
      cases hrel
      rw [if_pos ⟨rfl, h.pointsOf_ne_nil hpc⟩, hon m hpc hr] at hc
      omega
    · rw [hpc', Function.update_of_ne hu, hrel]

namespace Sys

def Once (recursive : UInt64 → Bool) (s : Sys) : Prop :=
  ∀ thd c, s.pc thd = .requested c → recursive c.lockAddr = true → s.owner c.lockAddr ≠ some thd

end Sys

namespace HoldSys

variable {recursive : UInt64 → Bool} {s s' : HoldSys} {a : Act}

/-- The condition on a step: no thread locks a recursive mutex it owns, and the bookkeeping of
unlocks is on time. -/
def Timely (recursive : UInt64 → Bool) (s : HoldSys) : Act → Prop
  | .before thd c => recursive c.lockAddr = true → s.owner c.lockAddr ≠ some thd
  | a => OnTime s.toSys a

theorem Timely.onTime (h : s.Timely recursive a) : OnTime s.toSys a := by
  cases a with
  | before thd c => trivial
  | _ => exact h

theorem holdStep_of_once (h : s.toSys.Once recursive) (a : Act) :
    holdStep recursive s a = holdStep (fun _ => false) s a := by
  cases a with
  | acquire thd =>
    simp only [holdStep, free]
    cases hpc : s.pc thd with
    | requested c =>
      have hown : (recursive c.lockAddr && decide (s.owner c.lockAddr = some thd)) = false := by
        cases hrec : recursive c.lockAddr with
        | false => rfl
        | true => exact decide_eq_false (h thd c hpc hrec)
      simp [hown]
    | _ => rfl
  | _ => rfl

theorem once_step (h : s.toSys.Once recursive) (ha : s.Timely recursive a)
    (hstep : step s.toSys a = some s'.toSys) : s'.toSys.Once recursive := by
  intro u d hu hrec hown
  cases stepped_of_step hstep with
  | before thd c hpc htables howner hpc' =>
    rw [howner] at hown
    by_cases hut : u = thd
    · rw [hpc', hut, Function.update_self] at hu
      cases hu
      exact ha hrec (hut ▸ hown)
    · rw [hpc', Function.update_of_ne hut] at hu
      exact h u d hu hrec hown
  | acquire thd c hpc hfree htables howner hpc' =>
    rw [hpc'] at hu
    obtain ⟨hut, hu⟩ := pc_of_update hu (by simp)
    by_cases hd : d.lockAddr = c.lockAddr
    · rw [howner, hd, Function.update_self, Option.some.injEq] at hown
      exact hut hown.symm
    · rw [howner, Function.update_of_ne hd] at hown
      exact h u d hu hrec hown
  | after thd c hpc htables howner hpc' =>
    rw [hpc'] at hu
    obtain ⟨-, hu⟩ := pc_of_update hu (by simp)
    exact h u d hu hrec (howner ▸ hown)
  | release thd n hpc hheld htables howner hpc' =>
    rw [hpc'] at hu
    obtain ⟨-, hu⟩ := pc_of_update hu (by simp)
    by_cases hd : d.lockAddr = n
    · rw [howner, hd, Function.update_self] at hown
      cases hown
    · rw [howner, Function.update_of_ne hd] at hown
      exact h u d hu hrec hown
  | unlockAfter thd n hpc htables howner hpc' =>
    rw [hpc'] at hu
    obtain ⟨-, hu⟩ := pc_of_update hu (by simp)
    exact h u d hu hrec (howner ▸ hown)

/-- The thread is blocked on a mutex that the other one really holds; a recursive mutex does not
block its owner. -/
def BlockedOn (recursive : UInt64 → Bool) (s : HoldSys) (thd1 thd2 : UInt64) : Prop :=
  ∃ c, s.pc thd1 = .requested c ∧ s.free recursive thd1 c.lockAddr = false ∧
    s.owner c.lockAddr = some thd2

/-- Every circle the tables record is real: each thread of it is blocked on a mutex that the
next one holds. -/
def NoPhantom (recursive : UInt64 → Bool) (s : HoldSys) : Prop :=
  ∀ thd1 thd2, s.tables.WaitsFor thd1 thd2 →
    Relation.ReflTransGen s.tables.WaitsFor thd2 thd1 → s.BlockedOn recursive thd1 thd2

theorem blockedOn_of_once (h : s.toSys.Once recursive) {thd1 thd2 : UInt64}
    (hb : s.toSys.BlockedOn thd1 thd2) : s.BlockedOn recursive thd1 thd2 := by
  obtain ⟨c, hpc, hown⟩ := hb
  refine ⟨c, hpc, ?_, hown⟩
  have hown' : s.owner c.lockAddr = some thd2 := hown
  cases hrec : recursive c.lockAddr with
  | false => simp [free, hown', hrec]
  | true =>
    have hne : s.owner c.lockAddr ≠ some thd1 := h thd1 c hpc hrec
    rw [hown'] at hne
    simpa [free, hown', hrec] using hne

/-- What the steps that meet the condition keep: the mutexes are held once each, and the records
name who holds them. -/
structure Plain (recursive : UInt64 → Bool) (s : HoldSys) : Prop where
  single : ∀ m, (s.acquired m).length ≤ 1
  once : s.toSys.Once recursive
  named : ∃ late, Inv s.toSys late ∧ Named s.toSys

theorem plain_init : HoldSys.init.Plain recursive := by
  refine ⟨fun m => by simp [init], fun thd c hpc => ?_, _, inv_init, named_init⟩
  cases hpc

theorem Plain.step (h : s.Plain recursive) (ha : s.Timely recursive a)
    (hstep : holdStep recursive s a = some s') : s'.Plain recursive := by
  rw [holdStep_of_once h.once] at hstep
  have hsys : DeadLock.step s.toSys a = some s'.toSys := by
    rw [← toSys_step h.single, hstep]
    rfl
  obtain ⟨late, hi, hn⟩ := h.named
  obtain ⟨late', hi'⟩ := step_inv hi hsys
  exact ⟨length_step h.single hstep, once_step h.once ha hsys, late', hi',
    hn.step hi ha.onTime hsys⟩

end HoldSys

variable {recursive : UInt64 → Bool} {acts : List Act} {s s' : HoldSys}

/-- In every run in which no thread locks a recursive mutex it holds, nor does its bookkeeping for
an unlock while the record still counts others and names it, every state is free of phantom
deadlocks. -/
theorem dead_lock_no_phantom (recursive : UInt64 → Bool) (acts : List Act) {s : HoldSys}
    (hon : Meets (holdStep recursive) (HoldSys.Timely recursive) .init acts)
    (h : run (holdStep recursive) .init acts = some s) : s.NoPhantom recursive := by
  have hplain : s.Plain recursive := run_invariant_of_meets (p := HoldSys.Plain recursive)
    (fun _ _ _ hs ha hstep => hs.step ha hstep) HoldSys.plain_init hon h
  obtain ⟨late, hi, hn⟩ := hplain.named
  exact fun thd1 thd2 h12 hback =>
    HoldSys.blockedOn_of_once hplain.once (hn.blockedOn hi h12 hback)

/-- Thread 2 blocked by thread 1, which has locked the mutex behind thread 3 in time. -/
def timelyUnlock : List Act :=
  [.before 3 (lockCall 10), .acquire 3, .after 3, .release 3 10, .unlockAfter 3,
    .before 1 (lockCall 10), .acquire 1, .after 1, .before 2 (lockCall 10)]

theorem dead_lock_no_phantom_timely :
    ∃ s, run (holdStep fun _ => true) .init timelyUnlock = some s ∧
      s.NoPhantom fun _ => true := by
  refine ⟨_, rfl, dead_lock_no_phantom (fun _ => true) timelyUnlock ?_ rfl⟩
  refine ⟨?_, trivial, trivial, trivial, ?_, ?_, trivial, trivial, ?_, trivial⟩
  · exact fun _ h => absurd h (by decide)
  · intro m hm _
    cases hm
    rfl
  · exact fun _ h => absurd h (by decide)
  · exact fun _ h => absurd h (by decide)

theorem Logged.owned_recorded {m thd : UInt64} {others : List UInt64} (h : Logged s m others)
    (hpc : s.pc thd = .idle) (hown : s.owner m = some thd) :
    0 < s.tables.countOf m ∧ s.tables.recorded m = some thd := by
  have hlogged : s.logged m = s.acquired m := HoldSys.logged_of_head fun a ha => by
    have hat := HoldSys.owner_of_head ha
    rw [hown, Option.some.injEq] at hat
    rw [← hat, hpc]
    rfl
  have hne : s.logged m ≠ [] := fun hnil => by
    rw [HoldSys.owner, ← hlogged, hnil] at hown
    cases hown
  have hpos := List.length_pos_iff.mpr hne
  refine ⟨?_, by rw [h.recorded hne, hown]⟩
  rw [h.points, h.counts]
  omega

/-- In every run, a thread that locks a recursive mutex it owns waits for itself in the tables. -/
theorem relock_phantom {thd : UInt64} {c : LockCall} (hrec : recursive c.lockAddr = true)
    (h : run (holdStep recursive) .init acts = some s) (hown : s.owner c.lockAddr = some thd)
    (hstep : holdStep recursive s (.before thd c) = some s') : ¬ s'.NoPhantom recursive := by
  intro hno
  have hlog : ∀ m, ∃ others, Logged s m others :=
    run_invariant (p := fun s => ∀ m, ∃ others, Logged s m others)
      (fun _ _ _ hs hstep m => (logged_step hs hstep m).1) (fun m => ⟨[], logged_init m⟩) h
  obtain ⟨others, hl⟩ := hlog c.lockAddr
  simp only [holdStep] at hstep
  split at hstep
  · rename_i hpc
    cases hstep
    obtain ⟨hcount, hrecorded⟩ := hl.owned_recorded hpc hown
    have hannounced :=
      Tables.deadlockcheckBefore_announced s.tables thd thd c.lockAddr c.site c.lockName
    rw [if_pos rfl] at hannounced
    obtain ⟨d, hd, hfree, -⟩ := hno thd thd
      (waitsFor_iff.mpr ⟨c.lockAddr, hannounced, hcount, hrecorded⟩) .refl
    simp only [Function.update_self, Pc.requested.injEq] at hd
    subst hd
    have hopen : s.free recursive thd c.lockAddr = true := by simp [HoldSys.free, hrec, hown]
    exact absurd (hopen.symm.trans hfree) (by decide)
  · cases hstep

/-- Thread 3's bookkeeping for its unlock of mutex 10 is late: thread 1 locks and unlocks the
mutex and does its own bookkeeping first. Then thread 1 waits for thread 2. -/
def lateUnlock : List Act :=
  [.before 3 (lockCall 10), .acquire 3, .after 3, .release 3 10,
    .before 1 (lockCall 10), .acquire 1, .after 1, .release 1 10, .unlockAfter 1,
    .before 2 (lockCall 20), .acquire 2, .after 2, .before 1 (lockCall 20), .before 2 (lockCall 10)]

/-- A thread that locks a mutex twice. -/
def relock : List Act :=
  [.before 1 (lockCall 10), .acquire 1, .after 1, .before 1 (lockCall 10)]

/-- Thread 2 asks for the free mutex, and the check reports a deadlock of threads 1 and 2; a thread
that locks its recursive mutex once more is reported as well. -/
theorem dead_lock_phantom :
    (∃ s, run (holdStep fun _ => false) .init lateUnlock = some s ∧ s.owner 10 = none ∧
      checkDeadLockStub s.tables = some true ∧ ¬ s.NoPhantom fun _ => false) ∧
    (∃ s, run (holdStep fun _ => true) .init relock = some s ∧ s.free (fun _ => true) 1 10 = true ∧
      checkDeadLockStub s.tables = some true ∧ ¬ s.NoPhantom fun _ => true) := by
  refine ⟨⟨_, rfl, rfl, by decide +kernel, fun hno => ?_⟩,
    ⟨_, rfl, rfl, by decide +kernel, fun hno => ?_⟩⟩
  · obtain ⟨c, hc, -, ho⟩ := hno 2 1 (waitsFor_iff.mpr ⟨10, rfl, by decide, rfl⟩)
      (.single (waitsFor_iff.mpr ⟨20, rfl, by decide, rfl⟩))
    cases hc
    cases ho
  · obtain ⟨c, hc, hf, -⟩ := hno 1 1 (waitsFor_iff.mpr ⟨10, rfl, by decide, rfl⟩) .refl
    cases hc
    cases hf

end AlgorithmLib.DeadLock
