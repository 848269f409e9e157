import AlgorithmLib.DeadLock.Protocol
import AlgorithmLib.DeadLock.Verdict

set_option autoImplicit false

namespace AlgorithmLib.DeadLock

open Run

theorem waitsFor_iff {t : Tables} {thd1 thd2 : UInt64} :
    t.WaitsFor thd1 thd2 ↔
      ∃ m, t.announced thd1 = some m ∧ 0 < t.countOf m ∧ t.recorded m = some thd2 := by
  have hreq : ∀ l, t.req thd1 = some l ↔ l ∈ t.threadApplyLock ∧ l.threadId = thd1 := fun l =>
    Keyed.lookup_eq_some_iff t.threads
  have hhold : ∀ m h, t.hold m = some h ↔ h ∈ t.lockBelongThread ∧ h.lockAddr = m := fun m h =>
    Keyed.lookup_eq_some_iff t.locks
  constructor
  · rintro ⟨l, hl, hv, h1, h, hh, ha, hc, h2⟩
    have hr := (hhold _ h).mpr ⟨hh, ha⟩
    refine ⟨l.lockAddr, ?_, ?_, ?_⟩
    · rw [Tables.announced, (hreq l).mpr ⟨hl, h1⟩]
      simp [hv]
    · rw [Tables.countOf, hr]
      exact hc
    · rw [Tables.recorded, hr, Option.map_some, h2]
  · rintro ⟨m, ha, hc, hr⟩
    rw [Tables.announced, Option.map_eq_some_iff] at ha
    obtain ⟨l, hl, rfl⟩ := ha
    rw [Option.filter_eq_some_iff] at hl
    obtain ⟨hl, hv⟩ := hl
    rw [Tables.recorded, Option.map_eq_some_iff] at hr
    obtain ⟨h, hh, rfl⟩ := hr
    rw [Tables.countOf, hh] at hc
    obtain ⟨hlm, h1⟩ := (hreq l).mp hl
    obtain ⟨hhm, hha⟩ := (hhold _ h).mp hh
    exact ⟨l, hlm, by simpa using hv, h1, h, hhm, hha, hc, rfl⟩

theorem Inv.waitsFor {s : Sys} {late : UInt64 → List UInt64} (h : Inv s late)
    {thd1 thd2 : UInt64} {c : LockCall} (hpc : s.pc thd1 = .requested c)
    (hheld : s.holder c.lockAddr = some thd2) : s.tables.WaitsFor thd1 thd2 := by
  refine waitsFor_iff.mpr ⟨c.lockAddr, ?_, ?_, h.holder _ _ hheld⟩
  · rw [h.requests, hpc]
    rfl
  · rw [h.counts, hheld]
    simp

/-- In every reachable state in which threads are blocked in a circle, each on a mutex that
the next one holds, the check reports a deadlock. Each of them waits, so each has done its
bookkeeping for the mutex it holds. -/
theorem dead_lock_reported {s : Sys} (h : Reachable step Sys.init s) (thd : UInt64)
    (hcircle : Relation.TransGen s.BlockedOn thd thd) :
    checkDeadLockStub s.tables = some true := by
  obtain ⟨late, hi⟩ := reachable_inv h
  -- a blocked thread is not between an acquire and its bookkeeping
  have hedge : ∀ x y z, s.BlockedOn x y → s.BlockedOn y z → s.tables.WaitsFor x y := by
    rintro x y z ⟨c, hx, hy⟩ ⟨d, hyd, -⟩
    exact hi.waitsFor hx (Sys.holder_eq_some.mpr ⟨hy, by rw [hyd]; rfl⟩)
  have hpath : ∀ x y, Relation.TransGen s.BlockedOn x y → (∃ z, s.BlockedOn y z) →
      Relation.TransGen s.tables.WaitsFor x y := by
    intro x y hxy
    induction hxy with
    | single hxy => exact fun ⟨z, hz⟩ => .single (hedge _ _ z hxy hz)
    | tail _ hyz ih => exact fun ⟨w, hw⟩ => (ih ⟨_, hyz⟩).tail (hedge _ _ w hyz hw)
  obtain ⟨w, hw, -⟩ := Relation.TransGen.head'_iff.mp hcircle
  obtain ⟨found, hf, hiff⟩ := checkDeadLockStub_eq s.tables
  rw [hf, hiff.mpr (Or.inl ⟨thd, hpath thd thd hcircle ⟨w, hw⟩⟩)]

def lockCall (lockAddr : UInt64) : LockCall := ⟨lockAddr, ⟨[], 0, []⟩, []⟩

/-- Two threads that lock two mutexes in opposite orders. -/
def oppositeOrders : List Act :=
  [.before 1 (lockCall 10), .acquire 1, .after 1, .before 2 (lockCall 20), .acquire 2, .after 2,
    .before 1 (lockCall 20), .before 2 (lockCall 10)]

theorem dead_lock_reported_opposite_orders :
    ∃ s, run step Sys.init oppositeOrders = some s ∧ checkDeadLockStub s.tables = some true := by
  refine ⟨_, rfl, dead_lock_reported ⟨oppositeOrders, rfl⟩ 1 ?_⟩
  exact .tail (.single ⟨lockCall 20, rfl, rfl⟩) ⟨lockCall 10, rfl, rfl⟩

end AlgorithmLib.DeadLock
