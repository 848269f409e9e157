import AlgorithmLib.DeadLock.Tables
import AlgorithmLib.Library.Run
import Mathlib.Logic.Function.Basic

/-!
Threads that lock and unlock non-recursive mutexes through the interception macros. A lock is
three steps, `deadlockcheck_before`, the blocking acquire and `deadlockcheck_after`; an
unlock is two, the release and `deadlockcheck_unlock_after`. The steps of all threads
interleave freely, so the tables lag behind the real owners.
-/

set_option autoImplicit false

namespace AlgorithmLib.DeadLock

open Run

structure LockCall where
  lockAddr : UInt64
  site : CallSite
  lockName : List UInt8
  deriving DecidableEq, Repr

inductive Pc where
  /-- outside the macros -/
  | idle
  /-- behind `deadlockcheck_before`, blocked in the acquire as long as the mutex has an owner -/
  | requested (c : LockCall)
  /-- owner of the mutex, before `deadlockcheck_after` -/
  | acquired (c : LockCall)
  /-- behind the release, before `deadlockcheck_unlock_after` -/
  | released (lockAddr : UInt64)
  deriving DecidableEq, Repr

/-- The detector's tables, the real owners and the places of the threads. -/
structure Sys where
  tables : Tables
  owner : UInt64 → Option UInt64
  pc : UInt64 → Pc

namespace Sys

def init : Sys := ⟨.empty, fun _ => none, fun _ => .idle⟩

end Sys

inductive Act where
  | before (thd : UInt64) (c : LockCall)
  | acquire (thd : UInt64)
  | after (thd : UInt64)
  | release (thd lockAddr : UInt64)
  | unlockAfter (thd : UInt64)
  deriving DecidableEq, Repr

def step (s : Sys) : Act → Option Sys
  | .before thd c =>
    match s.pc thd with
    | .idle =>
      some { s with
        tables := s.tables.deadlockcheckBefore thd c.lockAddr c.site c.lockName
        pc := Function.update s.pc thd (.requested c) }
    | _ => none
  | .acquire thd =>
    match s.pc thd with
    | .requested c =>
      if s.owner c.lockAddr = none then
        some { s with
          owner := Function.update s.owner c.lockAddr (some thd)
          pc := Function.update s.pc thd (.acquired c) }
      else none
    | _ => none
  | .after thd =>
    match s.pc thd with
    | .acquired c =>
      some { s with
        tables := s.tables.deadlockcheckAfter thd c.lockAddr c.site c.lockName
        pc := Function.update s.pc thd .idle }
    | _ => none
  | .release thd lockAddr =>
    match s.pc thd with
    | .idle =>
      if s.owner lockAddr = some thd then
        some { s with
          owner := Function.update s.owner lockAddr none
          pc := Function.update s.pc thd (.released lockAddr) }
      else none
    | _ => none
  | .unlockAfter thd =>
    match s.pc thd with
    | .released lockAddr =>
      some { s with
        tables := s.tables.deadlockcheckUnlockAfter thd lockAddr
        pc := Function.update s.pc thd .idle }
    | _ => none

inductive Stepped (s s' : Sys) : Act → Prop where
  | before (thd : UInt64) (c : LockCall) (hpc : s.pc thd = .idle)
      (htables : s'.tables = s.tables.deadlockcheckBefore thd c.lockAddr c.site c.lockName)
      (howner : s'.owner = s.owner)
      (hpc' : s'.pc = Function.update s.pc thd (.requested c)) : Stepped s s' (.before thd c)
  | acquire (thd : UInt64) (c : LockCall) (hpc : s.pc thd = .requested c)
      (hfree : s.owner c.lockAddr = none) (htables : s'.tables = s.tables)
      (howner : s'.owner = Function.update s.owner c.lockAddr (some thd))
      (hpc' : s'.pc = Function.update s.pc thd (.acquired c)) : Stepped s s' (.acquire thd)
  | after (thd : UInt64) (c : LockCall) (hpc : s.pc thd = .acquired c)
      (htables : s'.tables = s.tables.deadlockcheckAfter thd c.lockAddr c.site c.lockName)
      (howner : s'.owner = s.owner)
      (hpc' : s'.pc = Function.update s.pc thd .idle) : Stepped s s' (.after thd)
  | release (thd lockAddr : UInt64) (hpc : s.pc thd = .idle)
      (hheld : s.owner lockAddr = some thd) (htables : s'.tables = s.tables)
      (howner : s'.owner = Function.update s.owner lockAddr none)
      (hpc' : s'.pc = Function.update s.pc thd (.released lockAddr)) :
      Stepped s s' (.release thd lockAddr)
  | unlockAfter (thd lockAddr : UInt64) (hpc : s.pc thd = .released lockAddr)
      (htables : s'.tables = s.tables.deadlockcheckUnlockAfter thd lockAddr)
      (howner : s'.owner = s.owner)
      (hpc' : s'.pc = Function.update s.pc thd .idle) : Stepped s s' (.unlockAfter thd)

theorem stepped_of_step {s s' : Sys} {a : Act} (h : step s a = some s') : Stepped s s' a := by
  cases a with
  | before thd c =>
    simp only [step] at h
    split at h
    · cases h
      exact .before thd c ‹_› rfl rfl rfl
    · cases h
  | acquire thd =>
    simp only [step] at h
    split at h
    · split at h
      · cases h
        exact .acquire thd _ ‹_› ‹_› rfl rfl rfl
      · cases h
    · cases h
  | after thd =>
    simp only [step] at h
    split at h
    · cases h
      exact .after thd _ ‹_› rfl rfl rfl
    · cases h
  | release thd lockAddr =>
    simp only [step] at h
    split at h
    · split at h
      · cases h
        exact .release thd lockAddr ‹_› ‹_› rfl rfl rfl
      · cases h
    · cases h
  | unlockAfter thd =>
    simp only [step] at h
    split at h
    · cases h
      exact .unlockAfter thd _ ‹_› rfl rfl rfl
    · cases h

def Pc.acquiring (lockAddr : UInt64) : Pc → Bool
  | .acquired c => c.lockAddr = lockAddr
  | _ => false

/-- The lock call the thread has announced and not yet finished. -/
def Pc.pending : Pc → Option LockCall
  | .requested c => some c
  | .acquired c => some c
  | _ => none

namespace Sys

def holder (s : Sys) (lockAddr : UInt64) : Option UInt64 :=
  (s.owner lockAddr).filter (fun thd => !(s.pc thd).acquiring lockAddr)

/-- The thread is blocked on a mutex that the other one really holds. -/
def BlockedOn (s : Sys) (thd1 thd2 : UInt64) : Prop :=
  ∃ c, s.pc thd1 = .requested c ∧ s.owner c.lockAddr = some thd2

theorem holder_eq_some {s : Sys} {m u : UInt64} :
    s.holder m = some u ↔ s.owner m = some u ∧ (s.pc u).acquiring m = false := by
  simp [holder, Option.filter_eq_some_iff]

theorem holder_congr {s s' : Sys} {m : UInt64} (ho : s'.owner m = s.owner m)
    (hp : ∀ u, s.owner m = some u → (s'.pc u).acquiring m = (s.pc u).acquiring m) :
    s'.holder m = s.holder m := by
  rw [holder, holder, ho]
  cases h : s.owner m with
  | none => rfl
  | some u => simp only [Option.filter_some, hp u h]

theorem holder_of_quiet {s s' : Sys} {thd : UInt64} {pc : Pc} (howner : s'.owner = s.owner)
    (hpc' : s'.pc = Function.update s.pc thd pc) (m : UInt64)
    (hq : (s.pc thd).acquiring m = false) (hq' : pc.acquiring m = false) :
    s'.holder m = s.holder m := by
  refine holder_congr (by rw [howner]) (fun u _ => ?_)
  by_cases hu : u = thd
  · rw [hpc', hu, Function.update_self, hq, hq']
  · rw [hpc', Function.update_of_ne hu]

theorem holder_acquire {s s' : Sys} {thd : UInt64} {c : LockCall}
    (hpc : s.pc thd = .requested c) (hfree : s.owner c.lockAddr = none)
    (howner : s'.owner = Function.update s.owner c.lockAddr (some thd))
    (hpc' : s'.pc = Function.update s.pc thd (.acquired c)) (m : UInt64) :
    s'.holder m = s.holder m := by
  by_cases hm : m = c.lockAddr
  · rw [holder, holder, howner, hm, hfree, Function.update_self]
    simp [hpc', Pc.acquiring]
  · refine holder_congr (by rw [howner, Function.update_of_ne hm]) (fun u _ => ?_)
    by_cases hu : u = thd
    · simp [hpc', hu, hpc, Pc.acquiring, Ne.symm hm]
    · rw [hpc', Function.update_of_ne hu]

theorem holder_release {s s' : Sys} {thd n : UInt64} (hpc : s.pc thd = .idle)
    (howner : s'.owner = Function.update s.owner n none)
    (hpc' : s'.pc = Function.update s.pc thd (.released n)) (m : UInt64) :
    s'.holder m = if m = n then none else s.holder m := by
  by_cases hm : m = n
  · rw [if_pos hm, holder, howner, hm, Function.update_self]
    rfl
  · rw [if_neg hm]
    refine holder_congr (by rw [howner, Function.update_of_ne hm]) (fun u _ => ?_)
    by_cases hu : u = thd
    · simp [hpc', hu, hpc, Pc.acquiring]
    · rw [hpc', Function.update_of_ne hu]

end Sys

/-- How the tables stand to the real state. `late m` lists the threads that have released `m`
and not yet done their bookkeeping. -/
structure Inv (s : Sys) (late : UInt64 → List UInt64) : Prop where
  requests : ∀ thd, s.tables.announced thd = (s.pc thd).pending.map LockCall.lockAddr
  acquired : ∀ thd c, s.pc thd = .acquired c → s.owner c.lockAddr = some thd
  late_nodup : ∀ m, (late m).Nodup
  mem_late : ∀ m thd, thd ∈ late m ↔ s.pc thd = .released m
  points : ∀ m, s.tables.countOf m = (s.tables.pointsOf m).length
  counts : ∀ m, s.tables.countOf m = (late m).length + if (s.holder m).isSome then 1 else 0
  holder : ∀ m u, s.holder m = some u → s.tables.recorded m = some u

theorem inv_init : Inv Sys.init (fun _ => []) := by
  refine ⟨fun _ => rfl, ?_, fun _ => List.nodup_nil, ?_, fun _ => rfl, fun _ => rfl, ?_⟩
  · intro thd c h
    cases h
  · intro m thd
    simp [Sys.init]
  · intro m u h
    cases h

variable {s s' : Sys} {late : UInt64 → List UInt64} {thd m : UInt64} {c : LockCall}

theorem Inv.before (h : Inv s late) (hpc : s.pc thd = .idle)
    (htables : s'.tables = s.tables.deadlockcheckBefore thd c.lockAddr c.site c.lockName)
    (howner : s'.owner = s.owner) (hpc' : s'.pc = Function.update s.pc thd (.requested c)) :
    Inv s' late := by
  have hholder : ∀ m, s'.holder m = s.holder m := fun m =>
    Sys.holder_of_quiet howner hpc' m (by rw [hpc]; rfl) rfl
  refine ⟨fun x => ?_, fun x d hx => ?_, h.late_nodup, fun m x => ?_, fun m => ?_, fun m => ?_,
    fun m u hu => ?_⟩
  · rw [htables, Tables.deadlockcheckBefore_announced, h.requests, hpc']
    by_cases hx : x = thd
    · simp [hx, Pc.pending]
    · simp [hx]
  · have hxt : x ≠ thd := by
      rintro rfl
      rw [hpc', Function.update_self] at hx
      cases hx
    rw [hpc', Function.update_of_ne hxt] at hx
    rw [howner, h.acquired x d hx]
  · rw [h.mem_late, hpc']
    by_cases hx : x = thd
    · simp [hx, hpc]
    · rw [Function.update_of_ne hx]
  · rw [htables]
    exact h.points m
  · rw [htables, hholder]
    exact h.counts m
  · rw [htables]
    exact h.holder m u (by rw [← hholder, hu])

theorem Inv.acquire (h : Inv s late) (hpc : s.pc thd = .requested c)
    (hfree : s.owner c.lockAddr = none) (htables : s'.tables = s.tables)
    (howner : s'.owner = Function.update s.owner c.lockAddr (some thd))
    (hpc' : s'.pc = Function.update s.pc thd (.acquired c)) : Inv s' late := by
  have hholder := Sys.holder_acquire hpc hfree howner hpc'
  refine ⟨fun x => ?_, fun x d hx => ?_, h.late_nodup, fun m x => ?_, fun m => ?_, fun m => ?_,
    fun m u hu => ?_⟩
  · rw [htables, h.requests, hpc']
    by_cases hx : x = thd
    · simp [hx, hpc, Pc.pending]
    · rw [Function.update_of_ne hx]
  · rw [hpc'] at hx
    by_cases hxt : x = thd
    · rw [hxt, Function.update_self] at hx
      cases hx
      rw [howner, Function.update_self, hxt]
    · rw [Function.update_of_ne hxt] at hx
      have ho := h.acquired x d hx
      have hne : d.lockAddr ≠ c.lockAddr := fun he => by
        rw [he, hfree] at ho
        cases ho
      rw [howner, Function.update_of_ne hne, ho]
  · rw [h.mem_late, hpc']
    by_cases hx : x = thd
    · simp [hx, hpc]
    · rw [Function.update_of_ne hx]
  · rw [htables]
    exact h.points m
  · rw [htables, hholder]
    exact h.counts m
  · rw [htables]
    exact h.holder m u (by rw [← hholder, hu])

theorem Inv.holder_after (h : Inv s late) (hpc : s.pc thd = .acquired c)
    (howner : s'.owner = s.owner) (hpc' : s'.pc = Function.update s.pc thd .idle) (m : UInt64) :
    s'.holder m = if m = c.lockAddr then some thd else s.holder m := by
  by_cases hm : m = c.lockAddr
  · rw [if_pos hm, hm]
    exact Sys.holder_eq_some.mpr ⟨by rw [howner, h.acquired thd c hpc], by simp [hpc', Pc.acquiring]⟩
  · rw [if_neg hm]
    exact Sys.holder_of_quiet howner hpc' m (by simp [hpc, Pc.acquiring, Ne.symm hm]) rfl

theorem Inv.after (h : Inv s late) (hpc : s.pc thd = .acquired c)
    (htables : s'.tables = s.tables.deadlockcheckAfter thd c.lockAddr c.site c.lockName)
    (howner : s'.owner = s.owner) (hpc' : s'.pc = Function.update s.pc thd .idle) :
    Inv s' late := by
  have hholder := h.holder_after hpc howner hpc'
  have hold : s.holder c.lockAddr = none := by
    rw [Sys.holder, h.acquired thd c hpc]
    simp [hpc, Pc.acquiring]
  refine ⟨fun x => ?_, fun x d hx => ?_, h.late_nodup, fun m x => ?_, fun m => ?_, fun m => ?_,
    fun m u hu => ?_⟩
  · rw [htables, Tables.deadlockcheckAfter_announced, h.requests, hpc']
    by_cases hx : x = thd
    · simp [hx, Pc.pending]
    · simp [hx]
  · have hxt : x ≠ thd := by
      rintro rfl
      rw [hpc', Function.update_self] at hx
      cases hx
    rw [hpc', Function.update_of_ne hxt] at hx
    rw [howner, h.acquired x d hx]
  · rw [h.mem_late, hpc']
    by_cases hx : x = thd
    · simp [hx, hpc]
    · rw [Function.update_of_ne hx]
  · rw [htables, Tables.deadlockcheckAfter_countOf, Tables.deadlockcheckAfter_pointsOf, h.points]
    by_cases hm : m = c.lockAddr
    · simp [hm]
    · simp [hm]
  · rw [htables, Tables.deadlockcheckAfter_countOf, h.counts]
    rw [hholder]
    by_cases hm : m = c.lockAddr
    · simp [hm, hold]
    · simp [hm]
  · rw [hholder] at hu
    rw [htables, Tables.deadlockcheckAfter_recorded]
    by_cases hm : m = c.lockAddr
    · rw [if_pos hm] at hu ⊢
      exact hu
    · rw [if_neg hm] at hu ⊢
      exact h.holder m u hu

theorem Inv.release (h : Inv s late) (hpc : s.pc thd = .idle) (hheld : s.owner m = some thd)
    (htables : s'.tables = s.tables) (howner : s'.owner = Function.update s.owner m none)
    (hpc' : s'.pc = Function.update s.pc thd (.released m)) :
    Inv s' (Function.update late m (thd :: late m)) := by
  have hold : s.holder m = some thd := Sys.holder_eq_some.mpr ⟨hheld, by rw [hpc]; rfl⟩
  have hholder := Sys.holder_release hpc howner hpc'
  have hfresh : thd ∉ late m := fun hl => by
    rw [h.mem_late, hpc] at hl
    cases hl
  refine ⟨fun x => ?_, fun x d hx => ?_, fun n => ?_, fun n x => ?_, fun n => ?_, fun n => ?_,
    fun n u hu => ?_⟩
  · rw [htables, h.requests, hpc']
    by_cases hx : x = thd
    · simp [hx, hpc, Pc.pending]
    · rw [Function.update_of_ne hx]
  · have hxt : x ≠ thd := by
      rintro rfl
      rw [hpc', Function.update_self] at hx
      cases hx
    rw [hpc', Function.update_of_ne hxt] at hx
    have ho := h.acquired x d hx
    have hne : d.lockAddr ≠ m := by
      rintro rfl
      rw [hheld, Option.some.injEq] at ho
      exact hxt ho.symm
    rw [howner, Function.update_of_ne hne, ho]
  · by_cases hn : n = m
    · rw [hn, Function.update_self]
      exact List.nodup_cons.mpr ⟨hfresh, h.late_nodup m⟩
    · rw [Function.update_of_ne hn]
      exact h.late_nodup n
  · have hl := h.mem_late n x
    by_cases hx : x = thd
    · subst hx
      rw [hpc] at hl
      by_cases hn : n = m
      · simp [hn, hpc']
      · simp [hn, Ne.symm hn, hpc', hl]
    · rw [hpc', Function.update_of_ne hx, ← hl]
      by_cases hn : n = m
      · simp [hn, hx]
      · simp [hn]
  · rw [htables]
    exact h.points n
  · rw [htables, h.counts, hholder]
    by_cases hn : n = m
    · simp [hn, hold]
    · simp [hn]
  · rw [hholder] at hu
    by_cases hn : n = m
    · rw [if_pos hn] at hu
      cases hu
    · rw [if_neg hn] at hu
      rw [htables]
      exact h.holder n u hu

theorem Inv.pointsOf_ne_nil (h : Inv s late) (hpc : s.pc thd = .released m) :
    s.tables.pointsOf m ≠ [] := by
  intro hnil
  have hpos : 0 < (late m).length := List.length_pos_of_mem ((h.mem_late m thd).mpr hpc)
  have hc := h.counts m
  rw [h.points, hnil] at hc
  simp only [List.length_nil] at hc
  split at hc <;> omega

theorem Inv.recorded_ne_none (h : Inv s late) (hpc : s.pc thd = .released m) :
    s.tables.recorded m ≠ none :=
  Tables.recorded_ne_none (h.pointsOf_ne_nil hpc)

theorem Inv.unlockAfter (h : Inv s late) (hpc : s.pc thd = .released m)
    (htables : s'.tables = s.tables.deadlockcheckUnlockAfter thd m)
    (howner : s'.owner = s.owner) (hpc' : s'.pc = Function.update s.pc thd .idle) :
    Inv s' (Function.update late m ((late m).erase thd)) := by
  have hholder : ∀ n, s'.holder n = s.holder n := fun n =>
    Sys.holder_of_quiet howner hpc' n (by rw [hpc]; rfl) rfl
  have hmem : thd ∈ late m := (h.mem_late m thd).mpr hpc
  have hpos : 0 < (late m).length := List.length_pos_of_mem hmem
  have hlen := List.length_erase_of_mem hmem
  have hpoints := h.pointsOf_ne_nil hpc
  have hrec := h.recorded_ne_none hpc
  refine ⟨fun x => ?_, fun x d hx => ?_, fun n => ?_, fun n x => ?_, fun n => ?_, fun n => ?_,
    fun n u hu => ?_⟩
  · rw [htables]
    change s.tables.announced x = _
    rw [h.requests, hpc']
    by_cases hx : x = thd
    · simp [hx, hpc, Pc.pending]
    · rw [Function.update_of_ne hx]
  · have hxt : x ≠ thd := by
      rintro rfl
      rw [hpc', Function.update_self] at hx
      cases hx
    rw [hpc', Function.update_of_ne hxt] at hx
    rw [howner, h.acquired x d hx]
  · by_cases hn : n = m
    · rw [hn, Function.update_self]
      exact (h.late_nodup m).erase thd
    · rw [Function.update_of_ne hn]
      exact h.late_nodup n
  · have hl := h.mem_late n x
    by_cases hx : x = thd
    · subst hx
      rw [hpc] at hl
      by_cases hn : n = m
      · simp [hn, hpc', (h.late_nodup m).not_mem_erase]
      · simp [hn, Ne.symm hn, hpc', hl]
    · rw [hpc', Function.update_of_ne hx, ← hl]
      by_cases hn : n = m
      · simp [hn, List.mem_erase_of_ne hx]
      · simp [hn]
  · rw [htables, Tables.deadlockcheckUnlockAfter_countOf, Tables.deadlockcheckUnlockAfter_pointsOf,
      h.points]
    by_cases hn : n = m
    · have hp := List.length_pos_iff.mpr hpoints
      simp [hn, hpoints]
      omega
    · simp [hn]
  · rw [htables, Tables.deadlockcheckUnlockAfter_countOf, h.counts, hholder]
    by_cases hn : n = m
    · have hboth : n = m ∧ s.tables.pointsOf m ≠ [] := ⟨hn, hpoints⟩
      rw [if_pos hboth, hn, Function.update_self, hlen]
      omega
    · have hnot : ¬ (n = m ∧ s.tables.pointsOf m ≠ []) := fun hc => hn hc.1
      rw [if_neg hnot, Function.update_of_ne hn]
      omega
  · rw [htables, Tables.deadlockcheckUnlockAfter_recorded _ _ _ _ hrec]
    exact h.holder n u (by rw [← hholder, hu])

theorem step_inv {a : Act} (h : Inv s late) (hs : step s a = some s') : ∃ late', Inv s' late' := by
  cases stepped_of_step hs with
  | before thd c hpc htables howner hpc' => exact ⟨_, h.before hpc htables howner hpc'⟩
  | acquire thd c hpc hfree htables howner hpc' =>
    exact ⟨_, h.acquire hpc hfree htables howner hpc'⟩
  | after thd c hpc htables howner hpc' => exact ⟨_, h.after hpc htables howner hpc'⟩
  | release thd m hpc hheld htables howner hpc' =>
    exact ⟨_, h.release hpc hheld htables howner hpc'⟩
  | unlockAfter thd m hpc htables howner hpc' =>
    exact ⟨_, h.unlockAfter hpc htables howner hpc'⟩

theorem reachable_inv (h : Reachable step Sys.init s) : ∃ late, Inv s late :=
  Reachable.invariant (p := fun s => ∃ late, Inv s late) h ⟨_, inv_init⟩
    (fun _ _ _ ⟨_, hi⟩ hs => step_inv hi hs)

end AlgorithmLib.DeadLock
