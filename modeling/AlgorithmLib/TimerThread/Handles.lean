import AlgorithmLib.TimeWheel.Live
import AlgorithmLib.TimerThread.Model
import AlgorithmLib.Library.Run

/-!
The handle table: a record is free or in the bucket of its handle, and only the nodes of records
in buckets are on the wheel. Handles are numbered by a 64-bit counter, whose wrap-around nothing
guards.
-/

set_option autoImplicit false

namespace AlgorithmLib.TimerThread

open TimeWheel (ItimerCore Hosts)

/-- The record is that of a timer: it is in a bucket. -/
def EvtPool.live (p : EvtPool) (e : Nat) : Bool :=
  match p.pool.links.head e with
  | some (.bucket _) => true
  | _ => false

/-- There is a timer with the handle. -/
def EvtPool.Holds (p : EvtPool) (handle : Nat) : Prop :=
  ∃ e, p.live e = true ∧ (p.evt e).handle = handle

/-- The handles that `itimer_set` has returned, the latest first. -/
def issued : List Event → List Nat
  | [] => []
  | .set _ handle _ :: log => handle :: issued log
  | _ :: log => issued log

def handles : Nat → List Nat
  | 0 => []
  | n + 1 => (n + 1) % 2 ^ 64 :: handles n

theorem mem_handles {n handle : Nat} :
    handle ∈ handles n ↔ ∃ i, i < n ∧ handle = (i + 1) % 2 ^ 64 := by
  induction n with
  | zero => simp [handles]
  | succ n ih =>
    rw [handles, List.mem_cons, ih]
    constructor
    · rintro (rfl | ⟨i, hi, rfl⟩)
      · exact ⟨n, Nat.lt_succ_self n, rfl⟩
      · exact ⟨i, Nat.lt_succ_of_lt hi, rfl⟩
    · rintro ⟨i, hi, rfl⟩
      rcases Nat.lt_succ_iff_lt_or_eq.mp hi with hi | rfl
      · exact Or.inr ⟨i, hi, rfl⟩
      · exact Or.inl rfl

theorem next_not_mem_handles {n : Nat} (h : n < 2 ^ 64) : (n + 1) % 2 ^ 64 ∉ handles n := by
  rw [mem_handles]
  rintro ⟨i, hi, heq⟩
  omega

theorem handles_nodup {n : Nat} (h : n ≤ 2 ^ 64) : (handles n).Nodup := by
  induction n with
  | zero => exact List.nodup_nil
  | succ n ih => exact List.nodup_cons.mpr ⟨next_not_mem_handles h, ih (by omega)⟩

theorem live_iff {p : EvtPool} {e : Nat} :
    p.live e = true ↔ ∃ i, p.pool.links.head e = some (.bucket i) := by
  rw [EvtPool.live]
  cases p.pool.links.head e with
  | none => simp
  | some q => cases q <;> simp

structure Table (evts : EvtPool) (core : ItimerCore) (given : List Nat) : Prop where
  ok : evts.pool.Ok .free
  kept : evts.pool.Kept
  full : evts.pool.Full
  bucketed : ∀ e i, evts.pool.links.head e = some (.bucket i) →
    i = itimerBucketHash (evts.evt e).handle
  hosts : Hosts core (fun e => evts.live e = true)
  counter : evts.ghandle = (given.length + 1) % 2 ^ 64
  numbered : given = handles given.length
  known : ∀ e, evts.live e = true → (evts.evt e).handle ∈ given
  distinct : given.length ≤ 2 ^ 64 → ∀ e e', evts.live e = true → evts.live e' = true →
    (evts.evt e).handle = (evts.evt e').handle → e = e'

theorem table_init (millisec interval : BitVec 32) :
    Table (Sys.init millisec interval).evts (Sys.init millisec interval).mgr.core [] where
  ok := Pool.ok_empty _
  kept := Pool.kept_empty
  full := Pool.full_empty
  bucketed _ _ h := by cases h
  hosts := (TimeWheel.hosts_init _ _).congr (fun _ => by simp [EvtPool.live, Sys.init, Pool.empty,
    Links.empty])
  counter := rfl
  numbered := rfl
  known _ h := by cases h
  distinct _ _ _ h := by cases h

namespace Table

variable {evts : EvtPool} {core : ItimerCore} {given : List Nat}

theorem rewheel (h : Table evts core given) {core' : ItimerCore}
    (hc : Hosts core' (fun e => evts.live e = true)) : Table evts core' given :=
  { h with hosts := hc }

theorem updateEvt (h : Table evts core given) (e : Nat) {evt : ItimerEvt}
    (hh : evt.handle = (evts.evt e).handle) :
    Table { evts with evt := Function.update evts.evt e evt } core given := by
  have hh' : ∀ e', (Function.update evts.evt e evt e').handle = (evts.evt e').handle := by
    intro e'
    by_cases he : e' = e
    · rw [he, Function.update_self, hh]
    · rw [Function.update_of_ne he]
  refine ⟨h.ok, h.kept, h.full, ?_, h.hosts, h.counter, h.numbered, ?_, ?_⟩
  · simp only [hh']
    exact h.bucketed
  · simp only [hh']
    exact h.known
  · simp only [hh']
    exact h.distinct

theorem free (h : Table evts core given) {e : Nat} (he : evts.live e = true) (evt : ItimerEvt) :
    Table
      { evts with pool := evts.pool.give .free e, evt := Function.update evts.evt e evt }
      (core.itimerNodeDestroy e) given := by
  obtain ⟨j, hj⟩ := live_iff.mp he
  have hlive : ∀ m, EvtPool.live { evts with
      pool := evts.pool.give .free e, evt := Function.update evts.evt e evt } m = true ↔
        evts.live m = true ∧ m ≠ e := by
    intro m
    rw [live_iff, live_iff]
    simp only [Pool.give_head]
    by_cases hm : m = e
    · simp [hm]
    · simp [hm]
  refine ⟨h.ok.give (h.ok.lt_of_head hj) (by simp [hj]), h.kept, h.full.give _ _,
    fun m i hm => ?_,
    (h.hosts.itimerNodeDestroy he).congr hlive, h.counter, h.numbered, fun m hm => ?_,
    fun hn m m' hm hm' heq => ?_⟩
  · rw [Pool.give_head] at hm
    by_cases hme : m = e
    · rw [if_pos hme] at hm
      cases hm
    · rw [if_neg hme] at hm
      simp only [Function.update_of_ne hme]
      exact h.bucketed m i hm
  · obtain ⟨hold, hme⟩ := (hlive m).mp hm
    simp only [Function.update_of_ne hme]
    exact h.known m hold
  · obtain ⟨hold, hme⟩ := (hlive m).mp hm
    obtain ⟨hold', hme'⟩ := (hlive m').mp hm'
    simp only [Function.update_of_ne hme, Function.update_of_ne hme'] at heq
    exact h.distinct hn m m' hold hold' heq

theorem lookup (h : Table evts core given) {handle e : Nat}
    (hl : evts.itimerEvtBucketLookup handle = some e) :
    evts.live e = true ∧ (evts.evt e).handle = handle := by
  have hmem := List.mem_of_find?_eq_some hl
  have hh := List.find?_some hl
  exact ⟨live_iff.mpr ⟨_, (h.ok.wf.mem_iff _ e).mp hmem⟩, by simpa using hh⟩

theorem lookup_none (h : Table evts core given) {handle : Nat} (hno : ¬ evts.Holds handle) :
    evts.itimerEvtBucketLookup handle = none := by
  cases hl : evts.itimerEvtBucketLookup handle with
  | none => rfl
  | some e =>
    obtain ⟨he, hh⟩ := h.lookup hl
    exact absurd ⟨e, he, hh⟩ hno

theorem set (h : Table evts core given) {size e : Nat} {pool : Pool EvtPlace} (hsize : 0 < size)
    (htake : evts.pool.take .free size = some (e, pool)) (evt : ItimerEvt)
    (hh : evt.handle = evts.ghandle) (core' : ItimerCore)
    (hc : evts.live e = false → Hosts core' (fun m => evts.live m = true ∨ m = e)) :
    Table
        { pool := pool.link e (.bucket (itimerBucketHash evts.ghandle))
          evt := Function.update evts.evt e evt
          ghandle := (evts.ghandle + 1) % 2 ^ 64 }
        core' (evts.ghandle :: given) ∧
      ∀ m, EvtPool.live
        { pool := pool.link e (.bucket (itimerBucketHash evts.ghandle))
          evt := Function.update evts.evt e evt
          ghandle := (evts.ghandle + 1) % 2 ^ 64 } m = true ↔ evts.live m = true ∨ m = e := by
  obtain ⟨n, p', htake', hok, hlt, -, hnone, hheads⟩ := h.ok.take hsize
  obtain ⟨rfl, rfl⟩ : n = e ∧ p' = pool := by simpa [htake'] using htake
  have hlive : ∀ m, EvtPool.live
      { pool := p'.link n (.bucket (itimerBucketHash evts.ghandle))
        evt := Function.update evts.evt n evt
        ghandle := (evts.ghandle + 1) % 2 ^ 64 } m = true ↔ evts.live m = true ∨ m = n := by
    intro m
    rw [live_iff, live_iff]
    simp only [Pool.link_head]
    by_cases hm : m = n
    · simp [hm]
    · simp only [hm, if_false, or_false]
      exact exists_congr (fun i => hheads m _ (by simp))
  have hfresh : evts.live n = false := by
    rw [← Bool.not_eq_true, live_iff]
    rintro ⟨i, hi⟩
    rw [(hheads n _ (by simp)).mpr hi] at hnone
    cases hnone
  refine ⟨⟨hok.link hlt hnone (by simp), (h.kept.take htake : p'.Kept),
      Pool.Full.link (h.full.take htake) _, fun m i hm => ?_,
    (hc hfresh).congr hlive, ?_, ?_, fun m hm => ?_, fun hn m m' hm hm' heq => ?_⟩, hlive⟩
  · rw [Pool.link_head] at hm
    by_cases hme : m = n
    · subst hme
      rw [if_pos rfl, Option.some.injEq, EvtPlace.bucket.injEq] at hm
      simp only [Function.update_self, hh]
      exact hm.symm
    · rw [if_neg hme] at hm
      simp only [Function.update_of_ne hme]
      exact h.bucketed m i ((hheads m _ (by simp)).mp hm)
  · dsimp only
    rw [h.counter, List.length_cons]
    omega
  · rw [List.length_cons, handles, ← h.numbered, h.counter]
  · rcases (hlive m).mp hm with hold | rfl
    · by_cases hme : m = n
      · subst hme
        rw [hfresh] at hold
        cases hold
      · simp only [Function.update_of_ne hme]
        exact List.mem_cons_of_mem _ (h.known m hold)
    · simp only [Function.update_self, hh]
      exact List.mem_cons_self
  · rw [List.length_cons] at hn
    have hnext : ∀ k, evts.live k = true → (evts.evt k).handle ≠ evts.ghandle := by
      intro k hk heq
      have hknown := h.known k hk
      rw [heq, h.counter] at hknown
      have hlt : given.length < 2 ^ 64 := by omega
      exact next_not_mem_handles hlt (h.numbered ▸ hknown)
    by_cases hme : m = n
    · by_cases hme' : m' = n
      · rw [hme, hme']
      · have hold' := ((hlive m').mp hm').resolve_right hme'
        simp only [hme, Function.update_self, Function.update_of_ne hme', hh] at heq
        exact absurd heq.symm (hnext m' hold')
    · have hold := ((hlive m).mp hm).resolve_right hme
      by_cases hme' : m' = n
      · simp only [hme', Function.update_self, Function.update_of_ne hme, hh] at heq
        exact absurd heq (hnext m hold)
      · have hold' := ((hlive m').mp hm').resolve_right hme'
        simp only [Function.update_of_ne hme, Function.update_of_ne hme'] at heq
        exact h.distinct (by omega) m m' hold hold' heq

end Table

structure Keeps (s t : Sys) : Prop where
  table : Table t.evts t.mgr.core (issued t.log)
  issued_eq : issued t.log = issued s.log
  holds : ∀ handle, t.evts.Holds handle → s.evts.Holds handle

structure Adds (s t : Sys) : Prop where
  table : Table t.evts t.mgr.core (issued t.log)
  issued_eq : issued t.log = s.evts.ghandle :: issued s.log
  holds : ∀ handle, t.evts.Holds handle → s.evts.Holds handle ∨ handle = s.evts.ghandle

namespace Keeps

variable {s t u : Sys}

theorem refl (h : Table s.evts s.mgr.core (issued s.log)) : Keeps s s :=
  ⟨h, rfl, fun _ hh => hh⟩

theorem trans (h : Keeps s t) (h' : Keeps t u) : Keeps s u :=
  ⟨h'.table, h'.issued_eq.trans h.issued_eq, fun handle hh => h.holds handle (h'.holds handle hh)⟩

theorem frame (h : Keeps s t) {t' : Sys} (hevts : t'.evts = t.evts) (hmgr : t'.mgr = t.mgr)
    (hlog : issued t'.log = issued t.log) : Keeps s t' := by
  refine ⟨?_, hlog.trans h.issued_eq, ?_⟩
  · rw [hevts, hmgr, hlog]
    exact h.table
  · rw [hevts]
    exact h.holds

end Keeps

section

variable {s t : Sys}

theorem keeps_unset (h : Table s.evts s.mgr.core (issued s.log)) (handle : Nat) :
    Keeps s (s.itimerUnset handle) := by
  rw [Sys.itimerUnset]
  split
  · exact .refl h
  · cases hl : s.evts.itimerEvtBucketLookup handle with
    | none => exact .refl h
    | some e =>
      refine ⟨h.free (h.lookup hl).1 _, rfl, ?_⟩
      rintro handle' ⟨m, hm, hh⟩
      obtain ⟨i, hi⟩ := live_iff.mp hm
      dsimp only at hi hh
      rw [Pool.give_head] at hi
      by_cases hme : m = e
      · rw [if_pos hme] at hi
        cases hi
      · rw [if_neg hme] at hi
        rw [Function.update_of_ne hme] at hh
        exact ⟨m, live_iff.mpr ⟨i, hi⟩, hh⟩

theorem adds_set (h : Table s.evts s.mgr.core (issued s.log)) {tid : Nat} {f : Option Nat}
    {data user : Nat} {timer : BitVec 32} {repeat_ : Int}
    (hset : s.itimerSet tid f data user timer repeat_ = some t) : Adds s t := by
  rw [Sys.itimerSet] at hset
  split at hset
  · cases hset
  · next e pool htake =>
    cases hset
    obtain ⟨htable, hlive⟩ := h.set (by decide) htake
      { s.evts.evt e with
        toItimerEvt := ((s.mgr.itimerEvtInit e f data user).1.itimerEvtStart e
          (s.mgr.itimerEvtInit e f data user).2 timer repeat_).2
        handle := s.evts.ghandle, evtFree := true, pushTask := true
        task := (getTask s.queue tid (s.key tid)).2 } rfl
      ((s.mgr.itimerEvtInit e f data user).1.itimerEvtStart e
        (s.mgr.itimerEvtInit e f data user).2 timer repeat_).1.core
      (fun hfresh => by
        have hinit : Hosts (s.mgr.itimerEvtInit e f data user).1.core
            (fun m => s.evts.live m = true ∨ m = e) := h.hosts.initNode (by simp [hfresh])
        exact hinit.itimerEvtStart (Or.inr rfl) _ _ _)
    refine ⟨htable, rfl, ?_⟩
    rintro handle ⟨m, hm, hh⟩
    by_cases hme : m = e
    · subst hme
      simp only [Function.update_self] at hh
      exact Or.inr hh.symm
    · have hold := ((hlive m).mp hm).resolve_right hme
      simp only [Function.update_of_ne hme] at hh
      exact Or.inl ⟨m, hold, hh⟩

theorem itimerPushTask_frame (s : Sys) (millisec jiffies : BitVec 32) (e count : Nat) :
    (s.itimerPushTask millisec jiffies e count).evts = s.evts ∧
      (s.itimerPushTask millisec jiffies e count).mgr = s.mgr ∧
      (s.itimerPushTask millisec jiffies e count).log = s.log := by
  simp only [Sys.itimerPushTask]
  split
  · exact ⟨rfl, rfl, rfl⟩
  · split
    · exact ⟨rfl, rfl, rfl⟩
    · exact ⟨rfl, rfl, rfl⟩

theorem fire_frame (s : Sys) (millisec jiffies : BitVec 32) (e count : Nat) :
    (s.fire millisec jiffies e count).evts = s.evts ∧
      (s.fire millisec jiffies e count).mgr = s.mgr ∧
      (s.fire millisec jiffies e count).log = s.log := by
  simp only [Sys.fire]
  split
  · split
    · exact itimerPushTask_frame s millisec jiffies e count
    · exact ⟨rfl, rfl, rfl⟩
  · exact ⟨rfl, rfl, rfl⟩

theorem keeps_evt (h : Table s.evts s.mgr.core (issued s.log)) {e : Nat} (evt : ItimerEvt)
    (hh : evt.handle = (s.evts.evt e).handle) {mgr : TimeWheel.ItimerMgr} (ctrl : Ctrl)
    (hmgr : Hosts mgr.core (fun m => s.evts.live m = true)) :
    Keeps s { s with
      mgr := mgr, evts := { s.evts with evt := Function.update s.evts.evt e evt }
      ctrl := ctrl } := by
  refine ⟨(h.rewheel hmgr).updateEvt e hh, rfl, ?_⟩
  rintro handle ⟨m, hm, hmh⟩
  by_cases hme : m = e
  · subst hme
    simp only [Function.update_self] at hmh
    exact ⟨m, hm, hh.symm.trans hmh⟩
  · simp only [Function.update_of_ne hme] at hmh
    exact ⟨m, hm, hmh⟩

theorem keeps_evtCb (h : Table s.evts s.mgr.core (issued s.log)) {millisec jiffies : BitVec 32}
    {e : Nat} (he : s.evts.live e = true) (hcb : s.itimerEvtCb millisec jiffies e = some t) :
    Keeps s t := by
  simp only [Sys.itimerEvtCb] at hcb
  split at hcb
  · cases hcb
  · next mgr evt r hexpire =>
    cases hcb
    refine keeps_evt h (e := e) _ ?_ _ (h.hosts.itimerEvtExpire he hexpire)
    rfl

theorem keeps_fired (h : Table s.evts s.mgr.core (issued s.log)) (millisec jiffies : BitVec 32)
    (e : Nat) : Keeps s (s.fired millisec jiffies e) := by
  have hdone := keeps_evt h (e := e)
    { s.evts.evt e with
      toItimerEvt := { (s.evts.evt e).toItimerEvt with running := false } } rfl
    (.draining millisec jiffies) h.hosts
  simp only [Sys.fired]
  split
  · exact hdone.trans (keeps_unset hdone.table _)
  · exact hdone

theorem keeps_pushTaskToQ (h : Table s.evts s.mgr.core (issued s.log))
    {millisec jiffies : BitVec 32} {e count i key : Nat}
    (hpush : s.pushTaskToQ millisec jiffies e count i key = some t) : Keeps s t := by
  simp only [Sys.pushTaskToQ] at hpush
  split at hpush
  · cases hpush
  · split at hpush
    · cases hpush
      exact ⟨h, rfl, fun _ hh => hh⟩
    · cases hpush
      exact ⟨h, rfl, fun _ hh => hh⟩

theorem keeps_wheel (h : Table s.evts s.mgr.core (issued s.log)) (mgr : TimeWheel.ItimerMgr)
    (ctrl : Ctrl) (hmgr : Hosts mgr.core (fun m => s.evts.live m = true)) :
    Keeps s { s with mgr := mgr, ctrl := ctrl } :=
  ⟨h.rewheel hmgr, rfl, fun _ hh => hh⟩

theorem keeps_timer (h : Table s.evts s.mgr.core (issued s.log)) (hstep : s.timer = some t) :
    Keeps s t := by
  simp only [Sys.timer] at hstep
  split at hstep
  · cases hstep
  · split at hstep
    · cases hstep
      exact keeps_wheel h _ _ h.hosts
    · cases hstep
      exact keeps_wheel h _ _ h.hosts
  · split at hstep
    · cases hstep
      exact keeps_wheel h s.mgr.endTick _ h.hosts
    · cases hstep
      exact keeps_wheel h _ _ h.hosts.beginTick
  · split at hstep
    · cases hstep
      exact keeps_wheel h _ _ h.hosts
    · next n ns hlist =>
      have hn : s.evts.live n = true := by
        refine h.hosts.linked n ?_
        rw [(h.hosts.wf.mem_iff .queued n).mp (by rw [hlist]; exact List.mem_cons_self)]
        simp
      have hpop := keeps_wheel h { s.mgr with
        core := { s.mgr.core with links := s.mgr.core.links.unlink n } } s.ctrl (h.hosts.unlink n)
      rw [(h.hosts.node n hn).2.2] at hstep
      split at hstep
      · exact hpop.trans (keeps_evtCb hpop.table hn hstep)
      · cases hstep
        exact hpop
  · next millisec jiffies e count hctrl =>
    cases hstep
    obtain ⟨hevts, hmgr, hlog⟩ := fire_frame s millisec jiffies e count
    exact (Keeps.refl h).frame hevts hmgr (by rw [hlog])
  · cases hstep
    exact keeps_fired h _ _ _
  · exact keeps_pushTaskToQ h hstep

theorem keeps_update (h : Table s.evts s.mgr.core (issued s.log)) {tid : Nat}
    (hstep : s.update tid = some t) : Keeps s t := by
  simp only [Sys.update] at hstep
  split at hstep
  · cases hstep
    exact ⟨h, rfl, fun _ hh => hh⟩
  · split at hstep
    · cases hstep
    · cases hstep
      exact ⟨h, rfl, fun _ hh => hh⟩

theorem keeps_advance (h : Table s.evts s.mgr.core (issued s.log)) {tid : Nat}
    (hstep : s.advance tid = some t) : Keeps s t := by
  simp only [Sys.advance] at hstep
  split at hstep
  · cases hstep
  · split at hstep
    · cases hstep
      exact ⟨h, rfl, fun _ hh => hh⟩
    · split at hstep
      · cases hstep
        exact ⟨h, rfl, fun _ hh => hh⟩
      · cases hstep
        exact ⟨h, rfl, fun _ hh => hh⟩
  · cases hstep
    exact ⟨h, rfl, fun _ hh => hh⟩
  · split at hstep
    · cases hstep
      exact ⟨h, rfl, fun _ hh => hh⟩
    · cases hstep
      exact ⟨h, rfl, fun _ hh => hh⟩
  · cases hstep
    exact ⟨h, rfl, fun _ hh => hh⟩

theorem table_step (h : Table s.evts s.mgr.core (issued s.log)) {a : Act}
    (hstep : step s a = some t) : Keeps s t ∨ Adds s t := by
  cases a with
  | set tid f data user timer repeat_ =>
    simp only [step, Option.ite_none_right_eq_some] at hstep
    exact Or.inr (adds_set h hstep.2)
  | unset tid handle =>
    simp only [step, Option.ite_none_right_eq_some, Option.some.injEq] at hstep
    rw [← hstep.2]
    have hkeep := keeps_unset h handle
    exact Or.inl ((Keeps.refl h).trans ⟨hkeep.issued_eq ▸ hkeep.table, rfl, hkeep.holds⟩)
  | update tid =>
    simp only [step, Option.ite_none_right_eq_some] at hstep
    exact Or.inl (keeps_update h hstep.2)
  | advance tid => exact Or.inl (keeps_advance h hstep)
  | wake millisec =>
    simp only [step, Option.ite_none_right_eq_some, Option.some.injEq] at hstep
    rw [← hstep.2]
    refine Or.inl (keeps_wheel h (s.mgr.resync millisec) _ ?_)
    rw [TimeWheel.ItimerMgr.resync]
    split
    · exact h.hosts
    · split
      · exact h.hosts
      · exact h.hosts
  | timer => exact Or.inl (keeps_timer h hstep)

end

theorem table_of_run {millisec interval : BitVec 32} {as : List Act} {s : Sys}
    (h : Run.run step (Sys.init millisec interval) as = some s) :
    Table s.evts s.mgr.core (issued s.log) :=
  Run.run_invariant (p := fun s => Table s.evts s.mgr.core (issued s.log))
    (fun _ _ _ ht hstep => (table_step ht hstep).elim Keeps.table Adds.table)
    (table_init millisec interval) h

theorem gone_of_run {s t : Sys} {as : List Act} (hs : Table s.evts s.mgr.core (issued s.log))
    (h : Run.run step s as = some t) :
    (issued s.log).length ≤ (issued t.log).length ∧
      ((issued t.log).length ≤ 2 ^ 64 → ∀ handle ∈ issued s.log,
        ¬ s.evts.Holds handle → ¬ t.evts.Holds handle) := by
  induction as generalizing s with
  | nil =>
    cases h
    exact ⟨Nat.le_refl _, fun _ _ _ hno => hno⟩
  | cons a as ih =>
    obtain ⟨m, hm, ht⟩ := Run.run_cons.mp h
    rcases table_step hs hm with hkeep | hadd
    · obtain ⟨hle, hgone⟩ := ih hkeep.table ht
      rw [hkeep.issued_eq] at hle hgone
      exact ⟨hle, fun hn handle hh hno =>
        hgone hn handle hh (fun hm => hno (hkeep.holds handle hm))⟩
    · obtain ⟨hle, hgone⟩ := ih hadd.table ht
      rw [hadd.issued_eq, List.length_cons] at hle
      refine ⟨by omega, fun hn handle hh hno => ?_⟩
      refine hgone hn handle ?_ (fun hheld => ?_)
      · rw [hadd.issued_eq]
        exact List.mem_cons_of_mem _ hh
      · rcases hadd.holds handle hheld with hold | rfl
        · exact hno hold
        · have hlt : (issued s.log).length < 2 ^ 64 := by omega
          rw [hs.counter, hs.numbered, ← hs.numbered] at hh
          exact next_not_mem_handles hlt (hs.numbered ▸ hh)

theorem Table.made_eq {evts : EvtPool} {core : ItimerCore} {given : List Nat}
    (h : Table evts core given) :
    evts.pool.made = (evts.pool.links.list .free).length +
      ((List.range evts.pool.made).filter evts.live).length := by
  rw [show (List.range evts.pool.made).filter evts.live =
    (List.range evts.pool.made).filter (fun n => evts.pool.links.head n ≠ some .free) from
      List.filter_congr (fun e he => ?_)]
  · exact h.ok.made_eq
  · have hfull := h.full e (List.mem_range.mp he)
    rw [EvtPool.live]
    cases hq : evts.pool.links.head e with
    | none => exact absurd hq hfull
    | some q => cases q <;> simp

/-- The counters say how many records are free, and how many there are. -/
def EvtPool.Counts (p : EvtPool) : Prop :=
  p.pool.unuse.toNat = (p.pool.links.list .free).length ∧
    p.pool.alloc.toNat =
      p.pool.unuse.toNat + ((List.range p.pool.made).filter p.live).length

theorem Table.counts_iff {evts : EvtPool} {core : ItimerCore} {given : List Nat}
    (h : Table evts core given) : evts.Counts ↔ evts.pool.made < 2 ^ 32 := by
  have hmade := h.made_eq
  rw [EvtPool.Counts, h.kept, h.ok.counted, BitVec.toNat_ofNat, BitVec.toNat_ofNat]
  constructor
  · rintro ⟨hfree, halloc⟩
    rw [hfree, ← hmade] at halloc
    omega
  · intro hlt
    rw [Nat.mod_eq_of_lt (by omega), Nat.mod_eq_of_lt hlt]
    exact ⟨rfl, hmade⟩

/-- In every run the records of events are free or in the bucket of their handle, the counters are
right modulo 2^32, only nodes of timers are on the wheel, and a handle no timer has is cancelled
without effect. The counters are right as numbers as long as fewer than 2^32 records are made.
Until `itimer_set` has been called more than 2^64 times, no handle is given out twice, no two timers
have the same, and a timer that is gone never comes back under its handle. -/
theorem itimer_handle_table (millisec interval : BitVec 32) (as : List Act) (s : Sys)
    (h : Run.run step (Sys.init millisec interval) as = some s) :
    (∀ e, e < s.evts.pool.made → ∃! p, e ∈ s.evts.pool.links.list p) ∧
      (∀ e i, e ∈ s.evts.pool.links.list (.bucket i) →
        i = itimerBucketHash (s.evts.evt e).handle) ∧
      s.evts.pool.unuse = BitVec.ofNat 32 (s.evts.pool.links.list .free).length ∧
      s.evts.pool.alloc = s.evts.pool.unuse +
        BitVec.ofNat 32 ((List.range s.evts.pool.made).filter s.evts.live).length ∧
      (s.evts.pool.made < 2 ^ 32 → s.evts.Counts) ∧
      (∀ e p, e ∈ s.mgr.core.links.list p → e ∉ s.evts.pool.links.list .free) ∧
      (∀ handle, ¬ s.evts.Holds handle → s.itimerUnset handle = s) ∧
      ((issued s.log).length ≤ 2 ^ 64 → (issued s.log).Nodup ∧
        ∀ e e', s.evts.live e = true → s.evts.live e' = true →
          (s.evts.evt e).handle = (s.evts.evt e').handle → e = e') ∧
      ∀ bs t, Run.run step s bs = some t → (issued t.log).length ≤ 2 ^ 64 →
        ∀ handle ∈ issued s.log, ¬ s.evts.Holds handle → t.itimerUnset handle = t := by
  have hsilent : ∀ {s : Sys}, Table s.evts s.mgr.core (issued s.log) → ∀ handle,
      ¬ s.evts.Holds handle → s.itimerUnset handle = s := by
    intro s hs handle hno
    rw [Sys.itimerUnset, hs.lookup_none hno]
    split <;> rfl
  have hs := table_of_run h
  refine ⟨fun e he => hs.full.existsUnique hs.ok he, fun e i he => ?_, hs.ok.counted, ?_,
    hs.counts_iff.mpr, fun e p he hfree => ?_, hsilent hs, fun hn => ⟨?_, hs.distinct hn⟩, ?_⟩
  · exact hs.bucketed e i ((hs.ok.wf.mem_iff _ e).mp he)
  · rw [hs.kept, hs.ok.counted, ← BitVec.ofNat_add, ← hs.made_eq]
  · have hlive := hs.hosts.linked e (by rw [(hs.hosts.wf.mem_iff p e).mp he]; simp)
    obtain ⟨i, hi⟩ := live_iff.mp hlive
    rw [(hs.ok.wf.mem_iff _ e).mp hfree] at hi
    cases hi
  · rw [hs.numbered]
    exact handles_nodup hn
  · intro bs t ht hn handle hh hno
    have htable := Run.run_invariant (p := fun s => Table s.evts s.mgr.core (issued s.log))
      (fun _ _ _ hs hstep => (table_step hs hstep).elim Keeps.table Adds.table) hs ht
    exact hsilent htable handle ((gone_of_run hs ht).2 hn handle hh hno)

/-- A timer is set and cancelled, its record serves another one, and its handle is stale. -/
theorem itimer_handle_table_recycled :
    ∃ s t, Run.run step (Sys.init 0#32 1#32) [.set 1 none 0 0 1#32 0, .unset 1 1] = some s ∧
      Run.run step s (List.replicate 20 (.set 1 (some 7) 0 0 1#32 0)) = some t ∧
      t.evts.live 0 = true ∧ t.itimerUnset 1 = t := by
  have hrun : (Run.run step (Sys.init 0#32 1#32) [.set 1 none 0 0 1#32 0, .unset 1 1]).map
      (fun s => (issued s.log, s.evts.pool.made, (List.range 20).all fun e => !s.evts.live e,
        (Run.run step s (List.replicate 20 (.set 1 (some 7) 0 0 1#32 0))).map
          fun t => (t.evts.live 0, (issued t.log).length))) =
        some ([1], 20, true, some (true, 21)) := by
    decide +kernel
  obtain ⟨s, hs, hval⟩ := Option.map_eq_some_iff.mp hrun
  simp only [Prod.mk.injEq] at hval
  obtain ⟨hissued, hmade, hdead, hnext⟩ := hval
  obtain ⟨t, ht, hvalt⟩ := Option.map_eq_some_iff.mp hnext
  simp only [Prod.mk.injEq] at hvalt
  have hno : ¬ s.evts.Holds 1 := by
    rintro ⟨e, he, -⟩
    obtain ⟨i, hi⟩ := live_iff.mp he
    have hlt := (table_of_run hs).ok.lt_of_head hi
    rw [hmade] at hlt
    have hall := List.all_eq_true.mp hdead e (List.mem_range.mpr hlt)
    rw [he] at hall
    cases hall
  have hall := itimer_handle_table 0#32 1#32 _ s hs
  refine ⟨s, t, hs, ht, hvalt.1, ?_⟩
  exact hall.2.2.2.2.2.2.2.2 _ t ht (by rw [hvalt.2]; decide) 1 (by rw [hissued]; decide) hno

section

variable {s t : Sys} {e : Nat}

theorem itimerSet_frame (h : Table s.evts s.mgr.core (issued s.log)) (tid : Nat)
    (f : Option Nat) (data user : Nat) (timer : BitVec 32) (repeat_ : Int) :
    ∃ t e, s.itimerSet tid f data user timer repeat_ = some t ∧
      s.evts.live e = false ∧ t.evts.live e = true ∧ (t.evts.evt e).handle = s.evts.ghandle ∧
      t.evts.ghandle = (s.evts.ghandle + 1) % 2 ^ 64 ∧ t.phase = s.phase ∧
      (∀ m, s.evts.live m = true →
        t.evts.live m = true ∧ (t.evts.evt m).handle = (s.evts.evt m).handle) ∧
      t.evts.pool.made + (s.evts.pool.links.list .free).length =
        s.evts.pool.made + (t.evts.pool.links.list .free).length + 1 := by
  obtain ⟨e, pool, htake, -, -, -, hnone, hheads⟩ :=
    h.ok.take (show 0 < defItimerPoolAddSize by decide)
  have hfresh : s.evts.live e = false := by
    rw [← Bool.not_eq_true, live_iff]
    rintro ⟨i, hi⟩
    rw [(hheads e _ (by simp)).mpr hi] at hnone
    cases hnone
  rw [Sys.itimerSet, htake]
  refine ⟨_, e, rfl, hfresh, ?_, ?_, rfl, rfl, fun m hm => ?_, ?_⟩
  · exact live_iff.mpr ⟨_, by rw [Pool.link_head, if_pos rfl]⟩
  · simp only [Function.update_self]
  · have hme : m ≠ e := by
      rintro rfl
      rw [hfresh] at hm
      cases hm
    obtain ⟨i, hi⟩ := live_iff.mp hm
    refine ⟨live_iff.mpr ⟨i, ?_⟩, ?_⟩
    · rw [Pool.link_head, if_neg hme]
      exact (hheads m _ (by simp)).mpr hi
    · simp only [Function.update_of_ne hme]
  · simp only [Pool.link]
    rw [Links.addTail_list, if_neg (by simp)]
    exact h.ok.take_made htake

theorem itimerUnset_frame (h : Table s.evts s.mgr.core (issued s.log)) (handle : Nat) :
    (s.itimerUnset handle).evts.ghandle = s.evts.ghandle ∧
      (s.itimerUnset handle).phase = s.phase ∧
      ∀ m, s.evts.live m = true → (s.evts.evt m).handle ≠ handle →
        (s.itimerUnset handle).evts.live m = true ∧
          ((s.itimerUnset handle).evts.evt m).handle = (s.evts.evt m).handle := by
  rw [Sys.itimerUnset]
  split
  · exact ⟨rfl, rfl, fun m hm _ => ⟨hm, rfl⟩⟩
  · cases hl : s.evts.itimerEvtBucketLookup handle with
    | none => exact ⟨rfl, rfl, fun m hm _ => ⟨hm, rfl⟩⟩
    | some e =>
      refine ⟨rfl, rfl, fun m hm hne => ?_⟩
      have hme : m ≠ e := by
        rintro rfl
        exact hne (h.lookup hl).2
      obtain ⟨i, hi⟩ := live_iff.mp hm
      refine ⟨live_iff.mpr ⟨i, ?_⟩, ?_⟩
      · rw [Pool.give_head, if_neg hme]
        exact hi
      · simp only [Function.update_of_ne hme]

structure Holding (s : Sys) (e n : Nat) : Prop where
  table : Table s.evts s.mgr.core (issued s.log)
  idle : s.phase 1 = .idle
  next : s.evts.ghandle = n % 2 ^ 64
  live : s.evts.live e = true
  first : (s.evts.evt e).handle = 1

def setAct : Act := .set 1 none 0 0 1#32 0

theorem holding_set {n : Nat} (h : Holding s e n) :
    ∃ t e', step s setAct = some t ∧ Holding t e (n + 1) ∧ e' ≠ e ∧
      t.evts.live e' = true ∧ (t.evts.evt e').handle = n % 2 ^ 64 := by
  obtain ⟨t, e', hset, hfresh, hlive, hh, hg, hphase, hkeep, -⟩ :=
    itimerSet_frame h.table 1 none 0 0 1#32 0
  have hmay : s.maySet 1 = true := by rw [Sys.maySet, h.idle]
  obtain ⟨hlive₀, hh₀⟩ := hkeep e h.live
  refine ⟨t, e', ?_, ⟨(adds_set h.table hset).table, hphase ▸ h.idle, ?_, hlive₀, ?_⟩, ?_, hlive,
    hh.trans h.next⟩
  · rw [setAct, step, if_pos hmay]
    exact hset
  · rw [hg, h.next]
    omega
  · rw [hh₀, h.first]
  · rintro rfl
    rw [h.live] at hfresh
    cases hfresh

theorem holding_unset {n : Nat} (h : Holding s e n) (handle : Nat) (hne : handle ≠ 1) :
    ∃ t, step s (.unset 1 handle) = some t ∧ Holding t e n := by
  have hmay : s.mayUnset 1 = true := by rw [Sys.mayUnset, h.idle]
  have hkeep := keeps_unset h.table handle
  obtain ⟨hg, hphase, hothers⟩ := itimerUnset_frame h.table handle
  obtain ⟨hlive, hh⟩ := hothers e h.live (by rw [h.first]; exact hne.symm)
  refine ⟨{ s.itimerUnset handle with log := .unset 1 handle :: s.log }, ?_,
    ⟨hkeep.issued_eq ▸ hkeep.table, hphase ▸ h.idle, hg.trans h.next, hlive, hh.trans h.first⟩⟩
  rw [step, if_pos hmay]

def setCancel : Nat → Nat → List Act
  | 0, _ => []
  | count + 1, handle => setAct :: .unset 1 handle :: setCancel count (handle + 1)

theorem holding_setCancel (count : Nat) {handle : Nat} (h : Holding s e handle)
    (h2 : 2 ≤ handle) :
    ∃ t, Run.run step s (setCancel count handle) = some t ∧ Holding t e (handle + count) := by
  induction count generalizing s handle with
  | zero => exact ⟨s, rfl, h⟩
  | succ count ih =>
    obtain ⟨m, -, hset, hm, -⟩ := holding_set h
    obtain ⟨m', hunset, hm'⟩ := holding_unset hm handle (by omega)
    obtain ⟨t, ht, hold⟩ := ih hm' (by omega)
    refine ⟨t, ?_, ?_⟩
    · rw [setCancel, Run.run_cons]
      exact ⟨m, hset, Run.run_cons.mpr ⟨m', hunset, ht⟩⟩
    · rw [show handle + (count + 1) = handle + 1 + count by omega]
      exact hold


theorem handle_comes_back :
    ∃ s e e', Run.run step (Sys.init 0#32 1#32)
        (setAct :: (setCancel (2 ^ 64 - 1) 2 ++ [setAct])) = some s ∧ e ≠ e' ∧
      s.evts.live e = true ∧ s.evts.live e' = true ∧
      (s.evts.evt e).handle = (s.evts.evt e').handle := by
  have htable := table_init 0#32 1#32
  obtain ⟨s₁, e, hset, -, hlive, hh, hg, hphase, -⟩ :=
    itimerSet_frame (s := Sys.init 0#32 1#32) htable 1 none 0 0 1#32 0
  have hfirst : Holding s₁ e 2 := by
    refine ⟨(adds_set htable hset).table, ?_, ?_, hlive, hh⟩
    · rw [hphase]
      rfl
    · rw [hg]
      rfl
  have hstep : step (Sys.init 0#32 1#32) setAct = some s₁ := hset
  obtain ⟨s₂, hs₂, hsecond⟩ := holding_setCancel (2 ^ 64 - 1) hfirst (Nat.le_refl 2)
  obtain ⟨s₃, e', hlast, hthird, hne, hlive', hh'⟩ := holding_set hsecond
  refine ⟨s₃, e, e', ?_, hne.symm, hthird.live, hlive', ?_⟩
  · rw [Run.run_cons]
    refine ⟨s₁, hstep, Run.run_append.mpr ⟨s₂, hs₂, ?_⟩⟩
    rw [Run.run_cons]
    exact ⟨s₃, hlast, rfl⟩
  · rw [hthird.first, hh']
    rfl

structure Crowded (s : Sys) (n : Nat) : Prop where
  table : Table s.evts s.mgr.core (issued s.log)
  idle : s.phase 1 = .idle
  used : s.evts.pool.made = (s.evts.pool.links.list .free).length + n

theorem crowded_sets (count : Nat) {n : Nat} (h : Crowded s n) :
    ∃ t, Run.run step s (List.replicate count setAct) = some t ∧ Crowded t (n + count) := by
  induction count generalizing s n with
  | zero => exact ⟨s, rfl, h⟩
  | succ count ih =>
    obtain ⟨m, -, hset, -, -, -, -, hphase, -, hused⟩ :=
      itimerSet_frame h.table 1 none 0 0 1#32 0
    have hmay : s.maySet 1 = true := by rw [Sys.maySet, h.idle]
    have hstep : step s setAct = some m := by
      rw [setAct, step, if_pos hmay]
      exact hset
    have hold := h.used
    obtain ⟨t, ht, hlast⟩ := ih (n := n + 1)
      ⟨(adds_set h.table hset).table, hphase ▸ h.idle, by omega⟩
    refine ⟨t, ?_, ?_⟩
    · rw [List.replicate_succ, Run.run_cons]
      exact ⟨m, hstep, ht⟩
    · rw [show n + (count + 1) = n + 1 + count by omega]
      exact hlast

/-- A handle is given out again while its timer lives, after 2^64 timers; and with 2^32 timers at a
time the counters are of no use any more. -/
theorem itimer_handle_wraps :
    (∃ as s e e', Run.run step (Sys.init 0#32 1#32) as = some s ∧ e ≠ e' ∧
      s.evts.live e = true ∧ s.evts.live e' = true ∧
      (s.evts.evt e).handle = (s.evts.evt e').handle) ∧
    ∃ as s, Run.run step (Sys.init 0#32 1#32) as = some s ∧ ¬ s.evts.Counts := by
  refine ⟨⟨_, handle_comes_back⟩, ?_⟩
  obtain ⟨s, hs, hcrowd⟩ := crowded_sets (2 ^ 32)
    (s := Sys.init 0#32 1#32) (n := 0) ⟨table_init 0#32 1#32, rfl, rfl⟩
  refine ⟨_, s, hs, fun hcounts => ?_⟩
  have hlt := hcrowd.table.counts_iff.mp hcounts
  have hused := hcrowd.used
  omega

end

end AlgorithmLib.TimerThread
