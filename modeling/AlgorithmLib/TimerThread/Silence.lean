import AlgorithmLib.TimerThread.Records

/-!
Cancelled timers. A task carries the handle of its timer, but nothing looks at it: what is queued
when a thread cancels a timer, or about to be queued, still runs in a later `itimer_update_timer`.
In the runs in which a thread cancels a timer only while there is no such task, no cancelled timer
runs.
-/

set_option autoImplicit false

namespace AlgorithmLib.TimerThread

def created (tid handle : Nat) : List Event → Bool
  | [] => false
  | .set tid' handle' _ :: log => (tid' = tid && handle' = handle) || created tid handle log
  | _ :: log => created tid handle log

def cancelled (tid handle : Nat) : List Event → Bool
  | [] => false
  | .unset tid' handle' :: log =>
    (tid' = tid && handle' = handle && created tid handle log) || cancelled tid handle log
  | _ :: log => cancelled tid handle log

/-- The thread had cancelled the timer when its latest call of `itimer_update_timer` began. -/
def cancelledAtUpdate (tid handle : Nat) : List Event → Bool
  | [] => false
  | .update tid' :: log =>
    if tid' = tid then cancelled tid handle log else cancelledAtUpdate tid handle log
  | _ :: log => cancelledAtUpdate tid handle log

/-- No call of `itimer_update_timer` that began after a timer was cancelled has run it. -/
def Silent : List Event → Prop
  | [] => True
  | .ran tid task :: log => cancelledAtUpdate tid task.handle log = false ∧ Silent log
  | _ :: log => Silent log

def Sys.ownTasks (s : Sys) (tid : Nat) : List Nat :=
  let k := slot s.queue tid (s.key tid)
  if k < 0 then [] else s.tasks.pool.links.list (.queue k.toNat)

/-- The tasks that a later drain of the thread may run: what the timer thread is about to queue, and
what is on the queue of the thread unless it drains it now. -/
def Sys.undrained (s : Sys) (tid : Nat) : List Nat :=
  s.ctrl.hand.toList ++ if s.phase tid = .idle then s.ownTasks tid else []

/-- A thread cancels a timer of its own only while no task of the timer is left for a later drain,
and the counter of handles has not come back to 0. -/
def cancelsDrained (s : Sys) : Act → Prop
  | .set .. => s.evts.ghandle ≠ 0
  | .unset tid handle =>
    created tid handle s.log = true → ∀ t ∈ s.undrained tid, (s.tasks.task t).handle ≠ handle
  | _ => True

instance (s : Sys) : ∀ a, Decidable (cancelsDrained s a)
  | .set .. => inferInstanceAs (Decidable (s.evts.ghandle ≠ 0))
  | .unset tid handle =>
    inferInstanceAs (Decidable (created tid handle s.log = true →
      ∀ t ∈ s.undrained tid, (s.tasks.task t).handle ≠ handle))
  | .update _ => .isTrue trivial
  | .advance _ => .isTrue trivial
  | .wake _ => .isTrue trivial
  | .timer => .isTrue trivial

theorem created_of_cancelled {tid handle : Nat} {log : List Event}
    (h : cancelled tid handle log = true) : created tid handle log = true := by
  induction log with
  | nil => cases h
  | cons ev log ih =>
    cases ev with
    | set tid' handle' f =>
      rw [created, ih h, Bool.or_true]
    | unset tid' handle' =>
      simp only [cancelled, Bool.or_eq_true, Bool.and_eq_true] at h
      rcases h with ⟨-, h⟩ | h
      · exact h
      · exact ih h
    | _ => exact ih h

theorem cancelled_of_atUpdate {tid handle : Nat} {log : List Event}
    (h : cancelledAtUpdate tid handle log = true) : cancelled tid handle log = true := by
  induction log with
  | nil => cases h
  | cons ev log ih =>
    cases ev with
    | unset tid' handle' =>
      rw [cancelled, ih h, Bool.or_true]
    | update tid' =>
      simp only [cancelledAtUpdate] at h
      split at h
      · exact h
      · exact ih h
    | _ => exact ih h

def muted (phase : Nat → Phase) (log : List Event) (tid handle : Nat) : Bool :=
  cancelledAtUpdate tid handle log || ((phase tid).queue.isNone && cancelled tid handle log)

/-- The records of events: those in the buckets are the live timers, none of them cancelled. -/
structure EvtInv (evts : EvtPool) (queue : Queues) (log : List Event) : Prop where
  ok : evts.pool.Ok .free
  ghandle_lt : evts.ghandle < 2 ^ 64
  numbered : ∀ tid handle, created tid handle log = true →
    0 < handle ∧ (handle < evts.ghandle ∨ evts.ghandle = 0)
  live : ∀ e i, evts.pool.links.head e = some (.bucket i) →
    i = itimerBucketHash (evts.evt e).handle ∧
      ∃ tid, created tid (evts.evt e).handle log = true ∧
        ∀ k : Nat, (evts.evt e).task = k → Owns queue tid k
  distinct : ∀ e e' i i', evts.pool.links.head e = some (.bucket i) →
    evts.pool.links.head e' = some (.bucket i') → (evts.evt e).handle = (evts.evt e').handle → e = e'
  armed : ∀ e, (evts.evt e).callback ≠ none → ∃ i, evts.pool.links.head e = some (.bucket i)
  gone : ∀ tid e i, evts.pool.links.head e = some (.bucket i) →
    cancelled tid (evts.evt e).handle log = false

structure TaskInv (tasks : TaskPool) (queue : Queues) (phase : Nat → Phase) (log : List Event) :
    Prop where
  queued : ∀ t k, tasks.pool.links.head t = some (.queue k) →
    ∃ tid, created tid (tasks.task t).handle log = true ∧ Owns queue tid k
  audible : ∀ tid t k, tasks.pool.links.head t = some (.queue k) → Owns queue tid k →
    muted phase log tid (tasks.task t).handle = false

def Wanted (queue : Queues) (log : List Event) (task : ItimerTask) (k : Nat) : Prop :=
  ∃ tid, created tid task.handle log = true ∧ Owns queue tid k ∧
    cancelled tid task.handle log = false

structure Inv (s : Sys) : Prop where
  records : Records s
  evts : EvtInv s.evts s.queue s.log
  tasks : TaskInv s.tasks s.queue s.phase s.log
  hand : ∀ {millisec jiffies e count t k}, s.ctrl = .pushing millisec jiffies e count t k →
    Wanted s.queue s.log (s.tasks.task t) k
  silent : Silent s.log

theorem evtInv_init : EvtInv { pool := .empty, evt := fun _ => zeroEvt, ghandle := 1 }
    (fun _ => { state := .unuse, tid := 0, lock := none }) [] where
  ok := Pool.ok_empty _
  ghandle_lt := by decide
  numbered _ _ h := by cases h
  live _ _ h := by cases h
  distinct _ _ _ _ h := by cases h
  armed _ h := (h rfl).elim
  gone _ _ _ h := by cases h

namespace EvtInv

variable {evts : EvtPool} {queue : Queues} {log : List Event}

theorem queues (h : EvtInv evts queue log) {queue' : Queues}
    (hq : ∀ tid k, Owns queue tid k → Owns queue' tid k) : EvtInv evts queue' log :=
  { h with
    live := fun e i he => by
      obtain ⟨hi, tid, hc, ho⟩ := h.live e i he
      exact ⟨hi, tid, hc, fun k hk => hq tid k (ho k hk)⟩ }

theorem grow (h : EvtInv evts queue log) {log' : List Event}
    (hc : ∀ tid handle, created tid handle log' = created tid handle log)
    (hk : ∀ tid handle, cancelled tid handle log' = cancelled tid handle log) :
    EvtInv evts queue log' where
  ok := h.ok
  ghandle_lt := h.ghandle_lt
  numbered tid handle := by
    rw [hc]
    exact h.numbered tid handle
  live := by
    simp only [hc]
    exact h.live
  distinct := h.distinct
  armed := h.armed
  gone := by
    simp only [hk]
    exact h.gone

theorem updateEvt (h : EvtInv evts queue log) (e : Nat) (evt : ItimerEvt)
    (hh : evt.handle = (evts.evt e).handle) (hc : evt.callback = (evts.evt e).callback)
    (ht : evt.task = (evts.evt e).task) :
    EvtInv { evts with evt := Function.update evts.evt e evt } queue log := by
  have hh' : ∀ e', (Function.update evts.evt e evt e').handle = (evts.evt e').handle := by
    intro e'
    by_cases he : e' = e
    · rw [he, Function.update_self, hh]
    · rw [Function.update_of_ne he]
  have hc' : ∀ e', (Function.update evts.evt e evt e').callback = (evts.evt e').callback := by
    intro e'
    by_cases he : e' = e
    · rw [he, Function.update_self, hc]
    · rw [Function.update_of_ne he]
  have ht' : ∀ e', (Function.update evts.evt e evt e').task = (evts.evt e').task := by
    intro e'
    by_cases he : e' = e
    · rw [he, Function.update_self, ht]
    · rw [Function.update_of_ne he]
  refine ⟨h.ok, h.ghandle_lt, h.numbered, ?_, ?_, ?_, ?_⟩
  · simp only [hh', ht']
    exact h.live
  · simp only [hh']
    exact h.distinct
  · simp only [hc']
    exact h.armed
  · simp only [hh']
    exact h.gone

theorem free (h : EvtInv evts queue log) {e i : Nat} (he : evts.pool.links.head e = some (.bucket i))
    (evt : ItimerEvt) (hc : evt.callback = none) :
    EvtInv
      { evts with pool := evts.pool.give .free e, evt := Function.update evts.evt e evt }
      queue log := by
  have hhead : ∀ m j, (evts.pool.give .free e).links.head m = some (.bucket j) →
      m ≠ e ∧ evts.pool.links.head m = some (.bucket j) := by
    intro m j hm
    rw [Pool.give_head] at hm
    split at hm
    · cases hm
    · next hne => exact ⟨hne, hm⟩
  refine ⟨h.ok.give (h.ok.lt_of_head he) (by simp [he]), h.ghandle_lt, h.numbered, ?_, ?_, ?_, ?_⟩
  · intro m j hm
    obtain ⟨hne, hm⟩ := hhead m j hm
    simp only [Function.update_of_ne hne]
    exact h.live m j hm
  · intro m m' j j' hm hm' heq
    obtain ⟨hne, hm⟩ := hhead m j hm
    obtain ⟨hne', hm'⟩ := hhead m' j' hm'
    simp only [Function.update_of_ne hne, Function.update_of_ne hne'] at heq
    exact h.distinct m m' j j' hm hm' heq
  · intro m hm
    by_cases hne : m = e
    · subst hne
      simp only [Function.update_self] at hm
      exact absurd hc hm
    · simp only [Function.update_of_ne hne] at hm
      obtain ⟨j, hj⟩ := h.armed m hm
      exact ⟨j, by rw [Pool.give_head, if_neg hne]; exact hj⟩
  · intro tid m j hm
    obtain ⟨hne, hm⟩ := hhead m j hm
    simp only [Function.update_of_ne hne]
    exact h.gone tid m j hm

theorem lookup (h : EvtInv evts queue log) {handle e : Nat}
    (hl : evts.itimerEvtBucketLookup handle = some e) :
    (evts.evt e).handle = handle ∧
      evts.pool.links.head e = some (.bucket (itimerBucketHash handle)) := by
  have hmem := List.mem_of_find?_eq_some hl
  have hh := List.find?_some hl
  exact ⟨by simpa using hh, (h.ok.wf.mem_iff _ e).mp hmem⟩

theorem lookup_none (h : EvtInv evts queue log) {handle : Nat}
    (hl : evts.itimerEvtBucketLookup handle = none) {e i : Nat}
    (he : evts.pool.links.head e = some (.bucket i)) : (evts.evt e).handle ≠ handle := by
  rintro rfl
  rw [(h.live e i he).1] at he
  have hnot := List.find?_eq_none.mp hl e ((h.ok.wf.mem_iff _ e).mpr he)
  simp at hnot

theorem logUnset (h : EvtInv evts queue log) (tid handle : Nat)
    (hno : ∀ e i, evts.pool.links.head e = some (.bucket i) → created tid handle log = true →
      (evts.evt e).handle ≠ handle) :
    EvtInv evts queue (.unset tid handle :: log) :=
  { h with
    gone := fun tid' e i he => by
      rw [cancelled, h.gone tid' e i he, Bool.or_false, Bool.and_eq_false_iff, Bool.and_eq_false_iff]
      by_cases hc : created tid handle log = true
      · have hne := hno e i he hc
        exact Or.inl (Or.inr (by simp [Ne.symm hne]))
      · by_cases heq : handle = (evts.evt e).handle
        · by_cases ht : tid = tid'
          · subst ht
            rw [← heq]
            exact Or.inr (by simpa using hc)
          · exact Or.inl (Or.inl (by simp [ht]))
        · exact Or.inl (Or.inr (by simp [heq])) }

theorem set (h : EvtInv evts queue log) (hg : evts.ghandle ≠ 0) {size e : Nat}
    {pool : Pool EvtPlace} (hsize : 0 < size) (htake : evts.pool.take .free size = some (e, pool))
    {tid : Nat} {evt : ItimerEvt} (hh : evt.handle = evts.ghandle)
    (ht : ∀ k : Nat, evt.task = k → Owns queue tid k) (f : Option Nat) :
    EvtInv
      { pool := pool.link e (.bucket (itimerBucketHash evts.ghandle))
        evt := Function.update evts.evt e evt
        ghandle := (evts.ghandle + 1) % 2 ^ 64 }
      queue (.set tid evts.ghandle f :: log) := by
  obtain ⟨n, p', htake', hok, hlt, -, hnone, hheads⟩ := h.ok.take hsize
  obtain ⟨rfl, rfl⟩ : n = e ∧ p' = pool := by simpa [htake'] using htake
  have hhead : ∀ m j, (p'.link n (.bucket (itimerBucketHash evts.ghandle))).links.head m =
      some (.bucket j) → m = n ∧ j = itimerBucketHash evts.ghandle ∨
        m ≠ n ∧ evts.pool.links.head m = some (.bucket j) := by
    intro m j hm
    rw [Pool.link_head] at hm
    by_cases hne : m = n
    · rw [if_pos hne, Option.some.injEq, EvtPlace.bucket.injEq] at hm
      exact Or.inl ⟨hne, hm.symm⟩
    · rw [if_neg hne] at hm
      exact Or.inr ⟨hne, (hheads m _ (by simp)).mp hm⟩
  have hnew : ∀ tid', created tid' evts.ghandle log = false := by
    intro tid'
    by_contra hc
    have hnum := h.numbered tid' _ (Bool.not_eq_false _ ▸ hc)
    omega
  have hold : ∀ m j, evts.pool.links.head m = some (.bucket j) →
      (evts.evt m).handle ≠ evts.ghandle := by
    intro m j hm heq
    obtain ⟨-, tid', hc, -⟩ := h.live m j hm
    rw [heq, hnew] at hc
    cases hc
  refine ⟨hok.link hlt hnone (by simp), Nat.mod_lt _ (by decide), ?_, ?_, ?_, ?_, ?_⟩
  · intro tid' handle hc
    simp only [created, Bool.or_eq_true, Bool.and_eq_true, decide_eq_true_eq] at hc
    have hlt64 := h.ghandle_lt
    rcases hc with ⟨-, rfl⟩ | hc
    · dsimp only
      omega
    · have hnum := h.numbered tid' handle hc
      dsimp only
      omega
  · intro m j hm
    rcases hhead m j hm with ⟨rfl, rfl⟩ | ⟨hne, hm⟩
    · simp only [Function.update_self, hh]
      exact ⟨trivial, tid, by simp [created], ht⟩
    · simp only [Function.update_of_ne hne]
      obtain ⟨hj, tid', hc, ho⟩ := h.live m j hm
      exact ⟨hj, tid', by rw [created, hc, Bool.or_true], ho⟩
  · intro m m' j j' hm hm' heq
    rcases hhead m j hm with ⟨rfl, rfl⟩ | ⟨hne, hin⟩
    · rcases hhead m' j' hm' with ⟨rfl, rfl⟩ | ⟨hne', hin'⟩
      · rfl
      · simp only [Function.update_self, Function.update_of_ne hne', hh] at heq
        exact absurd heq.symm (hold m' j' hin')
    · rcases hhead m' j' hm' with ⟨rfl, rfl⟩ | ⟨hne', hin'⟩
      · simp only [Function.update_self, Function.update_of_ne hne, hh] at heq
        exact absurd heq (hold m j hin)
      · simp only [Function.update_of_ne hne, Function.update_of_ne hne'] at heq
        exact h.distinct m m' j j' hin hin' heq
  · intro m hm
    by_cases hne : m = n
    · exact ⟨_, by rw [Pool.link_head, if_pos hne]⟩
    · simp only [Function.update_of_ne hne] at hm
      obtain ⟨j, hj⟩ := h.armed m hm
      exact ⟨j, by rw [Pool.link_head, if_neg hne]; exact (hheads m _ (by simp)).mpr hj⟩
  · intro tid' m j hm
    rcases hhead m j hm with ⟨rfl, rfl⟩ | ⟨hne, hm⟩
    · simp only [Function.update_self, hh, cancelled]
      by_contra hc
      have hcr := created_of_cancelled (Bool.not_eq_false _ ▸ hc)
      rw [hnew] at hcr
      cases hcr
    · simp only [Function.update_of_ne hne, cancelled]
      exact h.gone tid' m j hm

end EvtInv

theorem taskInv_init : TaskInv
    { pool := .empty, task := fun _ => { handle := 0, callback := none, data := 0, user := 0 } }
    (fun _ => { state := .unuse, tid := 0, lock := none }) (fun _ => .idle) [] where
  queued _ _ h := by cases h
  audible _ _ _ h := by cases h

namespace TaskInv

variable {tasks : TaskPool} {queue : Queues} {phase : Nat → Phase} {log : List Event}

/-- `GetTask` may give a thread a queue, one that has no tasks then. -/
theorem queues (h : TaskInv tasks queue phase log) {queue' : Queues}
    (hq : ∀ tid k, Owns queue tid k → Owns queue' tid k)
    (hq' : ∀ tid k, Owns queue' tid k → Owns queue tid k ∨ (queue k).state = .unuse) :
    TaskInv tasks queue' phase log where
  queued t k ht := by
    obtain ⟨tid, hc, ho⟩ := h.queued t k ht
    exact ⟨tid, hc, hq tid k ho⟩
  audible tid t k ht ho := by
    rcases hq' tid k ho with ho | hunuse
    · exact h.audible tid t k ht ho
    · obtain ⟨tid', -, ho'⟩ := h.queued t k ht
      rw [ho'.1] at hunuse
      cases hunuse

theorem shrink (h : TaskInv tasks queue phase log) {pool : Pool TaskPlace}
    (hsub : ∀ t k, pool.links.head t = some (.queue k) →
      tasks.pool.links.head t = some (.queue k)) :
    TaskInv { tasks with pool := pool } queue phase log where
  queued t k ht := h.queued t k (hsub t k ht)
  audible tid t k ht := h.audible tid t k (hsub t k ht)

theorem grow (h : TaskInv tasks queue phase log) {log' : List Event}
    (hc : ∀ tid handle, created tid handle log = true → created tid handle log' = true)
    (hm : ∀ tid t k, tasks.pool.links.head t = some (.queue k) → Owns queue tid k →
      created tid (tasks.task t).handle log = true →
      muted phase log tid (tasks.task t).handle = false →
      muted phase log' tid (tasks.task t).handle = false) :
    TaskInv tasks queue phase log' where
  queued t k ht := by
    obtain ⟨tid, hcr, ho⟩ := h.queued t k ht
    exact ⟨tid, hc _ _ hcr, ho⟩
  audible tid t k ht ho := by
    obtain ⟨tid', hcr, ho'⟩ := h.queued t k ht
    obtain rfl : tid' = tid := ho'.2.symm.trans ho.2
    exact hm tid' t k ht ho hcr (h.audible tid' t k ht ho)

theorem fill (h : TaskInv tasks queue phase log) {size t : Nat} {pool : Pool TaskPlace}
    (hok : tasks.pool.Ok .free) (hsize : 0 < size)
    (htake : tasks.pool.take .free size = some (t, pool)) (task : ItimerTask) :
    TaskInv { pool := pool, task := Function.update tasks.task t task } queue phase log := by
  obtain ⟨n, p', htake', -, -, -, hnone, hheads⟩ := hok.take hsize
  obtain ⟨rfl, rfl⟩ : n = t ∧ p' = pool := by simpa [htake'] using htake
  have hhead : ∀ m j, p'.links.head m = some (.queue j) →
      m ≠ n ∧ tasks.pool.links.head m = some (.queue j) := by
    intro m j hm
    refine ⟨?_, (hheads m _ (by simp)).mp hm⟩
    rintro rfl
    rw [hnone] at hm
    cases hm
  refine ⟨fun m j hm => ?_, fun tid m j hm ho => ?_⟩
  · obtain ⟨hne, hin⟩ := hhead m j hm
    simp only [Function.update_of_ne hne]
    exact h.queued m j hin
  · obtain ⟨hne, hin⟩ := hhead m j hm
    simp only [Function.update_of_ne hne]
    exact h.audible tid m j hin ho

theorem push (h : TaskInv tasks queue phase log) {t k : Nat}
    (hw : Wanted queue log (tasks.task t) k) :
    TaskInv { tasks with pool := tasks.pool.link t (.queue k) } queue phase log := by
  obtain ⟨tid, hc, ho, hnot⟩ := hw
  have hhead : ∀ m j, (tasks.pool.link t (.queue k)).links.head m = some (.queue j) →
      m = t ∧ j = k ∨ tasks.pool.links.head m = some (.queue j) := by
    intro m j hm
    rw [Pool.link_head] at hm
    by_cases hne : m = t
    · rw [if_pos hne, Option.some.injEq, TaskPlace.queue.injEq] at hm
      exact Or.inl ⟨hne, hm.symm⟩
    · rw [if_neg hne] at hm
      exact Or.inr hm
  refine ⟨fun m j hm => ?_, fun tid' m j hm ho' => ?_⟩
  · rcases hhead m j hm with ⟨rfl, rfl⟩ | hin
    · exact ⟨tid, hc, ho⟩
    · exact h.queued m j hin
  · rcases hhead m j hm with ⟨rfl, rfl⟩ | hin
    · obtain rfl : tid = tid' := ho.2.symm.trans ho'.2
      rw [muted, hnot, Bool.and_false, Bool.or_false]
      by_contra hat
      rw [cancelled_of_atUpdate (Bool.not_eq_false _ ▸ hat)] at hnot
      cases hnot
    · exact h.audible tid' m j hin ho'

theorem goto (h : TaskInv tasks queue phase log) (tid : Nat) {p : Phase}
    (hq : p.queue = (phase tid).queue) :
    TaskInv tasks queue (Function.update phase tid p) log := by
  refine ⟨h.queued, fun tid' t k ht ho => ?_⟩
  have hsame : (Function.update phase tid p tid').queue = (phase tid').queue := by
    by_cases htid : tid' = tid
    · rw [htid, Function.update_self, hq]
    · rw [Function.update_of_ne htid]
  rw [muted, hsame]
  exact h.audible tid' t k ht ho

/-- A call of `itimer_update_timer` begins: what is queued is of timers not cancelled so far. -/
theorem enter (h : TaskInv tasks queue phase log) {tid : Nat} (p : Phase)
    (hidle : (phase tid).queue = none) :
    TaskInv tasks queue (Function.update phase tid p) (.update tid :: log) := by
  refine ⟨h.queued, fun tid' t k ht hown => ?_⟩
  have haud := h.audible tid' t k ht hown
  by_cases htid : tid' = tid
  · subst htid
    rw [muted, hidle, Bool.or_eq_false_iff, Option.isNone_none, Bool.true_and] at haud
    simp only [muted, cancelledAtUpdate, if_true, cancelled, haud.2, Bool.and_false,
      Bool.or_false]
  · rw [muted, cancelledAtUpdate, if_neg (fun he => htid he.symm), Function.update_of_ne htid]
    exact haud

theorem leave (h : TaskInv tasks queue phase log) {tid k : Nat} (hwf : tasks.pool.links.WF)
    (hinj : ∀ j, Owns queue tid j → j = k) (hempty : tasks.pool.links.list (.queue k) = []) :
    TaskInv tasks queue (Function.update phase tid .releasing) log := by
  refine ⟨h.queued, fun tid' t j ht hown => ?_⟩
  by_cases htid : tid' = tid
  · subst htid
    rw [hinj j hown, ← hwf.mem_iff, hempty] at ht
    cases ht
  · rw [muted, Function.update_of_ne htid]
    exact h.audible tid' t j ht hown

end TaskInv

theorem Wanted.queues {queue queue' : Queues} {log : List Event} {task : ItimerTask} {k : Nat}
    (h : Wanted queue log task k) (hq : ∀ tid k, Owns queue tid k → Owns queue' tid k) :
    Wanted queue' log task k := by
  obtain ⟨tid, hc, ho, hnot⟩ := h
  exact ⟨tid, hc, hq tid k ho, hnot⟩

theorem inv_init (millisec interval : BitVec 32) : Inv (Sys.init millisec interval) where
  records := Records.init millisec interval
  evts := evtInv_init
  tasks := taskInv_init
  hand hctrl := by cases hctrl
  silent := trivial

namespace Inv

variable {s t : Sys}

theorem lock (h : Inv s) (k : Nat) (lock : Option Nat) :
    Inv { s with queue := Function.update s.queue k { s.queue k with lock := lock } } where
  records := h.records.lock k lock
  evts := h.evts.queues (fun _ _ hj => (owns_lock ..).mpr hj)
  tasks := h.tasks.queues (fun _ _ hj => (owns_lock ..).mpr hj)
    (fun _ _ hj => Or.inl ((owns_lock ..).mp hj))
  hand hctrl := (h.hand hctrl).queues (fun _ _ hj => (owns_lock ..).mpr hj)
  silent := h.silent

theorem getTask (h : Inv s) (tid : Nat) :
    Inv { s with
      queue := (getTask s.queue tid (s.key tid)).1
      key := Function.update s.key tid (getTask s.queue tid (s.key tid)).2 } := by
  have hget := h.records.slots.getTask tid
  exact ⟨h.records.getTask tid, h.evts.queues hget.keeps, h.tasks.queues hget.keeps hget.only,
    fun hctrl => (h.hand hctrl).queues hget.keeps, h.silent⟩

theorem itimerSet (h : Inv s) (hg : s.evts.ghandle ≠ 0) {tid : Nat} {f : Option Nat}
    {data user : Nat} {timer : BitVec 32} {repeat_ : Int}
    (hset : s.itimerSet tid f data user timer repeat_ = some t) : Inv t := by
  have hrec := h.records.itimerSet hset
  rw [Sys.itimerSet] at hset
  split at hset
  · cases hset
  · next e pool htake =>
    cases hset
    have hget := h.getTask tid
    refine ⟨hrec, hget.evts.set hg (by decide) htake rfl ?_ f, ?_, fun hctrl => ?_, h.silent⟩
    · exact fun k hk => (h.records.slots.getTask tid).owns k hk
    · refine hget.tasks.grow (fun tid' handle hc => ?_) (fun tid' t' k _ _ _ hm => hm)
      rw [created, hc, Bool.or_true]
    · obtain ⟨tid', hc, ho, hnot⟩ := hget.hand hctrl
      exact ⟨tid', by rw [created, hc, Bool.or_true], ho, hnot⟩

theorem itimerUnset (h : Inv s) (handle : Nat) :
    Inv (s.itimerUnset handle) ∧ (s.itimerUnset handle).log = s.log ∧
      (s.itimerUnset handle).queue = s.queue ∧ (s.itimerUnset handle).ctrl = s.ctrl ∧
      (s.itimerUnset handle).tasks = s.tasks ∧ (s.itimerUnset handle).phase = s.phase ∧
      ∀ e i, (s.itimerUnset handle).evts.pool.links.head e = some (.bucket i) → handle ≠ 0 →
        ((s.itimerUnset handle).evts.evt e).handle ≠ handle := by
  have hrec := h.records.itimerUnset handle
  rw [Sys.itimerUnset] at hrec ⊢
  split
  · next h0 => exact ⟨h, rfl, rfl, rfl, rfl, rfl, fun _ _ _ hne => absurd h0 hne⟩
  · next h0 =>
    rw [if_neg h0] at hrec
    split
    · next hl => exact ⟨h, rfl, rfl, rfl, rfl, rfl, fun e i he _ => h.evts.lookup_none hl he⟩
    · next e hl =>
      obtain ⟨hh, he⟩ := h.evts.lookup hl
      simp only [hl] at hrec
      refine ⟨⟨hrec, h.evts.free he _ rfl, h.tasks, h.hand, h.silent⟩, rfl, rfl, rfl, rfl, rfl, ?_⟩
      intro m i hm _
      dsimp only at hm ⊢
      rw [Pool.give_head] at hm
      split at hm
      · cases hm
      · next hne =>
        rw [Function.update_of_ne hne]
        intro heq
        exact hne (h.evts.distinct m e i _ hm he (heq.trans hh.symm))

theorem mem_ownTasks (h : Inv s) {tid t k : Nat} (ho : Owns s.queue tid k)
    (ht : s.tasks.pool.links.head t = some (.queue k)) : t ∈ s.ownTasks tid := by
  rw [Sys.ownTasks, h.records.slots.found tid k ho, if_neg (by omega), Int.toNat_natCast]
  exact (h.records.ok.wf.mem_iff _ t).mpr ht

theorem cancelled_unset {tid tid' handle handle' : Nat} {log : List Event}
    (hne : ¬ (tid = tid' ∧ handle = handle')) (hnot : cancelled tid' handle' log = false) :
    cancelled tid' handle' (.unset tid handle :: log) = false := by
  rw [cancelled, hnot, Bool.or_false, Bool.and_eq_false_iff]
  left
  simpa using hne

theorem unset (h : Inv s) {tid handle : Nat}
    (hc : created tid handle s.log = true →
      ∀ t ∈ s.undrained tid, (s.tasks.task t).handle ≠ handle)
    (hmay : s.mayUnset tid = true) :
    Inv { s.itimerUnset handle with log := .unset tid handle :: s.log } := by
  obtain ⟨hinv, hlog, hqueue, hctrl, htasks, hphase, hgone⟩ := h.itimerUnset handle
  refine ⟨hinv.records.frame rfl rfl rfl rfl rfl, ?_, ?_, fun hpush => ?_, h.silent⟩
  · rw [← hlog]
    refine hinv.evts.logUnset tid handle (fun e i he hcr => hgone e i he ?_)
    rw [hlog] at hcr
    exact Nat.pos_iff_ne_zero.mp (h.evts.numbered tid handle hcr).1
  · rw [htasks, hqueue, hphase]
    refine h.tasks.grow (fun _ _ hcr => hcr) (fun tid' t k ht ho hcr hm => ?_)
    rw [muted, Bool.or_eq_false_iff] at hm ⊢
    refine ⟨hm.1, ?_⟩
    have hcan := hm.2
    rw [Bool.and_eq_false_iff] at hcan ⊢
    rcases hcan with hbusy | hcan
    · exact Or.inl hbusy
    · by_cases hthis : tid = tid' ∧ handle = (s.tasks.task t).handle
      · obtain ⟨rfl, hhandle⟩ := hthis
        left
        cases hph : s.phase tid with
        | idle =>
          refine absurd hhandle.symm (hc (hhandle ▸ hcr) t ?_)
          rw [Sys.undrained, if_pos hph]
          exact List.mem_append_right _ (h.mem_ownTasks ho ht)
        | calling j i => rfl
        | draining j => simp [Sys.mayUnset, hph] at hmay
        | releasing => simp [Sys.mayUnset, hph] at hmay
        | freeing i => simp [Sys.mayUnset, hph] at hmay
      · exact Or.inr (cancelled_unset hthis hcan)
  · dsimp only at hpush ⊢
    rw [hctrl] at hpush
    rw [htasks, hqueue]
    obtain ⟨tid', hcr, ho, hnot⟩ := h.hand hpush
    refine ⟨tid', hcr, ho, cancelled_unset ?_ hnot⟩
    rintro ⟨rfl, hhandle⟩
    refine hc (hhandle ▸ hcr) _ ?_ hhandle.symm
    rw [Sys.undrained, hpush]
    exact List.mem_append_left _ (List.mem_singleton_self _)

theorem itimerPushTask (h : Inv s) (hhand : s.ctrl.hand = none) (millisec jiffies : BitVec 32)
    {e : Nat} (he : (s.evts.evt e).callback ≠ none) (count : Nat) :
    Inv (s.itimerPushTask millisec jiffies e count) := by
  have hrec := h.records.itimerPushTask hhand millisec jiffies e count
  obtain ⟨i, hi⟩ := h.evts.armed e he
  obtain ⟨-, tid, hcr, hown⟩ := h.evts.live e i hi
  have hnot := h.evts.gone tid e i hi
  simp only [Sys.itimerPushTask] at hrec ⊢
  split
  · next hneg =>
    rw [if_pos hneg] at hrec
    exact ⟨hrec, h.evts, h.tasks, (fun hpush => by cases hpush), h.silent⟩
  · next hpos =>
    rw [if_neg hpos] at hrec
    split
    · next htake =>
      simp only [htake] at hrec
      exact ⟨hrec, h.evts, h.tasks, (fun hpush => by cases hpush), h.silent⟩
    · next t pool htake =>
      simp only [htake] at hrec
      refine ⟨hrec, h.evts, h.tasks.fill h.records.ok (by decide) htake _, fun hpush => ?_,
        h.silent⟩
      cases hpush
      simp only [Function.update_self]
      exact ⟨tid, hcr, hown (s.evts.evt e).task.toNat (by omega), hnot⟩

theorem fire (h : Inv s) (hhand : s.ctrl.hand = none) (millisec jiffies : BitVec 32)
    (e count : Nat) : Inv (s.fire millisec jiffies e count) := by
  have hstay : ∀ count, Inv { s with ctrl := .firing millisec jiffies e count } := fun _ =>
    ⟨h.records.frame rfl rfl rfl rfl hhand.symm, h.evts, h.tasks, (fun hpush => by cases hpush),
      h.silent⟩
  simp only [Sys.fire]
  split
  · next hgo =>
    split
    · refine h.itimerPushTask hhand millisec jiffies ?_ count
      rw [Bool.and_eq_true] at hgo
      exact Option.isSome_iff_ne_none.mp hgo.1
    · exact hstay count
  · exact hstay 0

theorem pushTaskToQ (h : Inv s) {millisec jiffies : BitVec 32} {e count i key : Nat}
    (hctrl : s.ctrl = .pushing millisec jiffies e count i key)
    (hpush : s.pushTaskToQ millisec jiffies e count i key = some t) : Inv t := by
  have hrec := h.records.pushTaskToQ hctrl hpush
  simp only [Sys.pushTaskToQ] at hpush
  split at hpush
  · cases hpush
  · split at hpush
    · cases hpush
      exact ⟨hrec, h.evts.grow (fun _ _ => rfl) (fun _ _ => rfl),
        (h.tasks.push (h.hand hctrl)).grow (fun _ _ hc => hc) (fun _ _ _ _ _ _ hm => hm),
          (fun hp => by cases hp), h.silent⟩
    · cases hpush
      refine ⟨hrec, h.evts, h.tasks.shrink (fun m j hm => ?_), (fun hp => by cases hp), h.silent⟩
      rw [Pool.give_head] at hm
      split at hm
      · cases hm
      · exact hm

theorem itimerEvtCb (h : Inv s) (hhand : s.ctrl.hand = none) {millisec jiffies : BitVec 32}
    {e : Nat} (hcb : s.itimerEvtCb millisec jiffies e = some t) : Inv t := by
  have hrec := h.records.itimerEvtCb hhand hcb
  simp only [Sys.itimerEvtCb] at hcb
  split at hcb
  · cases hcb
  · next mgr evt r hexpire =>
    have hcall := TimeWheel.ItimerMgr.itimerEvtExpire_callback hexpire
    cases hcb
    exact ⟨hrec, h.evts.updateEvt e _ rfl hcall rfl, h.tasks, (fun hp => by cases hp), h.silent⟩

theorem fired (h : Inv s) (hhand : s.ctrl.hand = none) (millisec jiffies : BitVec 32) (e : Nat) :
    Inv (s.fired millisec jiffies e) := by
  have hdone : Inv { s with
      evts :=
        { s.evts with
          evt := Function.update s.evts.evt e
            { s.evts.evt e with
              toItimerEvt := { (s.evts.evt e).toItimerEvt with running := false } } }
      ctrl := .draining millisec jiffies } :=
    ⟨h.records.frame rfl rfl rfl rfl hhand.symm, h.evts.updateEvt e _ rfl rfl rfl, h.tasks,
      (fun hp => by cases hp), h.silent⟩
  simp only [Sys.fired]
  split
  · exact (hdone.itimerUnset _).1
  · exact hdone

theorem timer (h : Inv s) (hstep : s.timer = some t) : Inv t := by
  have hsame : ∀ mgr ctrl, s.ctrl.hand = none → ctrl.hand = none →
      Inv { s with mgr := mgr, ctrl := ctrl } := by
    intro mgr ctrl hold hnew
    refine ⟨h.records.frame rfl rfl rfl rfl (hnew.trans hold.symm), h.evts, h.tasks,
      fun hp => ?_, h.silent⟩
    dsimp only at hp
    rw [hp] at hnew
    cases hnew
  simp only [Sys.timer] at hstep
  split at hstep
  · cases hstep
  · next hctrl =>
    split at hstep
    · cases hstep
      exact hsame _ _ (by rw [hctrl]; rfl) rfl
    · cases hstep
      exact hsame _ _ (by rw [hctrl]; rfl) rfl
  · next hctrl =>
    split at hstep
    · cases hstep
      exact hsame _ _ (by rw [hctrl]; rfl) rfl
    · cases hstep
      exact hsame _ _ (by rw [hctrl]; rfl) rfl
  · next hctrl =>
    have hnone : s.ctrl.hand = none := by rw [hctrl]; rfl
    split at hstep
    · cases hstep
      exact hsame _ _ hnone rfl
    · split at hstep
      · refine itimerEvtCb ?_ ?_ hstep
        · exact hsame _ s.ctrl hnone hnone
        · exact hnone
      · cases hstep
        exact hsame _ s.ctrl hnone hnone
  · next hctrl =>
    cases hstep
    exact h.fire (by rw [hctrl]; rfl) _ _ _ _
  · next hctrl =>
    cases hstep
    exact h.fired (by rw [hctrl]; rfl) _ _ _
  · next hctrl => exact h.pushTaskToQ hctrl hstep

theorem update (h : Inv s) {tid : Nat} (hidle : s.phase tid = .idle)
    (hstep : s.update tid = some t) : Inv t := by
  have hrec := h.records.update hidle hstep
  have hget := h.getTask tid
  have hphase : (s.phase tid).queue = none := by rw [hidle]; rfl
  have hlog : ∀ {k : Nat} {task : ItimerTask},
      Wanted (TimerThread.getTask s.queue tid (s.key tid)).1 s.log task k →
        Wanted (TimerThread.getTask s.queue tid (s.key tid)).1 (.update tid :: s.log) task k :=
    fun hw => hw
  simp only [Sys.update] at hstep
  split at hstep
  · cases hstep
    have henter := hget.tasks.enter .idle hphase
    simp only [← hidle, Function.update_eq_self] at henter
    exact ⟨hrec, hget.evts.grow (fun _ _ => rfl) (fun _ _ => rfl), henter,
      fun hctrl => hlog (hget.hand hctrl), h.silent⟩
  · next hpos =>
    split at hstep
    · cases hstep
    · cases hstep
      have hlock := hget.lock (TimerThread.getTask s.queue tid (s.key tid)).2.toNat (some tid)
      exact ⟨hrec, hlock.evts.grow (fun _ _ => rfl) (fun _ _ => rfl),
        hlock.tasks.enter _ hphase, fun hctrl => hlock.hand hctrl, h.silent⟩

theorem ran (h : Inv s) {tid k i : Nat} {is : List Nat} (hphase : s.phase tid = .draining k)
    (hlist : s.tasks.pool.links.list (.queue k) = i :: is)
    (hrec : Records { s with
      phase := Function.update s.phase tid (.calling k i)
      log := .ran tid (s.tasks.task i) :: s.log }) :
    Inv { s with
      phase := Function.update s.phase tid (.calling k i)
      log := .ran tid (s.tasks.task i) :: s.log } := by
  have hq : (s.phase tid).queue = some k := by rw [hphase]; rfl
  have hi : s.tasks.pool.links.head i = some (.queue k) :=
    (h.records.ok.wf.mem_iff _ i).mp (by rw [hlist]; exact List.mem_cons_self)
  have haud := h.tasks.audible tid i k hi (h.records.busy tid k hq)
  rw [muted, Bool.or_eq_false_iff] at haud
  have hgoto := h.tasks.goto tid (p := .calling k i) (by rw [hphase]; rfl)
  exact ⟨hrec, h.evts.grow (fun _ _ => rfl) (fun _ _ => rfl),
    hgoto.grow (fun _ _ hc => hc) (fun _ _ _ _ _ _ hm => hm), fun hctrl => h.hand hctrl,
    haud.1, h.silent⟩

theorem takeTask (h : Inv s) {tid k i : Nat} (hq : (s.phase tid).queue = some k)
    (hrec : Records (s.takeTask tid k i)) : Inv (s.takeTask tid k i) := by
  refine ⟨hrec, h.evts, (h.tasks.goto tid (p := .draining k) hq.symm).shrink (fun m j hm => ?_),
    h.hand, h.silent⟩
  have hhead := toLocal_head s.tasks.pool.links tid i m
  rw [toLocal] at hhead
  rw [hhead] at hm
  split at hm
  · cases hm
  · exact hm

theorem advance (h : Inv s) {tid : Nat} (hstep : s.advance tid = some t) : Inv t := by
  have hrec := h.records.advance hstep
  simp only [Sys.advance] at hstep
  split at hstep
  · cases hstep
  · next k hphase =>
    have hq : (s.phase tid).queue = some k := by rw [hphase]; rfl
    split at hstep
    · next hempty =>
      cases hstep
      have hleave := h.tasks.leave h.records.ok.wf (fun j hj => h.records.only hq hj) hempty
      exact ⟨hrec, h.evts.queues (fun _ _ hj => (owns_lock ..).mpr hj),
        hleave.queues (fun _ _ hj => (owns_lock ..).mpr hj)
          (fun _ _ hj => Or.inl ((owns_lock ..).mp hj)),
        fun hctrl => (h.hand hctrl).queues (fun _ _ hj => (owns_lock ..).mpr hj), h.silent⟩
    · next i is hlist =>
      split at hstep
      · cases hstep
        exact h.ran hphase hlist hrec
      · cases hstep
        exact h.takeTask hq hrec
  · next k i hphase =>
    cases hstep
    exact h.takeTask (by rw [hphase]; rfl) hrec
  · next hphase =>
    split at hstep
    · cases hstep
      exact ⟨hrec, h.evts, h.tasks.goto tid (by rw [hphase]; rfl), h.hand, h.silent⟩
    · next i is hlist =>
      cases hstep
      refine ⟨hrec, h.evts, (h.tasks.goto tid (by rw [hphase]; rfl)).shrink (fun m j hm => ?_),
        h.hand, h.silent⟩
      rw [Links.unlink_head] at hm
      split at hm
      · cases hm
      · exact hm
  · next i hphase =>
    cases hstep
    refine ⟨hrec, h.evts, (h.tasks.goto tid (by rw [hphase]; rfl)).shrink (fun m j hm => ?_),
      h.hand, h.silent⟩
    rw [Pool.give_head] at hm
    split at hm
    · cases hm
    · exact hm

theorem step (h : Inv s) {a : Act} (hc : cancelsDrained s a)
    (hstep : TimerThread.step s a = some t) : Inv t := by
  have hrec := h.records.step hstep
  cases a with
  | set tid f data user timer repeat_ =>
    simp only [TimerThread.step, Option.ite_none_right_eq_some] at hstep
    exact h.itimerSet hc hstep.2
  | unset tid handle =>
    simp only [TimerThread.step, Option.ite_none_right_eq_some, Option.some.injEq] at hstep
    rw [← hstep.2]
    exact h.unset hc hstep.1
  | update tid =>
    simp only [TimerThread.step, Option.ite_none_right_eq_some] at hstep
    exact h.update hstep.1 hstep.2
  | advance tid => exact h.advance hstep
  | wake millisec =>
    simp only [TimerThread.step, Option.ite_none_right_eq_some, Option.some.injEq] at hstep
    rw [← hstep.2] at hrec ⊢
    exact ⟨hrec, h.evts, h.tasks, (fun hp => by cases hp), h.silent⟩
  | timer => exact h.timer hstep

end Inv

end AlgorithmLib.TimerThread
