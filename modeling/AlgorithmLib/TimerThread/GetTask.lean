import Mathlib.Algebra.Order.Ring.Int
import AlgorithmLib.Library.Run
import AlgorithmLib.TimerThread.Slots

/-!
`GetTask` with its locks: a thread locks one queue after the other, from its own id on, until one is
its own or nobody's. The thread-local `key` is the cursor of the search and afterwards the result; a
result of 0 is not remembered.
-/

set_option autoImplicit false

namespace AlgorithmLib.TimerThread

/-- Where a thread is in `GetTask`. -/
inductive TaskPc where
  | idle
  /-- before `itimer_task_lock` -/
  | locking (okey : Int)
  /-- behind it, with this queue -/
  | holding (okey : Int) (q : Nat)
  /-- before `itimer_task_unlock`, and whether the loop goes on -/
  | unlocking (q : Nat) (again : Option Int)
  deriving DecidableEq, Repr

def TaskPc.holds (q : Nat) : TaskPc → Bool
  | .holding _ k => k = q
  | .unlocking k _ => k = q
  | _ => false

/-- The queues, the thread-local keys, the threads by their id, and what they were returned. -/
structure TaskSys where
  queue : Queues
  key : Nat → Int
  pc : Nat → TaskPc
  returned : List (Nat × Int)

namespace TaskSys

/-- `itimer_task_init`, before the first call. -/
def init : TaskSys :=
  { queue := fun _ => { state := .unuse, tid := 0, lock := none }, key := fun _ => 0
    pc := fun _ => .idle, returned := [] }

def call (s : TaskSys) (tid : Nat) : TaskSys :=
  if s.key tid ≠ 0 then { s with returned := (tid, s.key tid) :: s.returned }
  else
    { s with
      key := Function.update s.key tid (tid % maxThreadTask : Nat)
      pc := Function.update s.pc tid (.locking (tid % maxThreadTask : Nat)) }

def lock (s : TaskSys) (tid : Nat) (okey : Int) (q : Nat) : TaskSys :=
  { s with
    queue := Function.update s.queue q { s.queue q with lock := some tid }
    pc := Function.update s.pc tid (.holding okey q) }

def claim (s : TaskSys) (tid q : Nat) : TaskSys :=
  { s with
    queue := Function.update s.queue q { s.queue q with state := .useed, tid := tid }
    pc := Function.update s.pc tid (.unlocking q none) }

def pass (s : TaskSys) (tid : Nat) (okey : Int) (q : Nat) : TaskSys :=
  let key := if s.key tid + 1 ≥ maxThreadTask then 0 else s.key tid + 1
  if key = okey then
    { s with
      key := Function.update s.key tid (-1)
      pc := Function.update s.pc tid (.unlocking q none) }
  else
    { s with
      key := Function.update s.key tid key
      pc := Function.update s.pc tid (.unlocking q (some okey)) }

def unlock (s : TaskSys) (tid q : Nat) (again : Option Int) : TaskSys :=
  let queue := Function.update s.queue q { s.queue q with lock := none }
  match again with
  | some okey => { s with queue := queue, pc := Function.update s.pc tid (.locking okey) }
  | none =>
    { s with
      queue := queue
      pc := Function.update s.pc tid .idle
      returned := (tid, s.key tid) :: s.returned }

/-- The next step of a call, unless it waits for a lock. -/
def go (s : TaskSys) (tid : Nat) : Option TaskSys :=
  match s.pc tid with
  | .idle => none
  | .locking okey =>
    if (s.queue (s.key tid).toNat).lock = none then some (s.lock tid okey (s.key tid).toNat) else none
  | .holding okey q =>
    if (s.queue q).state = .unuse then some (s.claim tid q)
    else if (s.queue q).tid = tid then
      some { s with pc := Function.update s.pc tid (.unlocking q none) }
    else some (s.pass tid okey q)
  | .unlocking q again => some (s.unlock tid q again)

end TaskSys

inductive TaskAct where
  | call (tid : Nat)
  | go (tid : Nat)
  deriving DecidableEq, Repr

def taskStep (s : TaskSys) : TaskAct → Option TaskSys
  | .call tid => if s.pc tid = .idle then some (s.call tid) else none
  | .go tid => s.go tid

/-- The queue that the thread looks at after `d` others. -/
def place (tid d : Nat) : Nat := (tid % maxThreadTask + d) % maxThreadTask

/-- The queue belongs to another thread. -/
def Others (queue : Queues) (tid k : Nat) : Prop :=
  (queue k).state = .useed ∧ (queue k).tid ≠ tid

/-- The first `d` queues the thread looks at belong to others. -/
def Passed (queue : Queues) (tid d : Nat) : Prop := ∀ i, i < d → Others queue tid (place tid i)

def Result (queue : Queues) (tid : Nat) (key : Int) : Prop :=
  (∃ k : Nat, key = k ∧ k < maxThreadTask ∧ Owns queue tid k) ∨
    key = -1 ∧ Passed queue tid maxThreadTask

/-- The search has come to the queue `key`. -/
def Searching (queue : Queues) (tid : Nat) (key okey : Int) : Prop :=
  okey = (tid % maxThreadTask : Nat) ∧
    ∃ d, d < maxThreadTask ∧ key = (place tid d : Nat) ∧ Passed queue tid d

def Knows (queue : Queues) (tid : Nat) (key : Int) : TaskPc → Prop
  | .idle => key = 0 ∨ Result queue tid key
  | .locking okey => Searching queue tid key okey
  | .holding okey q => Searching queue tid key okey ∧ key = q
  | .unlocking _ none => Result queue tid key
  | .unlocking _ (some okey) => Searching queue tid key okey

structure TaskSys.Inv (s : TaskSys) : Prop where
  knows : ∀ tid, Knows s.queue tid (s.key tid) (s.pc tid)
  locked : ∀ q tid, (s.queue q).lock = some tid ↔ (s.pc tid).holds q
  owned : ∀ tid k, Owns s.queue tid k → ∃ d, d < maxThreadTask ∧ k = place tid d ∧
    Passed s.queue tid d
  results : ∀ r ∈ s.returned, Result s.queue r.1 r.2

def Grows (queue queue' : Queues) : Prop :=
  ∀ k, (queue k).state = .useed → (queue' k).state = .useed ∧ (queue' k).tid = (queue k).tid

namespace Grows

variable {queue queue' : Queues} {tid k d : Nat} {key okey : Int}

theorem owns (h : Grows queue queue') (hown : Owns queue tid k) : Owns queue' tid k := by
  obtain ⟨hstate, htid⟩ := h k hown.1
  exact ⟨hstate, htid.trans hown.2⟩

theorem others (h : Grows queue queue') (hother : Others queue tid k) : Others queue' tid k := by
  obtain ⟨hstate, htid⟩ := h k hother.1
  exact ⟨hstate, htid ▸ hother.2⟩

theorem passed (h : Grows queue queue') (hpassed : Passed queue tid d) : Passed queue' tid d :=
  fun i hi => h.others (hpassed i hi)

theorem result (h : Grows queue queue') (hresult : Result queue tid key) :
    Result queue' tid key := by
  rcases hresult with ⟨k, hkey, hk, hown⟩ | ⟨hkey, hpassed⟩
  · exact .inl ⟨k, hkey, hk, h.owns hown⟩
  · exact .inr ⟨hkey, h.passed hpassed⟩

theorem searching (h : Grows queue queue') (hs : Searching queue tid key okey) :
    Searching queue' tid key okey := by
  obtain ⟨hokey, d, hd, hkey, hpassed⟩ := hs
  exact ⟨hokey, d, hd, hkey, h.passed hpassed⟩

theorem knows (h : Grows queue queue') {pc : TaskPc} (hknows : Knows queue tid key pc) :
    Knows queue' tid key pc := by
  cases pc with
  | idle => exact hknows.imp_right h.result
  | locking okey => exact h.searching hknows
  | holding okey q => exact ⟨h.searching hknows.1, hknows.2⟩
  | unlocking q again =>
    cases again with
    | none => exact h.result hknows
    | some okey => exact h.searching hknows

end Grows

theorem grows_of_same {queue queue' : Queues} (hstate : ∀ k, (queue' k).state = (queue k).state)
    (htid : ∀ k, (queue' k).tid = (queue k).tid) : Grows queue queue' :=
  fun k hk => ⟨(hstate k).trans hk, htid k⟩

theorem place_succ (tid d : Nat) :
    place tid (d + 1) = if place tid d + 1 ≥ maxThreadTask then 0 else place tid d + 1 := by
  split
  next hwrap =>
    simp only [place, maxThreadTask] at hwrap ⊢
    omega
  next hwrap =>
    simp only [place, maxThreadTask] at hwrap ⊢
    omega

theorem next_place {tid d : Nat} {key : Int} (hkey : key = (place tid d : Nat)) :
    (if key + 1 ≥ maxThreadTask then (0 : Int) else key + 1) = (place tid (d + 1) : Nat) := by
  rw [place_succ, hkey]
  split <;> split <;> omega

theorem useed_of_ne {q : ItimerTaskQ} (h : q.state ≠ .unuse) : q.state = .useed := by
  cases hstate : q.state with
  | useed => rfl
  | unuse => exact absurd hstate h

theorem place_surj (tid : Nat) {k : Nat} (hk : k < maxThreadTask) :
    ∃ d, d < maxThreadTask ∧ k = place tid d := by
  refine ⟨(k + maxThreadTask - tid % maxThreadTask) % maxThreadTask, ?_, ?_⟩
  · simp only [maxThreadTask]
    omega
  · simp only [place, maxThreadTask] at *
    omega

theorem Passed.others {queue : Queues} {tid k : Nat} (h : Passed queue tid maxThreadTask)
    (hk : k < maxThreadTask) : Others queue tid k := by
  obtain ⟨d, hd, rfl⟩ := place_surj tid hk
  exact h d hd

namespace TaskSys

variable {s t : TaskSys} {tid q : Nat} {okey : Int}

theorem inv_init : Inv init where
  knows := fun _ => .inl rfl
  locked := fun q tid => by simp [init, TaskPc.holds]
  owned := fun tid k h => by simp [Owns, init] at h
  results := fun r hr => by simp [init] at hr

namespace Inv

theorem of_step (h : Inv s) (tid : Nat) (hgrows : Grows s.queue t.queue)
    (hkey : ∀ tid', tid' ≠ tid → t.key tid' = s.key tid')
    (hpc : ∀ tid', tid' ≠ tid → t.pc tid' = s.pc tid')
    (hknows : Knows t.queue tid (t.key tid) (t.pc tid))
    (hlocked : ∀ q tid', (t.queue q).lock = some tid' ↔ (t.pc tid').holds q)
    (howned : ∀ tid' k, Owns t.queue tid' k → Owns s.queue tid' k ∨
      ∃ d, d < maxThreadTask ∧ k = place tid' d ∧ Passed t.queue tid' d)
    (hresults : ∀ r ∈ t.returned, r ∈ s.returned ∨ Result t.queue r.1 r.2) : Inv t := by
  refine ⟨fun tid' => ?_, hlocked, fun tid' k hk => ?_, fun r hr => ?_⟩
  · by_cases hne : tid' = tid
    · exact hne ▸ hknows
    · rw [hkey tid' hne, hpc tid' hne]
      exact hgrows.knows (h.knows tid')
  · rcases howned tid' k hk with hold | hnew
    · obtain ⟨d, hd, hplace, hpassed⟩ := h.owned tid' k hold
      exact ⟨d, hd, hplace, hgrows.passed hpassed⟩
    · exact hnew
  · rcases hresults r hr with hold | hnew
    · exact hgrows.result (h.results r hold)
    · exact hnew

theorem locked_same (h : Inv s) {tid : Nat}
    (hlock : ∀ k, (t.queue k).lock = (s.queue k).lock)
    (hpc : ∀ tid', tid' ≠ tid → t.pc tid' = s.pc tid')
    (hholds : ∀ k, (t.pc tid).holds k = (s.pc tid).holds k) (k tid' : Nat) :
    (t.queue k).lock = some tid' ↔ (t.pc tid').holds k := by
  rw [hlock, h.locked]
  by_cases hne : tid' = tid
  · rw [hne, hholds]
  · rw [hpc tid' hne]

theorem call (h : Inv s) (hpc : s.pc tid = .idle) : Inv (s.call tid) := by
  have hknows := h.knows tid
  rw [hpc] at hknows
  unfold TaskSys.call
  split
  next hkey =>
    refine h.of_step tid (fun k hk => ⟨hk, rfl⟩) (fun _ _ => rfl) (fun _ _ => rfl)
      (h.knows tid) h.locked (fun tid' k hk => .inl hk) (fun r hr => ?_)
    rcases List.mem_cons.mp hr with rfl | hr
    · exact .inr (hknows.resolve_left hkey)
    · exact .inl hr
  next =>
    have hother : ∀ tid', tid' ≠ tid →
        Function.update s.pc tid (.locking (tid % maxThreadTask : Nat)) tid' = s.pc tid' :=
      fun tid' hne => Function.update_of_ne hne _ _
    refine h.of_step tid (fun k hk => ⟨hk, rfl⟩) (fun _ hne => Function.update_of_ne hne _ _)
      hother ?_ (h.locked_same (fun _ => rfl) hother ?_) (fun tid' k hk => .inl hk)
      (fun r hr => .inl hr)
    · simp only [Function.update_self]
      refine ⟨rfl, 0, by decide, ?_, fun i hi => by omega⟩
      simp [place]
    · intro k
      simp [hpc, TaskPc.holds]

theorem lock (h : Inv s) (hpc : s.pc tid = .locking okey)
    (hfree : (s.queue (s.key tid).toNat).lock = none) :
    Inv (s.lock tid okey (s.key tid).toNat) := by
  have hknows := h.knows tid
  rw [hpc] at hknows
  have hsame : ∀ k, ((s.lock tid okey (s.key tid).toNat).queue k).state = (s.queue k).state ∧
      ((s.lock tid okey (s.key tid).toNat).queue k).tid = (s.queue k).tid := by
    intro k
    simp only [TaskSys.lock, Function.update_apply]
    split
    next hk => simp [hk]
    next => simp
  have hgrows := grows_of_same (fun k => (hsame k).1) (fun k => (hsame k).2)
  refine h.of_step tid hgrows (fun _ _ => rfl) (fun _ hne => Function.update_of_ne hne _ _) ?_ ?_
    (fun tid' k hk => .inl ?_) (fun r hr => .inl hr)
  · simp only [TaskSys.lock, Function.update_self]
    refine ⟨hgrows.searching hknows, ?_⟩
    obtain ⟨-, d, -, hkey, -⟩ := hknows
    rw [hkey]
    rfl
  · intro k tid'
    by_cases hk : k = (s.key tid).toNat
    · by_cases hne : tid' = tid
      · simp [TaskSys.lock, hk, hne, TaskPc.holds]
      · have hother := h.locked (s.key tid).toNat tid'
        simp only [hfree, reduceCtorEq, false_iff] at hother
        simp [TaskSys.lock, hk, hne, hother, Ne.symm hne]
    · by_cases hne : tid' = tid
      · have hself := h.locked k tid
        rw [hpc] at hself
        simp only [TaskPc.holds, Bool.false_eq_true, iff_false] at hself
        simp [TaskSys.lock, hk, hne, hself, TaskPc.holds, Ne.symm hk]
      · simp [TaskSys.lock, hk, hne, h.locked]
  · rw [Owns, (hsame k).1, (hsame k).2] at hk
    exact hk

theorem claim (h : Inv s) (hpc : s.pc tid = .holding okey q) (hfree : (s.queue q).state = .unuse) :
    Inv (s.claim tid q) := by
  have hknows := h.knows tid
  rw [hpc] at hknows
  obtain ⟨⟨-, d, hd, hkey, hpassed⟩, hq⟩ := hknows
  have hplace : q = place tid d := by omega
  have hother : ∀ k, k ≠ q → (s.claim tid q).queue k = s.queue k :=
    fun k hk => Function.update_of_ne hk _ _
  have hself : (s.claim tid q).queue q = { s.queue q with state := .useed, tid := tid } :=
    Function.update_self _ _ _
  have hgrows : Grows s.queue (s.claim tid q).queue := by
    intro k hk
    have hne : k ≠ q := by
      rintro rfl
      rw [hfree] at hk
      cases hk
    rw [hother k hne]
    exact ⟨hk, rfl⟩
  refine h.of_step tid hgrows (fun _ _ => rfl) (fun _ hne => Function.update_of_ne hne _ _) ?_
    (h.locked_same (fun k => ?_) (fun _ hne => Function.update_of_ne hne _ _) fun k => ?_)
    (fun tid' k hk => ?_) (fun r hr => .inl hr)
  · simp only [TaskSys.claim, Function.update_self]
    refine .inl ⟨q, hq, ?_, ?_⟩
    · rw [hplace]
      exact Nat.mod_lt _ (by decide)
    · simp [Owns]
  · by_cases hk : k = q
    · rw [hk, hself]
    · rw [hother k hk]
  · simp [TaskSys.claim, hpc, TaskPc.holds]
  · by_cases hkq : k = q
    · rw [Owns, hkq, hself] at hk
      obtain rfl : tid = tid' := hk.2
      exact .inr ⟨d, hd, hkq.trans hplace, hgrows.passed hpassed⟩
    · rw [Owns, hother k hkq] at hk
      exact .inl hk

theorem own (h : Inv s) (hpc : s.pc tid = .holding okey q) (hused : (s.queue q).state ≠ .unuse)
    (htid : (s.queue q).tid = tid) :
    Inv { s with pc := Function.update s.pc tid (.unlocking q none) } := by
  have hknows := h.knows tid
  rw [hpc] at hknows
  obtain ⟨⟨-, d, -, hkey, -⟩, hq⟩ := hknows
  have hplace : q = place tid d := by omega
  have hstate := useed_of_ne hused
  refine h.of_step tid (fun k hk => ⟨hk, rfl⟩) (fun _ _ => rfl)
    (fun _ hne => Function.update_of_ne hne _ _) ?_
    (h.locked_same (fun _ => rfl) (fun _ hne => Function.update_of_ne hne _ _) fun k => ?_)
    (fun tid' k hk => .inl hk) (fun r hr => .inl hr)
  · simp only [Function.update_self]
    refine .inl ⟨q, hq, ?_, hstate, htid⟩
    rw [hplace]
    exact Nat.mod_lt _ (by decide)
  · simp [hpc, TaskPc.holds]

theorem pass (h : Inv s) (hpc : s.pc tid = .holding okey q) (hused : (s.queue q).state ≠ .unuse)
    (htid : (s.queue q).tid ≠ tid) : Inv (s.pass tid okey q) := by
  have hknows := h.knows tid
  rw [hpc] at hknows
  obtain ⟨⟨hokey, d, hd, hkey, hpassed⟩, hq⟩ := hknows
  have hplace : q = place tid d := by omega
  have hstate := useed_of_ne hused
  have hlonger : Passed s.queue tid (d + 1) := by
    intro i hi
    rcases Nat.lt_succ_iff_lt_or_eq.mp hi with hi | rfl
    · exact hpassed i hi
    · exact hplace ▸ ⟨hstate, htid⟩
  have hround : ((place tid (d + 1) : Nat) : Int) = okey ↔ d + 1 = maxThreadTask := by
    rw [hokey]
    simp only [place, maxThreadTask] at hd ⊢
    omega
  rw [TaskSys.pass, next_place hkey]
  split
  next hend =>
    refine h.of_step tid (fun k hk => ⟨hk, rfl⟩) (fun _ hne => Function.update_of_ne hne _ _)
      (fun _ hne => Function.update_of_ne hne _ _) ?_
      (h.locked_same (fun _ => rfl) (fun _ hne => Function.update_of_ne hne _ _) fun k => ?_)
      (fun tid' k hk => .inl hk) (fun r hr => .inl hr)
    · simp only [Function.update_self]
      exact .inr ⟨rfl, hround.mp hend ▸ hlonger⟩
    · simp [hpc, TaskPc.holds]
  next hmore =>
    refine h.of_step tid (fun k hk => ⟨hk, rfl⟩) (fun _ hne => Function.update_of_ne hne _ _)
      (fun _ hne => Function.update_of_ne hne _ _) ?_
      (h.locked_same (fun _ => rfl) (fun _ hne => Function.update_of_ne hne _ _) fun k => ?_)
      (fun tid' k hk => .inl hk) (fun r hr => .inl hr)
    · simp only [Function.update_self]
      have hne : d + 1 ≠ maxThreadTask := fun heq => hmore (hround.mpr heq)
      exact ⟨hokey, d + 1, by omega, rfl, hlonger⟩
    · simp [hpc, TaskPc.holds]

theorem unlock (h : Inv s) {again : Option Int} (hpc : s.pc tid = .unlocking q again) :
    Inv (s.unlock tid q again) := by
  have hknows := h.knows tid
  rw [hpc] at hknows
  have hmine := h.locked q tid
  simp only [hpc, TaskPc.holds, decide_true, iff_true] at hmine
  have hsame : ∀ k, (Function.update s.queue q { s.queue q with lock := none } k).state =
        (s.queue k).state ∧
      (Function.update s.queue q { s.queue q with lock := none } k).tid = (s.queue k).tid := by
    intro k
    rw [Function.update_apply]
    split
    next hk => simp [hk]
    next => simp
  have hgrows := grows_of_same (fun k => (hsame k).1) (fun k => (hsame k).2)
  -- the lock of this queue is free, the others are as before
  have hlocked : ∀ pc : TaskPc, (∀ k, pc.holds k = false) → ∀ k tid',
      (Function.update s.queue q { s.queue q with lock := none } k).lock = some tid' ↔
        (Function.update s.pc tid pc tid').holds k := by
    intro pc hnone k tid'
    have hbefore := h.locked k tid'
    by_cases hne : tid' = tid
    · rw [hne, Function.update_self, hnone]
      by_cases hk : k = q
      · simp [hk]
      · rw [hne, hpc] at hbefore
        simp [hk, hbefore, TaskPc.holds, Ne.symm hk]
    · rw [Function.update_of_ne hne]
      by_cases hk : k = q
      · rw [hk, hmine, Option.some.injEq] at hbefore
        simp [hk, ← hbefore, Ne.symm hne]
      · rw [Function.update_of_ne hk]
        exact hbefore
  have howns : ∀ tid' k, Owns (Function.update s.queue q { s.queue q with lock := none }) tid' k →
      Owns s.queue tid' k := by
    intro tid' k hk
    rw [Owns, (hsame k).1, (hsame k).2] at hk
    exact hk
  cases again with
  | none =>
    refine h.of_step tid hgrows (fun _ _ => rfl) (fun _ hne => Function.update_of_ne hne _ _) ?_
      (hlocked .idle fun _ => rfl) (fun tid' k hk => .inl (howns tid' k hk)) (fun r hr => ?_)
    · simp only [TaskSys.unlock, Function.update_self]
      exact .inr (hgrows.result hknows)
    · rcases List.mem_cons.mp hr with rfl | hr
      · exact .inr (hgrows.result hknows)
      · exact .inl hr
  | some okey =>
    refine h.of_step tid hgrows (fun _ _ => rfl) (fun _ hne => Function.update_of_ne hne _ _) ?_
      (hlocked (.locking okey) fun _ => rfl) (fun tid' k hk => .inl (howns tid' k hk))
      (fun r hr => .inl hr)
    simp only [TaskSys.unlock, Function.update_self]
    exact hgrows.searching hknows

theorem go (h : Inv s) (hgo : s.go tid = some t) : Inv t := by
  unfold TaskSys.go at hgo
  cases hpc : s.pc tid with
  | idle => simp [hpc] at hgo
  | locking okey =>
    simp only [hpc] at hgo
    split at hgo
    next hfree =>
      obtain rfl := Option.some.inj hgo
      exact h.lock hpc hfree
    next => cases hgo
  | holding okey q =>
    simp only [hpc] at hgo
    split at hgo
    next hfree =>
      obtain rfl := Option.some.inj hgo
      exact h.claim hpc hfree
    next hused =>
      split at hgo
      next htid =>
        obtain rfl := Option.some.inj hgo
        exact h.own hpc hused htid
      next htid =>
        obtain rfl := Option.some.inj hgo
        exact h.pass hpc hused htid
  | unlocking q again =>
    simp only [hpc, Option.some.injEq] at hgo
    rw [← hgo]
    exact h.unlock hpc

theorem step (h : Inv s) {a : TaskAct} (hstep : taskStep s a = some t) : Inv t := by
  cases a with
  | call tid =>
    rw [taskStep] at hstep
    split at hstep
    next hpc =>
      obtain rfl := Option.some.inj hstep
      exact h.call hpc
    next => cases hstep
  | go tid => exact h.go hstep

end Inv

/-- So many queues were looked at since `okey`. -/
def searched (key okey : Int) : Nat := ((key - okey) % maxThreadTask).toNat

def stepsLeft (s : TaskSys) (tid : Nat) : Nat :=
  match s.pc tid with
  | .idle => 0
  | .locking okey => 3 * (maxThreadTask - searched (s.key tid) okey)
  | .holding okey _ => 3 * (maxThreadTask - searched (s.key tid) okey) - 1
  | .unlocking _ none => 1
  | .unlocking _ (some okey) => 3 * (maxThreadTask - searched (s.key tid) okey) + 1

theorem searched_place {tid d : Nat} (hd : d < maxThreadTask) :
    searched (place tid d : Nat) (tid % maxThreadTask : Nat) = d := by
  simp only [searched, place, maxThreadTask] at hd ⊢
  omega

namespace Inv

theorem stepsLeft_go (h : Inv s) (hgo : s.go tid = some t) :
    t.stepsLeft tid < s.stepsLeft tid := by
  have hknows := h.knows tid
  unfold TaskSys.go at hgo
  cases hpc : s.pc tid with
  | idle => simp [hpc] at hgo
  | locking okey =>
    rw [hpc] at hknows
    obtain ⟨rfl, d, hd, hkey, -⟩ := hknows
    simp only [hpc] at hgo
    split at hgo
    · obtain rfl := Option.some.inj hgo
      simp only [stepsLeft, hpc, TaskSys.lock, Function.update_self, hkey, searched_place hd]
      omega
    · cases hgo
  | holding okey q =>
    rw [hpc] at hknows
    obtain ⟨⟨rfl, d, hd, hkey, -⟩, -⟩ := hknows
    have hleft : s.stepsLeft tid = 3 * (maxThreadTask - d) - 1 := by
      simp only [stepsLeft, hpc, hkey, searched_place hd]
    rw [hleft]
    simp only [hpc] at hgo
    split at hgo
    · obtain rfl := Option.some.inj hgo
      simp only [stepsLeft, TaskSys.claim, Function.update_self]
      omega
    · split at hgo
      · obtain rfl := Option.some.inj hgo
        simp only [stepsLeft, Function.update_self]
        omega
      · obtain rfl := Option.some.inj hgo
        rw [TaskSys.pass, next_place hkey]
        split
        · simp only [stepsLeft, Function.update_self]
          omega
        next hmore =>
          have hne : d + 1 < maxThreadTask := by
            rcases Nat.lt_or_eq_of_le (Nat.succ_le_of_lt hd) with hlt | heq
            · exact hlt
            · refine absurd ?_ hmore
              simp only [place, maxThreadTask] at heq ⊢
              omega
          simp only [stepsLeft, Function.update_self, searched_place hne]
          omega
  | unlocking q again =>
    rw [hpc] at hknows
    simp only [hpc, Option.some.injEq] at hgo
    rw [← hgo]
    cases again with
    | none => simp [stepsLeft, TaskSys.unlock, hpc]
    | some okey =>
      simp only [stepsLeft, TaskSys.unlock, hpc, Function.update_self]
      omega

end Inv

theorem stepsLeft_call (hpc : s.pc tid = .idle) :
    (s.call tid).stepsLeft tid ≤ 3 * maxThreadTask := by
  unfold TaskSys.call
  split
  · simp [stepsLeft, hpc]
  · simp only [stepsLeft, Function.update_self]
    omega

theorem call_other {tid' : Nat} (hne : tid' ≠ tid) :
    (s.call tid).key tid' = s.key tid' ∧ (s.call tid).pc tid' = s.pc tid' := by
  unfold TaskSys.call
  split
  · simp
  · simp [hne]

theorem go_other {tid' : Nat} (hne : tid' ≠ tid) (hgo : s.go tid = some t) :
    t.key tid' = s.key tid' ∧ t.pc tid' = s.pc tid' := by
  unfold TaskSys.go at hgo
  cases hpc : s.pc tid with
  | idle => simp [hpc] at hgo
  | locking okey =>
    simp only [hpc] at hgo
    split at hgo
    · obtain rfl := Option.some.inj hgo
      simp [TaskSys.lock, hne]
    · cases hgo
  | holding okey q =>
    simp only [hpc] at hgo
    split at hgo
    · obtain rfl := Option.some.inj hgo
      simp [TaskSys.claim, hne]
    · split at hgo
      · obtain rfl := Option.some.inj hgo
        simp [hne]
      · obtain rfl := Option.some.inj hgo
        simp only [TaskSys.pass]
        constructor
        · split <;> split <;> simp [hne]
        · split <;> split <;> simp [hne]
  | unlocking q again =>
    simp only [hpc, Option.some.injEq] at hgo
    rw [← hgo]
    cases again <;> simp [TaskSys.unlock, hne]

theorem stepsLeft_other {tid' : Nat} (hkey : t.key tid' = s.key tid')
    (hpc : t.pc tid' = s.pc tid') : t.stepsLeft tid' = s.stepsLeft tid' := by
  unfold stepsLeft
  rw [hpc, hkey]

namespace Inv

theorem count_go (h : Inv s) {as : List TaskAct} (hrun : Run.run taskStep s as = some t)
    (tid : Nat) : as.count (.go tid) + t.stepsLeft tid ≤
      3 * maxThreadTask * as.count (.call tid) + s.stepsLeft tid := by
  induction as generalizing s with
  | nil =>
    cases hrun
    simp
  | cons a as ih =>
    obtain ⟨m, hm, hrest⟩ := Run.run_cons.mp hrun
    have hle := ih (h.step hm) hrest
    cases a with
    | call tid' =>
      simp only [taskStep] at hm
      split at hm
      next hpc =>
        obtain rfl := Option.some.inj hm
        by_cases hne : tid' = tid
        · have hpay := stepsLeft_call (hne ▸ hpc)
          simp only [hne, List.count_cons_self, List.count_cons_of_ne, ne_eq, reduceCtorEq,
            not_false_eq_true, Nat.mul_add] at hle ⊢
          omega
        · have hleft := stepsLeft_other (call_other (s := s) (Ne.symm hne)).1
            (call_other (s := s) (Ne.symm hne)).2
          simp only [List.count_cons_of_ne, ne_eq, reduceCtorEq, not_false_eq_true,
            TaskAct.call.injEq, hne] at hle ⊢
          omega
      next => cases hm
    | go tid' =>
      by_cases hne : tid' = tid
      · have hless := h.stepsLeft_go (hne ▸ hm)
        simp only [hne, List.count_cons_self, List.count_cons_of_ne, ne_eq, reduceCtorEq,
          not_false_eq_true] at hle ⊢
        omega
      · have hother := go_other (Ne.symm hne) hm
        have hleft := stepsLeft_other hother.1 hother.2
        simp only [List.count_cons_of_ne, ne_eq, reduceCtorEq, not_false_eq_true,
          TaskAct.go.injEq, hne] at hle ⊢
        omega

theorem holder_goes (h : Inv s) (hlock : (s.queue q).lock = some tid) :
    s.pc tid ≠ .idle ∧ (s.go tid).isSome := by
  have hholds := (h.locked q tid).mp hlock
  cases hpc : s.pc tid with
  | idle => simp [hpc, TaskPc.holds] at hholds
  | locking okey => simp [hpc, TaskPc.holds] at hholds
  | holding okey k =>
    refine ⟨by simp, ?_⟩
    simp only [TaskSys.go, hpc]
    split
    · rfl
    · split <;> rfl
  | unlocking k again => exact ⟨by simp, by simp [TaskSys.go, hpc]⟩

theorem progress (h : Inv s) (hpc : s.pc tid ≠ .idle) :
    ∃ tid', s.pc tid' ≠ .idle ∧ (s.go tid').isSome := by
  cases hp : s.pc tid with
  | idle => exact absurd hp hpc
  | locking okey =>
    cases hlock : (s.queue (s.key tid).toNat).lock with
    | none => exact ⟨tid, hpc, by simp [TaskSys.go, hp, hlock]⟩
    | some tid' => exact ⟨tid', h.holder_goes hlock⟩
  | holding okey q =>
    exact ⟨tid, h.holder_goes (q := q) ((h.locked q tid).mpr (by simp [hp, TaskPc.holds]))⟩
  | unlocking q again => exact ⟨tid, hpc, by simp [TaskSys.go, hp]⟩

theorem owns_one (h : Inv s) {k k' : Nat} (hk : Owns s.queue tid k) (hk' : Owns s.queue tid k') :
    k = k' := by
  obtain ⟨d, -, rfl, hpassed⟩ := h.owned tid k hk
  obtain ⟨d', -, rfl, hpassed'⟩ := h.owned tid k' hk'
  rcases Nat.lt_trichotomy d d' with hlt | rfl | hlt
  · exact absurd hk.2 (hpassed' d hlt).2
  · rfl
  · exact absurd hk'.2 (hpassed d' hlt).2

theorem result_one (h : Inv s) {i j : Int} (hi : Result s.queue tid i)
    (hj : Result s.queue tid j) : i = j := by
  rcases hi with ⟨k, rfl, hk, hown⟩ | ⟨rfl, hnone⟩
  · rcases hj with ⟨k', rfl, -, hown'⟩ | ⟨rfl, hnone⟩
    · rw [h.owns_one hown hown']
    · exact absurd hown.2 (hnone.others hk).2
  · rcases hj with ⟨k', rfl, hk', hown'⟩ | ⟨rfl, -⟩
    · exact absurd hown'.2 (hnone.others hk').2
    · rfl

end Inv

theorem Result.queue {queue : Queues} {i : Int} (h : Result queue tid i) (hi : i ≠ -1) :
    ∃ k : Nat, i = k ∧ k < maxThreadTask ∧ Owns queue tid k :=
  h.resolve_right fun hnone => hi hnone.1

end TaskSys

open TaskSys in
/-- In every run of calls of `GetTask`, with the steps of the threads in any order. -/
theorem get_task_assignment (as : List TaskAct) (s : TaskSys)
    (hrun : Run.run taskStep .init as = some s) :
    (∀ tid, as.count (.go tid) ≤ 3 * maxThreadTask * as.count (.call tid)) ∧
    (∀ tid, s.pc tid ≠ .idle → ∃ tid', s.pc tid' ≠ .idle ∧ (s.go tid').isSome) ∧
    (∀ tid tid' i, (tid, i) ∈ s.returned → (tid', i) ∈ s.returned → i ≠ -1 → tid = tid') ∧
    (∀ tid i j, (tid, i) ∈ s.returned → (tid, j) ∈ s.returned → i = j) ∧
    (∀ tid i, (tid, i) ∈ s.returned → i ≠ -1 →
      ∃ k : Nat, i = k ∧ k < maxThreadTask ∧ Owns s.queue tid k) ∧
    (∀ tid, (tid, -1) ∈ s.returned → ∀ k, k < maxThreadTask → Others s.queue tid k) ∧
    (∀ q tid, (s.queue q).lock = some tid → s.pc tid ≠ .idle ∧ (s.go tid).isSome) := by
  have hinv : Inv s := Run.run_invariant (fun _ _ _ h hm => h.step hm) inv_init hrun
  refine ⟨fun tid => ?_, fun tid hpc => hinv.progress hpc, ?_, ?_, ?_, ?_,
    fun q tid hlock => hinv.holder_goes hlock⟩
  · have hcount := inv_init.count_go hrun tid
    have hstart : init.stepsLeft tid = 0 := rfl
    omega
  · intro tid tid' i hi hi' hne
    obtain ⟨k, rfl, -, hown⟩ := Result.queue (hinv.results _ hi) hne
    obtain ⟨k', hk, -, hown'⟩ := Result.queue (hinv.results _ hi') hne
    obtain rfl := Int.ofNat.inj hk
    exact hown.2.symm.trans hown'.2
  · intro tid i j hi hj
    exact hinv.result_one (hinv.results _ hi) (hinv.results _ hj)
  · intro tid i hi hne
    exact Result.queue (hinv.results _ hi) hne
  · intro tid hi k hk
    rcases hinv.results _ hi with ⟨k', hkey, -, -⟩ | ⟨-, hnone⟩
    · simp only at hkey
      omega
    · exact hnone.others hk

/-- Thread 49 comes to the queue of thread 1 and goes on to the next one. -/
def collidingCalls : List TaskAct :=
  [.call 1, .call 49, .go 1, .go 1, .go 1, .go 49, .go 49, .go 49, .go 49, .go 49, .go 49, .call 1]

theorem get_task_assignment_colliding :
    ∃ s, Run.run taskStep .init collidingCalls = some s ∧
      s.returned = [(1, 1), (49, 2), (1, 1)] ∧
      (∃ k : Nat, (2 : Int) = k ∧ k < maxThreadTask ∧ Owns s.queue 49 k) ∧
      (∀ q tid, (s.queue q).lock = some tid → s.pc tid ≠ .idle ∧ (s.go tid).isSome) := by
  refine ⟨_, rfl, rfl, ?_, ?_⟩
  · exact (get_task_assignment collidingCalls _ rfl).2.2.2.2.1 49 2 (by decide) (by decide)
  · exact (get_task_assignment collidingCalls _ rfl).2.2.2.2.2.2

end AlgorithmLib.TimerThread
