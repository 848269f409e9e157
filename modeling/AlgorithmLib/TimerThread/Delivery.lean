import AlgorithmLib.TimerThread.Records

/-!
Delivery of the tasks. With the state goes a trace: who set the timer that is in a record, for
which thread the timer thread has a task in hand, what was pushed for the timers of a thread, and
what the thread has run.
-/

set_option autoImplicit false

namespace AlgorithmLib.TimerThread

structure Traced where
  sys : Sys
  setter : Nat → Nat
  handFor : Nat
  pushedFor : Nat → List ItimerTask
  ranBy : Nat → List ItimerTask

namespace Traced

def init (millisec interval : BitVec 32) : Traced :=
  { sys := Sys.init millisec interval, setter := fun _ => 0, handFor := 0
    pushedFor := fun _ => [], ranBy := fun _ => [] }

/-- What `itimer_push_task` copies from the record. -/
def taskOf (evt : ItimerEvt) : ItimerTask :=
  { handle := evt.handle, callback := evt.callback, data := evt.data, user := evt.user }

def pushed (s : Traced) (tid : Nat) (task : ItimerTask) : Traced :=
  { s with pushedFor := Function.update s.pushedFor tid (s.pushedFor tid ++ [task]) }

/-- The trace of a turn of the loop over the runs: a call of `itimer_push_task` is over at once when
the thread has no queue. -/
def fire (s : Traced) (e : Nat) : Traced :=
  let evt := s.sys.evts.evt e
  if (evt.callback.isSome && evt.running) && evt.pushTask then
    if evt.task < 0 then s.pushed (s.setter e) (taskOf evt) else { s with handFor := s.setter e }
  else s

/-- The trace of the next step of the timer thread. -/
def timer (s : Traced) : Traced :=
  match s.sys.ctrl with
  | .firing _ _ e (_ + 1) => s.fire e
  | .pushing _ _ _ _ t _ => s.pushed s.handFor (s.sys.tasks.task t)
  | _ => s

def recordSetter (s : Traced) (tid : Nat) : Nat → Nat :=
  match s.sys.evts.pool.take .free defItimerPoolAddSize with
  | none => s.setter
  | some (e, _) => Function.update s.setter e tid

/-- The thread is about to run this task. -/
def due (s : Traced) (tid : Nat) : List ItimerTask :=
  match s.sys.phase tid with
  | .draining k =>
    match s.sys.tasks.pool.links.list (.queue k) with
    | [] => []
    | t :: _ => if (s.sys.tasks.task t).callback.isSome then [s.sys.tasks.task t] else []
  | _ => []

def note (s : Traced) : Act → Traced
  | .set tid .. => { s with setter := s.recordSetter tid }
  | .advance tid => { s with ranBy := Function.update s.ranBy tid (s.ranBy tid ++ s.due tid) }
  | .timer => s.timer
  | _ => s

def step (s : Traced) (a : Act) : Option Traced :=
  (TimerThread.step s.sys a).map fun sys => { s.note a with sys := sys }

theorem recordSetter_of_take {s : Traced} {e : Nat} {pool : Pool EvtPlace}
    (h : s.sys.evts.pool.take .free defItimerPoolAddSize = some (e, pool)) (tid : Nat) :
    s.recordSetter tid = Function.update s.setter e tid := by
  rw [recordSetter, h]

end Traced

/-- The tasks of a queue that its thread has still to run: the first one stays linked while its
callback runs. -/
def waiting (tasks : TaskPool) (phase : Phase) (k : Nat) : List ItimerTask :=
  match phase with
  | .calling _ _ => (tasks.pool.links.list (.queue k)).tail.map tasks.task
  | _ => (tasks.pool.links.list (.queue k)).map tasks.task

/-- What is pushed for the timers of a thread is run by it, in order, or waits on its queue. -/
structure Delivers (tasks : TaskPool) (queue : Queues) (phase : Nat → Phase)
    (pushedFor ranBy : Nat → List ItimerTask) : Prop where
  queued : ∀ t k, tasks.pool.links.head t = some (.queue k) →
    (queue k).state = .useed ∧ (tasks.task t).callback ≠ none
  delivered : ∀ tid k, Owns queue tid k →
    pushedFor tid = ranBy tid ++ waiting tasks (phase tid) k

structure TracedInv (s : Traced) : Prop where
  records : Records s.sys
  routed : ∀ e, (s.sys.evts.evt e).callback ≠ none →
    (∀ k : Nat, (s.sys.evts.evt e).task = k → Owns s.sys.queue (s.setter e) k) ∧
      ((s.sys.evts.evt e).task < 0 → s.sys.key (s.setter e) < 0)
  hand : ∀ {millisec jiffies e count t k}, s.sys.ctrl = .pushing millisec jiffies e count t k →
    Owns s.sys.queue s.handFor k ∧ (s.sys.tasks.task t).callback ≠ none
  delivers : Delivers s.sys.tasks s.sys.queue s.sys.phase s.pushedFor s.ranBy
  apart : ∀ tid, (∀ k, ¬ Owns s.sys.queue tid k) →
    s.ranBy tid = [] ∧ (0 ≤ s.sys.key tid → s.pushedFor tid = [])

theorem delivers_init : Delivers
    { pool := .empty, task := fun _ => { handle := 0, callback := none, data := 0, user := 0 } }
    (fun _ => { state := .unuse, tid := 0, lock := none }) (fun _ => .idle)
    (fun _ => []) (fun _ => []) where
  queued _ _ h := by cases h
  delivered _ _ h := by cases h.1

theorem waiting_of_ne {tasks : TaskPool} {phase : Phase} (h : ∀ k t, phase ≠ .calling k t)
    (k : Nat) : waiting tasks phase k = (tasks.pool.links.list (.queue k)).map tasks.task := by
  cases phase with
  | calling j t => exact absurd rfl (h j t)
  | _ => rfl

namespace Delivers

variable {tasks : TaskPool} {queue : Queues} {phase : Nat → Phase}
variable {pushedFor ranBy : Nat → List ItimerTask}

/-- `GetTask` may give a thread a queue that nobody uses, and that has no tasks then. -/
theorem queues (h : Delivers tasks queue phase pushedFor ranBy) (hwf : tasks.pool.links.WF)
    {queue' : Queues} (hkeep : ∀ tid k, Owns queue tid k → Owns queue' tid k)
    (hnew : ∀ tid k, Owns queue' tid k → Owns queue tid k ∨
      (queue k).state = .unuse ∧ pushedFor tid = [] ∧ ranBy tid = []) :
    Delivers tasks queue' phase pushedFor ranBy where
  queued t k ht := by
    obtain ⟨hstate, hcb⟩ := h.queued t k ht
    exact ⟨(hkeep _ k ⟨hstate, rfl⟩).1, hcb⟩
  delivered tid k ho := by
    rcases hnew tid k ho with ho | ⟨hunuse, hpushed, hran⟩
    · exact h.delivered tid k ho
    · have hempty : tasks.pool.links.list (.queue k) = [] := by
        refine List.eq_nil_iff_forall_not_mem.mpr (fun t ht => ?_)
        have hused := (h.queued t k ((hwf.mem_iff _ t).mp ht)).1
        rw [hunuse] at hused
        cases hused
      have hwait : waiting tasks (phase tid) k = [] := by
        cases hp : phase tid with
        | _ => simp [waiting, hempty]
      rw [hpushed, hran, hwait]
      rfl

theorem goto (h : Delivers tasks queue phase pushedFor ranBy) (tid : Nat) {p : Phase}
    (hold : ∀ k t, phase tid ≠ .calling k t) (hp : ∀ k t, p ≠ .calling k t) :
    Delivers tasks queue (Function.update phase tid p) pushedFor ranBy where
  queued := h.queued
  delivered tid' k hown := by
    rw [h.delivered tid' k hown]
    by_cases ht : tid' = tid
    · subst ht
      rw [Function.update_self, waiting_of_ne hold, waiting_of_ne hp]
    · rw [Function.update_of_ne ht]

theorem aside (h : Delivers tasks queue phase pushedFor ranBy) {pool : Pool TaskPlace}
    (hlist : ∀ j, pool.links.list (.queue j) = tasks.pool.links.list (.queue j))
    (hhead : ∀ m j, pool.links.head m = some (.queue j) →
      tasks.pool.links.head m = some (.queue j)) :
    Delivers { tasks with pool := pool } queue phase pushedFor ranBy where
  queued m j hm := h.queued m j (hhead m j hm)
  delivered tid k ho := by
    rw [h.delivered tid k ho]
    unfold waiting
    simp only [hlist]

theorem fill (h : Delivers tasks queue phase pushedFor ranBy) (hok : tasks.pool.Ok .free)
    {size t : Nat} {pool : Pool TaskPlace} (hsize : 0 < size)
    (htake : tasks.pool.take .free size = some (t, pool)) (task : ItimerTask) :
    Delivers { pool := pool, task := Function.update tasks.task t task } queue phase
      pushedFor ranBy := by
  obtain ⟨n, p', htake', hok', -, -, hnone, hheads⟩ := hok.take hsize
  obtain ⟨rfl, rfl⟩ : n = t ∧ p' = pool := by simpa [htake'] using htake
  have hlist : ∀ j, p'.links.list (.queue j) = tasks.pool.links.list (.queue j) :=
    fun j => hok.take_list htake (by simp)
  have hne : ∀ m j, tasks.pool.links.head m = some (.queue j) → m ≠ n := by
    rintro m j hm rfl
    rw [(hheads m _ (by simp)).mpr hm] at hnone
    cases hnone
  have hmap : ∀ j, (tasks.pool.links.list (.queue j)).map (Function.update tasks.task n task) =
      (tasks.pool.links.list (.queue j)).map tasks.task :=
    fun j => List.map_congr_left (fun m hm =>
      Function.update_of_ne (hne m j ((hok.wf.mem_iff _ m).mp hm)) _ _)
  refine ⟨fun m j hm => ?_, fun tid k ho => ?_⟩
  · have hin := (hheads m _ (by simp)).mp hm
    simp only [Function.update_of_ne (hne m j hin)]
    exact h.queued m j hin
  · rw [h.delivered tid k ho]
    unfold waiting
    simp only [hlist, List.map_tail, hmap]

theorem run (h : Delivers tasks queue phase pushedFor ranBy) {tid k t : Nat} {ts : List Nat}
    (hphase : phase tid = .draining k) (hlist : tasks.pool.links.list (.queue k) = t :: ts)
    (hinj : ∀ j, Owns queue tid j → j = k) :
    Delivers tasks queue (Function.update phase tid (.calling k t)) pushedFor
      (Function.update ranBy tid (ranBy tid ++ [tasks.task t])) where
  queued := h.queued
  delivered tid' j hown := by
    have hold := h.delivered tid' j hown
    by_cases ht : tid' = tid
    · subst ht
      obtain rfl := hinj j hown
      simp only [waiting, hphase, hlist, List.map_cons] at hold
      simp only [Function.update_self, waiting, hlist, List.tail_cons, List.append_assoc]
      exact hold
    · rw [Function.update_of_ne ht, Function.update_of_ne ht]
      exact hold

theorem takeTask (h : Delivers tasks queue phase pushedFor ranBy) (hwf : tasks.pool.links.WF)
    {tid k t : Nat} {ts : List Nat} (hlist : tasks.pool.links.list (.queue k) = t :: ts)
    (hphase : phase tid = .calling k t) (hown : Owns queue tid k)
    (hinj : ∀ j, Owns queue tid j → j = k) :
    Delivers { tasks with pool := { tasks.pool with links := toLocal tasks.pool.links tid t } }
      queue (Function.update phase tid (.draining k)) pushedFor ranBy := by
  refine ⟨fun m j hm => ?_, fun tid' j ho => ?_⟩
  · dsimp only at hm
    rw [toLocal_head] at hm
    split at hm
    · cases hm
    · exact h.queued m j hm
  · rw [h.delivered tid' j ho]
    by_cases ht : tid' = tid
    · subst ht
      obtain rfl := hinj j ho
      simp only [Function.update_self, waiting, hphase, hlist, toLocal_queue hwf hlist, if_true,
        List.tail_cons]
    · have hj : j ≠ k := by
        rintro rfl
        exact ht (ho.2.symm.trans hown.2)
      rw [Function.update_of_ne ht]
      unfold waiting
      simp only [toLocal_queue hwf hlist, if_neg hj]

theorem push (h : Delivers tasks queue phase pushedFor ranBy) {tid t k : Nat}
    (hcb : (tasks.task t).callback ≠ none) (ho : Owns queue tid k)
    (hinj : ∀ tid' i j, Owns queue tid' i → Owns queue tid' j → i = j)
    (hheld : ∀ tid' i t', phase tid' = .calling i t' →
      Owns queue tid' i ∧ ∃ ts, tasks.pool.links.list (.queue i) = t' :: ts) :
    Delivers { tasks with pool := tasks.pool.link t (.queue k) } queue phase
      (Function.update pushedFor tid (pushedFor tid ++ [tasks.task t])) ranBy := by
  have hlists : ∀ j, (tasks.pool.link t (.queue k)).links.list (.queue j) =
      tasks.pool.links.list (.queue j) ++ if j = k then [t] else [] := by
    intro j
    simp only [Pool.link]
    rw [Links.addTail_list]
    by_cases hj : j = k
    · simp [hj]
    · simp [hj]
  refine ⟨fun m j hm => ?_, fun tid' j hown => ?_⟩
  · rw [Pool.link_head] at hm
    by_cases hne : m = t
    · rw [if_pos hne, Option.some.injEq, TaskPlace.queue.injEq] at hm
      subst hm hne
      exact ⟨ho.1, hcb⟩
    · rw [if_neg hne] at hm
      exact h.queued m j hm
  · have hold := h.delivered tid' j hown
    have hwait : waiting { tasks with pool := tasks.pool.link t (.queue k) } (phase tid') j =
        waiting tasks (phase tid') j ++ if j = k then [tasks.task t] else [] := by
      cases hp : phase tid' with
      | calling i t' =>
        obtain ⟨hi, ts, hts⟩ := hheld tid' i t' hp
        rw [hinj tid' i j hi hown] at hts
        simp only [waiting, hlists, hts, List.cons_append, List.tail_cons, List.map_append]
        split <;> rfl
      | _ =>
        simp only [waiting, hlists, List.map_append]
        split <;> rfl
    rw [hwait]
    by_cases ht : tid' = tid
    · subst ht
      rw [Function.update_self, hold, if_pos (hinj tid' j k hown ho), List.append_assoc]
    · have hj : j ≠ k := by
        rintro rfl
        exact ht (hown.2.symm.trans ho.2)
      rw [Function.update_of_ne ht, hold, if_neg hj, List.append_nil]

end Delivers

theorem traced_inv_init (millisec interval : BitVec 32) :
    TracedInv (Traced.init millisec interval) where
  records := Records.init millisec interval
  routed _ he := absurd rfl he
  hand hctrl := by cases hctrl
  delivers := delivers_init
  apart _ _ := ⟨rfl, fun _ => rfl⟩

theorem getTask_of_ne {queue : Queues} {tid : Nat} {key : Int} (h : key ≠ 0) :
    getTask queue tid key = (queue, key) := by
  rw [getTask, if_pos h]

theorem Slots.not_owns {queue : Queues} {key : Nat → Int} (h : Slots queue key) {tid : Nat}
    (hkey : key tid < 0) (k : Nat) : ¬ Owns queue tid k := by
  intro ho
  have hslot := h.found tid k ho
  rw [slot, if_pos (by omega)] at hslot
  omega

namespace TracedInv

variable {s : Traced} {sys : Sys}

theorem mono (h : TracedInv s) (hrec : Records sys)
    (hqueue : sys.queue = s.sys.queue) (hkey : sys.key = s.sys.key)
    (htasks : sys.tasks = s.sys.tasks) (hphase : sys.phase = s.sys.phase)
    (hctrl : sys.ctrl = s.sys.ctrl ∨ sys.ctrl.hand = none)
    (hevt : ∀ e, (sys.evts.evt e).callback ≠ none →
      (s.sys.evts.evt e).callback ≠ none ∧ (sys.evts.evt e).task = (s.sys.evts.evt e).task) :
    TracedInv { s with sys := sys } where
  records := hrec
  routed e he := by
    obtain ⟨hold, htask⟩ := hevt e he
    dsimp only
    rw [htask, hqueue, hkey]
    exact h.routed e hold
  hand hpush := by
    dsimp only at hpush ⊢
    rcases hctrl with hsame | hnone
    · rw [hqueue, htasks]
      exact h.hand (hsame.symm.trans hpush)
    · rw [hpush] at hnone
      cases hnone
  delivers := by
    dsimp only
    rw [htasks, hqueue, hphase]
    exact h.delivers
  apart := by
    dsimp only
    rw [hqueue, hkey]
    exact h.apart

theorem updateEvt {evts : Nat → ItimerEvt} {e : Nat} {evt : ItimerEvt}
    (hevt : evt.callback ≠ none →
      evt.callback = (evts e).callback ∧ evt.task = (evts e).task) (e' : Nat)
    (he : (Function.update evts e evt e').callback ≠ none) :
    (evts e').callback ≠ none ∧ (Function.update evts e evt e').task = (evts e').task := by
  by_cases hee : e' = e
  · subst hee
    rw [Function.update_self] at he ⊢
    obtain ⟨hcb, htask⟩ := hevt he
    exact ⟨hcb ▸ he, htask⟩
  · rw [Function.update_of_ne hee] at he ⊢
    exact ⟨he, rfl⟩

theorem itimerUnset (h : TracedInv s) (handle : Nat) :
    TracedInv { s with sys := s.sys.itimerUnset handle } := by
  have hrec := h.records.itimerUnset handle
  rw [Sys.itimerUnset] at hrec ⊢
  split
  · exact h
  · next h0 =>
    rw [if_neg h0] at hrec
    split
    · exact h
    · next e hl =>
      simp only [hl] at hrec
      exact h.mono hrec rfl rfl rfl rfl (Or.inl rfl)
        (updateEvt (fun hcb => absurd rfl hcb))

theorem lock (h : TracedInv s) (k : Nat) (lock : Option Nat) :
    TracedInv { s with
      sys := { s.sys with
        queue := Function.update s.sys.queue k { s.sys.queue k with lock := lock } } } where
  records := h.records.lock k lock
  routed e he := by
    obtain ⟨hown, hneg⟩ := h.routed e he
    exact ⟨fun j hj => (owns_lock ..).mpr (hown j hj), hneg⟩
  hand hctrl := ⟨(owns_lock ..).mpr (h.hand hctrl).1, (h.hand hctrl).2⟩
  delivers := h.delivers.queues h.records.ok.wf (fun _ _ ho => (owns_lock ..).mpr ho)
    (fun _ _ ho => Or.inl ((owns_lock ..).mp ho))
  apart tid hno := h.apart tid (fun k' ho => hno k' ((owns_lock ..).mpr ho))

theorem getTask (h : TracedInv s) (tid : Nat) :
    TracedInv { s with
      sys := { s.sys with
        queue := (getTask s.sys.queue tid (s.sys.key tid)).1
        key := Function.update s.sys.key tid (getTask s.sys.queue tid (s.sys.key tid)).2 } } := by
  have hget := h.records.slots.getTask tid
  have hneg : ∀ tid', s.sys.key tid' < 0 →
      Function.update s.sys.key tid (TimerThread.getTask s.sys.queue tid (s.sys.key tid)).2 tid' =
        s.sys.key tid' := by
    intro tid' hlt
    by_cases ht : tid' = tid
    · subst ht
      rw [Function.update_self, getTask_of_ne (by omega)]
    · rw [Function.update_of_ne ht]
  refine ⟨h.records.getTask tid, fun e he => ?_,
    fun hctrl => ⟨hget.keeps _ _ (h.hand hctrl).1, (h.hand hctrl).2⟩,
    h.delivers.queues h.records.ok.wf hget.keeps (fun tid' k ho => ?_), fun tid' hno => ?_⟩
  · obtain ⟨hown, hkey⟩ := h.routed e he
    refine ⟨fun k hk => hget.keeps _ k (hown k hk), fun htask => ?_⟩
    dsimp only
    rw [hneg _ (hkey htask)]
    exact hkey htask
  · rcases hget.only tid' k ho with hold | hunuse
    · exact Or.inl hold
    · -- the thread had no queue, since what it had it has still
      have hno : ∀ j, ¬ Owns s.sys.queue tid' j := by
        intro j hj
        obtain rfl := hget.slots.owns_inj (hget.keeps tid' j hj) ho
        rw [hj.1] at hunuse
        cases hunuse
      obtain ⟨hran, hpushed⟩ := h.apart tid' hno
      refine Or.inr ⟨hunuse, hpushed ?_, hran⟩
      by_contra hlt
      refine hget.slots.not_owns ?_ k ho
      rw [hneg tid' (by omega)]
      omega
  · obtain ⟨hran, hpushed⟩ := h.apart tid' (fun k ho => hno k (hget.keeps tid' k ho))
    refine ⟨hran, fun hpos => hpushed ?_⟩
    by_contra hlt
    dsimp only at hpos
    rw [hneg tid' (by omega)] at hpos
    exact hlt hpos

theorem itimerSet (h : TracedInv s) {tid : Nat} {f : Option Nat} {data user : Nat}
    {timer : BitVec 32} {repeat_ : Int}
    (hset : s.sys.itimerSet tid f data user timer repeat_ = some sys) :
    TracedInv { s with sys := sys, setter := s.recordSetter tid } := by
  have hrec := h.records.itimerSet hset
  rw [Sys.itimerSet] at hset
  split at hset
  · cases hset
  · next e pool htake =>
    cases hset
    have hget := h.getTask tid
    have hgets := h.records.slots.getTask tid
    rw [Traced.recordSetter_of_take htake tid]
    refine ⟨hrec, fun e' he => ?_, hget.hand, hget.delivers, hget.apart⟩
    by_cases hee : e' = e
    · subst hee
      simp only [Function.update_self]
      exact ⟨fun k hk => hgets.owns k hk, fun hneg => hneg⟩
    · simp only [Function.update_of_ne hee] at he ⊢
      exact hget.routed e' he

theorem pushed (h : TracedInv s) {tid : Nat} (hkey : s.sys.key tid < 0) (task : ItimerTask) :
    TracedInv (s.pushed tid task) := by
  have hne : ∀ tid', tid' ≠ tid → (s.pushed tid task).pushedFor tid' = s.pushedFor tid' :=
    fun tid' hne => Function.update_of_ne hne _ _
  refine ⟨h.records, h.routed, h.hand, ⟨h.delivers.queued, fun tid' k ho => ?_⟩,
    fun tid' hno => ⟨(h.apart tid' hno).1, fun hpos => ?_⟩⟩
  · rw [hne tid' (fun ht => h.records.slots.not_owns (ht ▸ hkey) k ho)]
    exact h.delivers.delivered tid' k ho
  · rw [hne tid' (fun ht => absurd hpos (Int.not_le.mpr (ht ▸ hkey)))]
    exact (h.apart tid' hno).2 hpos

theorem idle (h : TracedInv s) (hhand : s.sys.ctrl.hand = none) {ctrl : Ctrl}
    (hnone : ctrl.hand = none) : TracedInv { s with sys := { s.sys with ctrl := ctrl } } :=
  h.mono (h.records.frame rfl rfl rfl rfl (hnone.trans hhand.symm)) rfl rfl rfl rfl
    (Or.inr hnone) (fun _ he => ⟨he, rfl⟩)

theorem fire (h : TracedInv s) (hhand : s.sys.ctrl.hand = none) (millisec jiffies : BitVec 32)
    (e count : Nat) :
    TracedInv { s.fire e with sys := s.sys.fire millisec jiffies e count } := by
  have hrec := h.records.fire hhand millisec jiffies e count
  by_cases hgo : ((s.sys.evts.evt e).callback.isSome && (s.sys.evts.evt e).running) = true
  · by_cases hpush : (s.sys.evts.evt e).pushTask = true
    · have hcb : (s.sys.evts.evt e).callback ≠ none := by
        rw [Bool.and_eq_true] at hgo
        exact Option.isSome_iff_ne_none.mp hgo.1
      obtain ⟨hown, hneg⟩ := h.routed e hcb
      simp only [Sys.fire, Traced.fire, hgo, hpush, Bool.and_self, if_true] at hrec ⊢
      simp only [Sys.itimerPushTask] at hrec ⊢
      by_cases hlt : (s.sys.evts.evt e).task < 0
      · rw [if_pos hlt, if_pos hlt]
        exact (h.pushed (hneg hlt) _).idle hhand rfl
      · rw [if_neg hlt] at hrec ⊢
        rw [if_neg hlt]
        obtain ⟨i, pool, htake, -⟩ := h.records.ok.take (show 0 < defItimerPoolAddSize by decide)
        simp only [htake] at hrec ⊢
        refine ⟨hrec, h.routed, fun hctrl => ?_, h.delivers.fill h.records.ok (by decide) htake _,
          h.apart⟩
        cases hctrl
        simp only [Function.update_self]
        exact ⟨hown _ (by omega), hcb⟩
    · simp only [Sys.fire, Traced.fire, hgo, hpush, Bool.true_and, if_true, if_false,
        Bool.false_eq_true] at hrec ⊢
      exact h.idle hhand rfl
  · simp only [Sys.fire, Traced.fire, hgo, Bool.false_and, if_false, Bool.false_eq_true] at hrec ⊢
    exact h.idle hhand rfl

theorem fired (h : TracedInv s) (hhand : s.sys.ctrl.hand = none) (millisec jiffies : BitVec 32)
    (e : Nat) : TracedInv { s with sys := s.sys.fired millisec jiffies e } := by
  have hdone : TracedInv { s with
      sys := { s.sys with
        evts :=
          { s.sys.evts with
            evt := Function.update s.sys.evts.evt e
              { s.sys.evts.evt e with
                toItimerEvt := { (s.sys.evts.evt e).toItimerEvt with running := false } } }
        ctrl := .draining millisec jiffies } } :=
    h.mono (h.records.frame rfl rfl rfl rfl hhand.symm) rfl rfl rfl rfl (Or.inr rfl)
      (updateEvt (fun _ => ⟨rfl, rfl⟩))
  simp only [Sys.fired]
  split
  · exact hdone.itimerUnset _
  · exact hdone

/-- The task in hand is queued; the queue is that of the thread, so it is never given back. -/
theorem pushTaskToQ (h : TracedInv s) {millisec jiffies : BitVec 32} {e count i key : Nat}
    (hctrl : s.sys.ctrl = .pushing millisec jiffies e count i key)
    (hpush : s.sys.pushTaskToQ millisec jiffies e count i key = some sys) :
    TracedInv { s.pushed s.handFor (s.sys.tasks.task i) with sys := sys } := by
  have hrec := h.records.pushTaskToQ hctrl hpush
  obtain ⟨ho, hcb⟩ := h.hand hctrl
  simp only [Sys.pushTaskToQ] at hpush
  split at hpush
  · cases hpush
  · rw [if_pos ho.1] at hpush
    cases hpush
    refine ⟨hrec, h.routed, (fun hp => by cases hp),
      h.delivers.push hcb ho (fun _ _ _ => h.records.slots.owns_inj) (fun tid j m hm => ?_),
      fun tid hno => ⟨(h.apart tid hno).1, fun hpos => ?_⟩⟩
    · exact ⟨h.records.busy tid j (by rw [hm]; rfl), h.records.held tid j m hm⟩
    · have hne : tid ≠ s.handFor := by
        rintro rfl
        exact hno _ ho
      exact (Function.update_of_ne hne _ _).trans ((h.apart tid hno).2 hpos)

theorem itimerEvtCb (h : TracedInv s) (hhand : s.sys.ctrl.hand = none)
    {millisec jiffies : BitVec 32} {e : Nat}
    (hcb : s.sys.itimerEvtCb millisec jiffies e = some sys) : TracedInv { s with sys := sys } := by
  have hrec := h.records.itimerEvtCb hhand hcb
  simp only [Sys.itimerEvtCb] at hcb
  split at hcb
  · cases hcb
  · next mgr evt r hexpire =>
    have hcall := TimeWheel.ItimerMgr.itimerEvtExpire_callback hexpire
    cases hcb
    exact h.mono hrec rfl rfl rfl rfl (Or.inr rfl) (updateEvt (fun _ => ⟨hcall, rfl⟩))

theorem timer (h : TracedInv s) (hstep : s.sys.timer = some sys) :
    TracedInv { s.timer with sys := sys } := by
  have hwheel : ∀ mgr ctrl, s.sys.ctrl.hand = none → ctrl.hand = none →
      TracedInv { s with sys := { s.sys with mgr := mgr, ctrl := ctrl } } :=
    fun mgr ctrl hold hnew => h.mono (h.records.frame rfl rfl rfl rfl (hnew.trans hold.symm)) rfl rfl
      rfl rfl (Or.inr hnew) (fun _ he => ⟨he, rfl⟩)
  simp only [Sys.timer] at hstep
  split at hstep
  · cases hstep
  · next hctrl =>
    simp only [Traced.timer, hctrl]
    split at hstep
    · cases hstep
      exact hwheel _ _ (by rw [hctrl]; rfl) rfl
    · cases hstep
      exact hwheel _ _ (by rw [hctrl]; rfl) rfl
  · next hctrl =>
    simp only [Traced.timer, hctrl]
    split at hstep
    · cases hstep
      exact hwheel _ _ (by rw [hctrl]; rfl) rfl
    · cases hstep
      exact hwheel _ _ (by rw [hctrl]; rfl) rfl
  · next hctrl =>
    have hnone : s.sys.ctrl.hand = none := by rw [hctrl]; rfl
    simp only [Traced.timer, hctrl]
    split at hstep
    · cases hstep
      exact hwheel _ _ hnone rfl
    · next n ns _ =>
      have hpop := hwheel { s.sys.mgr with
        core := { s.sys.mgr.core with links := s.sys.mgr.core.links.unlink n } } s.sys.ctrl
          hnone hnone
      split at hstep
      · exact hpop.itimerEvtCb hnone hstep
      · cases hstep
        exact hpop
  · next hctrl =>
    cases hstep
    simp only [Traced.timer, hctrl]
    exact h.fire (by rw [hctrl]; rfl) _ _ _ _
  · next hctrl =>
    cases hstep
    simp only [Traced.timer, hctrl]
    exact h.fired (by rw [hctrl]; rfl) _ _ _
  · next hctrl =>
    simp only [Traced.timer, hctrl]
    exact h.pushTaskToQ hctrl hstep

theorem update (h : TracedInv s) {tid : Nat} (hidle : s.sys.phase tid = .idle)
    (hstep : s.sys.update tid = some sys) : TracedInv { s with sys := sys } := by
  have hrec := h.records.update hidle hstep
  have hget := h.getTask tid
  simp only [Sys.update] at hstep
  split at hstep
  · cases hstep
    exact ⟨hrec, hget.routed, hget.hand, hget.delivers, hget.apart⟩
  · split at hstep
    · cases hstep
    · cases hstep
      have hlock := hget.lock (TimerThread.getTask s.sys.queue tid (s.sys.key tid)).2.toNat (some tid)
      exact ⟨hrec, hlock.routed, hlock.hand,
        hlock.delivers.goto tid (by simp [hidle]) (by simp), hlock.apart⟩

theorem advance (h : TracedInv s) {tid : Nat} (hstep : s.sys.advance tid = some sys) :
    TracedInv
      { s with
        sys := sys, ranBy := Function.update s.ranBy tid (s.ranBy tid ++ s.due tid) } := by
  have hrec := h.records.advance hstep
  have hquiet : s.due tid = [] → TracedInv { s with sys := sys } → TracedInv
      { s with
        sys := sys, ranBy := Function.update s.ranBy tid (s.ranBy tid ++ s.due tid) } := by
    intro hdue hinv
    rw [hdue, List.append_nil, Function.update_eq_self]
    exact hinv
  simp only [Sys.advance] at hstep
  split at hstep
  · cases hstep
  · next k hphase =>
    have hq : (s.sys.phase tid).queue = some k := by rw [hphase]; rfl
    split at hstep
    · next hempty =>
      cases hstep
      refine hquiet (by simp only [Traced.due, hphase, hempty]) ?_
      have hlock := h.lock k none
      exact ⟨hrec, hlock.routed, hlock.hand,
        hlock.delivers.goto tid (by simp [hphase]) (by simp), hlock.apart⟩
    · next t ts hlist =>
      have hin := h.delivers.queued t k
        ((h.records.ok.wf.mem_iff _ t).mp (by rw [hlist]; exact List.mem_cons_self))
      have hsome := Option.isSome_iff_ne_none.mpr hin.2
      rw [if_pos hsome] at hstep
      cases hstep
      have hdue : s.due tid = [s.sys.tasks.task t] := by
        simp only [Traced.due, hphase, hlist, if_pos hsome]
      rw [hdue]
      refine ⟨hrec, h.routed, h.hand,
        h.delivers.run hphase hlist (fun j hj => h.records.only hq hj), fun tid' hno => ?_⟩
      have hne : tid' ≠ tid := by
        rintro rfl
        exact hno k (h.records.busy tid' k hq)
      dsimp only
      rw [Function.update_of_ne hne]
      exact h.apart tid' hno
  · next k t hphase =>
    cases hstep
    have hq : (s.sys.phase tid).queue = some k := by rw [hphase]; rfl
    obtain ⟨ts, hlist⟩ := h.records.held tid k t hphase
    refine hquiet (by simp only [Traced.due, hphase]) ?_
    exact ⟨hrec, h.routed, h.hand, h.delivers.takeTask h.records.ok.wf hlist hphase
      (h.records.busy tid k hq) (fun j hj => h.records.only hq hj), h.apart⟩
  · next hphase =>
    refine hquiet (by simp only [Traced.due, hphase]) ?_
    split at hstep
    · cases hstep
      exact ⟨hrec, h.routed, h.hand, h.delivers.goto tid (by simp [hphase]) (by simp), h.apart⟩
    · next t ts hlist =>
      cases hstep
      have hhead : s.sys.tasks.pool.links.head t = some (.taken tid) :=
        (h.records.ok.wf.mem_iff _ t).mp (by rw [hlist]; exact List.mem_cons_self)
      refine ⟨hrec, h.routed, h.hand, Delivers.aside
        (h.delivers.goto tid (by simp [hphase]) (by simp)) (fun j => ?_) (fun m j hm => ?_), h.apart⟩
      · exact Links.unlink_list_of_ne (by simp [hhead])
      · rw [Links.unlink_head] at hm
        split at hm
        · cases hm
        · exact hm
  · next t hphase =>
    cases hstep
    obtain ⟨hlt, hnone⟩ := (h.records.hands.iff t).mpr ⟨some tid, by rw [Sys.hand, hphase]; rfl⟩
    refine hquiet (by simp only [Traced.due, hphase]) ?_
    refine ⟨hrec, h.routed, h.hand, Delivers.aside
      (h.delivers.goto tid (by simp [hphase]) (by simp)) (fun j => ?_) (fun m j hm => ?_), h.apart⟩
    · simp only [Pool.give]
      rw [Links.addTail_list, if_neg (by simp), Links.unlink_list_of_ne (by simp [hnone])]
    · rw [Pool.give_head] at hm
      split at hm
      · cases hm
      · exact hm

theorem step (h : TracedInv s) {a : Act} {s' : Traced} (hstep : s.step a = some s') :
    TracedInv s' := by
  obtain ⟨sys, hsys, rfl⟩ := Option.map_eq_some_iff.mp hstep
  have hrec := h.records.step hsys
  cases a with
  | set tid f data user timer repeat_ =>
    simp only [TimerThread.step, Option.ite_none_right_eq_some] at hsys
    exact h.itimerSet hsys.2
  | unset tid handle =>
    simp only [TimerThread.step, Option.ite_none_right_eq_some, Option.some.injEq] at hsys
    have hunset := h.itimerUnset handle
    rw [← hsys.2] at hrec ⊢
    exact ⟨hrec, hunset.routed, hunset.hand, hunset.delivers, hunset.apart⟩
  | update tid =>
    simp only [TimerThread.step, Option.ite_none_right_eq_some] at hsys
    exact h.update hsys.1 hsys.2
  | advance tid => exact h.advance hsys
  | wake millisec =>
    simp only [TimerThread.step, Option.ite_none_right_eq_some, Option.some.injEq] at hsys
    rw [← hsys.2] at hrec ⊢
    exact ⟨hrec, h.routed, (fun hp => by cases hp), h.delivers, h.apart⟩
  | timer => exact h.timer hsys

end TracedInv

theorem traced_inv_of_run {millisec interval : BitVec 32} {as : List Act} {s : Traced}
    (h : Run.run Traced.step (Traced.init millisec interval) as = some s) : TracedInv s :=
  Run.run_invariant (fun _ _ _ hs hstep => TracedInv.step hs hstep)
    (traced_inv_init millisec interval) h

end AlgorithmLib.TimerThread
