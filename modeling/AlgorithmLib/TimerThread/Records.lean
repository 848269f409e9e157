import AlgorithmLib.TimerThread.Model
import AlgorithmLib.Library.Run

/-!
The records of tasks. One is free, on a queue, on the local list of a thread that has drained its
queue, or in a hand: the timer thread has one while it waits for the lock of a queue, and a thread
has one while it gives it back.
-/

set_option autoImplicit false

namespace AlgorithmLib.TimerThread

/-- The task that the timer thread is about to queue. -/
def Ctrl.hand : Ctrl → Option Nat
  | .pushing _ _ _ _ t _ => some t
  | _ => none

def Phase.hand : Phase → Option Nat
  | .freeing t => some t
  | _ => none

/-- The task in the hand of the timer thread, or of a thread. -/
def Sys.hand (s : Sys) : Option Nat → Option Nat
  | none => s.ctrl.hand
  | some tid => (s.phase tid).hand

/-- The thread is between the start of a drain and its end. -/
def Phase.queue : Phase → Option Nat
  | .draining k => some k
  | .calling k _ => some k
  | _ => none

structure Records (s : Sys) : Prop where
  slots : Slots s.queue s.key
  ok : s.tasks.pool.Ok .free
  hands : s.tasks.pool.HeldBy s.hand
  busy : ∀ tid k, (s.phase tid).queue = some k → Owns s.queue tid k
  held : ∀ tid k t, s.phase tid = .calling k t →
    ∃ ts, s.tasks.pool.links.list (.queue k) = t :: ts

theorem owns_lock (queue : Queues) (k : Nat) (lock : Option Nat) (tid j : Nat) :
    Owns (Function.update queue k { queue k with lock := lock }) tid j ↔ Owns queue tid j := by
  by_cases hj : j = k
  · subst hj
    simp [Owns]
  · simp [Owns, hj]

theorem slots_lock {queue : Queues} {key : Nat → Int} (h : Slots queue key) (k : Nat)
    (lock : Option Nat) : Slots (Function.update queue k { queue k with lock := lock }) key := by
  have hstops : ∀ tid j, stops (Function.update queue k { queue k with lock := lock }) tid j =
      stops queue tid j := by
    intro tid j
    by_cases hj : j = k
    · subst hj
      simp [stops]
    · simp [stops, hj]
  refine ⟨fun tid j hj => ?_, fun tid j hj hne => (owns_lock ..).mpr (h.cached tid j hj hne)⟩
  have hs := h.found tid j ((owns_lock ..).mp hj)
  rw [slot] at hs ⊢
  split at hs
  · next hne =>
    rw [if_pos hne]
    exact hs
  · next hne =>
    rw [if_neg hne]
    refine probe_shrink (fun i hi => hstops tid i ▸ hi) ?_ hs
    exact stops_of_owns hj

def toLocal (links : Links Nat TaskPlace) (tid t : Nat) : Links Nat TaskPlace :=
  (links.unlink t).addTail t (.taken tid)

theorem toLocal_head (links : Links Nat TaskPlace) (tid t m : Nat) :
    (toLocal links tid t).head m = if m = t then some (.taken tid) else links.head m := by
  rw [toLocal, Links.addTail_head, Links.unlink_head]
  split <;> rfl

theorem toLocal_queue {links : Links Nat TaskPlace} {k t : Nat} {ts : List Nat} (hwf : links.WF)
    (hlist : links.list (.queue k) = t :: ts) (tid j : Nat) :
    (toLocal links tid t).list (.queue j) = if j = k then ts else links.list (.queue j) := by
  have hhead : links.head t = some (.queue k) :=
    (hwf.mem_iff _ t).mp (by rw [hlist]; exact List.mem_cons_self)
  rw [toLocal, Links.addTail_list, if_neg (by simp)]
  by_cases hj : j = k
  · subst hj
    rw [if_pos rfl, Links.unlink_list_of_eq hhead, hlist, List.erase_cons_head]
  · rw [if_neg hj, Links.unlink_list_of_ne (by simp [hhead, Ne.symm hj])]

namespace Records

variable {s t : Sys}

theorem init (millisec interval : BitVec 32) : Records (Sys.init millisec interval) where
  slots := Slots.init _ (fun _ => rfl)
  ok := Pool.ok_empty _
  hands := by
    refine ⟨fun n => ?_, fun w w' n hw _ => ?_⟩
    · constructor
      · rintro ⟨hlt, -⟩
        exact absurd hlt (Nat.not_lt_zero n)
      · rintro ⟨w, hw⟩
        cases w with
        | _ => cases hw
    · cases w with
      | _ => cases hw
  busy _ _ hk := by cases hk
  held _ _ _ hk := by cases hk

theorem frame (h : Records s) (hqueue : t.queue = s.queue) (hkey : t.key = s.key)
    (htasks : t.tasks = s.tasks) (hphase : t.phase = s.phase) (hctrl : t.ctrl.hand = s.ctrl.hand) :
    Records t := by
  have hhand : t.hand = s.hand := by
    funext w
    cases w with
    | none => exact hctrl
    | some tid => simp only [Sys.hand, hphase]
  refine ⟨?_, ?_, ?_, ?_, ?_⟩
  · rw [hqueue, hkey]
    exact h.slots
  · rw [htasks]
    exact h.ok
  · rw [htasks, hhand]
    exact h.hands
  · rw [hqueue, hphase]
    exact h.busy
  · rw [htasks, hphase]
    exact h.held

theorem only (h : Records s) {tid k j : Nat} (hq : (s.phase tid).queue = some k)
    (hj : Owns s.queue tid j) : j = k :=
  h.slots.owns_inj hj (h.busy tid k hq)

theorem alone (h : Records s) {tid tid' k j : Nat} (hq : (s.phase tid).queue = some k)
    (hj : (s.phase tid').queue = some j) (hne : tid' ≠ tid) : j ≠ k := by
  rintro rfl
  exact hne ((h.busy tid' j hj).2.symm.trans (h.busy tid j hq).2)

theorem lock (h : Records s) (k : Nat) (lock : Option Nat) :
    Records { s with queue := Function.update s.queue k { s.queue k with lock := lock } } :=
  ⟨slots_lock h.slots k lock, h.ok, h.hands,
    fun tid j hj => (owns_lock ..).mpr (h.busy tid j hj), h.held⟩

theorem getTask (h : Records s) (tid : Nat) :
    Records { s with
      queue := (getTask s.queue tid (s.key tid)).1
      key := Function.update s.key tid (getTask s.queue tid (s.key tid)).2 } := by
  have hget := h.slots.getTask tid
  exact ⟨hget.slots, h.ok, h.hands, fun tid' j hj => hget.keeps tid' j (h.busy tid' j hj), h.held⟩

theorem itimerSet (h : Records s) {tid : Nat} {f : Option Nat} {data user : Nat}
    {timer : BitVec 32} {repeat_ : Int} (hset : s.itimerSet tid f data user timer repeat_ = some t) :
    Records t := by
  rw [Sys.itimerSet] at hset
  split at hset
  · cases hset
  · cases hset
    have hget := h.getTask tid
    exact ⟨hget.slots, h.ok, h.hands, hget.busy, h.held⟩

theorem itimerUnset (h : Records s) (handle : Nat) : Records (s.itimerUnset handle) := by
  rw [Sys.itimerUnset]
  split
  · exact h
  · split
    · exact h
    · exact h.frame rfl rfl rfl rfl rfl

theorem goto (h : Records s) (tid : Nat) {p : Phase} (hhand : p.hand = (s.phase tid).hand)
    (ho : ∀ k, p.queue = some k → Owns s.queue tid k)
    (hp : ∀ k t, p = .calling k t → ∃ ts, s.tasks.pool.links.list (.queue k) = t :: ts) :
    Records { s with phase := Function.update s.phase tid p } := by
  refine ⟨h.slots, h.ok, h.hands.congr (fun _ => Iff.rfl) (funext fun w => ?_), fun tid' k hk => ?_,
    fun tid' k t hk => ?_⟩
  · cases w with
    | none => rfl
    | some tid' =>
      simp only [Sys.hand]
      by_cases ht : tid' = tid
      · rw [ht, Function.update_self, hhand]
      · rw [Function.update_of_ne ht]
  · dsimp only at hk
    by_cases ht : tid' = tid
    · subst ht
      rw [Function.update_self] at hk
      exact ho k hk
    · rw [Function.update_of_ne ht] at hk
      exact h.busy tid' k hk
  · dsimp only at hk
    by_cases ht : tid' = tid
    · subst ht
      rw [Function.update_self] at hk
      exact hp k t hk
    · rw [Function.update_of_ne ht] at hk
      exact h.held tid' k t hk

theorem itimerPushTask (h : Records s) (hhand : s.ctrl.hand = none)
    (millisec jiffies : BitVec 32) (e count : Nat) :
    Records (s.itimerPushTask millisec jiffies e count) := by
  simp only [Sys.itimerPushTask]
  split
  · exact h.frame rfl rfl rfl rfl hhand.symm
  · split
    · exact h.frame rfl rfl rfl rfl hhand.symm
    · next i pool htake =>
      obtain ⟨n, p', htake', hok, -⟩ := h.ok.take (show 0 < defItimerPoolAddSize by decide)
      obtain ⟨rfl, rfl⟩ : n = i ∧ p' = pool := by simpa [htake'] using htake
      obtain ⟨hnot, hin⟩ := Pool.take_inHand h.ok htake
      refine ⟨h.slots, hok, h.hands.grab (w := none) hhand hnot hin (funext fun w => ?_), h.busy,
        fun tid k j hj => ?_⟩
      · cases w with
        | none => rfl
        | some tid => rfl
      · dsimp only
        rw [h.ok.take_list htake (by simp)]
        exact h.held tid k j hj

theorem fire (h : Records s) (hhand : s.ctrl.hand = none) (millisec jiffies : BitVec 32)
    (e count : Nat) : Records (s.fire millisec jiffies e count) := by
  simp only [Sys.fire]
  split
  · split
    · exact h.itimerPushTask hhand millisec jiffies e count
    · exact h.frame rfl rfl rfl rfl hhand.symm
  · exact h.frame rfl rfl rfl rfl hhand.symm

theorem fired (h : Records s) (hhand : s.ctrl.hand = none) (millisec jiffies : BitVec 32)
    (e : Nat) : Records (s.fired millisec jiffies e) := by
  have hdone : Records { s with
      evts :=
        { s.evts with
          evt := Function.update s.evts.evt e
            { s.evts.evt e with
              toItimerEvt := { (s.evts.evt e).toItimerEvt with running := false } } }
      ctrl := .draining millisec jiffies } := h.frame rfl rfl rfl rfl hhand.symm
  simp only [Sys.fired]
  split
  · exact hdone.itimerUnset _
  · exact hdone

theorem pushTaskToQ (h : Records s) {millisec jiffies : BitVec 32} {e count i key : Nat}
    (hctrl : s.ctrl = .pushing millisec jiffies e count i key)
    (hpush : s.pushTaskToQ millisec jiffies e count i key = some t) : Records t := by
  have hhand : s.hand none = some i := by rw [Sys.hand, hctrl, Ctrl.hand]
  obtain ⟨hlt, hnone⟩ := (h.hands.iff i).mpr ⟨none, hhand⟩
  simp only [Sys.pushTaskToQ] at hpush
  split at hpush
  · cases hpush
  · split at hpush
    · cases hpush
      refine ⟨h.slots, h.ok.link hlt hnone (by simp), h.hands.drop hhand
        (Pool.link_inHand i (.queue key) s.tasks.pool) (funext fun w => ?_), h.busy,
          fun tid k j hj => ?_⟩
      · cases w with
        | none => rfl
        | some tid => rfl
      · obtain ⟨ts, hts⟩ := h.held tid k j hj
        simp only [Pool.link]
        rw [Links.addTail_list]
        split
        · next hk =>
          rw [← hk, hts]
          exact ⟨ts ++ [i], rfl⟩
        · exact ⟨ts, hts⟩
    · cases hpush
      refine ⟨h.slots, h.ok.give hlt (by simp [hnone]), h.hands.drop hhand
        (Pool.give_inHand .free i s.tasks.pool) (funext fun w => ?_), h.busy, fun tid k j hj => ?_⟩
      · cases w with
        | none => rfl
        | some tid => rfl
      · obtain ⟨ts, hts⟩ := h.held tid k j hj
        simp only [Pool.give]
        rw [Links.addTail_list, if_neg (by simp), Links.unlink_list_of_ne (by simp [hnone])]
        exact ⟨ts, hts⟩

theorem itimerEvtCb (h : Records s) (hhand : s.ctrl.hand = none) {millisec jiffies : BitVec 32}
    {e : Nat} (hcb : s.itimerEvtCb millisec jiffies e = some t) : Records t := by
  simp only [Sys.itimerEvtCb] at hcb
  split at hcb
  · cases hcb
  · cases hcb
    exact h.frame rfl rfl rfl rfl hhand.symm

theorem timer (h : Records s) (hstep : s.timer = some t) : Records t := by
  simp only [Sys.timer] at hstep
  split at hstep
  · cases hstep
  · next hctrl =>
    split at hstep
    · cases hstep
      exact h.frame rfl rfl rfl rfl (by rw [hctrl]; rfl)
    · cases hstep
      exact h.frame rfl rfl rfl rfl (by rw [hctrl]; rfl)
  · next hctrl =>
    split at hstep
    · cases hstep
      exact h.frame rfl rfl rfl rfl (by rw [hctrl]; rfl)
    · cases hstep
      exact h.frame rfl rfl rfl rfl (by rw [hctrl]; rfl)
  · next hctrl =>
    split at hstep
    · cases hstep
      exact h.frame rfl rfl rfl rfl (by rw [hctrl]; rfl)
    · split at hstep
      · refine itimerEvtCb ?_ ?_ hstep
        · exact h.frame rfl rfl rfl rfl rfl
        · dsimp only
          rw [hctrl]
          rfl
      · cases hstep
        exact h.frame rfl rfl rfl rfl rfl
  · next hctrl =>
    cases hstep
    exact h.fire (by rw [hctrl]; rfl) _ _ _ _
  · next hctrl =>
    cases hstep
    exact h.fired (by rw [hctrl]; rfl) _ _ _
  · next hctrl => exact h.pushTaskToQ hctrl hstep

theorem update (h : Records s) {tid : Nat} (hidle : s.phase tid = .idle)
    (hstep : s.update tid = some t) : Records t := by
  have hget := h.getTask tid
  simp only [Sys.update] at hstep
  split at hstep
  · cases hstep
    exact ⟨hget.slots, h.ok, h.hands, hget.busy, h.held⟩
  · next hpos =>
    split at hstep
    · cases hstep
    · cases hstep
      obtain ⟨k, hk⟩ := Int.eq_ofNat_of_zero_le (Int.not_lt.mp hpos)
      have henter := (hget.goto tid (p := .draining k) (by rw [hidle]; rfl)
        (fun j hj => by cases hj; exact (h.slots.getTask tid).owns k hk)
        (fun _ _ hp => by cases hp)).lock k (some tid)
      simp only [hk, Int.toNat_natCast]
      rw [hk] at henter
      exact ⟨henter.slots, henter.ok, henter.hands, henter.busy, henter.held⟩

theorem takeTask (h : Records s) {tid k i : Nat} {ts : List Nat}
    (hq : (s.phase tid).queue = some k) (hlist : s.tasks.pool.links.list (.queue k) = i :: ts) :
    Records (s.takeTask tid k i) := by
  have hhead : s.tasks.pool.links.head i = some (.queue k) :=
    (h.ok.wf.mem_iff _ i).mp (by rw [hlist]; exact List.mem_cons_self)
  have hhand : (s.phase tid).hand = none := by
    cases hp : s.phase tid with
    | freeing j =>
      rw [hp] at hq
      cases hq
    | _ => rfl
  have hgo := h.goto tid (p := .draining k) (by rw [hhand]; rfl)
    (fun j hj => by cases hj; exact h.busy tid k hq) (fun _ _ hp => by cases hp)
  refine ⟨h.slots, ⟨?_, fun m hm => ?_, ?_⟩, hgo.hands.congr (fun m => ?_) rfl, hgo.busy,
    fun tid' j m hm => ?_⟩
  · exact (h.ok.wf.unlink i).addTail (by rw [Links.unlink_head, if_pos rfl]) _
  · have hlt := h.ok.lt_of_head hhead
    have hne : m ≠ i := by
      rintro rfl
      exact absurd hlt (Nat.not_lt.mpr hm)
    exact (toLocal_head s.tasks.pool.links tid i m).trans ((if_neg hne).trans (h.ok.fresh m hm))
  · simp only [Sys.takeTask, Links.addTail_list, reduceCtorEq, if_false]
    rw [Links.unlink_list_of_ne (by simp [hhead])]
    exact h.ok.counted
  · have hm := toLocal_head s.tasks.pool.links tid i m
    rw [toLocal] at hm
    simp only [Pool.InHand, Sys.takeTask, hm]
    by_cases hmi : m = i
    · simp [hmi, hhead]
    · simp [hmi]
  · have hne : tid' ≠ tid := by
      rintro rfl
      simp [Sys.takeTask] at hm
    have hm' : s.phase tid' = .calling j m := by
      simpa only [Sys.takeTask, Function.update_of_ne hne] using hm
    have hj := toLocal_queue h.ok.wf hlist tid j
    rw [if_neg (h.alone hq (by rw [hm']; rfl) hne)] at hj
    obtain ⟨ts', hts'⟩ := h.held tid' j m hm'
    exact ⟨ts', hj.trans hts'⟩

theorem hand_goto (s : Sys) (tid : Nat) (p : Phase) (tasks : TaskPool) :
    Sys.hand { s with tasks := tasks, phase := Function.update s.phase tid p } =
      Function.update s.hand (some tid) p.hand := by
  funext w
  cases w with
  | none => rfl
  | some tid' =>
    by_cases ht : tid' = tid
    · subst ht
      simp only [Sys.hand, Function.update_self]
    · rw [Function.update_of_ne (by simpa using ht)]
      simp only [Sys.hand, Function.update_of_ne ht]

theorem aside (h : Records s) {tid : Nat} {p : Phase} {pool : Pool TaskPlace}
    (hq : p.queue = none) (hok : pool.Ok .free)
    (hands : pool.HeldBy (Function.update s.hand (some tid) p.hand))
    (hlist : ∀ j, pool.links.list (.queue j) = s.tasks.pool.links.list (.queue j)) :
    Records { s with
      tasks := { s.tasks with pool := pool }, phase := Function.update s.phase tid p } := by
  refine ⟨h.slots, hok, hands.congr (fun _ => Iff.rfl) (hand_goto s tid p _), fun tid' k hk => ?_,
    fun tid' k i hk => ?_⟩
  · dsimp only at hk
    by_cases ht : tid' = tid
    · rw [ht, Function.update_self, hq] at hk
      cases hk
    · rw [Function.update_of_ne ht] at hk
      exact h.busy tid' k hk
  · dsimp only at hk
    by_cases ht : tid' = tid
    · rw [ht, Function.update_self] at hk
      rw [hk] at hq
      cases hq
    · rw [Function.update_of_ne ht] at hk
      obtain ⟨ts, hts⟩ := h.held tid' k i hk
      exact ⟨ts, (hlist k).trans hts⟩

theorem advance (h : Records s) {tid : Nat} (hstep : s.advance tid = some t) : Records t := by
  simp only [Sys.advance] at hstep
  split at hstep
  · cases hstep
  · next k hphase =>
    have hq : (s.phase tid).queue = some k := by rw [hphase]; rfl
    split at hstep
    · cases hstep
      exact (h.goto tid (p := .releasing) (by rw [hphase]; rfl) (fun _ hj => by cases hj)
        (fun _ _ hp => by cases hp)).lock k none
    · next i is hlist =>
      split at hstep
      · cases hstep
        have hgo := h.goto tid (p := .calling k i) (by rw [hphase]; rfl)
          (fun j hj => by cases hj; exact h.busy tid k hq)
          (fun j m hp => by cases hp; exact ⟨is, hlist⟩)
        exact hgo.frame rfl rfl rfl rfl rfl
      · cases hstep
        exact h.takeTask hq hlist
  · next k i hphase =>
    cases hstep
    obtain ⟨ts, hts⟩ := h.held tid k i hphase
    exact h.takeTask (by rw [hphase]; rfl) hts
  · next hphase =>
    split at hstep
    · cases hstep
      exact h.goto tid (by rw [hphase]; rfl) (fun _ hj => by cases hj) (fun _ _ hp => by cases hp)
    · next i is hlist =>
      cases hstep
      have hhead : s.tasks.pool.links.head i = some (.taken tid) :=
        (h.ok.wf.mem_iff _ i).mp (by rw [hlist]; exact List.mem_cons_self)
      refine h.aside rfl (h.ok.unlink (by simp [hhead]) _)
        (h.hands.grab (w := some tid) (by rw [Sys.hand, hphase]; rfl) (fun hin => ?_)
          (Pool.unlink_inHand (h.ok.lt_of_head hhead)) rfl) (fun j => ?_)
      · rw [hin.2] at hhead
        cases hhead
      · exact Links.unlink_list_of_ne (by simp [hhead])
  · next i hphase =>
    cases hstep
    have hhand : s.hand (some tid) = some i := by rw [Sys.hand, hphase]; rfl
    obtain ⟨hlt, hnone⟩ := (h.hands.iff i).mpr ⟨some tid, hhand⟩
    refine h.aside rfl (h.ok.give hlt (by simp [hnone]))
      (h.hands.drop hhand (Pool.give_inHand .free i s.tasks.pool) rfl) (fun j => ?_)
    simp only [Pool.give]
    rw [Links.addTail_list, if_neg (by simp), Links.unlink_list_of_ne (by simp [hnone])]

theorem step (h : Records s) {a : Act} (hstep : TimerThread.step s a = some t) : Records t := by
  cases a with
  | set tid f data user timer repeat_ =>
    simp only [TimerThread.step, Option.ite_none_right_eq_some] at hstep
    exact h.itimerSet hstep.2
  | unset tid handle =>
    simp only [TimerThread.step, Option.ite_none_right_eq_some, Option.some.injEq] at hstep
    rw [← hstep.2]
    exact (h.itimerUnset handle).frame rfl rfl rfl rfl rfl
  | update tid =>
    simp only [TimerThread.step, Option.ite_none_right_eq_some] at hstep
    exact h.update hstep.1 hstep.2
  | advance tid => exact h.advance hstep
  | wake millisec =>
    simp only [TimerThread.step, Option.ite_none_right_eq_some, Option.some.injEq] at hstep
    rw [← hstep.2]
    exact h.frame rfl rfl rfl rfl (by rw [hstep.1]; rfl)
  | timer => exact h.timer hstep

end Records

end AlgorithmLib.TimerThread
