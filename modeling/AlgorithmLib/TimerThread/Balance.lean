import AlgorithmLib.Library.Run
import AlgorithmLib.TimerThread.CoreLock

/-!
The lock of the core is given back as long as no two threads work on one node: `itimer_node_destroy`
from its first look at the core of the node on, and the timer thread from the moment it takes the
node off the due ones until it is linked again.
-/

set_option autoImplicit false

namespace AlgorithmLib.TimerThread

open TimeWheel (NodeId)

def DestroyPc.engaged : DestroyPc → Option NodeId
  | .testState _ => none
  | .testCore _ => none
  | .lockArg n => some n
  | .lock n => some n
  | .testHead n => some n
  | .delHead n => some n
  | .unlockArg n => some n
  | .unlock n => some n
  | .clearCore n => some n
  | .testCoreAgain n => some n
  | .unlockArgAgain n => some n
  | .unlockAgain n => some n
  | .finish n => some n
  | .lockedNull => none
  | .unlockedNull => none

def TimerPc.engaged : TimerPc → Option NodeId
  | .dispatchClear n _ => some n
  | .callback n => some n
  | .addLock n => some n
  | .addTest n => some n
  | .addDel n => some n
  | .addClear n => some n
  | .addTail n => some n
  | .addCore n => some n
  | _ => none

/-- The node that `itimer_internal_cascade` has taken off its list. -/
def TimerPc.moving : TimerPc → Option NodeId
  | .cascadeArg n => some n
  | .cascadeTail n => some n
  | _ => none

/-- Between `itimer_core_lock` and `itimer_core_unlock` of the timer thread itself. -/
def TimerPc.holds : TimerPc → Bool
  | .locked => true
  | .cascading => true
  | .cascadeDel _ => true
  | .cascadeArg _ => true
  | .cascadeTail _ => true
  | .cascadeCore _ => true
  | .unlockUpdate => true
  | .addTest _ => true
  | .addDel _ => true
  | .addClear _ => true
  | .addTail _ => true
  | .addCore _ => true
  | .addUnlock => true
  | .stopTest _ => true
  | .stopDel _ => true
  | .stopClear _ => true
  | .stopUnlock _ => true
  | .crashed => true
  | _ => false

namespace LockSys

def settled (s : LockSys) (n : NodeId) : Bool := s.linked n || s.timer.moving = some n

/-- The thread has looked at the core of the node in `itimer_node_destroy`. -/
def works (s : LockSys) (t : Tid) (n : NodeId) : Bool :=
  (s.destroyer t).bind DestroyPc.engaged = some n

/-- Who is not in `itimer_node_destroy` does not hold the lock, unless the timer thread took it for
itself, and nobody has unlocked a null core. -/
def Balanced (s : LockSys) : Prop :=
  (∀ t, s.destroyer t = none → s.lock = some t → t = .timer ∧ s.timer.holds = true) ∧
    ∀ t, s.destroyer t ≠ some .unlockedNull

end LockSys

/-- What holds where a thread is in `itimer_node_destroy`. -/
def DestroyPc.At (s : LockSys) (t : Tid) : DestroyPc → Prop
  | .testState _ => s.lock ≠ some t
  | .testCore _ => s.lock ≠ some t
  | .lockArg n => s.lock ≠ some t ∧ s.core n = true ∧ s.settled n = true
  | .lock n => s.lock ≠ some t ∧ s.core n = true ∧ s.settled n = true
  | .testHead n => s.lock = some t ∧ s.core n = true ∧ s.settled n = true ∨
      s.lock ≠ some t ∧ s.core n = false ∧ s.settled n = false
  | .delHead n => s.lock = some t ∧ s.core n = true
  | .unlockArg n => s.lock = some t ∧ s.core n = true ∧ s.settled n = false
  | .unlock n => s.lock = some t ∧ s.core n = true ∧ s.settled n = false
  | .clearCore n => s.lock ≠ some t ∧ s.core n = true ∧ s.settled n = false
  | .testCoreAgain n => s.lock ≠ some t ∧ s.core n = false ∧ s.settled n = false
  | .finish n => s.lock ≠ some t ∧ s.core n = false ∧ s.settled n = false
  | .unlockArgAgain _ => False
  | .unlockAgain _ => False
  | .lockedNull => False
  | .unlockedNull => False

def TimerPc.Knows (s : LockSys) : TimerPc → Prop
  | .cascadeDel n => s.linked n = true
  | .cascadeArg n => s.linked n = false
  | .cascadeTail n => s.linked n = false
  | .cascadeCore n => s.linked n = true
  | .dispatchClear n _ => s.linked n = false
  | .callback n => s.core n = false ∧ s.linked n = false
  | .addLock n => s.core n = false ∧ s.linked n = false
  | .addTest n => s.core n = false ∧ s.linked n = false
  | .addTail n => s.core n = false ∧ s.linked n = false
  | .addCore n => s.linked n = true
  | .stopLock n => s.linked n = false
  | .stopTest n => s.linked n = false
  | .addDel _ => False
  | .addClear _ => False
  | .stopDel _ => False
  | .stopClear _ => False
  | _ => True

structure Orderly (s : LockSys) : Prop where
  wf : s.links.WF
  single : ∀ t t' n, s.works t n = true → s.works t' n = true → s.core n = true → t = t'
  apart : ∀ t n, s.works t n = true → s.timer.engaged ≠ some n
  destroyer : ∀ t pc, s.destroyer t = some pc → pc.At s t
  free : ∀ k, s.destroyer (.other k) = none → s.lock ≠ some (.other k)
  timer : s.timer.Knows s
  own : s.destroyer .timer = none → (s.lock = some .timer ↔ s.timer.holds = true)
  unset : s.timer ≠ .unset → s.destroyer .timer = none
  steady : ∀ n, s.timer.engaged ≠ some n → (∀ t, s.works t n = false) → s.core n = s.settled n

theorem Orderly.balanced {s : LockSys} (h : Orderly s) : s.Balanced := by
  refine ⟨fun t ht hlock => ?_, fun t ht => h.destroyer t _ ht⟩
  cases t with
  | timer => exact ⟨rfl, (h.own ht).mp hlock⟩
  | other k => exact absurd hlock (h.free k ht)

section

variable {s s' : LockSys} {t : Tid}

namespace LockSys

theorem settled_congr {n : NodeId} (htimer : s'.timer = s.timer)
    (hlinked : s'.linked n = s.linked n) : s'.settled n = s.settled n := by
  simp only [settled, hlinked, htimer]

theorem works_iff {n : NodeId} :
    s.works t n = true ↔ ∃ pc, s.destroyer t = some pc ∧ pc.engaged = some n := by
  simp [works, Option.bind_eq_some_iff]

theorem works_of_destroyer {pc : DestroyPc} (hpc : s.destroyer t = some pc) (n : NodeId) :
    s.works t n = true ↔ pc.engaged = some n := by
  simp [works, hpc]

end LockSys

open LockSys

theorem DestroyPc.At.frame {pc : DestroyPc} (h : pc.At s t)
    (hlock : s'.lock = some t ↔ s.lock = some t)
    (hnode : ∀ n, pc.engaged = some n → s'.core n = s.core n ∧ s'.settled n = s.settled n) :
    pc.At s' t := by
  cases pc <;> simp_all [DestroyPc.At, DestroyPc.engaged]

theorem TimerPc.Knows.frame {pc : TimerPc} (h : pc.Knows s)
    (hnode : ∀ n, pc.engaged = some n → s'.core n = s.core n ∧ s'.linked n = s.linked n)
    (hless : ∀ n, s'.linked n = true → s.linked n = true)
    (hheld : pc.holds = true → ∀ n, s'.linked n = s.linked n) : pc.Knows s' := by
  have hstop : ∀ n, s.linked n = false → s'.linked n = false := fun n hn => by
    by_contra hne
    rw [hless n (by simpa using hne)] at hn
    cases hn
  cases pc <;> simp_all [TimerPc.Knows, TimerPc.engaged, TimerPc.holds]

/-- What is left to show of a step of `itimer_node_destroy` in one thread. -/
structure OwnStep (s s' : LockSys) (t : Tid) : Prop where
  wf : s'.links.WF
  timer : s'.timer = s.timer
  other : ∀ u, u ≠ t → s'.destroyer u = s.destroyer u
  lock : ∀ u, u ≠ t → (s'.lock = some u ↔ s.lock = some u)
  node : ∀ n, (∃ u, u ≠ t ∧ s.works u n = true) ∨ s.timer.engaged = some n →
    s'.core n = s.core n ∧ s'.linked n = s.linked n
  less : ∀ n, s'.linked n = true → s.linked n = true
  held : s.lock ≠ some t → ∀ n, s'.linked n = s.linked n
  at_ : ∀ pc, s'.destroyer t = some pc → pc.At s' t
  ret : s'.destroyer t = none → s'.lock ≠ some t
  apart : ∀ n, s'.works t n = true → s.timer.engaged ≠ some n
  single : ∀ n, s'.works t n = true → s'.core n = true → ∀ u, u ≠ t → s.works u n = false
  steady : ∀ n, s.timer.engaged ≠ some n → s'.works t n = false →
    (∀ u, u ≠ t → s.works u n = false) → s'.core n = s'.settled n

/-- The timer thread calls `itimer_node_destroy` in `itimer_unset` only. -/
theorem Orderly.timer_unset (h : Orderly s) {pc : DestroyPc} (hpc : s.destroyer t = some pc) :
    t = .timer → s.timer = .unset := by
  rintro rfl
  by_contra hne
  rw [h.unset hne] at hpc
  cases hpc

theorem Orderly.ownStep (h : Orderly s) (h' : OwnStep s s' t)
    (htimer : t = .timer → s.timer = .unset) : Orderly s' := by
  have hother : ∀ u n, u ≠ t → s'.works u n = s.works u n := fun u n hu => by
    simp only [works, h'.other u hu]
  refine ⟨h'.wf, fun u v n hu hv hcore => ?_, fun u n hu => ?_, fun u pc' hu => ?_, fun k hk => ?_,
    ?_, fun hnone => ?_, fun hne => ?_, fun n hne hn => ?_⟩
  · by_cases hut : u = t
    · subst hut
      by_contra hvu
      have hvu := Ne.symm hvu
      rw [hother v n hvu, h'.single n hu hcore v hvu] at hv
      cases hv
    · rw [hother u n hut] at hu
      by_cases hvt : v = t
      · subst hvt
        rw [h'.single n hv hcore u hut] at hu
        cases hu
      · rw [hother v n hvt] at hv
        rw [(h'.node n (.inl ⟨u, hut, hu⟩)).1] at hcore
        exact h.single u v n hu hv hcore
  · rw [h'.timer]
    by_cases hut : u = t
    · subst hut
      exact h'.apart n hu
    · rw [hother u n hut] at hu
      exact h.apart u n hu
  · by_cases hut : u = t
    · subst hut
      exact h'.at_ pc' hu
    · rw [h'.other u hut] at hu
      refine (h.destroyer u pc' hu).frame (h'.lock u hut) (fun n hn => ?_)
      obtain ⟨hcore, hlinked⟩ := h'.node n (.inl ⟨u, hut, (works_of_destroyer hu n).mpr hn⟩)
      exact ⟨hcore, settled_congr h'.timer hlinked⟩
  · by_cases hkt : .other k = t
    · rw [hkt] at hk ⊢
      exact h'.ret hk
    · rw [h'.other _ hkt] at hk
      rw [ne_eq, h'.lock _ hkt]
      exact h.free k hk
  · rw [h'.timer]
    by_cases htt : t = .timer
    · rw [htimer htt]
      trivial
    · refine h.timer.frame (fun n hn => h'.node n (.inr hn)) h'.less (fun hholds => h'.held ?_)
      have hnone := h.unset (by
        intro hu
        rw [hu] at hholds
        cases hholds)
      rw [(h.own hnone).mpr hholds]
      exact fun heq => htt (Option.some.inj heq).symm
  · by_cases htt : t = .timer
    · subst htt
      rw [h'.timer, htimer rfl]
      exact iff_of_false (h'.ret hnone) (by simp [TimerPc.holds])
    · rw [h'.other _ (Ne.symm htt)] at hnone
      rw [h'.timer, h'.lock _ (Ne.symm htt)]
      exact h.own hnone
  · rw [h'.timer] at hne
    have htt : Tid.timer ≠ t := fun htt => hne (htimer htt.symm)
    rw [h'.other _ htt]
    exact h.unset hne
  · rw [h'.timer] at hne
    exact h'.steady n hne (hn t) (fun u hu => (hother u n hu).symm.trans (hn u))

theorem Orderly.own_node (h : Orderly s) {pc : DestroyPc} (hpc : s.destroyer t = some pc)
    {links : Links NodeId NodeList} {core ok : NodeId → Bool} {lock : Option Tid}
    {next : Option DestroyPc} (hwf : links.WF)
    (hlock : ∀ u, u ≠ t → (lock = some u ↔ s.lock = some u))
    (hnode : ∀ n, pc.engaged ≠ some n ∨ s.core n = false →
      core n = s.core n ∧ links.head n = s.links.head n)
    (hless : ∀ n, s.links.head n = none → links.head n = none)
    (hheld : s.lock ≠ some t → links = s.links)
    (hat : ∀ pc', next = some pc' → pc'.At
      { s with links := links, core := core, ok := ok, lock := lock
               destroyer := Function.update s.destroyer t next } t)
    (hret : next = none → lock ≠ some t)
    (hengaged : ∀ n, next.bind DestroyPc.engaged = some n → pc.engaged = some n ∨
      s.timer.engaged ≠ some n ∧ (s.core n = true → ∀ u, s.works u n = false))
    (hsteady : ∀ n, pc.engaged = some n → next.bind DestroyPc.engaged ≠ some n →
      core n = ((links.head n).isSome || s.timer.moving = some n)) :
    Orderly { s with links := links, core := core, ok := ok, lock := lock
                     destroyer := Function.update s.destroyer t next } := by
  have hworks := works_of_destroyer hpc
  have hsame : ∀ n, (∃ u, u ≠ t ∧ s.works u n = true) ∨ s.timer.engaged = some n →
      core n = s.core n ∧ links.head n = s.links.head n := fun n hn => by
    refine hnode n (or_iff_not_imp_left.mpr fun hpn => Bool.eq_false_iff.mpr fun hcore => ?_)
    have ht := (hworks n).mpr (not_not.mp hpn)
    obtain ⟨u, hu, hun⟩ | hn := hn
    · exact hu (h.single u t n hun ht hcore)
    · exact h.apart t n ht hn
  have hnext : ∀ n, LockSys.works
      { s with links := links, core := core, ok := ok, lock := lock
               destroyer := Function.update s.destroyer t next } t n = true ↔
        next.bind DestroyPc.engaged = some n := fun n => by
    simp [works]
  refine h.ownStep (t := t) ⟨hwf, rfl, fun u hu => Function.update_of_ne hu _ _, hlock,
    fun n hn => ?_, fun n hn => ?_, fun hne n => ?_, fun pc' hpc' => hat pc' ?_,
    fun hnone => hret ?_, fun n hn => ?_, fun n hn hcore u hu => ?_, fun n hne hn hothers => ?_⟩
    (h.timer_unset hpc)
  · obtain ⟨hcore, hhead⟩ := hsame n hn
    exact ⟨hcore, by simp only [linked, hhead]⟩
  · cases hhead : s.links.head n with
    | none => simp [linked, hless n hhead] at hn
    | some p => simp [linked, hhead]
  · simp only [linked, hheld hne]
  · simpa using hpc'
  · simpa using hnone
  · obtain hpn | hfree := hengaged n ((hnext n).mp hn)
    · exact h.apart t n ((hworks n).mpr hpn)
    · exact hfree.1
  · refine Bool.eq_false_iff.mpr fun hun => ?_
    have hcore : s.core n = true := (hsame n (.inl ⟨u, hu, hun⟩)).1.symm.trans hcore
    obtain hpn | hfree := hengaged n ((hnext n).mp hn)
    · exact hu (h.single u t n hun ((hworks n).mpr hpn) hcore)
    · rw [hfree.2 hcore u] at hun
      cases hun
  · have hn : next.bind DestroyPc.engaged ≠ some n := fun hnn => by
      cases hn.symm.trans ((hnext n).mpr hnn)
    by_cases hpn : pc.engaged = some n
    · exact hsteady n hpn hn
    · obtain ⟨hcore, hhead⟩ := hnode n (.inl hpn)
      have hsteady := h.steady n hne (fun u => by
        by_cases hu : u = t
        · subst hu
          exact Bool.eq_false_iff.mpr fun htrue => hpn ((hworks n).mp htrue)
        · exact hothers u hu)
      simpa [settled, linked, hcore, hhead] using hsteady

theorem Orderly.goto (h : Orderly s) {pc pc' : DestroyPc} (hpc : s.destroyer t = some pc)
    (hat : pc'.At (s.goto t pc') t)
    (hengaged : ∀ n, pc'.engaged = some n → pc.engaged = some n ∨
      s.timer.engaged ≠ some n ∧ (s.core n = true → ∀ u, s.works u n = false))
    (hsteady : ∀ n, pc.engaged = some n → pc'.engaged = some n) : Orderly (s.goto t pc') :=
  h.own_node hpc h.wf (fun _ _ => Iff.rfl) (fun _ _ => ⟨rfl, rfl⟩) (fun _ => id) (fun _ => rfl)
    (fun _ hpc' => by cases hpc'; exact hat) (fun hnone => by cases hnone) hengaged
    (fun n hn hne => absurd (hsteady n hn) hne)

theorem Orderly.core_of_settled (h : Orderly s) {n : NodeId} (htimer : s.timer.engaged ≠ some n)
    (hn : s.settled n = true) : s.core n = true := by
  by_cases hfree : ∀ t, s.works t n = false
  · rw [h.steady n htimer hfree, hn]
  · obtain ⟨t, ht⟩ := not_forall.mp hfree
    obtain ⟨pc, hpc, hpcn⟩ := works_iff.mp (by simpa using ht)
    have hat := h.destroyer t pc hpc
    cases pc <;> cases hpcn <;> simp_all [DestroyPc.At]

theorem Orderly.moving_eq (h : Orderly s) (hpc : s.destroyer t ≠ none) (hlock : s.lock = some t) :
    s.timer.moving = none := by
  have hholds : s.timer.holds = false := by
    by_cases hnone : s.destroyer .timer = none
    · refine Bool.eq_false_iff.mpr fun htrue => ?_
      rw [(h.own hnone).mpr htrue] at hlock
      cases hlock
      exact hpc hnone
    · have hunset : s.timer = .unset := by
        by_contra hne
        exact hnone (h.unset hne)
      rw [hunset]
      rfl
  cases htimer : s.timer <;> simp [htimer, TimerPc.holds, TimerPc.moving] at hholds ⊢

/-- The condition on a step: a thread that begins to work on a node is alone there, unless the core
of the node is gone and does not come back. -/
def Alone (s : LockSys) : LockAct → Prop
  | .destroy t => ∀ n, s.destroyer t = some (.testCore n) →
      s.timer.engaged ≠ some n ∧ (s.core n = true → ∀ u, s.works u n = false)
  | .timer => ∀ n fn, s.timer = .dispatchDel n fn → ∀ u, s.works u n = false
  | _ => True

theorem Orderly.destroy (h : Orderly s) {pc : DestroyPc} (hpc : s.destroyer t = some pc)
    (halone : Alone s (.destroy t)) (hstep : s.destroy t pc = some s') : Orderly s' := by
  have hat := h.destroyer t pc hpc
  have hmoving := h.moving_eq (t := t) (by rw [hpc]; simp)
  cases pc with
  | testState n =>
    simp only [LockSys.destroy, Option.some.injEq] at hstep
    subst hstep
    split
    · exact h.goto hpc hat (fun m hm => by cases hm) (fun m hm => by cases hm)
    · exact h.own_node hpc h.wf (fun _ _ => Iff.rfl) (fun _ _ => ⟨rfl, rfl⟩) (fun _ => id)
        (fun _ => rfl) (fun pc' hpc' => by cases hpc') (fun _ => hat) (fun m hm => by cases hm)
        (fun m hm => by cases hm)
  | testCore n =>
    simp only [LockSys.destroy, Option.some.injEq] at hstep
    subst hstep
    obtain ⟨htimer, hfree⟩ := halone n hpc
    split
    · rename_i hcore
      have hsettled := h.steady n htimer (hfree hcore)
      exact h.goto hpc ⟨hat, hcore, hsettled.symm.trans hcore⟩
        (fun m hm => by cases hm; exact .inr ⟨htimer, hfree⟩) (fun m hm => by cases hm)
    · rename_i hcore
      have hsettled := Bool.eq_false_iff.mpr fun hn => hcore (h.core_of_settled htimer hn)
      exact h.goto hpc (.inr ⟨hat, Bool.eq_false_iff.mpr hcore, hsettled⟩)
        (fun m hm => by cases hm; exact .inr ⟨htimer, hfree⟩) (fun m hm => by cases hm)
  | lockArg n =>
    simp only [LockSys.destroy, Option.some.injEq, hat.2.1, if_true] at hstep
    subst hstep
    exact h.goto hpc hat (fun m hm => .inl hm) (fun m hm => hm)
  | lock n =>
    simp only [LockSys.destroy, Option.ite_none_right_eq_some, Option.some.injEq,
      Option.isNone_iff_eq_none] at hstep
    obtain ⟨hnone, rfl⟩ := hstep
    refine h.own_node hpc h.wf (fun u hu => ?_) (fun _ _ => ⟨rfl, rfl⟩) (fun _ => id)
      (fun _ => rfl) (fun pc' hpc' => ?_) (fun hnone => by cases hnone) (fun m hm => .inl hm)
      (fun m hm hne => absurd hm hne)
    · simp [hnone, Ne.symm hu]
    · cases hpc'
      exact .inl ⟨rfl, hat.2⟩
  | testHead n =>
    simp only [LockSys.destroy, Option.some.injEq] at hstep
    subst hstep
    obtain ⟨hlock, hcore, hsettled⟩ | ⟨hlock, hcore, hsettled⟩ := hat
    · have hlinked : s.linked n = true := by
        simpa [LockSys.settled, hmoving hlock] using hsettled
      rw [if_pos hlinked]
      exact h.goto hpc ⟨hlock, hcore⟩ (fun m hm => .inl hm) (fun m hm => hm)
    · have hlinked : ¬ s.linked n = true := fun hl => by
        simp [LockSys.settled, hl] at hsettled
      rw [if_neg hlinked]
      exact h.goto hpc ⟨hlock, hcore, hsettled⟩ (fun m hm => .inl hm) (fun m hm => hm)
  | delHead n =>
    simp only [LockSys.destroy, Option.some.injEq] at hstep
    subst hstep
    refine h.own_node hpc (h.wf.unlink n) (fun _ _ => Iff.rfl) (fun m hm => ⟨rfl, ?_⟩)
      (fun m hm => ?_) (fun hne => absurd hat.1 hne) (fun pc' hpc' => ?_)
      (fun hnone => by cases hnone) (fun m hm => .inl hm) (fun m hm hne => absurd hm hne)
    · simp only [del, Links.unlink_head]
      refine if_neg ?_
      rintro rfl
      simp [DestroyPc.engaged, hat.2] at hm
    · simp only [del, Links.unlink_head, hm, ite_self]
    · cases hpc'
      refine ⟨hat.1, hat.2, ?_⟩
      simp [LockSys.settled, linked, del, hmoving hat.1]
  | unlockArg n =>
    simp only [LockSys.destroy, Option.some.injEq, hat.2.1, if_true] at hstep
    subst hstep
    exact h.goto hpc hat (fun m hm => .inl hm) (fun m hm => hm)
  | unlock n =>
    simp only [LockSys.destroy, Option.some.injEq] at hstep
    subst hstep
    refine h.own_node hpc h.wf (fun u hu => ?_) (fun _ _ => ⟨rfl, rfl⟩) (fun _ => id)
      (fun _ => rfl) (fun pc' hpc' => ?_) (fun hnone => by cases hnone) (fun m hm => .inl hm)
      (fun m hm hne => absurd hm hne)
    · simp [hat.1, Ne.symm hu]
    · cases hpc'
      exact ⟨by simp, hat.2⟩
  | clearCore n =>
    simp only [LockSys.destroy, Option.some.injEq] at hstep
    subst hstep
    refine h.own_node hpc h.wf (fun _ _ => Iff.rfl) (fun m hm => ⟨?_, rfl⟩) (fun _ => id)
      (fun _ => rfl) (fun pc' hpc' => ?_) (fun hnone => by cases hnone) (fun m hm => .inl hm)
      (fun m hm hne => absurd hm hne)
    · refine Function.update_of_ne ?_ _ _
      rintro rfl
      simp [DestroyPc.engaged, hat.2.1] at hm
    · cases hpc'
      exact ⟨hat.1, Function.update_self _ _ _, hat.2.2⟩
  | testCoreAgain n =>
    simp only [LockSys.destroy, Option.some.injEq, hat.2.1, Bool.false_eq_true, if_false] at hstep
    subst hstep
    exact h.goto hpc hat (fun m hm => .inl hm) (fun m hm => hm)
  | unlockArgAgain n => exact hat.elim
  | unlockAgain n => exact hat.elim
  | finish n =>
    simp only [LockSys.destroy, Option.some.injEq] at hstep
    subst hstep
    have hsame : Function.update s.core n false = s.core :=
      Function.update_eq_self_iff.mpr hat.2.1.symm
    refine h.own_node hpc h.wf (fun _ _ => Iff.rfl) (fun m _ => ⟨congrFun hsame m, rfl⟩)
      (fun _ => id) (fun _ => rfl) (fun pc' hpc' => by cases hpc') (fun _ => hat.1)
      (fun m hm => by cases hm) (fun m hm _ => ?_)
    cases hm
    exact (congrFun hsame n).trans (hat.2.1.trans hat.2.2.symm)
  | lockedNull => exact hat.elim
  | unlockedNull => exact hat.elim

/-- A thread that is not in `itimer_node_destroy` calls it. -/
theorem Orderly.enter (h : Orderly s) (hlock : s.lock ≠ some t)
    (hnone : s.destroyer t = none) (htimer : t = .timer → s.timer = .unset) (n : NodeId) :
    Orderly (s.goto t (.testState n)) := by
  have hworks : ∀ m, (s.goto t (.testState n)).works t m = false := fun m => by
    simp [works, LockSys.goto, DestroyPc.engaged]
  refine h.ownStep (t := t) ⟨h.wf, rfl, fun u hu => Function.update_of_ne hu _ _, fun _ _ => Iff.rfl,
    fun _ _ => ⟨rfl, rfl⟩, fun _ => id, fun _ _ => rfl, fun pc hpc => ?_, fun _ => hlock,
    fun m hm => ?_, fun m hm => ?_, fun m hne _ hothers => ?_⟩ htimer
  · simp only [LockSys.goto, Function.update_self, Option.some.injEq] at hpc
    subst hpc
    exact hlock
  · cases (hworks m).symm.trans hm
  · cases (hworks m).symm.trans hm
  · refine h.steady m hne fun u => ?_
    by_cases hu : u = t
    · simp [works, hu, hnone]
    · exact hothers u hu

/-- What is left to show of a step of the timer thread outside `itimer_node_destroy`. -/
theorem Orderly.timerStep (h : Orderly s) (hnone : s.destroyer .timer = none)
    {links : Links NodeId NodeList} {core : NodeId → Bool} {lock : Option Tid} {pc : TimerPc}
    (hwf : links.WF) (hlock : ∀ k, lock = some (.other k) ↔ s.lock = some (.other k))
    (hown : lock = some .timer ↔ pc.holds = true)
    (hknows : pc.Knows { s with links := links, core := core, lock := lock, timer := pc })
    (hnode : ∀ n, s.timer.engaged ≠ some n → pc.engaged ≠ some n → core n = s.core n ∧
      ((links.head n).isSome || pc.moving = some n) = s.settled n)
    (hengaged : ∀ n, pc.engaged = some n →
      s.timer.engaged = some n ∨ ∀ t, s.works t n = false)
    (hsteady : ∀ n, s.timer.engaged = some n → pc.engaged ≠ some n →
      core n = ((links.head n).isSome || pc.moving = some n)) :
    Orderly { s with links := links, core := core, lock := lock, timer := pc } := by
  have hapart : ∀ t n, s.works t n = true → pc.engaged ≠ some n := fun t n ht hn => by
    obtain hn | hfree := hengaged n hn
    · exact h.apart t n ht hn
    · rw [hfree t] at ht
      cases ht
  refine ⟨hwf, fun u v n hu hv hcore => ?_, hapart, fun u pc' hu => ?_, fun k hk => ?_, hknows,
    fun _ => hown, fun _ => hnone, fun n hne hn => ?_⟩
  · exact h.single u v n hu hv ((hnode n (h.apart u n hu) (hapart u n hu)).1.symm.trans hcore)
  · cases u with
    | timer => cases hnone.symm.trans hu
    | other k =>
      refine (h.destroyer _ pc' hu).frame (hlock k) fun n hn => ?_
      have hworks := (works_of_destroyer hu n).mpr hn
      exact hnode n (h.apart _ n hworks) (hapart _ n hworks)
  · exact fun hk' => h.free k hk ((hlock k).mp hk')
  · by_cases hsn : s.timer.engaged = some n
    · exact hsteady n hsn hne
    · obtain ⟨hcore, hsettled⟩ := hnode n hsn hne
      exact hcore.trans ((h.steady n hsn hn).trans hsettled.symm)

theorem Orderly.timerAt (h : Orderly s) (hnone : s.destroyer .timer = none) {lock : Option Tid}
    {pc : TimerPc} (hlock : ∀ k, lock = some (.other k) ↔ s.lock = some (.other k))
    (hown : lock = some .timer ↔ pc.holds = true)
    (hknows : pc.Knows { s with lock := lock, timer := pc })
    (hmoving : pc.moving = s.timer.moving)
    (hengaged : ∀ n, pc.engaged = some n → s.timer.engaged = some n)
    (hsteady : ∀ n, s.timer.engaged = some n → pc.engaged ≠ some n → s.core n = s.settled n) :
    Orderly { s with lock := lock, timer := pc } := by
  refine h.timerStep hnone h.wf hlock hown hknows (fun n _ _ => ⟨rfl, ?_⟩)
    (fun n hn => .inl (hengaged n hn)) (fun n hn hne => ?_)
  · rw [hmoving]
    rfl
  · rw [hsteady n hn hne, hmoving]
    rfl

theorem Orderly.lockFor (h : Orderly s) (hnone : s.destroyer .timer = none) {pc : TimerPc}
    (hstep : s.lockFor pc = some s') (hholds : pc.holds = true)
    (hknows : pc.Knows { s with lock := some .timer, timer := pc })
    (hmoving : pc.moving = s.timer.moving) (hengaged : pc.engaged = s.timer.engaged) :
    Orderly s' := by
  simp only [LockSys.lockFor, Option.ite_none_right_eq_some, Option.some.injEq,
    Option.isNone_iff_eq_none] at hstep
  obtain ⟨hfree, rfl⟩ := hstep
  exact h.timerAt hnone (by simp [hfree]) (iff_of_true rfl hholds) hknows hmoving
    (fun n hn => hengaged ▸ hn) (fun n hn hne => absurd (hengaged ▸ hn) hne)

theorem Orderly.unlockFor (h : Orderly s) (hnone : s.destroyer .timer = none) {pc : TimerPc}
    (hheld : s.timer.holds = true) (hholds : pc.holds = false)
    (hknows : pc.Knows { s with lock := none, timer := pc })
    (hmoving : pc.moving = s.timer.moving) (hengaged : pc.engaged = none)
    (hsteady : ∀ n, s.timer.engaged = some n → s.core n = s.settled n) :
    Orderly (s.unlockFor pc) :=
  h.timerAt hnone (by simp [(h.own hnone).mpr hheld])
    (iff_of_false (by simp) (ne_true_of_eq_false hholds)) hknows hmoving
    (fun n hn => by cases hengaged.symm.trans hn) (fun n hn _ => hsteady n hn)

theorem Orderly.advance (h : Orderly s) (halone : Alone s .timer) (hstep : s.advance = some s') :
    Orderly s' := by
  obtain ⟨links, core, ok, lock, destroyer, timer⟩ := s
  have hknows := h.timer
  have hown := h.own
  have hnone := h.unset
  cases timer with
  | update => exact h.lockFor (hnone (by simp)) hstep rfl trivial rfl rfl
  | locked => cases hstep
  | cascading =>
    simp only [LockSys.advance] at hstep
    cases hlist : links.list .cascaded with
    | nil =>
      simp only [hlist, Option.some.injEq] at hstep
      subst hstep
      exact h.timerAt (hnone (by simp)) (fun _ => Iff.rfl) (hown (hnone (by simp))) trivial rfl
        (fun n hn => by cases hn) (fun n hn => by cases hn)
    | cons n rest =>
      simp only [hlist, Option.some.injEq] at hstep
      subst hstep
      have hhead : links.head n = some .cascaded := (h.wf.mem_iff _ n).mp (by simp [hlist])
      exact h.timerAt (hnone (by simp)) (fun _ => Iff.rfl) (hown (hnone (by simp)))
        (by simp [TimerPc.Knows, linked, hhead]) rfl (fun n hn => by cases hn)
        (fun n hn => by cases hn)
  | cascadeDel n =>
    simp only [LockSys.advance, Option.some.injEq] at hstep
    subst hstep
    refine h.timerStep (hnone (by simp)) (h.wf.unlink n) (fun _ => Iff.rfl) (hown (hnone (by simp)))
      ?_ (fun m _ _ => ⟨rfl, ?_⟩) (fun m hm => by cases hm) (fun m hm => by cases hm)
    · simp [TimerPc.Knows, linked, del]
    · simp only [del, Links.unlink_head, TimerPc.moving, settled, linked]
      by_cases hm : m = n
      · subst hm
        simpa [TimerPc.Knows, linked] using hknows
      · simp [hm, Ne.symm hm]
  | cascadeArg n =>
    have hcore : core n = true := h.core_of_settled (by simp [TimerPc.engaged])
      (by simp [settled, TimerPc.moving])
    simp only [LockSys.advance, hcore, if_true, Option.some.injEq] at hstep
    subst hstep
    exact h.timerAt (hnone (by simp)) (fun _ => Iff.rfl) (hown (hnone (by simp))) hknows rfl
      (fun m hm => by cases hm) (fun m hm => by cases hm)
  | cascadeTail n => cases hstep
  | cascadeCore n =>
    have hcore : core n = true := h.core_of_settled (by simp [TimerPc.engaged])
      (by simpa [settled, TimerPc.Knows] using .inl hknows)
    have hsame : Function.update core n true = core := Function.update_eq_self_iff.mpr hcore.symm
    simp only [LockSys.advance, LockSys.setCore, hsame, Option.some.injEq] at hstep
    subst hstep
    exact h.timerAt (hnone (by simp)) (fun _ => Iff.rfl) (hown (hnone (by simp))) trivial rfl
      (fun m hm => by cases hm) (fun m hm => by cases hm)
  | unlockUpdate =>
    cases hstep
    exact h.unlockFor (hnone (by simp)) rfl rfl trivial rfl rfl (fun n hn => by cases hn)
  | draining =>
    simp only [LockSys.advance] at hstep
    cases hlist : links.list .queued with
    | nil =>
      simp only [hlist, Option.some.injEq] at hstep
      subst hstep
      exact h.timerAt (hnone (by simp)) (fun _ => Iff.rfl) (hown (hnone (by simp))) trivial rfl
        (fun n hn => by cases hn) (fun n hn => by cases hn)
    | cons n rest =>
      simp only [hlist, Option.some.injEq] at hstep
      subst hstep
      exact h.timerAt (hnone (by simp)) (fun _ => Iff.rfl) (hown (hnone (by simp))) trivial rfl
        (fun n hn => by cases hn) (fun n hn => by cases hn)
  | dispatchDel n fn =>
    cases hstep
    refine h.timerStep (hnone (by simp)) (h.wf.unlink n) (fun _ => Iff.rfl) (hown (hnone (by simp)))
      ?_ (fun m _ hm => ⟨rfl, ?_⟩)
      (fun m hm => .inr fun t => ?_) (fun m hm => by cases hm)
    · simp [TimerPc.Knows, linked, del]
    · have hm : m ≠ n := fun heq => hm (by rw [heq]; rfl)
      simp [del, settled, linked, hm, TimerPc.moving]
    · cases hm
      exact halone n fn rfl t
  | dispatchClear n fn =>
    have hother : ∀ m, m ≠ n → Function.update core n false m = core m :=
      fun m hm => Function.update_of_ne hm _ _
    cases fn with
    | true =>
      cases hstep
      refine h.timerStep (hnone (by simp)) h.wf (fun _ => Iff.rfl) (hown (hnone (by simp)))
        ⟨Function.update_self _ _ _, hknows⟩ (fun m hm _ => ⟨hother m ?_, rfl⟩)
        (fun m hm => .inl hm) (fun m hm hne => absurd hm hne)
      rintro rfl
      exact hm rfl
    | false =>
      cases hstep
      refine h.timerStep (hnone (by simp)) h.wf (fun _ => Iff.rfl) (hown (hnone (by simp)))
        trivial (fun m hm _ => ⟨hother m ?_, rfl⟩) (fun m hm => by cases hm) (fun m hm _ => ?_)
      · rintro rfl
        exact hm rfl
      · cases hm
        simpa [LockSys.setCore, TimerPc.moving, TimerPc.Knows, linked] using hknows
  | callback n => cases hstep
  | addLock n => exact h.lockFor (hnone (by simp)) hstep rfl hknows rfl rfl
  | addTest n =>
    cases hok : ok n with
    | true =>
      simp only [LockSys.advance, hok, hknows.2, Bool.false_eq_true, if_true, if_false,
        Option.some.injEq] at hstep
      subst hstep
      exact h.timerAt (hnone (by simp)) (fun _ => Iff.rfl) (hown (hnone (by simp))) hknows rfl
        (fun m hm => hm) (fun m hm hne => absurd hm hne)
    | false =>
      simp only [LockSys.advance, hok, Bool.false_eq_true, if_false, Option.some.injEq] at hstep
      subst hstep
      refine h.timerAt (hnone (by simp)) (fun _ => Iff.rfl) (hown (hnone (by simp))) trivial rfl
        (fun m hm => by cases hm) (fun m hm _ => ?_)
      cases hm
      simpa [settled, TimerPc.moving, hknows.2] using hknows.1
  | addDel n => exact hknows.elim
  | addClear n => exact hknows.elim
  | addTail n => cases hstep
  | addCore n =>
    cases hstep
    refine h.timerStep (hnone (by simp)) h.wf (fun _ => Iff.rfl) (hown (hnone (by simp)))
      trivial (fun m hm _ => ⟨Function.update_of_ne ?_ _ _, rfl⟩) (fun m hm => by cases hm)
      (fun m hm _ => ?_)
    · rintro rfl
      exact hm rfl
    · cases hm
      simpa [LockSys.setCore, TimerPc.moving, TimerPc.Knows, linked] using hknows
  | addUnlock =>
    cases hstep
    exact h.unlockFor (hnone (by simp)) rfl rfl trivial rfl rfl (fun n hn => by cases hn)
  | stopLock n => exact h.lockFor (hnone (by simp)) hstep rfl hknows rfl rfl
  | stopTest n =>
    have hunlinked : linked _ n = false := hknows
    simp only [LockSys.advance, hunlinked, Bool.and_false, Bool.false_eq_true, if_false,
      Option.some.injEq] at hstep
    subst hstep
    exact h.timerAt (hnone (by simp)) (fun _ => Iff.rfl) (hown (hnone (by simp))) trivial rfl
      (fun m hm => by cases hm) (fun m hm => by cases hm)
  | stopDel n => exact hknows.elim
  | stopClear n => exact hknows.elim
  | stopUnlock n =>
    cases hstep
    have h' : Orderly (LockSys.unlockFor _ .unset) := h.unlockFor (hnone (by simp)) rfl rfl trivial
      rfl rfl (fun n hn => by cases hn)
    exact h'.enter (by simp [LockSys.unlockFor]) (hnone (by simp)) (fun _ => rfl) n
  | unset =>
    simp only [LockSys.advance, Option.ite_none_right_eq_some, Option.some.injEq,
      Option.isNone_iff_eq_none] at hstep
    obtain ⟨hnone, rfl⟩ := hstep
    exact h.timerAt hnone (fun _ => Iff.rfl) (hown hnone) trivial rfl (fun n hn => by cases hn)
      (fun n hn => by cases hn)
  | crashed => cases hstep

theorem Orderly.splice (h : Orderly s) (htimer : s.timer = .locked) {i : Nat} {q : NodeList}
    (hq : .bucket i ≠ q) {pc : TimerPc} (hholds : pc.holds = true) (hmoving : pc.moving = none)
    (hengaged : pc.engaged = none) (hknows : ∀ s', pc.Knows s') :
    Orderly ({ s with links := s.links.splice (.bucket i) q }.at_ pc) := by
  have hnone := h.unset (by simp [htimer])
  have hown := (h.own hnone).mpr (by rw [htimer]; rfl)
  refine h.timerStep hnone (h.wf.splice hq) (fun _ => Iff.rfl) (iff_of_true hown hholds)
    (hknows _) (fun n _ _ => ⟨rfl, ?_⟩) (fun n hn => by cases hengaged.symm.trans hn)
    (fun n hn => by simp [htimer, TimerPc.engaged] at hn)
  rw [h.wf.splice_head, hmoving]
  simp only [settled, linked, htimer, TimerPc.moving]
  split
  · rename_i hhead
    simp [hhead]
  · rfl

theorem Orderly.lockStep (h : Orderly s) {a : LockAct} (halone : Alone s a)
    (hstep : lockStep s a = some s') : Orderly s' := by
  cases a with
  | call k n =>
    simp only [TimerThread.lockStep, Option.ite_none_right_eq_some, Option.some.injEq,
      Option.isNone_iff_eq_none] at hstep
    obtain ⟨hnone, rfl⟩ := hstep
    exact h.enter (h.free k hnone) hnone (fun ht => by cases ht) n
  | destroy t =>
    obtain ⟨pc, hpc, hstep⟩ := Option.bind_eq_some_iff.mp hstep
    exact h.destroy hpc halone hstep
  | timer => exact h.advance halone hstep
  | cascade i =>
    simp only [TimerThread.lockStep, Option.ite_none_right_eq_some, Option.some.injEq] at hstep
    obtain ⟨htimer, rfl⟩ := hstep
    exact h.splice htimer (by simp) rfl rfl rfl (fun _ => trivial)
  | splice i =>
    simp only [TimerThread.lockStep, Option.ite_none_right_eq_some, Option.some.injEq] at hstep
    obtain ⟨htimer, rfl⟩ := hstep
    exact h.splice htimer (by simp) rfl rfl rfl (fun _ => trivial)
  | tail i =>
    obtain ⟨links, core, ok, lock, destroyer, timer⟩ := s
    have hknows := h.timer
    have hown := h.own
    have hnone := h.unset
    cases timer with
    | cascadeTail n =>
      cases hstep
      have hhead : links.head n = none := by simpa [TimerPc.Knows, linked] using hknows
      refine h.timerStep (hnone (by simp)) (h.wf.addTail hhead _) (fun _ => Iff.rfl)
        (hown (hnone (by simp))) ?_ (fun m _ _ => ⟨rfl, ?_⟩) (fun m hm => by cases hm)
        (fun m hm => by cases hm)
      · simp [TimerPc.Knows, linked]
      · by_cases hm : m = n
        · simp [hm, settled, TimerPc.moving]
        · simp [hm, Ne.symm hm, settled, linked, TimerPc.moving]
    | addTail n =>
      cases hstep
      have hhead : links.head n = none := by simpa [linked] using hknows.2
      refine h.timerStep (hnone (by simp)) (h.wf.addTail hhead _) (fun _ => Iff.rfl)
        (hown (hnone (by simp))) ?_ (fun m hm _ => ⟨rfl, ?_⟩) (fun m hm => .inl hm)
        (fun m hm hne => absurd hm hne)
      · simp [TimerPc.Knows, linked]
      · have hm : m ≠ n := fun heq => hm (by rw [heq]; rfl)
        simp [hm, settled, linked, TimerPc.moving]
    | _ => cases hstep
  | again =>
    obtain ⟨links, core, ok, lock, destroyer, timer⟩ := s
    cases timer with
    | callback n =>
      cases hstep
      exact h.timerAt (h.unset (by simp)) (fun _ => Iff.rfl) (h.own (h.unset (by simp))) h.timer rfl
        (fun m hm => hm) (fun m hm hne => absurd hm hne)
    | _ => cases hstep
  | end_ =>
    obtain ⟨links, core, ok, lock, destroyer, timer⟩ := s
    cases timer with
    | callback n =>
      cases hstep
      have hknows := h.timer
      refine h.timerAt (h.unset (by simp)) (fun _ => Iff.rfl) (h.own (h.unset (by simp))) hknows.2
        rfl (fun m hm => by cases hm) (fun m hm _ => ?_)
      cases hm
      simpa [settled, TimerPc.moving, hknows.2] using hknows.1
    | _ => cases hstep

end

/-- Before the threads run. -/
structure Fresh (s : LockSys) : Prop where
  wf : s.links.WF
  core : ∀ n, s.core n = s.linked n
  lock : s.lock = none
  destroyer : ∀ t, s.destroyer t = none
  timer : s.timer = .update

theorem Fresh.start {s : LockSys} (h : Fresh s) (n : NodeId) (i : Nat) : Fresh (s.start n i) := by
  refine ⟨(h.wf.unlink n).addTail (by simp) _, fun m => ?_, h.lock, h.destroyer, h.timer⟩
  by_cases hm : m = n
  · simp [LockSys.start, LockSys.linked, hm]
  · simpa [LockSys.start, LockSys.linked, hm] using h.core m

theorem Fresh.orderly {s : LockSys} (h : Fresh s) : Orderly s := by
  have hworks : ∀ t n, s.works t n = false := fun t n => by simp [LockSys.works, h.destroyer t]
  refine ⟨h.wf, fun t _ n ht => ?_, fun t n ht => ?_, fun t pc hpc => ?_, fun k _ => ?_, ?_,
    fun _ => ?_, fun _ => h.destroyer _, fun n _ _ => ?_⟩
  · cases (hworks t n).symm.trans ht
  · cases (hworks t n).symm.trans ht
  · cases (h.destroyer t).symm.trans hpc
  · simp [h.lock]
  · rw [h.timer]
    trivial
  · simp [h.lock, h.timer, TimerPc.holds]
  · simp [h.core n, LockSys.settled, h.timer, TimerPc.moving]

theorem Fresh.starts {s : LockSys} (h : Fresh s) (started : List (NodeId × Nat)) :
    Fresh (started.foldl (fun s p => s.start p.1 p.2) s) := by
  induction started generalizing s with
  | nil => exact h
  | cons p started ih => exact ih (h.start p.1 p.2)

theorem fresh_init (started : List (NodeId × Nat)) : Fresh (.init started) :=
  Fresh.starts ⟨Links.wf_empty, fun _ => rfl, rfl, fun _ => rfl, rfl⟩ started

/-- The condition, for a run in which only some threads call `itimer_node_destroy`. -/
def aloneAmong (ks : List Nat) (s : LockSys) : LockAct → Bool
  | .call k _ => k ∈ ks
  | .destroy t =>
    match s.destroyer t with
    | some (.testCore n) =>
      s.timer.engaged != some n &&
        (!s.core n || (.timer :: ks.map .other).all (fun u => !s.works u n))
    | _ => true
  | .timer =>
    match s.timer with
    | .dispatchDel n _ => (.timer :: ks.map .other).all (fun u => !s.works u n)
    | _ => true
  | _ => true

theorem LockSys.destroy_other {s s' : LockSys} {t u : Tid} {pc : DestroyPc}
    (hstep : s.destroy t pc = some s') (hu : u ≠ t) : s'.destroyer u = s.destroyer u := by
  have hupdate : ∀ next, Function.update s.destroyer t next u = s.destroyer u :=
    fun next => by rw [Function.update_of_ne hu]
  cases pc <;> simp only [LockSys.destroy] at hstep <;> (try split at hstep) <;> cases hstep <;>
    exact hupdate _

theorem LockSys.advance_other {s s' : LockSys} {u : Tid} (hstep : s.advance = some s')
    (hu : u ≠ .timer) : s'.destroyer u = s.destroyer u := by
  obtain ⟨links, core, ok, lock, destroyer, timer⟩ := s
  cases timer <;> simp only [LockSys.advance, LockSys.lockFor] at hstep <;>
    (try split at hstep) <;> cases hstep <;> first | rfl | exact Function.update_of_ne hu _ _

theorem destroyer_step {s s' : LockSys} {a : LockAct} (hstep : lockStep s a = some s') {j : Nat}
    (hcall : ∀ n, a ≠ .call j n) (hnone : s.destroyer (.other j) = none) :
    s'.destroyer (.other j) = none := by
  cases a with
  | call k n =>
    simp only [lockStep, Option.ite_none_right_eq_some, Option.some.injEq] at hstep
    obtain ⟨_, rfl⟩ := hstep
    refine (Function.update_of_ne ?_ _ _).trans hnone
    intro hjk
    cases hjk
    exact hcall n rfl
  | destroy t =>
    obtain ⟨pc, hpc, hstep⟩ := Option.bind_eq_some_iff.mp hstep
    refine (LockSys.destroy_other hstep ?_).trans hnone
    rintro rfl
    cases hnone.symm.trans hpc
  | timer => exact (LockSys.advance_other hstep (by simp)).trans hnone
  | _ => grind [lockStep, LockSys.at_]

theorem alone_of_among {ks : List Nat} {s : LockSys}
    (h : ∀ j, j ∉ ks → s.destroyer (.other j) = none) {a : LockAct}
    (ha : aloneAmong ks s a = true) : Alone s a := by
  have hall : ∀ n, (.timer :: ks.map .other).all (fun u => !s.works u n) = true →
      ∀ u, s.works u n = false := fun n hn u => by
    cases u with
    | timer => simpa using List.all_eq_true.mp hn .timer (by simp)
    | other j =>
      by_cases hj : j ∈ ks
      · simpa using List.all_eq_true.mp hn (.other j) (by simp [hj])
      · simp [LockSys.works, h j hj]
  cases a with
  | destroy t =>
    intro n hpc
    simp only [aloneAmong, hpc, Bool.and_eq_true, bne_iff_ne, Bool.or_eq_true] at ha
    exact ⟨ha.1, fun hcore => hall n (ha.2.resolve_left (by simp [hcore]))⟩
  | timer =>
    intro n fn htimer
    simp only [aloneAmong, htimer] at ha
    exact hall n ha
  | _ => trivial

theorem meets_of_among {ks : List Nat} {s : LockSys} {as : List LockAct}
    (h : ∀ j, j ∉ ks → s.destroyer (.other j) = none)
    (hc : Run.Meets lockStep (fun s a => aloneAmong ks s a = true) s as) :
    Run.Meets lockStep Alone s as := by
  induction as generalizing s with
  | nil => trivial
  | cons a as ih =>
    refine ⟨alone_of_among h hc.1, ?_⟩
    cases hstep : lockStep s a with
    | none => trivial
    | some s' =>
      refine ih (fun j hj => destroyer_step hstep (fun n ha => ?_) (h j hj)) (hc.tail hstep)
      have hcall := hc.1
      rw [ha] at hcall
      exact hj (by simpa [aloneAmong] using hcall)

theorem core_lock_given_back (started : List (NodeId × Nat)) {as : List LockAct} {s : LockSys}
    (hmeets : Run.Meets lockStep Alone (.init started) as)
    (hrun : Run.run lockStep (.init started) as = some s) : s.Balanced :=
  (Run.run_invariant_of_meets (fun _ _ _ hs ha hstep => Orderly.lockStep hs ha hstep)
    (fresh_init started).orderly hmeets hrun).balanced

/-- An event is due and added again, and then another thread destroys it. -/
def dueAndDestroyed : List LockAct :=
  [.timer, .splice 0, .timer, .timer, .timer, .timer, .again, .timer, .timer, .tail 3, .timer,
    .timer, .timer, .call 7 0, .destroy (.other 7), .destroy (.other 7), .destroy (.other 7),
    .destroy (.other 7), .destroy (.other 7), .destroy (.other 7), .destroy (.other 7),
    .destroy (.other 7), .destroy (.other 7), .destroy (.other 7), .destroy (.other 7)]

theorem core_lock_given_back_destroyed :
    ∃ s, Run.run lockStep (.init [(0, 0)]) dueAndDestroyed = some s ∧ s.Balanced := by
  have hrun : (Run.run lockStep (.init [(0, 0)]) dueAndDestroyed).isSome = true := by
    decide +kernel
  obtain ⟨s, hs⟩ := Option.isSome_iff_exists.mp hrun
  have hmeets : Run.Meets lockStep (fun s a => aloneAmong [7] s a = true) (.init [(0, 0)])
      dueAndDestroyed := by
    decide +kernel
  exact ⟨s, hs, core_lock_given_back _
    (meets_of_among (fun j _ => (fresh_init _).destroyer _) hmeets) hs⟩

/-- The timer thread takes the event off the due ones while another thread, which has seen its core,
waits for the lock. -/
def dueWhileDestroyed : List LockAct :=
  [.timer, .splice 0, .timer, .timer, .call 7 0, .destroy (.other 7), .destroy (.other 7),
    .destroy (.other 7), .destroy (.other 7), .timer, .timer, .destroy (.other 7),
    .destroy (.other 7), .destroy (.other 7)]

theorem core_lock_kept :
    ¬ ∀ (started : List (NodeId × Nat)) (as : List LockAct) (s : LockSys),
      Run.run lockStep (.init started) as = some s → s.Balanced := by
  intro hclaim
  have hrun : (Run.run lockStep (.init [(0, 0)]) dueWhileDestroyed).any (fun s =>
      s.destroyer (.other 7) = none ∧ s.lock = some (.other 7)) = true := by
    decide +kernel
  obtain ⟨s, hs, hs'⟩ := (Option.any_eq_true _ _).mp hrun
  simp only [decide_eq_true_eq] at hs'
  cases ((hclaim _ _ s hs).1 _ hs'.1 hs'.2).1

end AlgorithmLib.TimerThread
