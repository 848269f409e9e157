import AlgorithmLib.TimeWheel.Live
import AlgorithmLib.TimerPool.Model
import AlgorithmLib.Library.Run

/-!
Cancelled timers of the pool are silent. While `itimer_evt_cb` goes through the runs that are due
the record may be cancelled, given out again and even expire again in a call of `itimer_run`
inside the callback; the flag `running` is down then, and the loop ends.
-/

set_option autoImplicit false

namespace AlgorithmLib.TimerPool

open TimeWheel (ItimerCore ItimerEvt Hosts)

def ExpiredSince (timer : Nat) (f : Option Nat) (data user : Nat) (log : List Event) : Prop :=
  ∃ later earlier, log = later ++ .expired timer :: earlier ∧ .set timer f data user ∈ earlier

/-- Every run of a callback was due to the timer that it was set for, which had not been
cancelled. -/
def Silent : List Event → Prop
  | [] => True
  | .ran entered timer f data user :: log =>
    (entered = timer ∧ .unset timer ∉ log ∧ ExpiredSince timer (some f) data user log) ∧ Silent log
  | _ :: log => Silent log

/-- The record and the timer of the `itimer_evt_cb` that a call of `itimer_run` is in. -/
def Ctrl.entered : Ctrl → Option (Nat × Nat)
  | .firing _ _ e _ timer => some (e, timer)
  | .calling _ _ e _ timer => some (e, timer)
  | _ => none

/-- The timer of the innermost `itimer_evt_cb` of the record. -/
def innermost (e : Nat) : List Ctrl → Option Nat
  | [] => none
  | ctrl :: ctrls =>
    match ctrl.entered with
    | some (e', timer) => if e' = e then some timer else innermost e ctrls
    | none => innermost e ctrls

theorem live_iff {s : Sys} {e : Nat} : s.live e = true ↔ s.pool.InHand e := by
  simp [Sys.live, Pool.InHand]

namespace Sys

def calls (s : Sys) : List Ctrl := s.ctrl.toList ++ s.suspended.map Prod.fst

def parked (s : Sys) : List Nat := s.suspended.flatMap Prod.snd

end Sys

structure Inv (s : Sys) : Prop where
  ok : s.pool.Ok ()
  hosts : Hosts s.mgr.core (fun e => s.live e = true)
  parked_nodup : s.parked.Nodup
  parked : ∀ n ∈ s.parked, s.live n = true ∧ s.mgr.core.links.head n = none
  unset_lt : ∀ timer, .unset timer ∈ s.log → timer < s.sets
  timer_lt : ∀ e, s.live e = true → s.timer e < s.sets
  distinct : ∀ e e', s.live e = true → s.live e' = true → s.timer e = s.timer e' → e = e'
  set : ∀ e, s.live e = true →
    .set (s.timer e) (s.evt e).callback (s.evt e).data (s.evt e).user ∈ s.log
  kept : ∀ e, s.live e = true → .unset (s.timer e) ∉ s.log
  running : ∀ e, (s.evt e).running = true → s.live e = true ∧
    innermost e s.calls = some (s.timer e) ∧
    ExpiredSince (s.timer e) (s.evt e).callback (s.evt e).data (s.evt e).user s.log
  silent : Silent s.log

theorem inv_init (millisec interval : BitVec 32) : Inv (Sys.init millisec interval) where
  ok := Pool.ok_empty _
  hosts := (TimeWheel.hosts_init _ _).congr (fun _ => by simp [Sys.live, Sys.init, Pool.empty])
  parked_nodup := List.nodup_nil
  parked _ h := by cases h
  unset_lt _ h := by cases h
  timer_lt _ h := by simp [Sys.live, Sys.init, Pool.empty] at h
  distinct _ _ h := by simp [Sys.live, Sys.init, Pool.empty] at h
  set _ h := by simp [Sys.live, Sys.init, Pool.empty] at h
  kept _ h := by simp [Sys.live, Sys.init, Pool.empty] at h
  running _ h := by cases h
  silent := trivial

theorem ExpiredSince.cons {timer : Nat} {f : Option Nat} {data user : Nat} {log : List Event}
    (h : ExpiredSince timer f data user log) (ev : Event) :
    ExpiredSince timer f data user (ev :: log) := by
  obtain ⟨later, earlier, rfl, hset⟩ := h
  exact ⟨ev :: later, earlier, rfl, hset⟩

theorem innermost_cons (e : Nat) (ctrl : Ctrl) (ctrls : List Ctrl) :
    innermost e (ctrl :: ctrls) =
      match ctrl.entered with
      | some (e', timer) => if e' = e then some timer else innermost e ctrls
      | none => innermost e ctrls := rfl

namespace Inv

variable {s t : Sys}

theorem goto (h : Inv s) (ctrl : Option Ctrl) (suspended : List (Ctrl × List Nat))
    (hcalls : ∀ e, innermost e (ctrl.toList ++ suspended.map Prod.fst) = innermost e s.calls)
    (mgr : TimeWheel.ItimerMgr) (hhosts : Hosts mgr.core (fun e => s.live e = true))
    (hnodup : (suspended.flatMap Prod.snd).Nodup)
    (hparked : ∀ n ∈ suspended.flatMap Prod.snd,
      s.live n = true ∧ mgr.core.links.head n = none) :
    Inv { s with mgr := mgr, ctrl := ctrl, suspended := suspended } where
  ok := h.ok
  hosts := hhosts
  parked_nodup := hnodup
  parked := hparked
  unset_lt := h.unset_lt
  timer_lt := h.timer_lt
  distinct := h.distinct
  set := h.set
  kept := h.kept
  running e he := by
    obtain ⟨hlive, hin, hsince⟩ := h.running e he
    exact ⟨hlive, (hcalls e).trans hin, hsince⟩
  silent := h.silent

theorem itimerRun (h : Inv s) (millisec : BitVec 32) : Inv (s.itimerRun millisec) := by
  have hcore : (s.mgr.resync millisec).core = s.mgr.core := by
    rw [TimeWheel.ItimerMgr.resync]
    split
    · rfl
    · split <;> rfl
  rw [Sys.itimerRun]
  cases hctrl : s.ctrl with
  | none =>
    refine h.goto _ _ (fun e => ?_) _ (hcore ▸ h.hosts) h.parked_nodup (hcore ▸ h.parked)
    rw [Sys.calls, hctrl]
    rfl
  | some ctrl =>
    have hwf := h.hosts.wf
    have hqueued : ∀ n ∈ s.mgr.core.links.list .queued,
        s.mgr.core.links.head n = some .queued := fun n hn => (hwf.mem_iff _ n).mp hn
    refine h.goto _ _ (fun e => ?_) _ (h.hosts.relink rfl (hwf.drain _) (fun m hm => ?_)) ?_
      (fun n hn => ?_)
    · rw [Sys.calls, hctrl]
      rfl
    · dsimp only at hm
      rw [hwf.drain_head] at hm
      split at hm
      · exact absurd rfl hm
      · exact h.hosts.linked m hm
    · rw [List.flatMap_cons]
      refine List.nodup_append.mpr ⟨hwf.nodup _, h.parked_nodup, ?_⟩
      rintro n hn m hm rfl
      have hnone := (h.parked n hm).2
      rw [hqueued n hn] at hnone
      cases hnone
    · dsimp only
      rw [hwf.drain_head]
      rw [List.flatMap_cons, List.mem_append] at hn
      rcases hn with hn | hn
      · rw [if_pos (hqueued n hn)]
        exact ⟨h.hosts.linked n (by rw [hqueued n hn]; simp), rfl⟩
      · obtain ⟨hlive, hnone⟩ := h.parked n hn
        rw [hnone, if_neg (by simp)]
        exact ⟨hlive, rfl⟩

theorem itimerRunReturn (h : Inv s) {millisec : BitVec 32}
    (hctrl : s.ctrl = some (.running millisec)) : Inv s.itimerRunReturn := by
  have hin : ∀ e, innermost e s.calls = innermost e (s.suspended.map Prod.fst) := by
    intro e
    rw [Sys.calls, hctrl]
    rfl
  have hparked := h.parked
  have hnodup := h.parked_nodup
  rw [Sys.parked] at hparked hnodup
  rw [Sys.itimerRunReturn]
  cases hsus : s.suspended with
  | nil =>
    have hgoto := h.goto none s.suspended (fun e => (hin e).symm) s.mgr h.hosts hnodup hparked
    rw [hsus] at hgoto
    exact hgoto
  | cons c rest =>
    obtain ⟨ctrl, due⟩ := c
    rw [hsus, List.flatMap_cons] at hparked hnodup
    obtain ⟨hdue, hrest, hdisj⟩ := List.nodup_append.mp hnodup
    have hdueparked := fun n hn => hparked n (List.mem_append_left _ hn)
    refine h.goto _ _ (fun e => ?_) _
      (h.hosts.relink rfl (h.hosts.wf.fill hdue (fun n hn => (hdueparked n hn).2) _)
        (fun m hm => ?_)) hrest (fun n hn => ?_)
    · rw [hin, hsus]
      rfl
    · simp only [Links.fill] at hm
      split at hm
      · next hmem => exact (hdueparked m hmem).1
      · exact h.hosts.linked m hm
    · obtain ⟨hlive, hnone⟩ := hparked n (List.mem_append_right _ hn)
      refine ⟨hlive, ?_⟩
      simp only [Links.fill]
      rw [if_neg (fun hmem => hdisj n hmem n hn rfl)]
      exact hnone

theorem itimerSet (h : Inv s) {f : Option Nat} {data user : Nat} {timer : BitVec 32} {repeat_ : Int}
    (hset : s.itimerSet f data user timer repeat_ = some t) : Inv t := by
  rw [Sys.itimerSet] at hset
  split at hset
  · cases hset
  · next e pool htake =>
    obtain ⟨n, p', htake', hok, -⟩ := h.ok.take (show 0 < defItimerPoolAddSize by decide)
    obtain ⟨rfl, rfl⟩ : n = e ∧ p' = pool := by simpa [htake'] using htake
    obtain ⟨hnot, hin⟩ := Pool.take_inHand h.ok htake
    have hfresh : s.live n = false := by rwa [← Bool.not_eq_true, live_iff]
    have hstart := TimeWheel.itimerEvtStart_evt (m := (s.mgr.itimerEvtInit n f data user).1) (n := n)
      (s.mgr.itimerEvtInit n f data user).2 timer repeat_
    have hheads : ∀ k, k ≠ n →
        ((s.mgr.itimerEvtInit n f data user).1.itimerEvtStart n
          (s.mgr.itimerEvtInit n f data user).2 timer repeat_).1.core.links.head k =
        s.mgr.core.links.head k := fun k hk => TimeWheel.itimerEvtStart_head_of_ne hk _ _ _
    have hhosts : Hosts ((s.mgr.itimerEvtInit n f data user).1.itimerEvtStart n
        (s.mgr.itimerEvtInit n f data user).2 timer repeat_).1.core
          (fun m => s.live m = true ∨ m = n) := by
      have hinit : Hosts (s.mgr.itimerEvtInit n f data user).1.core
          (fun m => s.live m = true ∨ m = n) := h.hosts.initNode (by simp [hfresh])
      exact hinit.itimerEvtStart (Or.inr rfl) _ _ _
    generalize hstarted : (s.mgr.itimerEvtInit n f data user).1.itimerEvtStart n
      (s.mgr.itimerEvtInit n f data user).2 timer repeat_ = started at hstart hheads hhosts
    obtain rfl : { s with
        mgr := started.1, pool := p', evt := Function.update s.evt n started.2, sets := s.sets + 1
        timer := Function.update s.timer n s.sets
        log := .set s.sets f data user :: s.log } = t := by
      rw [← hstarted]
      exact Option.some.inj hset
    obtain ⟨hcb, hdata, huser, hrun⟩ := hstart
    have hlive : ∀ m, Sys.live { s with
        mgr := started.1, pool := p', evt := Function.update s.evt n started.2, sets := s.sets + 1
        timer := Function.update s.timer n s.sets
        log := .set s.sets f data user :: s.log } m = true ↔ s.live m = true ∨ m = n := by
      intro m
      rw [live_iff, live_iff]
      exact hin m
    have hne : ∀ m, s.live m = true → m ≠ n := by
      rintro m hm rfl
      rw [hfresh] at hm
      cases hm
    refine
      { ok := hok
        hosts := hhosts.congr hlive
        parked_nodup := h.parked_nodup
        parked := fun m hm => ?_
        unset_lt := fun i hi => ?_
        timer_lt := fun m hm => ?_
        distinct := fun m m' hm hm' heq => ?_
        set := fun m hm => ?_
        kept := fun m hm => ?_
        running := fun m hm => ?_
        silent := h.silent }
    · obtain ⟨hml, hmnone⟩ := h.parked m hm
      exact ⟨(hlive m).mpr (Or.inl hml), (hheads m (hne m hml)).trans hmnone⟩
    · simp only [List.mem_cons, reduceCtorEq, false_or] at hi
      exact Nat.lt_succ_of_lt (h.unset_lt i hi)
    · dsimp only
      rcases (hlive m).mp hm with hm | rfl
      · rw [Function.update_of_ne (hne m hm)]
        exact Nat.lt_succ_of_lt (h.timer_lt m hm)
      · rw [Function.update_self]
        exact Nat.lt_succ_self _
    · dsimp only at heq
      rcases (hlive m).mp hm with hm | rfl
      · rw [Function.update_of_ne (hne m hm)] at heq
        have hmlt := h.timer_lt m hm
        rcases (hlive m').mp hm' with hm' | rfl
        · rw [Function.update_of_ne (hne m' hm')] at heq
          exact h.distinct m m' hm hm' heq
        · rw [Function.update_self] at heq
          omega
      · rw [Function.update_self] at heq
        rcases (hlive m').mp hm' with hm' | rfl
        · rw [Function.update_of_ne (hne m' hm')] at heq
          have hmlt := h.timer_lt m' hm'
          omega
        · rfl
    · dsimp only
      rcases (hlive m).mp hm with hm | rfl
      · rw [Function.update_of_ne (hne m hm), Function.update_of_ne (hne m hm)]
        exact List.mem_cons_of_mem _ (h.set m hm)
      · rw [Function.update_self, Function.update_self, hcb, hdata, huser]
        exact List.mem_cons_self
    · simp only [List.mem_cons, reduceCtorEq, false_or]
      rcases (hlive m).mp hm with hm | rfl
      · rw [Function.update_of_ne (hne m hm)]
        exact h.kept m hm
      · rw [Function.update_self]
        exact fun hunset => Nat.lt_irrefl _ (h.unset_lt _ hunset)
    · dsimp only at hm ⊢
      by_cases hmn : m = n
      · subst hmn
        rw [Function.update_self, hrun] at hm
        cases hm
      · simp only [Function.update_of_ne hmn] at hm ⊢
        obtain ⟨hml, hcall, hsince⟩ := h.running m hm
        exact ⟨(hlive m).mpr (Or.inl hml), hcall, hsince.cons _⟩

theorem itimerUnset (h : Inv s) {e : Nat} (he : s.live e = true) : Inv (s.itimerUnset e) := by
  have hlive : ∀ m, (s.itimerUnset e).live m = true ↔ s.live m = true ∧ m ≠ e := by
    intro m
    rw [live_iff, live_iff]
    exact Pool.give_inHand () e s.pool m
  have hheads : ∀ k, k ≠ e →
      (s.itimerUnset e).mgr.core.links.head k = s.mgr.core.links.head k :=
    fun k hk => TimeWheel.itimerNodeDestroy_head_of_ne hk
  have hcalls : (s.itimerUnset e).calls = s.calls := by
    simp [Sys.calls, Sys.itimerUnset, Function.comp_def]
  have hin := live_iff.mp he
  have hparked : (s.itimerUnset e).parked = s.parked.erase e := by
    have hnodup := h.parked_nodup
    rw [Sys.parked] at hnodup
    rw [Sys.parked, Sys.parked, hnodup.erase_eq_filter, List.filter_flatMap]
    simp only [Sys.itimerUnset, List.flatMap_map]
    exact List.flatMap_congr (fun c hc => ((List.nodup_flatMap.mp hnodup).1 c hc).erase_eq_filter e)
  have hout : ∀ m, (s.itimerUnset e).live m = true → m ≠ e ∧ s.live m = true :=
    fun m hm => And.symm ((hlive m).mp hm)
  refine
    { ok := h.ok.give hin.1 (by simp [hin.2])
      hosts := (h.hosts.itimerNodeDestroy he).congr hlive
      parked_nodup := ?_
      parked := fun m hm => ?_
      unset_lt := fun i hi => ?_
      timer_lt := fun m hm => h.timer_lt m (hout m hm).2
      distinct := fun m m' hm hm' => h.distinct m m' (hout m hm).2 (hout m' hm').2
      set := fun m hm => ?_
      kept := fun m hm => ?_
      running := fun m hm => ?_
      silent := h.silent }
  · rw [hparked]
    exact h.parked_nodup.erase e
  · rw [hparked, h.parked_nodup.mem_erase_iff] at hm
    obtain ⟨hml, hnone⟩ := h.parked m hm.2
    exact ⟨(hlive m).mpr ⟨hml, hm.1⟩, (hheads m hm.1).trans hnone⟩
  · rcases List.mem_cons.mp hi with hi | hi
    · cases hi
      exact h.timer_lt e he
    · exact h.unset_lt i hi
  · obtain ⟨hne, hml⟩ := hout m hm
    simp only [Sys.itimerUnset, Function.update_of_ne hne]
    exact List.mem_cons_of_mem _ (h.set m hml)
  · obtain ⟨hne, hml⟩ := hout m hm
    simp only [Sys.itimerUnset, List.mem_cons, Event.unset.injEq, not_or]
    exact ⟨fun heq => hne (h.distinct m e hml he heq), h.kept m hml⟩
  · by_cases hme : m = e
    · subst hme
      simp [Sys.itimerUnset, TimeWheel.ItimerMgr.itimerEvtDestroy] at hm
    · have hevt : (s.itimerUnset e).evt m = s.evt m := Function.update_of_ne hme _ _
      rw [hevt] at hm ⊢
      obtain ⟨hml, hcall, hsince⟩ := h.running m hm
      exact ⟨(hlive m).mpr ⟨hml, hme⟩, hcalls ▸ hcall, hsince.cons _⟩

theorem step_ctrl (h : Inv s) {ctrl : Ctrl} (hctrl : s.ctrl = some ctrl) (ctrl' : Ctrl)
    (hsame : ctrl'.entered = ctrl.entered) (mgr : TimeWheel.ItimerMgr)
    (hhosts : Hosts mgr.core (fun e => s.live e = true))
    (hheads : ∀ k, s.mgr.core.links.head k = none → mgr.core.links.head k = none) :
    Inv { s with mgr := mgr, ctrl := some ctrl' } := by
  refine h.goto _ _ (fun e => ?_) mgr hhosts h.parked_nodup
    (fun n hn => ⟨(h.parked n hn).1, hheads n (h.parked n hn).2⟩)
  rw [Sys.calls, hctrl]
  simp only [Option.toList_some, List.singleton_append, innermost_cons, hsame]

theorem pop (h : Inv s) (n : Nat) :
    Inv { s with
      mgr := { s.mgr with
        core := { s.mgr.core with links := s.mgr.core.links.unlink n } } } := by
  refine h.goto s.ctrl s.suspended (fun _ => rfl) _ (h.hosts.unlink n) h.parked_nodup
    (fun m hm => ⟨(h.parked m hm).1, ?_⟩)
  dsimp only
  rw [Links.unlink_head, (h.parked m hm).2, ite_self]

/-- `itimer_evt_cb` is entered for a live event. -/
theorem itimerEvtCb (h : Inv s) {millisec jiffies : BitVec 32} {e : Nat}
    (hctrl : s.ctrl = some (.draining millisec jiffies)) (he : s.live e = true)
    (hfree : e ∉ s.parked) (hstep : s.itimerEvtCb millisec jiffies e = some t) : Inv t := by
  rw [Sys.itimerEvtCb] at hstep
  split at hstep
  · cases hstep
  · next mgr evt r hexpire =>
    obtain ⟨hheads, hcb, hdata, huser⟩ := TimeWheel.itimerEvtExpire_frame hexpire
    have hhosts := h.hosts.itimerEvtExpire he hexpire
    cases hstep
    refine
      { ok := h.ok
        hosts := hhosts
        parked_nodup := h.parked_nodup
        parked := fun n hn => ?_
        unset_lt := fun i hi => ?_
        timer_lt := h.timer_lt
        distinct := h.distinct
        set := fun m hm => ?_
        kept := fun m hm => ?_
        running := fun m hm => ?_
        silent := h.silent }
    · obtain ⟨hlive, hnone⟩ := h.parked n hn
      exact ⟨hlive, (hheads n (fun hne => hfree (hne ▸ hn))).trans hnone⟩
    · simp only [List.mem_cons, reduceCtorEq, false_or] at hi
      exact h.unset_lt i hi
    · refine List.mem_cons_of_mem _ ?_
      dsimp only
      by_cases hme : m = e
      · subst hme
        rw [Function.update_self, hcb, hdata, huser]
        exact h.set m hm
      · rw [Function.update_of_ne hme]
        exact h.set m hm
    · simp only [List.mem_cons, reduceCtorEq, false_or]
      exact h.kept m hm
    · dsimp only at hm ⊢
      by_cases hme : m = e
      · subst hme
        simp only [Function.update_self, hcb, hdata, huser]
        refine ⟨he, ?_, [], s.log, rfl, h.set m he⟩
        simp [Sys.calls, innermost_cons, Ctrl.entered]
      · simp only [Function.update_of_ne hme] at hm ⊢
        obtain ⟨hlive, hcall, hsince⟩ := h.running m hm
        refine ⟨hlive, ?_, hsince.cons _⟩
        rw [Sys.calls, hctrl] at hcall
        simp only [Sys.calls, Option.toList_some, List.singleton_append, innermost_cons,
          Ctrl.entered, if_neg (Ne.symm hme)] at hcall ⊢
        exact hcall

/-- `itimer_evt_cb` returns. -/
theorem finish (h : Inv s) {millisec jiffies : BitVec 32} {e timer : Nat}
    (hctrl : s.ctrl = some (.firing millisec jiffies e 0 timer)) :
    Inv { s with
      evt := Function.update s.evt e { s.evt e with running := false }
      ctrl := some (.draining millisec jiffies) } := by
  refine { h with set := fun m hm => ?_, running := fun m hm => ?_ }
  · dsimp only
    by_cases hme : m = e
    · subst hme
      rw [Function.update_self]
      exact h.set m hm
    · rw [Function.update_of_ne hme]
      exact h.set m hm
  · dsimp only at hm ⊢
    by_cases hme : m = e
    · subst hme
      rw [Function.update_self] at hm
      cases hm
    · simp only [Function.update_of_ne hme] at hm ⊢
      obtain ⟨hlive, hcall, hsince⟩ := h.running m hm
      refine ⟨hlive, ?_, hsince⟩
      rw [Sys.calls, hctrl] at hcall
      simp only [Sys.calls, Option.toList_some, List.singleton_append, innermost_cons,
        Ctrl.entered, if_neg (Ne.symm hme)] at hcall ⊢
      exact hcall

theorem fire (h : Inv s) {millisec jiffies : BitVec 32} {e count timer f : Nat}
    (hctrl : s.ctrl = some (.firing millisec jiffies e (count + 1) timer))
    (hf : (s.evt e).callback = some f) (hrun : (s.evt e).running = true) :
    Inv { s with
      ctrl := some (.calling millisec jiffies e count timer)
      log := .ran timer (s.timer e) f (s.evt e).data (s.evt e).user :: s.log } := by
  obtain ⟨hlive, hcall, hsince⟩ := h.running e hrun
  have hgoto := h.step_ctrl hctrl (.calling millisec jiffies e count timer) rfl s.mgr
    h.hosts (fun _ hk => hk)
  have htimer : timer = s.timer e := by
    rw [Sys.calls, hctrl] at hcall
    simpa [innermost_cons, Ctrl.entered] using hcall
  refine
    { hgoto with
      unset_lt := fun i hi => ?_
      set := fun m hm => List.mem_cons_of_mem _ (h.set m hm)
      kept := fun m hm => ?_
      running := fun m hm => ?_
      silent := ⟨⟨htimer, h.kept e hlive, hf ▸ hsince⟩, h.silent⟩ }
  · simp only [List.mem_cons, reduceCtorEq, false_or] at hi
    exact h.unset_lt i hi
  · simp only [List.mem_cons, reduceCtorEq, false_or]
    exact h.kept m hm
  · obtain ⟨hml, hmcall, hmsince⟩ := hgoto.running m hm
    exact ⟨hml, hmcall, hmsince.cons _⟩

theorem advance (h : Inv s) (hstep : s.advance = some t) : Inv t := by
  simp only [Sys.advance] at hstep
  split at hstep
  · cases hstep
  · next millisec hctrl =>
    split at hstep
    · cases hstep
      exact h.step_ctrl hctrl (.updating millisec s.mgr.jiffies) rfl s.mgr h.hosts (fun _ hk => hk)
    · cases hstep
      exact h.itimerRunReturn hctrl
  · next millisec jiffies hctrl =>
    split at hstep
    · cases hstep
      exact h.step_ctrl hctrl (.running millisec) rfl s.mgr.endTick h.hosts (fun _ hk => hk)
    · cases hstep
      exact h.step_ctrl hctrl (.draining millisec jiffies) rfl
        { s.mgr with core := s.mgr.core.beginTick } h.hosts.beginTick
        (fun _ hk => h.hosts.beginTick_head hk)
  · next millisec jiffies hctrl =>
    split at hstep
    · cases hstep
      exact h.step_ctrl hctrl (.updating millisec jiffies) rfl s.mgr h.hosts (fun _ hk => hk)
    · next n ns hlist =>
      have hhead : s.mgr.core.links.head n = some .queued :=
        (h.hosts.wf.mem_iff _ n).mp (by rw [hlist]; exact List.mem_cons_self)
      have hlive := h.hosts.linked n (by rw [hhead]; simp)
      rw [(h.hosts.node n hlive).2.2] at hstep
      split at hstep
      · refine (h.pop n).itimerEvtCb hctrl hlive (fun hmem => ?_) hstep
        rw [(h.parked n hmem).2] at hhead
        cases hhead
      · cases hstep
        exact h.pop n
  · next millisec jiffies e timer hctrl =>
    cases hstep
    exact h.finish hctrl
  · next millisec jiffies e count timer hctrl =>
    split at hstep
    · next f hf hrun =>
      cases hstep
      exact h.fire hctrl hf hrun
    · cases hstep
      exact h.step_ctrl hctrl (.firing millisec jiffies e 0 timer) rfl s.mgr h.hosts
        (fun _ hk => hk)
  · next millisec jiffies e count timer hctrl =>
    cases hstep
    exact h.step_ctrl hctrl (.firing millisec jiffies e count timer) rfl s.mgr h.hosts
      (fun _ hk => hk)

theorem step (h : Inv s) {a : Act} (hstep : TimerPool.step s a = some t) : Inv t := by
  cases a with
  | set f data user timer repeat_ =>
    simp only [TimerPool.step, Option.ite_none_right_eq_some] at hstep
    exact h.itimerSet hstep.2
  | unset e =>
    simp only [TimerPool.step, Option.ite_none_right_eq_some, Bool.and_eq_true,
      Option.some.injEq] at hstep
    rw [← hstep.2]
    exact h.itimerUnset hstep.1.2
  | run millisec =>
    simp only [TimerPool.step, Option.ite_none_right_eq_some, Option.some.injEq] at hstep
    rw [← hstep.2]
    exact h.itimerRun millisec
  | advance => exact h.advance hstep

end Inv

/-- A callback with two more runs due cancels its timer, sets others until one has its record, and
calls `itimer_run`, where that one expires: the loop that was left ends. -/
def recycledInCallback : List Act :=
  [.set (some 7) 0 0 1#32 0, .run 3#32] ++ List.replicate 8 .advance ++ [.unset 0] ++
    List.replicate 19 (.set none 0 0 100#32 0) ++ [.set (some 8) 0 0 1#32 0, .run 6#32] ++
    List.replicate 21 .advance

end AlgorithmLib.TimerPool
