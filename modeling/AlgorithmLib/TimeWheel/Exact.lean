import AlgorithmLib.TimeWheel.Timed
import AlgorithmLib.Library.Run

/-!
When timers fire. The events so far say how many ticks were processed and at which tick each
pending node is due; the wheel invariant holds of these in every reachable state, so that a node
fires in the iteration of its tick and in no other.
-/

set_option autoImplicit false

namespace AlgorithmLib.TimeWheel

/-- How many iterations have begun. -/
def ticks : List Event → Nat
  | [] => 0
  | .tick _ :: log => ticks log + 1
  | _ :: log => ticks log

def lastTick : List Event → Option (BitVec 32)
  | [] => none
  | .tick timerJiffies :: _ => some timerJiffies
  | _ :: log => lastTick log

def dueAt (start : Nat) : List Event → NodeId → Option Nat
  | [] => fun _ => none
  | .added n expires timerJiffies :: log =>
    Function.update (dueAt start log) n (some (start + ticks log + delay expires timerJiffies))
  | .deleted n _ :: log => Function.update (dueAt start log) n none
  | .tick _ :: log => dueAt start log
  | .fired n _ :: log => Function.update (dueAt start log) n none

/-- Added, and neither deleted nor fired since. -/
def pending (n : NodeId) : List Event → Bool
  | [] => false
  | .added m _ _ :: log => n = m || pending n log
  | .deleted m _ :: log => n ≠ m && pending n log
  | .tick _ :: log => pending n log
  | .fired m _ :: log => n ≠ m && pending n log

theorem dueAt_isSome (start : Nat) (n : NodeId) (log : List Event) :
    (dueAt start log n).isSome = pending n log := by
  induction log with
  | nil => rfl
  | cons ev log ih =>
    cases ev with
    | tick => exact ih
    | _ =>
      simp only [dueAt, pending, Function.update_apply, ← ih]
      split <;> simp_all

/-- What the events say of each other: the counter is the number of iterations past `start`, a
deletion finds the pending nodes, no iteration leaves a due node behind, and a node fires in the
iteration at whose tick it is due. -/
def Exact (start : Nat) (callback : NodeId → Option Nat) : List Event → Prop
  | [] => True
  | .added _ _ timerJiffies :: log =>
    Exact start callback log ∧ timerJiffies = BitVec.ofNat 32 (start + ticks log)
  | .deleted n ret :: log =>
    Exact start callback log ∧ ret = if (dueAt start log n).isSome then 1 else 0
  | .tick timerJiffies :: log =>
    Exact start callback log ∧ timerJiffies = BitVec.ofNat 32 (start + ticks log) ∧
      ∀ n d, dueAt start log n = some d → start + ticks log ≤ d
  | .fired n fn :: log =>
    Exact start callback log ∧ fn = callback n ∧
      ∃ d, dueAt start log n = some d ∧ d + 1 = start + ticks log

/-- In the loop of `itimer_internal_update` over the due nodes. -/
def Ctrl.updating : Ctrl → Bool
  | .draining _ => true
  | .calling _ => true
  | _ => false

structure Good (start : Nat) (callback : NodeId → Option Nat) (s : Sys) : Prop where
  timed : Timed s.core (start + ticks s.log) (dueAt start s.log)
  queued : s.ctrl.updating = false → ∀ n, s.core.links.head n ≠ some .queued
  callback_eq : ∀ n, (s.core.node n).callback = callback n
  exact : Exact start callback s.log

theorem good_init (jiffies : BitVec 32) (callback : NodeId → Option Nat) :
    Good jiffies.toNat callback (Sys.init jiffies callback) := by
  refine ⟨timed_init jiffies callback, ?_, fun _ => rfl, trivial⟩
  intro _ n h
  cases h

theorem vecOf_ne_queued (expires timerJiffies : BitVec 32) :
    vecOf expires timerJiffies ≠ .queued := by
  simp only [vecOf]
  split_ifs <;> simp

theorem itimerNodeAdd_queued {c : ItimerCore} {n m : NodeId} {e : BitVec 32}
    (h : (c.itimerNodeAdd n e).links.head m = some .queued) : c.links.head m = some .queued := by
  rw [ItimerCore.itimerNodeAdd] at h
  split at h
  · exact h
  · simp only [ItimerCore.itimerInternalAdd, Links.addTail_head, Links.unlink_head] at h
    split at h
    · exact (vecOf_ne_queued _ _ (Option.some.inj h)).elim
    · exact h

theorem itimerNodeDel_queued {c : ItimerCore} {n m : NodeId}
    (h : (c.itimerNodeDel n).1.links.head m = some .queued) : c.links.head m = some .queued := by
  rw [ItimerCore.itimerNodeDel] at h
  split at h
  · exact h
  · split at h
    · rw [Links.unlink_head] at h
      split at h
      · cases h
      · exact h
    · exact h

theorem itimerNodeAdd_list_queued (c : ItimerCore) (n : NodeId) (e : BitVec 32) :
    ((c.itimerNodeAdd n e).links.list .queued).Sublist (c.links.list .queued) := by
  rw [ItimerCore.itimerNodeAdd]
  split
  · exact List.Sublist.refl _
  · simp only [ItimerCore.itimerInternalAdd, Links.addTail_list]
    rw [if_neg (Ne.symm (vecOf_ne_queued _ _))]
    exact c.links.unlink_sublist n .queued

theorem itimerNodeDel_list_queued (c : ItimerCore) (n : NodeId) :
    ((c.itimerNodeDel n).1.links.list .queued).Sublist (c.links.list .queued) := by
  rw [ItimerCore.itimerNodeDel]
  split
  · exact List.Sublist.refl _
  · split
    · exact c.links.unlink_sublist n .queued
    · exact List.Sublist.refl _

section

variable {start : Nat} {callback : NodeId → Option Nat} {s t : Sys}

namespace Good

theorem head_of_behind (h : Good start callback s) {n : NodeId} {d : Nat}
    (hd : dueAt start s.log n = some d) (hlt : d < start + ticks s.log) :
    s.core.links.head n = some .queued := by
  cases hn : s.core.links.head n with
  | none =>
    have hnone := h.timed.idle n hn
    rw [hd] at hnone
    cases hnone
  | some p =>
    obtain ⟨e, he, hfit⟩ := h.timed.placed n p hn
    have hde : d = e := Option.some.inj (hd ▸ he)
    subst hde
    cases p with
    | tv1 i => exact absurd hfit.1 (Nat.not_le.mpr hlt)
    | tvn k i => exact absurd (Nat.le_trans hfit.1 (Nat.mul_div_le d k.block)) (Nat.not_le.mpr hlt)
    | queued => rfl

theorem add (h : Good start callback s) (n : NodeId) (e : BitVec 32) :
    Good start callback (s.add n e) :=
  { timed := h.timed.itimerNodeAdd n e
    queued := fun hc m hm => h.queued hc m (itimerNodeAdd_queued hm)
    callback_eq := fun m => (s.core.itimerNodeAdd_callback n m e).trans (h.callback_eq m)
    exact := ⟨h.exact, h.timed.now⟩ }

theorem del (h : Good start callback s) (n : NodeId) : Good start callback (s.del n) :=
  { timed := (h.timed.itimerNodeDel n).1
    queued := fun hc m hm => h.queued hc m (itimerNodeDel_queued hm)
    callback_eq := fun m => by
      rw [Sys.del, s.core.itimerNodeDel_node n]
      exact h.callback_eq m
    exact := ⟨h.exact, (h.timed.itimerNodeDel n).2⟩ }

theorem mod (h : Good start callback s) (n : NodeId) (e : BitVec 32) :
    Good start callback (s.mod n e) := by
  have hadd := (h.del n).add n e
  have hj : (s.core.itimerNodeDel n).1.timerJiffies = s.core.timerJiffies := by
    rw [ItimerCore.itimerNodeDel]
    split
    · rfl
    · split <;> rfl
  simp only [Sys.add, Sys.del, hj] at hadd
  exact hadd

theorem beginTick (h : Good start callback s) {jiffies : BitVec 32}
    (hctrl : s.ctrl = .looping jiffies) :
    Good start callback
      { core := s.core.beginTick
        ctrl := .draining jiffies
        log := .tick s.core.timerJiffies :: s.log } := by
  have hc : s.ctrl.updating = false := by rw [hctrl]; rfl
  refine ⟨h.timed.beginTick (h.queued hc), ?_, fun n => ?_, h.exact, h.timed.now, ?_⟩
  · intro h'
    cases h'
  · simp only [s.core.beginTick_node]
    exact h.callback_eq n
  · intro n d hd
    exact Nat.le_of_not_lt (fun hlt => h.queued hc n (h.head_of_behind hd hlt))

theorem fire (h : Good start callback s) {n : NodeId} {ns : List NodeId} {ctrl : Ctrl}
    (hlist : s.core.links.list .queued = n :: ns) (hctrl : ctrl.updating = true) :
    Good start callback
      { core := { s.core with links := s.core.links.unlink n }
        ctrl := ctrl
        log := .fired n (s.core.node n).callback :: s.log } := by
  have hn : s.core.links.head n = some .queued :=
    (h.timed.wf.mem_iff _ n).mp (by rw [hlist]; exact List.mem_cons_self)
  obtain ⟨d, hd, hfit⟩ := h.timed.placed n _ hn
  refine ⟨h.timed.unlink n, ?_, h.callback_eq, h.exact, h.callback_eq n, d, hd, hfit⟩
  intro hc
  rw [hctrl] at hc
  cases hc

theorem goto (h : Good start callback s) (ctrl : Ctrl)
    (hq : ctrl.updating = false → ∀ n, s.core.links.head n ≠ some .queued) :
    Good start callback { s with ctrl := ctrl } :=
  ⟨h.timed, hq, h.callback_eq, h.exact⟩

theorem advance (h : Good start callback s) (hstep : s.advance = some t) :
    Good start callback t := by
  rw [Sys.advance] at hstep
  split at hstep
  · cases hstep
  · rename_i jiffies hctrl
    have hq := h.queued (by rw [hctrl]; rfl)
    split at hstep
    · cases hstep
      exact h.goto .idle (fun _ => hq)
    · cases hstep
      exact h.beginTick hctrl
  · rename_i jiffies hctrl
    split at hstep
    · rename_i hlist
      cases hstep
      refine h.goto (.looping jiffies) (fun _ n hn => ?_)
      have hmem := (h.timed.wf.mem_iff _ n).mpr hn
      rw [hlist] at hmem
      cases hmem
    · rename_i n ns hlist
      cases hstep
      refine h.fire hlist ?_
      split <;> rfl
  · rename_i jiffies hctrl
    cases hstep
    refine h.goto (.draining jiffies) (fun hc => ?_)
    cases hc

theorem step (h : Good start callback s) {a : Act} (hstep : TimeWheel.step s a = some t) :
    Good start callback t := by
  cases a with
  | add n e =>
    simp only [TimeWheel.step, Option.ite_none_right_eq_some, Option.some.injEq] at hstep
    rw [← hstep.2]
    exact h.add n e
  | del n =>
    simp only [TimeWheel.step, Option.ite_none_right_eq_some, Option.some.injEq] at hstep
    rw [← hstep.2]
    exact h.del n
  | mod n e =>
    simp only [TimeWheel.step, Option.ite_none_right_eq_some, Option.some.injEq] at hstep
    rw [← hstep.2]
    exact h.mod n e
  | run jiffies =>
    simp only [TimeWheel.step, Option.ite_none_right_eq_some, Option.some.injEq] at hstep
    obtain ⟨hidle, rfl⟩ := hstep
    exact h.goto (.looping jiffies) (fun _ => h.queued (by rw [hidle]; rfl))
  | advance => exact h.advance hstep

end Good

theorem good_of_reachable {jiffies : BitVec 32}
    (h : Run.Reachable step (Sys.init jiffies callback) s) : Good jiffies.toNat callback s :=
  h.invariant (good_init jiffies callback) (fun _ _ _ hs hstep => hs.step hstep)

end

/-- Not added again, and not deleted before it fires. -/
def Undisturbed (n : NodeId) (after : List Event) : Prop :=
  (∀ expires timerJiffies, .added n expires timerJiffies ∉ after) ∧
    ∀ later ret earlier, after = later ++ .deleted n ret :: earlier → ∃ fn, .fired n fn ∈ earlier

/-- One firing, in the iteration of this number, which processes this tick. -/
def FiresOnce (n : NodeId) (fn : Option Nat) (tick : BitVec 32) (iteration : Nat)
    (after : List Event) : Prop :=
  ∃ later earlier, after = later ++ .fired n fn :: earlier ∧
    (∀ fn', .fired n fn' ∉ later ∧ .fired n fn' ∉ earlier) ∧
    lastTick earlier = some tick ∧ ticks earlier = iteration

/-- The tick in whose iteration a node added with this expiry is to fire. -/
def fireTick (expires timerJiffies : BitVec 32) : BitVec 32 :=
  if (expires - timerJiffies).toNat < 2 ^ 31 then expires else timerJiffies

theorem fireTick_eq (e : BitVec 32) (N : Nat) :
    fireTick e (BitVec.ofNat 32 N) = BitVec.ofNat 32 (N + delay e (BitVec.ofNat 32 N)) := by
  have hx := e.isLt
  apply BitVec.eq_of_toNat_eq
  rw [fireTick, delay]
  split
  · rw [BitVec.toNat_ofNat, BitVec.toNat_sub, BitVec.toNat_ofNat]
    omega
  · rfl

theorem ticks_append (after before : List Event) :
    ticks (after ++ before) = ticks after + ticks before := by
  induction after with
  | nil => simp [ticks]
  | cons ev after ih =>
    cases ev with
    | tick =>
      simp only [List.cons_append, ticks, ih]
      omega
    | _ => exact ih

theorem Undisturbed.tail {n : NodeId} {ev : Event} {after : List Event}
    (h : Undisturbed n (ev :: after)) : Undisturbed n after :=
  ⟨fun e T hmem => h.1 e T (List.mem_cons_of_mem _ hmem),
    fun later ret earlier he => h.2 (ev :: later) ret earlier (by rw [he]; rfl)⟩

theorem FiresOnce.cons {n : NodeId} {fn : Option Nat} {tick : BitVec 32} {iteration : Nat}
    {ev : Event} {after : List Event} (h : FiresOnce n fn tick iteration after)
    (hev : ∀ fn', ev ≠ .fired n fn') : FiresOnce n fn tick iteration (ev :: after) := by
  obtain ⟨later, earlier, rfl, hnot, hlast⟩ := h
  refine ⟨ev :: later, earlier, rfl, fun fn' => ⟨?_, (hnot fn').2⟩, hlast⟩
  rw [List.mem_cons]
  rintro (he | hmem)
  · exact hev fn' he.symm
  · exact (hnot fn').1 hmem

section

variable {start : Nat} {callback : NodeId → Option Nat}

theorem Exact.tail {ev : Event} {log : List Event} (h : Exact start callback (ev :: log)) :
    Exact start callback log := by
  cases ev <;> exact h.1

theorem Exact.append {after before : List Event} (h : Exact start callback (after ++ before)) :
    Exact start callback before := by
  induction after with
  | nil => exact h
  | cons ev after ih => exact ih h.tail

theorem Exact.lastTick_eq {before : List Event} {k : Nat} {after : List Event}
    (h : Exact start callback (after ++ before)) (hk : ticks after = k + 1) :
    lastTick after = some (BitVec.ofNat 32 (start + ticks before + k)) := by
  induction after with
  | nil => cases hk
  | cons ev after ih =>
    cases ev with
    | tick timerJiffies =>
      have ht : timerJiffies = BitVec.ofNat 32 (start + ticks (after ++ before)) := h.2.1
      have hka : ticks after = k := Nat.succ.inj hk
      rw [ticks_append, hka, Nat.add_comm k, ← Nat.add_assoc] at ht
      rw [lastTick, ht]
    | _ => exact ih h.tail hk

/-- A node added with this expiry has fired in the iteration of its tick, or waits for it. -/
def FiresOrWaits (start : Nat) (callback : NodeId → Option Nat) (n : NodeId) (e T : BitVec 32)
    (before after : List Event) : Prop :=
  FiresOnce n (callback n) (fireTick e T) (delay e T + 1) after ∧
      dueAt start (after ++ .added n e T :: before) n = none ∨
    (∀ fn, .fired n fn ∉ after) ∧ ticks after ≤ delay e T + 1 ∧
      dueAt start (after ++ .added n e T :: before) n = some (start + ticks before + delay e T)

theorem FiresOrWaits.cons {n : NodeId} {e T : BitVec 32} {before after : List Event} {ev : Event}
    (h : FiresOrWaits start callback n e T before after)
    (hev : ∀ fn, ev ≠ .fired n fn)
    (hticks : dueAt start (after ++ .added n e T :: before) n =
      some (start + ticks before + delay e T) → ticks (ev :: after) ≤ delay e T + 1)
    (hdue : dueAt start ((ev :: after) ++ .added n e T :: before) n =
      dueAt start (after ++ .added n e T :: before) n) :
    FiresOrWaits start callback n e T before (ev :: after) := by
  rcases h with ⟨hfires, hnone⟩ | ⟨hnot, -, hsome⟩
  · exact Or.inl ⟨hfires.cons hev, hdue.trans hnone⟩
  · refine Or.inr ⟨fun fn hmem => ?_, hticks hsome, hdue.trans hsome⟩
    rcases List.mem_cons.mp hmem with he | hmem
    · exact hev fn he.symm
    · exact hnot fn hmem

theorem Exact.firesOrWaits {n : NodeId} {e T : BitVec 32} {before after : List Event}
    (h : Exact start callback (after ++ .added n e T :: before)) (hu : Undisturbed n after) :
    FiresOrWaits start callback n e T before after := by
  have hT : T = BitVec.ofNat 32 (start + ticks before) := h.append.2
  induction after with
  | nil => exact Or.inr ⟨by simp, Nat.zero_le _, Function.update_self _ _ _⟩
  | cons ev after ih =>
    have ih := ih h.tail hu.tail
    have hle : dueAt start (after ++ .added n e T :: before) n =
        some (start + ticks before + delay e T) → ticks after ≤ delay e T + 1 := by
      intro hsome
      rcases ih with ⟨-, hnone⟩ | ⟨-, hle, -⟩
      · rw [hsome] at hnone
        cases hnone
      · exact hle
    have hsum : ticks (after ++ .added n e T :: before) = ticks after + ticks before :=
      ticks_append _ _
    cases ev with
    | added m e' T' =>
      have hm : n ≠ m := by
        rintro rfl
        exact hu.1 e' T' List.mem_cons_self
      exact ih.cons (by simp) hle (Function.update_of_ne hm _ _)
    | deleted m ret =>
      by_cases hm : n = m
      · subst hm
        obtain ⟨fn, hfn⟩ := hu.2 [] ret after rfl
        rcases ih with ⟨hfires, -⟩ | ⟨hnot, -⟩
        · exact Or.inl ⟨hfires.cons (by simp), Function.update_self _ _ _⟩
        · exact (hnot fn hfn).elim
      · exact ih.cons (by simp) hle (Function.update_of_ne hm _ _)
    | tick timerJiffies =>
      refine ih.cons (by simp) (fun hsome => ?_) rfl
      have hbehind : start + ticks (after ++ .added n e T :: before) ≤
        start + ticks before + delay e T := h.2.2 n _ hsome
      rw [hsum] at hbehind
      simp only [ticks]
      omega
    | fired m fn =>
      by_cases hm : n = m
      · subst hm
        obtain ⟨hexact, hfn, d, hd, hnow⟩ := h
        change dueAt start (after ++ .added n e T :: before) n = some d at hd
        change d + 1 = start + ticks (after ++ .added n e T :: before) at hnow
        rcases ih with ⟨-, hnone⟩ | ⟨hnot, -, hsome⟩
        · rw [hd] at hnone
          cases hnone
        · have hde : d = start + ticks before + delay e T := Option.some.inj (hd ▸ hsome)
          have hticks : ticks after = delay e T + 1 := by omega
          refine Or.inl ⟨⟨[], after, hfn ▸ rfl, fun fn' => ⟨by simp, hnot fn'⟩, ?_, hticks⟩,
            Function.update_self _ _ _⟩
          rw [Exact.lastTick_eq hexact hticks, hT, fireTick_eq, ← hT]
          rfl
      · refine ih.cons (fun fn' he => hm ?_) hle (Function.update_of_ne hm _ _)
        cases he
        rfl

end

/-- A timer fires once, in the iteration of its tick, and a deletion finds the pending ones. -/
theorem itimer_node_exact (jiffies : BitVec 32) (callback : NodeId → Option Nat) (s : Sys)
    (hs : Run.Reachable step (Sys.init jiffies callback) s) :
    (∀ after n expires timerJiffies before,
      s.log = after ++ .added n expires timerJiffies :: before → Undisturbed n after →
      FiresOnce n (callback n) (fireTick expires timerJiffies)
          (delay expires timerJiffies + 1) after ∨
        (∀ fn, .fired n fn ∉ after) ∧
          (ticks after ≤ delay expires timerJiffies ∨
            ticks after = delay expires timerJiffies + 1 ∧ s.ctrl.updating = true ∧
              n ∈ s.core.links.list .queued)) ∧
      ∀ after n ret before, s.log = after ++ .deleted n ret :: before →
        ret = if pending n before then 1 else 0 := by
  have hgood := good_of_reachable hs
  refine ⟨fun after n e T before hlog hu => ?_, fun after n ret before hlog => ?_⟩
  · have hexact := hgood.exact
    rw [hlog] at hexact
    rcases hexact.firesOrWaits hu with ⟨hfires, -⟩ | ⟨hnot, hle, hsome⟩
    · exact Or.inl hfires
    · refine Or.inr ⟨hnot, ?_⟩
      by_cases hlt : ticks after ≤ delay e T
      · exact Or.inl hlt
      · have hlast : ticks after = delay e T + 1 := by omega
        have hnow : ticks s.log = ticks after + ticks before := by
          rw [hlog]
          exact ticks_append _ _
        rw [← hlog] at hsome
        have hhead := hgood.head_of_behind hsome (by omega)
        refine Or.inr ⟨hlast, ?_, (hgood.timed.wf.mem_iff _ n).mpr hhead⟩
        by_contra hnot
        exact hgood.queued (Bool.eq_false_iff.mpr hnot) n hhead
  · have hexact := hgood.exact
    rw [hlog] at hexact
    rw [← dueAt_isSome jiffies.toNat]
    exact hexact.append.2

/-- A timer set before the counter wraps and deleted after it fired. -/
theorem itimer_node_exact_wraps :
    FiresOnce 1 (some 8) 0#32 3
      [.deleted 1 0, .fired 1 (some 8), .tick 0#32, .tick 4294967295#32, .tick 4294967294#32] := by
  have hrun : (Run.run step (Sys.init 4294967294#32 (fun n => some (n + 7)))
      ([.add 1 0#32, .run 0#32] ++ List.replicate 9 .advance ++ [.del 1])).map Sys.log =
      some ([.deleted 1 0, .fired 1 (some 8), .tick 0#32, .tick 4294967295#32,
        .tick 4294967294#32] ++ .added 1 0#32 4294967294#32 :: []) := by
    decide
  obtain ⟨s, hs, hlog⟩ := Option.map_eq_some_iff.mp hrun
  have hund : Undisturbed 1
      [.deleted 1 0, .fired 1 (some 8), .tick 0#32, .tick 4294967295#32, .tick 4294967294#32] := by
    refine ⟨by simp, fun later ret earlier h => ⟨some 8, ?_⟩⟩
    cases later with
    | nil =>
      cases h
      simp
    | cons ev later =>
      obtain ⟨-, htail⟩ := List.cons.inj (List.cons_append ▸ h)
      have hmem : Event.deleted 1 ret ∈ later ++ .deleted 1 ret :: earlier := by simp
      rw [← htail] at hmem
      simp at hmem
  rcases (itimer_node_exact 4294967294#32 _ s ⟨_, hs⟩).1 _ 1 0#32 4294967294#32 [] hlog hund with
    hfires | ⟨hnot, -⟩
  · exact hfires
  · exact (hnot (some 8) (by simp)).elim

end AlgorithmLib.TimeWheel
