import AlgorithmLib.TimeWheel.Placement

/-!
The wheel invariant: every linked node stands where its due tick fits. The node functions
keep it, the cascades move every node whose block of ticks begins, and behind them exactly
the nodes due at the current tick are in its bucket.
-/

set_option autoImplicit false

namespace AlgorithmLib.TimeWheel

/-- The core with its counter at tick `N`, and the tick at which each linked node is due. -/
structure Timed (c : ItimerCore) (N : Nat) (due : NodeId → Option Nat) : Prop where
  wf : c.links.WF
  now : c.timerJiffies = BitVec.ofNat 32 N
  ok : ∀ n, (c.node n).state = .ok
  idle : ∀ n, c.links.head n = none → due n = none
  placed : ∀ n p, c.links.head n = some p → ∃ d, due n = some d ∧ Fits N d p
  expires : ∀ n k i d, c.links.head n = some (.tvn k i) → due n = some d →
    (c.node n).expires = BitVec.ofNat 32 d

def Cascaded (c : ItimerCore) (N : Nat) (due : NodeId → Option Nat) (k : Tvn) : Prop :=
  ∀ n i d, c.links.head n = some (.tvn k i) → due n = some d → Ahead N d (.tvn k i)

namespace ItimerCore

theorem cascades_keep {P : ItimerCore → Prop} {c : ItimerCore}
    (hP : ∀ c k i, P c → P (c.itimerInternalCascade k i)) (h : P c) : P c.cascades := by
  simp only [ItimerCore.cascades]
  split
  · split
    · split
      · split
        · exact hP _ _ _ (hP _ _ _ (hP _ _ _ (hP _ _ _ h)))
        · exact hP _ _ _ (hP _ _ _ (hP _ _ _ h))
      · exact hP _ _ _ (hP _ _ _ h)
    · exact hP _ _ _ h
  · exact h

theorem itimerInternalCascade_node (c : ItimerCore) (k : Tvn) (i : Nat) :
    (c.itimerInternalCascade k i).node = c.node := by
  rw [itimerInternalCascade]
  generalize c.links.list (.tvn k i) = ns
  induction ns generalizing c with
  | nil => rfl
  | cons n ns ih => exact ih (c.cascadeStep n)

theorem beginTick_node (c : ItimerCore) : c.beginTick.node = c.node :=
  cascades_keep (P := fun c' => c'.node = c.node)
    (fun c' k i h => (c'.itimerInternalCascade_node k i).trans h) rfl

theorem itimerNodeAdd_callback (c : ItimerCore) (n m : NodeId) (e : BitVec 32) :
    ((c.itimerNodeAdd n e).node m).callback = (c.node m).callback := by
  rw [itimerNodeAdd]
  split
  · rfl
  · by_cases hm : m = n
    · simp [itimerInternalAdd, hm]
    · simp [itimerInternalAdd, hm]

theorem itimerNodeAdd_data (c : ItimerCore) (n m : NodeId) (e : BitVec 32) :
    ((c.itimerNodeAdd n e).node m).data = (c.node m).data := by
  rw [itimerNodeAdd]
  split
  · rfl
  · by_cases hm : m = n
    · simp [itimerInternalAdd, hm]
    · simp [itimerInternalAdd, hm]

theorem itimerNodeDel_node (c : ItimerCore) (n : NodeId) : (c.itimerNodeDel n).1.node = c.node := by
  rw [itimerNodeDel]
  split
  · rfl
  · split <;> rfl

end ItimerCore

theorem timed_init (jiffies : BitVec 32) (callback : NodeId → Option Nat) :
    Timed (Sys.init jiffies callback).core jiffies.toNat (fun _ => none) := by
  refine ⟨Links.wf_empty, ?_, fun _ => rfl, fun _ _ => rfl, ?_, ?_⟩
  · rw [BitVec.ofNat_toNat, BitVec.setWidth_eq]
    rfl
  · intro n p h
    cases h
  · intro n k i d h
    cases h

namespace Timed

variable {c : ItimerCore} {N : Nat} {due : NodeId → Option Nat}

theorem unlink (h : Timed c N due) (n : NodeId) :
    Timed { c with links := c.links.unlink n } N (Function.update due n none) := by
  refine ⟨h.wf.unlink n, h.now, h.ok, fun m hm => ?_, fun m p hm => ?_, fun m k i d hm hd => ?_⟩
  · rw [Links.unlink_head] at hm
    by_cases hmn : m = n
    · rw [hmn, Function.update_self]
    · rw [if_neg hmn] at hm
      rw [Function.update_of_ne hmn]
      exact h.idle m hm
  · rw [Links.unlink_head] at hm
    by_cases hmn : m = n
    · rw [if_pos hmn] at hm
      cases hm
    · rw [if_neg hmn] at hm
      rw [Function.update_of_ne hmn]
      exact h.placed m p hm
  · rw [Links.unlink_head] at hm
    by_cases hmn : m = n
    · rw [if_pos hmn] at hm
      cases hm
    · rw [if_neg hmn] at hm
      rw [Function.update_of_ne hmn] at hd
      exact h.expires m k i d hm hd

theorem link (h : Timed c N due) {n : NodeId} (hn : c.links.head n = none) {d : Nat} {p : Place}
    (hfit : Fits N d p) (hexp : ∀ k i, p = .tvn k i → (c.node n).expires = BitVec.ofNat 32 d) :
    Timed { c with links := c.links.addTail n p } N (Function.update due n (some d)) := by
  refine ⟨h.wf.addTail hn p, h.now, h.ok, fun m hm => ?_, fun m q hm => ?_,
    fun m k i e hm he => ?_⟩
  · rw [Links.addTail_head] at hm
    by_cases hmn : m = n
    · rw [if_pos hmn] at hm
      cases hm
    · rw [if_neg hmn] at hm
      rw [Function.update_of_ne hmn]
      exact h.idle m hm
  · rw [Links.addTail_head] at hm
    by_cases hmn : m = n
    · rw [if_pos hmn, Option.some.injEq] at hm
      exact ⟨d, by rw [hmn, Function.update_self], hm ▸ hfit⟩
    · rw [if_neg hmn] at hm
      rw [Function.update_of_ne hmn]
      exact h.placed m q hm
  · rw [Links.addTail_head] at hm
    by_cases hmn : m = n
    · rw [if_pos hmn, Option.some.injEq] at hm
      rw [hmn, Function.update_self, Option.some.injEq] at he
      rw [hmn, ← he]
      exact hexp k i hm
    · rw [if_neg hmn] at hm
      rw [Function.update_of_ne hmn] at he
      exact h.expires m k i e hm he

theorem setExpires (h : Timed c N due) {n : NodeId} (hn : c.links.head n = none) (e : BitVec 32) :
    Timed { c with node := Function.update c.node n { c.node n with expires := e } } N due := by
  refine ⟨h.wf, h.now, fun m => ?_, h.idle, h.placed, fun m k i d hm hd => ?_⟩
  · by_cases hmn : m = n
    · simp only [hmn, Function.update_self]
      exact h.ok n
    · simp only [Function.update_of_ne hmn]
      exact h.ok m
  · have hmn : m ≠ n := by
      rintro rfl
      rw [hn] at hm
      cases hm
    simp only [Function.update_of_ne hmn]
    exact h.expires m k i d hm hd

theorem itimerNodeAdd (h : Timed c N due) (n : NodeId) (e : BitVec 32) :
    Timed (c.itimerNodeAdd n e) N
      (Function.update due n (some (N + delay e c.timerJiffies))) := by
  rw [ItimerCore.itimerNodeAdd, if_neg (by rw [h.ok n]; simp), ItimerCore.itimerInternalAdd]
  have hfree : (c.links.unlink n).head n = none := by rw [Links.unlink_head, if_pos rfl]
  have hexp := (h.unlink n).setExpires (n := n) hfree e
  have hplace := vecOf_delay e N
  rw [← h.now] at hplace
  have hlink := hexp.link (n := n) (d := N + delay e c.timerJiffies) hfree hplace.1
    (fun k i hk => by simpa using hplace.2 k i hk)
  simpa using hlink

theorem itimerNodeDel (h : Timed c N due) (n : NodeId) :
    Timed (c.itimerNodeDel n).1 N (Function.update due n none) ∧
      (c.itimerNodeDel n).2 = if (due n).isSome then 1 else 0 := by
  rw [ItimerCore.itimerNodeDel, if_neg (by rw [h.ok n]; simp)]
  cases hn : c.links.head n with
  | none =>
    have hd := h.idle n hn
    have hsame : Function.update due n none = due := by rw [← hd, Function.update_eq_self]
    simp only [Option.isSome_none, Bool.false_eq_true, if_false, hd, hsame]
    exact ⟨h, trivial⟩
  | some p =>
    obtain ⟨d, hd, -⟩ := h.placed n p hn
    simp only [Option.isSome_some, if_true, hd]
    exact ⟨h.unlink n, trivial⟩

theorem cascadeStep (h : Timed c N due) {n : NodeId} {k : Tvn} {i : Nat}
    (hn : c.links.head n = some (.tvn k i)) :
    ∃ d, due n = some d ∧ Timed (c.cascadeStep n) N due ∧
      Ahead N d (vecOf (c.node n).expires c.timerJiffies) ∧
      ∀ m, (c.cascadeStep n).links.head m =
        if m = n then some (vecOf (c.node n).expires c.timerJiffies) else c.links.head m := by
  obtain ⟨d, hd, hfit⟩ := h.placed n _ hn
  have hexp := h.expires n k i d hn hd
  have hle : k.block * (d / k.block) ≤ d := Nat.mul_div_le d k.block
  have hto := vecOf_fits (N := N) (d := d) (Nat.le_trans hfit.1 hle) hfit.2.1
  have hfree : (c.links.unlink n).head n = none := by rw [Links.unlink_head, if_pos rfl]
  have hlink := (h.unlink n).link (n := n) hfree hto.1 (fun _ _ _ => hexp)
  rw [← h.now, ← hexp] at hto hlink
  have hdue : Function.update (Function.update due n none) n (some d) = due := by
    rw [Function.update_idem, ← hd, Function.update_eq_self]
  rw [hdue] at hlink
  refine ⟨d, hd, hlink, hto.2, fun m => ?_⟩
  simp only [ItimerCore.cascadeStep, ItimerCore.itimerInternalAdd, Links.addTail_head,
    Links.unlink_head]
  by_cases hm : m = n <;> simp [hm]

theorem cascade (h : Timed c N due) (k : Tvn) (i : Nat) :
    Timed (c.itimerInternalCascade k i) N due ∧
      (c.itimerInternalCascade k i).timerJiffies = c.timerJiffies ∧
      ∀ n p, (c.itimerInternalCascade k i).links.head n = some p →
        (c.links.head n = some p ∧ p ≠ .tvn k i) ∨ ∀ d, due n = some d → Ahead N d p := by
  have hfold : ∀ (ns : List NodeId) (c : ItimerCore), Timed c N due → ns.Nodup →
      (∀ n ∈ ns, c.links.head n = some (.tvn k i)) →
      Timed (ns.foldl ItimerCore.cascadeStep c) N due ∧
        (ns.foldl ItimerCore.cascadeStep c).timerJiffies = c.timerJiffies ∧
        ∀ n p, (ns.foldl ItimerCore.cascadeStep c).links.head n = some p →
          (n ∉ ns ∧ c.links.head n = some p) ∨ ∀ d, due n = some d → Ahead N d p := by
    intro ns
    induction ns with
    | nil => exact fun c hc _ _ => ⟨hc, rfl, fun n p hp => Or.inl ⟨List.not_mem_nil, hp⟩⟩
    | cons m ns ih =>
      intro c hc hnd hin
      obtain ⟨hm, hnd⟩ := List.nodup_cons.mp hnd
      obtain ⟨d, hd, hstep, hahead, hhead⟩ := hc.cascadeStep (hin m List.mem_cons_self)
      have hin' : ∀ n ∈ ns, (c.cascadeStep m).links.head n = some (.tvn k i) := by
        intro n hn
        have hnm : n ≠ m := fun he => hm (he ▸ hn)
        rw [hhead, if_neg hnm]
        exact hin n (List.mem_cons_of_mem _ hn)
      obtain ⟨ht, hj, hfin⟩ := ih _ hstep hnd hin'
      refine ⟨ht, hj, fun n p hp => ?_⟩
      rcases hfin n p hp with ⟨hn, hold⟩ | hahead'
      · rw [hhead] at hold
        by_cases hnm : n = m
        · rw [if_pos hnm, Option.some.injEq] at hold
          refine Or.inr (fun e he => ?_)
          rw [hnm, hd, Option.some.injEq] at he
          rw [← he, ← hold]
          exact hahead
        · rw [if_neg hnm] at hold
          exact Or.inl ⟨by simp [hnm, hn], hold⟩
      · exact Or.inr hahead'
  obtain ⟨ht, hj, hfin⟩ := hfold (c.links.list (.tvn k i)) c h (h.wf.nodup _)
    (fun n hn => (h.wf.mem_iff _ n).mp hn)
  refine ⟨ht, hj, fun n p hp => (hfin n p hp).imp_left (fun ⟨hn, hold⟩ => ⟨hold, ?_⟩)⟩
  rintro rfl
  exact hn ((h.wf.mem_iff _ n).mpr hold)

theorem itimerIndex (h : Timed c N due) (k : Tvn) : c.itimerIndex k = N / k.block % 64 := by
  rw [ItimerCore.itimerIndex, and_itvnMask, Tvn.block_eq, h.now, BitVec.toNat_ofNat]
  cases k <;> simp only [Tvn.block] <;> omega

theorem index (h : Timed c N due) : (c.timerJiffies &&& itvrMask).toNat = N % 256 := by
  rw [and_itvrMask, h.now, BitVec.toNat_ofNat]
  omega

theorem cascaded_of_mod_ne (h : Timed c N due) {k : Tvn} (hN : N % k.block ≠ 0) :
    Cascaded c N due k := by
  intro n i d hn hd
  obtain ⟨e, he, hfit⟩ := h.placed n _ hn
  have hde : d = e := Option.some.inj (hd ▸ he)
  subst hde
  refine Nat.lt_of_le_of_ne hfit.1 (fun heq => hN ?_)
  rw [heq, Nat.mul_mod_right]

theorem cascade_index (h : Timed c N due) (k : Tvn) :
    Timed (c.itimerInternalCascade k (N / k.block % 64)) N due ∧
      ∀ k', k' = k ∨ Cascaded c N due k' →
        Cascaded (c.itimerInternalCascade k (N / k.block % 64)) N due k' := by
  obtain ⟨ht, -, hfin⟩ := h.cascade k (N / k.block % 64)
  refine ⟨ht, fun k' hk' n i d hn hd => ?_⟩
  rcases hfin n _ hn with ⟨hold, hne⟩ | hahead
  · rcases hk' with rfl | hk'
    · obtain ⟨e, he, hfit⟩ := h.placed n _ hold
      have hde : d = e := Option.some.inj (hd ▸ he)
      subst hde
      refine Nat.lt_of_le_of_ne hfit.1 (fun heq => hne ?_)
      have hpos : 0 < k'.block := by cases k' <;> decide
      have hdiv : N / k'.block = d / k'.block := by rw [heq, Nat.mul_div_cancel_left _ hpos]
      rw [hfit.2.2.2, hdiv]
    · exact hk' n i d hold hd
  · exact hahead d hd

theorem cascade_queued (h : Timed c N due) (k : Tvn) (i : Nat) {n : NodeId}
    (hn : (c.itimerInternalCascade k i).links.head n = some .queued) :
    c.links.head n = some .queued := by
  obtain ⟨ht, -, hfin⟩ := h.cascade k i
  rcases hfin n _ hn with ⟨hold, -⟩ | hahead
  · exact hold
  · obtain ⟨d, hd, -⟩ := ht.placed n _ hn
    exact (hahead d hd).elim

theorem cascades (h : Timed c N due) :
    Timed c.cascades N due ∧ c.cascades.timerJiffies = c.timerJiffies ∧
      ∀ n, c.cascades.links.head n = some .queued → c.links.head n = some .queued := by
  refine ItimerCore.cascades_keep (P := fun c' => Timed c' N due ∧ c'.timerJiffies = c.timerJiffies ∧
    ∀ n, c'.links.head n = some .queued → c.links.head n = some .queued) ?_ ⟨h, rfl, fun _ => id⟩
  intro c' k i ⟨ht, hj, hq⟩
  obtain ⟨ht', hj', -⟩ := ht.cascade k i
  exact ⟨ht', hj'.trans hj, fun n hn => hq n (ht.cascade_queued k i hn)⟩

theorem cascaded_cascades (h : Timed c N due) (k : Tvn) : Cascaded c.cascades N due k := by
  simp only [ItimerCore.cascades, h.index, h.itimerIndex]
  by_cases h2 : N % 256 = 0
  · rw [if_pos h2]
    obtain ⟨t2, c2⟩ := h.cascade_index .tv2
    rw [t2.itimerIndex]
    by_cases h3 : N / Tvn.tv2.block % 64 = 0
    · rw [if_pos h3]
      obtain ⟨t3, c3⟩ := t2.cascade_index .tv3
      rw [t3.itimerIndex]
      by_cases h4 : N / Tvn.tv3.block % 64 = 0
      · rw [if_pos h4]
        obtain ⟨t4, c4⟩ := t3.cascade_index .tv4
        rw [t4.itimerIndex]
        by_cases h5 : N / Tvn.tv4.block % 64 = 0
        · rw [if_pos h5]
          obtain ⟨t5, c5⟩ := t4.cascade_index .tv5
          cases k with
          | tv2 => exact c5 _ (Or.inr (c4 _ (Or.inr (c3 _ (Or.inr (c2 _ (Or.inl rfl)))))))
          | tv3 => exact c5 _ (Or.inr (c4 _ (Or.inr (c3 _ (Or.inl rfl)))))
          | tv4 => exact c5 _ (Or.inr (c4 _ (Or.inl rfl)))
          | tv5 => exact c5 _ (Or.inl rfl)
        · rw [if_neg h5]
          cases k with
          | tv2 => exact c4 _ (Or.inr (c3 _ (Or.inr (c2 _ (Or.inl rfl)))))
          | tv3 => exact c4 _ (Or.inr (c3 _ (Or.inl rfl)))
          | tv4 => exact c4 _ (Or.inl rfl)
          | tv5 => exact t4.cascaded_of_mod_ne (by simp only [Tvn.block] at h5 ⊢; omega)
      · rw [if_neg h4]
        cases k with
        | tv2 => exact c3 _ (Or.inr (c2 _ (Or.inl rfl)))
        | tv3 => exact c3 _ (Or.inl rfl)
        | _ => exact t3.cascaded_of_mod_ne (by simp only [Tvn.block] at h4 ⊢; omega)
    · rw [if_neg h3]
      cases k with
      | tv2 => exact c2 _ (Or.inl rfl)
      | _ => exact t2.cascaded_of_mod_ne (by simp only [Tvn.block] at h3 ⊢; omega)
  · rw [if_neg h2]
    exact h.cascaded_of_mod_ne (by cases k <;> simp only [Tvn.block] <;> omega)

theorem beginTick (h : Timed c N due) (hq : ∀ n, c.links.head n ≠ some .queued) :
    Timed c.beginTick (N + 1) due := by
  obtain ⟨ht, hj, hqueued⟩ := h.cascades
  have hahead := fun k => h.cascaded_cascades k
  simp only [ItimerCore.beginTick, h.index]
  have hhead := ht.wf.splice_head (.tv1 (N % 256)) .queued
  refine ⟨ht.wf.splice (by simp), ?_, ht.ok, fun n hn => ?_, fun n p hn => ?_,
    fun n k i d hn hd => ?_⟩
  · simp only [hj, h.now]
    exact (BitVec.ofNat_add N 1).symm
  · rw [hhead] at hn
    split at hn
    · cases hn
    · exact ht.idle n hn
  · rw [hhead] at hn
    split at hn
    · rename_i hdue
      obtain ⟨d, hd, hfit⟩ := ht.placed n _ hdue
      cases hn
      refine ⟨d, hd, ?_⟩
      simp only [Fits] at hfit ⊢
      omega
    · rename_i hlater
      obtain ⟨d, hd, hfit⟩ := ht.placed n _ hn
      refine ⟨d, hd, ?_⟩
      cases p with
      | tv1 i =>
        have hi : i ≠ N % 256 := fun he => hlater (he ▸ hn)
        simp only [Fits] at hfit ⊢
        omega
      | tvn k i =>
        have hlt := hahead k n i d hn hd
        simp only [Fits, Ahead] at hfit hlt ⊢
        omega
      | queued => exact (hq n (hqueued n hn)).elim
  · rw [hhead] at hn
    split at hn
    · cases hn
    · exact ht.expires n k i d hn hd

end Timed

end AlgorithmLib.TimeWheel
