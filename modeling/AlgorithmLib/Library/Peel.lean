import Mathlib.Data.List.Perm.Subperm
import Mathlib.Order.WellFoundedSet

/-!
Peeling a finite directed graph: vertices without incoming edges are found, a found vertex
is taken, its outgoing edges are removed, and the vertices this leaves without incoming
edges are found in turn. Every vertex is found in this way if and only if there is no cycle.
-/

set_option autoImplicit false

namespace AlgorithmLib.Peel

variable {α : Type}

def Edge (E : List (α × α)) (u v : α) : Prop := (u, v) ∈ E

/-- A closed walk of at least one edge. -/
def Cyclic (E : List (α × α)) : Prop := ∃ v, Relation.TransGen (Edge E) v v

/-- Without a cycle every walk backwards ends. -/
theorem acc_of_not_cyclic {E : List (α × α)} (h : ¬ Cyclic E) (v : α) : Acc (Edge E) v := by
  have hsrc : ∀ u v, Edge E u v → u ∈ {u | u ∈ E.map Prod.fst} := fun u v huv =>
    List.mem_map.mpr ⟨(u, v), huv, rfl⟩
  have : IsStrictOrder α (Relation.TransGen (Edge E)) :=
    { irrefl := fun v hv => h ⟨v, hv⟩
      trans := fun _ _ _ h₁ h₂ => h₁.trans h₂ }
  have hwf : {u | u ∈ E.map Prod.fst}.WellFoundedOn (Relation.TransGen (Edge E)) :=
    (List.finite_toSet _).wellFoundedOn
  have hacc : ∀ u ∈ {u | u ∈ E.map Prod.fst}, Acc (Edge E) u := by
    intro u hu
    refine hwf.induction hu ?_
    intro w _ ih
    exact Acc.intro w (fun x hx => ih x (hsrc x w hx) (.single hx))
  exact Acc.intro v (fun u hu => hacc u (hsrc u v hu))

theorem not_cyclic_of_acc {E : List (α × α)} (h : ∀ v, Acc (Edge E) v) : ¬ Cyclic E := by
  rintro ⟨v, hv⟩
  have hacc : Acc (Relation.TransGen (Edge E)) v := (h v).transGen
  induction hacc with
  | intro v _ ih => exact ih v hv hv

variable [DecidableEq α]

/-- How many edges lead to a vertex from vertices that were not taken. -/
def charged (E : List (α × α)) (taken : List α) (v : α) : Nat :=
  E.countP (fun e => e.2 = v ∧ e.1 ∉ taken)

/-- Where the edges of a vertex lead, in their order. -/
def targets (E : List (α × α)) (u : α) : List α :=
  (E.filter (fun e => e.1 = u)).map Prod.snd

theorem charged_pos {E : List (α × α)} {taken : List α} {v : α} :
    0 < charged E taken v ↔ ∃ u, Edge E u v ∧ u ∉ taken := by
  simp only [charged, List.countP_pos_iff, decide_eq_true_eq, Prod.exists, Edge]
  constructor
  · rintro ⟨a, b, hab, rfl, ha⟩
    exact ⟨a, hab, ha⟩
  · rintro ⟨u, huv, hu⟩
    exact ⟨u, v, huv, rfl, hu⟩

theorem charged_edge_cons (e : α × α) (E : List (α × α)) (taken : List α) (v : α) :
    charged (e :: E) taken v = charged E taken v + if e.2 = v ∧ e.1 ∉ taken then 1 else 0 := by
  simp only [charged, List.countP_cons, decide_eq_true_eq]

theorem targets_edge_cons (e : α × α) (E : List (α × α)) (u : α) :
    targets (e :: E) u = if e.1 = u then e.2 :: targets E u else targets E u := by
  simp only [targets, List.filter_cons, decide_eq_true_eq]
  split <;> rfl

/-- Taking a vertex uncharges the targets of its edges. -/
theorem charged_cons (E : List (α × α)) {taken : List α} {u : α} (hu : u ∉ taken) (v : α) :
    charged E taken v = (targets E u).count v + charged E (u :: taken) v := by
  induction E with
  | nil => rfl
  | cons e E ih =>
    rw [charged_edge_cons, charged_edge_cons, targets_edge_cons, ih]
    by_cases ha : e.1 = u
    · by_cases hb : e.2 = v
      · simp [ha, hb, hu]
        omega
      · simp [ha, hb]
    · by_cases hat : e.1 ∈ taken
      · simp [ha, hat]
      · simp [ha, hat]
        omega

/-- The state of a peeling: the vertices taken, those found and waiting to be taken, and
the targets whose edges are still to be removed for the vertex taken last. -/
structure Inv (E : List (α × α)) (V : List α) (indegree : α → Int)
    (taken waiting pending : List α) : Prop where
  nodup : (taken ++ waiting).Nodup
  balance : ∀ v, indegree v = pending.count v + charged E taken v
  found : ∀ v ∈ taken ++ waiting, v ∈ V ∧ indegree v = 0 ∧ Acc (Edge E) v
  complete : ∀ v ∈ V, indegree v = 0 → v ∈ taken ++ waiting

namespace Inv

variable {E : List (α × α)} {V : List α} {indegree indegree' : α → Int}
  {taken waiting pending : List α}

/-- A vertex all of whose edges come from taken vertices is at the end of no endless walk. -/
theorem acc_of_indegree_eq_zero (h : Inv E V indegree taken waiting pending) {v : α}
    (hc : charged E taken v = 0) : Acc (Edge E) v := by
  refine Acc.intro v (fun u hu => ?_)
  have hut : u ∈ taken := by
    by_contra hn
    have := charged_pos.mpr ⟨u, hu, hn⟩
    omega
  exact (h.found u (List.mem_append_left _ hut)).2.2

/-- At the start nothing is taken and the vertices without incoming edges are waiting. -/
theorem start (hw : waiting.Nodup) (hi : ∀ v, indegree v = charged E [] v)
    (hmem : ∀ v, v ∈ waiting ↔ v ∈ V ∧ indegree v = 0) : Inv E V indegree [] waiting [] := by
  refine ⟨hw, by simpa using hi, fun v hv => ?_, fun v hv h0 => (hmem v).mpr ⟨hv, h0⟩⟩
  obtain ⟨hV, h0⟩ := (hmem v).mp hv
  refine ⟨hV, h0, Acc.intro v (fun u hu => ?_)⟩
  have := charged_pos.mpr ⟨u, hu, List.not_mem_nil⟩
  have := hi v
  omega

theorem take {u : α} (h : Inv E V indegree taken (u :: waiting) []) :
    Inv E V indegree (u :: taken) waiting (targets E u) := by
  have hp : (taken ++ u :: waiting).Perm (u :: taken ++ waiting) := List.perm_middle
  have hu : u ∉ taken := by
    have := hp.nodup_iff.mp h.nodup
    rw [List.cons_append, List.nodup_cons] at this
    exact fun hm => this.1 (List.mem_append_left _ hm)
  refine ⟨hp.nodup_iff.mp h.nodup, fun v => ?_, fun v hv => h.found v (hp.mem_iff.mpr hv),
    fun v hv h0 => hp.mem_iff.mp (h.complete v hv h0)⟩
  have hi := h.balance v
  rw [charged_cons E hu v] at hi
  simpa using hi

/-- Removing one edge that leaves its target with incoming edges. -/
theorem release {v : α} (h : Inv E V indegree taken waiting (v :: pending))
    (hv : indegree' v = indegree v - 1) (ho : ∀ w, w ≠ v → indegree' w = indegree w)
    (h0 : indegree' v ≠ 0) : Inv E V indegree' taken waiting pending := by
  have hi := h.balance v
  rw [List.count_cons_self] at hi
  have hne : v ∉ taken ++ waiting := fun hm => by
    have := (h.found v hm).2.1
    omega
  refine ⟨h.nodup, fun w => ?_, fun w hw => ?_, fun w hw hz => ?_⟩
  · by_cases hwv : w = v
    · subst hwv
      omega
    · rw [ho w hwv, h.balance w, List.count_cons_of_ne (Ne.symm hwv)]
  · have hwv : w ≠ v := fun he => hne (he ▸ hw)
    rw [ho w hwv]
    exact h.found w hw
  · by_cases hwv : w = v
    · exact absurd (hwv ▸ hz) h0
    · exact h.complete w hw (by rw [← ho w hwv]; exact hz)

/-- Removing the last edge to a vertex finds it. -/
theorem release_found {v : α} (h : Inv E V indegree taken waiting (v :: pending)) (hV : v ∈ V)
    (hv : indegree' v = indegree v - 1) (ho : ∀ w, w ≠ v → indegree' w = indegree w)
    (h0 : indegree' v = 0) : Inv E V indegree' taken (v :: waiting) pending := by
  have hi := h.balance v
  rw [List.count_cons_self] at hi
  have hne : v ∉ taken ++ waiting := fun hm => by
    have := (h.found v hm).2.1
    omega
  have hp : (taken ++ v :: waiting).Perm (v :: (taken ++ waiting)) := List.perm_middle
  refine ⟨hp.nodup_iff.mpr (List.nodup_cons.mpr ⟨hne, h.nodup⟩), fun w => ?_, fun w hw => ?_,
    fun w hw hz => ?_⟩
  · by_cases hwv : w = v
    · subst hwv
      omega
    · rw [ho w hwv, h.balance w, List.count_cons_of_ne (Ne.symm hwv)]
  · rcases List.mem_cons.mp (hp.mem_iff.mp hw) with rfl | hw
    · exact ⟨hV, h0, h.acc_of_indegree_eq_zero (by omega)⟩
    · have hwv : w ≠ v := fun he => hne (he ▸ hw)
      rw [ho w hwv]
      exact h.found w hw
  · refine hp.mem_iff.mpr ?_
    by_cases hwv : w = v
    · exact hwv ▸ List.mem_cons_self
    · exact List.mem_cons_of_mem _ (h.complete w hw (by rw [← ho w hwv]; exact hz))

/-- When nothing is left waiting, every vertex without an endless walk behind it is taken. -/
theorem taken_of_acc (h : Inv E V indegree taken [] []) (hE : ∀ u v, Edge E u v → u ∈ V)
    {v : α} (ha : Acc (Edge E) v) (hV : v ∈ V) : v ∈ taken := by
  induction ha with
  | intro v _ ih =>
    have hc : charged E taken v = 0 := by
      by_contra hn
      obtain ⟨u, huv, hu⟩ := charged_pos.mp (Nat.pos_of_ne_zero hn)
      exact hu (ih u huv (hE u v huv))
    have hi := h.balance v
    rw [List.count_nil] at hi
    simpa using h.complete v hV (by omega)

/-- The verdict: behind a peeling that could still take only vertices with outgoing edges,
as many vertices were found as there are if and only if nothing is left waiting and the
graph has no cycle. -/
theorem found_all_iff (h : Inv E V indegree taken waiting []) (hV : V.Nodup)
    (hE : ∀ u v, Edge E u v → u ∈ V ∧ v ∈ V) (hout : ∀ u ∈ waiting, ∃ v, Edge E u v) :
    (taken ++ waiting).length = V.length ↔ waiting = [] ∧ ¬ Cyclic E := by
  have hsub : taken ++ waiting ⊆ V := fun v hv => (h.found v hv).1
  constructor
  · intro hlen
    have hperm : (taken ++ waiting).Perm V :=
      (h.nodup.subperm hsub).perm_of_length_le (Nat.le_of_eq hlen.symm)
    constructor
    · rw [List.eq_nil_iff_forall_not_mem]
      intro u hu
      obtain ⟨v, huv⟩ := hout u hu
      have hut : u ∉ taken := fun hm => List.disjoint_of_nodup_append h.nodup hm hu
      have hz := (h.found v (hperm.mem_iff.mpr (hE u v huv).2)).2.1
      have hpos := charged_pos.mpr ⟨u, huv, hut⟩
      have hi := h.balance v
      omega
    · refine not_cyclic_of_acc (fun v => Acc.intro v (fun u huv => ?_))
      exact (h.found u (hperm.mem_iff.mpr (hE u v huv).1)).2.2
  · rintro ⟨rfl, hcyc⟩
    rw [List.append_nil] at hsub ⊢
    have hall : V ⊆ taken := fun v hv =>
      h.taken_of_acc (fun u v huv => (hE u v huv).1) (acc_of_not_cyclic hcyc v) hv
    have hnd : taken.Nodup := by simpa using h.nodup
    have hle := (hnd.subperm hsub).length_le
    have hge := (hV.subperm hall).length_le
    omega

end Inv

end AlgorithmLib.Peel
