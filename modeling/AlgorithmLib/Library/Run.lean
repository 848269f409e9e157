import Mathlib.Data.List.Basic
import Mathlib.Data.Option.Basic
import Mathlib.Order.WellFounded

/-!
Runs of a labelled transition system whose environment chooses the label. A step that is
not enabled is `none`; a run is the list of labels that were performed.
-/

set_option autoImplicit false

namespace AlgorithmLib.Run

variable {σ α : Type}

/-- Perform the actions in order; `none` as soon as one of them is not enabled. -/
def run (step : σ → α → Option σ) : σ → List α → Option σ
  | s, [] => some s
  | s, a :: as => (step s a).bind (fun t => run step t as)

/-- The states some run leads to. -/
def Reachable (step : σ → α → Option σ) (init s : σ) : Prop :=
  ∃ as, run step init as = some s

/-- Every step of the run is taken from a state in which its label meets the condition. -/
def Meets (step : σ → α → Option σ) (c : σ → α → Prop) : σ → List α → Prop
  | _, [] => True
  | s, a :: as => c s a ∧
    match step s a with
    | none => True
    | some t => Meets step c t as

/-- Every state of the run, the first and the last included, satisfies the predicate. -/
def Throughout (step : σ → α → Option σ) (p : σ → Prop) : σ → List α → Prop
  | s, [] => p s
  | s, a :: as => p s ∧
    match step s a with
    | none => True
    | some t => Throughout step p t as

/-- Every step that the run performs satisfies the relation. -/
def Steps (step : σ → α → Option σ) (r : σ → α → σ → Prop) : σ → List α → Prop
  | _, [] => True
  | s, a :: as =>
    match step s a with
    | none => True
    | some t => r s a t ∧ Steps step r t as

/-- What the steps that the run performs show, one after the other. -/
def collect {β : Type} (step : σ → α → Option σ) (out : σ → α → List β) : σ → List α → List β
  | _, [] => []
  | s, a :: as =>
    match step s a with
    | none => []
    | some t => out s a ++ collect step out t as

instance decidableMeets (step : σ → α → Option σ) (c : σ → α → Prop)
    [∀ s a, Decidable (c s a)] : ∀ s as, Decidable (Meets step c s as)
  | _, [] => .isTrue trivial
  | s, a :: as =>
    match h : step s a with
    | none => decidable_of_iff (c s a) (by simp [Meets, h])
    | some t =>
      have := decidableMeets step c t as
      decidable_of_iff (c s a ∧ Meets step c t as) (by simp [Meets, h])

instance decidableThroughout (step : σ → α → Option σ) (p : σ → Prop) [DecidablePred p] :
    ∀ s as, Decidable (Throughout step p s as)
  | s, [] => decidable_of_iff (p s) Iff.rfl
  | s, a :: as =>
    match h : step s a with
    | none => decidable_of_iff (p s) (by simp [Throughout, h])
    | some t =>
      have := decidableThroughout step p t as
      decidable_of_iff (p s ∧ Throughout step p t as) (by simp [Throughout, h])

variable {step : σ → α → Option σ}

theorem run_cons {s t : σ} {a : α} {as : List α} :
    run step s (a :: as) = some t ↔ ∃ m, step s a = some m ∧ run step m as = some t := by
  simp [run, Option.bind_eq_some_iff]

theorem run_append {s t : σ} {as bs : List α} :
    run step s (as ++ bs) = some t ↔ ∃ m, run step s as = some m ∧ run step m bs = some t := by
  induction as generalizing s with
  | nil => simp [run]
  | cons a as ih =>
    simp only [List.cons_append, run_cons, ih]
    constructor
    · rintro ⟨m, hm, n, hn, ht⟩
      exact ⟨n, ⟨m, hm, hn⟩, ht⟩
    · rintro ⟨n, ⟨m, hm, hn⟩, ht⟩
      exact ⟨m, hm, n, hn, ht⟩

/-- What holds at the start and is kept by every step holds after every run. -/
theorem run_invariant {p : σ → Prop} (hstep : ∀ s a t, p s → step s a = some t → p t)
    {s t : σ} {as : List α} (hs : p s) (h : run step s as = some t) : p t := by
  induction as generalizing s with
  | nil => cases h; exact hs
  | cons a as ih =>
    obtain ⟨m, hm, ht⟩ := run_cons.mp h
    exact ih (hstep s a m hs hm) ht

/-- A system that shows the steps of another one has the same runs. -/
theorem run_map {τ : Type} {step' : τ → α → Option τ} {f : σ → τ}
    (hf : ∀ s a, (step s a).map f = step' (f s) a) (s : σ) (as : List α) :
    (run step s as).map f = run step' (f s) as := by
  induction as generalizing s with
  | nil => rfl
  | cons a as ih =>
    rw [run, run, ← hf s a]
    cases step s a with
    | none => rfl
    | some t => exact ih t

/-- A system that follows every step of another one follows its runs. -/
theorem run_simulates {τ : Type} {step' : τ → α → Option τ} {r : σ → τ → Prop}
    (hstep : ∀ s t a t', r s t → step' t a = some t' → ∃ s', step s a = some s' ∧ r s' t')
    {s : σ} {t t' : τ} {as : List α} (hr : r s t) (h : run step' t as = some t') :
    ∃ s', run step s as = some s' ∧ r s' t' := by
  induction as generalizing s t with
  | nil =>
    cases h
    exact ⟨s, rfl, hr⟩
  | cons a as ih =>
    obtain ⟨m, hm, ht⟩ := run_cons.mp h
    obtain ⟨n, hn, hrn⟩ := hstep s t a m hr hm
    obtain ⟨s', hs, hrs⟩ := ih hrn ht
    exact ⟨s', run_cons.mpr ⟨n, hn, hs⟩, hrs⟩

theorem Reachable.invariant {p : σ → Prop} {init s : σ} (h : Reachable step init s)
    (h₀ : p init) (hstep : ∀ s a t, p s → step s a = some t → p t) : p s := by
  obtain ⟨as, h⟩ := h
  exact run_invariant hstep h₀ h

theorem Meets.tail {c : σ → α → Prop} {s t : σ} {a : α} {as : List α}
    (h : Meets step c s (a :: as)) (ht : step s a = some t) : Meets step c t as := by
  simpa [Meets, ht] using h.2

theorem meets_of_forall {c : α → Prop} {as : List α} (h : ∀ a ∈ as, c a) (s : σ) :
    Meets step (fun _ a => c a) s as := by
  induction as generalizing s with
  | nil => trivial
  | cons a as ih =>
    refine ⟨h a List.mem_cons_self, ?_⟩
    cases step s a with
    | none => trivial
    | some t => exact ih (fun b hb => h b (List.mem_cons_of_mem a hb)) t

theorem meets_true (s : σ) (as : List α) : Meets step (fun _ _ => True) s as :=
  meets_of_forall (fun _ _ => trivial) s

theorem meets_and {c d : σ → α → Prop} {s : σ} {as : List α} (hc : Meets step c s as)
    (hd : Meets step d s as) : Meets step (fun s a => c s a ∧ d s a) s as := by
  induction as generalizing s with
  | nil => trivial
  | cons a as ih =>
    refine ⟨⟨hc.1, hd.1⟩, ?_⟩
    cases ht : step s a with
    | none => trivial
    | some t => exact ih (hc.tail ht) (hd.tail ht)

theorem meets_append {c : σ → α → Prop} {s t : σ} {as bs : List α} (h : run step s as = some t) :
    Meets step c s (as ++ bs) ↔ Meets step c s as ∧ Meets step c t bs := by
  induction as generalizing s with
  | nil =>
    cases h
    simp [Meets]
  | cons a as ih =>
    obtain ⟨m, hm, ht⟩ := run_cons.mp h
    simp only [List.cons_append, Meets, hm, ih ht, and_assoc]

/-- The last step of a run is one of its steps. -/
theorem Steps.last {r : σ → α → σ → Prop} {s t : σ} {a : α} {as : List α}
    (h : Steps step r s (as ++ [a])) (hrun : run step s (as ++ [a]) = some t) :
    ∃ m, r m a t := by
  induction as generalizing s with
  | nil =>
    obtain ⟨m, hm, ht⟩ := run_cons.mp hrun
    cases ht
    simp only [List.nil_append, Steps, hm] at h
    exact ⟨s, h.1⟩
  | cons b as ih =>
    obtain ⟨m, hm, ht⟩ := run_cons.mp hrun
    simp only [List.cons_append, Steps, hm] at h
    exact ih h.2 ht

theorem Throughout.head {p : σ → Prop} {s : σ} {as : List α}
    (h : Throughout step p s as) : p s := by
  cases as with
  | nil => exact h
  | cons a as => exact h.1

theorem Throughout.tail {p : σ → Prop} {s t : σ} {a : α} {as : List α}
    (h : Throughout step p s (a :: as)) (ht : step s a = some t) : Throughout step p t as := by
  simpa [Throughout, ht] using h.2

/-- The invariant rule for the runs whose steps all meet a condition. -/
theorem run_invariant_of_meets {c : σ → α → Prop} {p : σ → Prop}
    (hstep : ∀ s a t, p s → c s a → step s a = some t → p t)
    {s t : σ} {as : List α} (hs : p s) (hc : Meets step c s as)
    (h : run step s as = some t) : p t := by
  induction as generalizing s with
  | nil => cases h; exact hs
  | cons a as ih =>
    obtain ⟨m, hm, ht⟩ := run_cons.mp h
    exact ih (hstep s a m hs hc.1 hm) (hc.tail hm) ht

/-- The invariant rule for the conditions that a run meets. -/
theorem Meets.of_invariant {c d : σ → α → Prop} {p : σ → Prop}
    (hstep : ∀ s a t, p s → c s a → step s a = some t → d s a → p t)
    (hd : ∀ s a, p s → c s a → d s a)
    {s : σ} {as : List α} (hs : p s) (hc : Meets step c s as) : Meets step d s as := by
  induction as generalizing s with
  | nil => trivial
  | cons a as ih =>
    have hda := hd s a hs hc.1
    refine ⟨hda, ?_⟩
    cases ht : step s a with
    | none => trivial
    | some t => exact ih (hstep s a t hs hc.1 ht hda) (hc.tail ht)

/-- The invariant rule for what the steps of a run show. -/
theorem steps_of_meets {c : σ → α → Prop} {r : σ → α → σ → Prop} {p : σ → Prop}
    (hstep : ∀ s a t, p s → c s a → step s a = some t → p t ∧ r s a t)
    {s : σ} {as : List α} (hs : p s) (hc : Meets step c s as) : Steps step r s as := by
  induction as generalizing s with
  | nil => trivial
  | cons a as ih =>
    rw [Steps]
    cases ht : step s a with
    | none => trivial
    | some t =>
      obtain ⟨hp, hr⟩ := hstep s a t hs hc.1 ht
      exact ⟨hr, ih hp (hc.tail ht)⟩

/-- A condition that decides what a step shows, and keeps the invariant, decides what a run shows. -/
theorem steps_iff_meets {c d : σ → α → Prop} {r : σ → α → σ → Prop} {p : σ → Prop}
    (hiff : ∀ s a t, p s → step s a = some t → (r s a t ↔ d s a))
    (hstep : ∀ s a t, p s → c s a → d s a → step s a = some t → p t)
    {s t : σ} {as : List α} (hs : p s) (hc : Meets step c s as)
    (h : run step s as = some t) : Steps step r s as ↔ Meets step d s as := by
  induction as generalizing s with
  | nil => exact Iff.rfl
  | cons a as ih =>
    obtain ⟨m, hm, ht⟩ := run_cons.mp h
    simp only [Steps, Meets, hm, hiff s a m hs hm]
    exact and_congr_right fun hd => ih (hstep s a m hs hc.1 hd hm) (hc.tail hm) ht

/-- What a step shows decides which condition its label has met. -/
theorem meets_of_steps {c d : σ → α → Prop} {r : σ → α → σ → Prop} {p : σ → Prop}
    (hstep : ∀ s a t, p s → c s a → step s a = some t → r s a t → d s a ∧ p t)
    {s t : σ} {as : List α} (hs : p s) (hc : Meets step c s as) (h : run step s as = some t)
    (hr : Steps step r s as) : Meets step d s as := by
  induction as generalizing s with
  | nil => trivial
  | cons a as ih =>
    obtain ⟨m, hm, ht⟩ := run_cons.mp h
    simp only [Steps, hm] at hr
    obtain ⟨hd, hp⟩ := hstep s a m hs hc.1 hm hr.1
    refine ⟨hd, ?_⟩
    rw [hm]
    exact ih hp (hc.tail hm) ht hr.2

/-- A step that misses the condition leaves what only steps that show too little can end. -/
theorem meets_of_steps_of_end {c d : σ → α → Prop} {r : σ → α → σ → Prop} {p q : σ → Prop}
    (hstep : ∀ s a t, p s → c s a → d s a → step s a = some t → p t)
    (hmiss : ∀ s a t, p s → c s a → ¬ d s a → step s a = some t → q t)
    (hkeep : ∀ s a t, q s → c s a → step s a = some t → r s a t → q t)
    {s t : σ} {as : List α} (hs : p s) (hc : Meets step c s as) (h : run step s as = some t)
    (hr : Steps step r s as) (hend : ¬ q t) : Meets step d s as := by
  have hlast : ∀ (bs : List α) {u : σ}, q u → Meets step c u bs → Steps step r u bs →
      run step u bs = some t → q t := by
    intro bs
    induction bs with
    | nil =>
      intro u hu _ _ hrun
      cases hrun
      exact hu
    | cons b bs ih =>
      intro u hu hcu hru hrun
      obtain ⟨m, hm, ht⟩ := run_cons.mp hrun
      simp only [Steps, hm] at hru
      exact ih (hkeep u b m hu hcu.1 hm hru.1) (hcu.tail hm) hru.2 ht
  induction as generalizing s with
  | nil => trivial
  | cons a as ih =>
    obtain ⟨m, hm, ht⟩ := run_cons.mp h
    simp only [Steps, hm] at hr
    by_cases hd : d s a
    · refine ⟨hd, ?_⟩
      rw [hm]
      exact ih (hstep s a m hs hc.1 hd hm) (hc.tail hm) ht hr.2
    · exact absurd (hlast as (hmiss s a m hs hc.1 hd hm) (hc.tail hm) hr.2 ht) hend

theorem collect_cons {β : Type} {out : σ → α → List β} {s t : σ} {a : α} {as : List α}
    (h : step s a = some t) :
    collect step out s (a :: as) = out s a ++ collect step out t as := by
  simp only [collect, h]

/-- A run has shown what the first state had still to show and the last one has not. -/
theorem collect_append {β : Type} {out : σ → α → List β} {c : σ → α → Prop} (p : σ → Prop)
    (rest : σ → List β)
    (hstep : ∀ s a t, p s → c s a → step s a = some t → p t ∧ out s a ++ rest t = rest s)
    {s t : σ} {as : List α} (hs : p s) (hc : Meets step c s as) (h : run step s as = some t) :
    collect step out s as ++ rest t = rest s := by
  induction as generalizing s with
  | nil => cases h; rfl
  | cons a as ih =>
    obtain ⟨m, hm, ht⟩ := run_cons.mp h
    obtain ⟨hp, hout⟩ := hstep s a m hs hc.1 hm
    rw [collect_cons hm, List.append_assoc, ih hp (hc.tail hm) ht, hout]

/-- A run shows nothing twice when what a step shows was pending and is not any more. -/
theorem collect_nodup {β : Type} {out : σ → α → List β} {c : σ → α → Prop} (p : σ → Prop)
    (pending : σ → β → Prop)
    (hstep : ∀ s a t, p s → c s a → step s a = some t → p t ∧ (out s a).Nodup ∧
      (∀ b, pending t b → pending s b) ∧ ∀ b ∈ out s a, pending s b ∧ ¬ pending t b)
    {s : σ} {as : List α} (hs : p s) (hc : Meets step c s as) :
    (collect step out s as).Nodup ∧ ∀ b ∈ collect step out s as, pending s b := by
  induction as generalizing s with
  | nil => exact ⟨List.nodup_nil, fun _ h => absurd h List.not_mem_nil⟩
  | cons a as ih =>
    rw [collect]
    cases ht : step s a with
    | none => exact ⟨List.nodup_nil, fun _ h => absurd h List.not_mem_nil⟩
    | some t =>
      obtain ⟨hp, hout, hback, hshown⟩ := hstep s a t hs hc.1 ht
      obtain ⟨hnodup, hpending⟩ := ih hp (hc.tail ht)
      refine ⟨List.nodup_append.mpr ⟨hout, hnodup, ?_⟩, fun b hb => ?_⟩
      · rintro b hb _ hlater rfl
        exact (hshown b hb).2 (hpending b hlater)
      · obtain hb | hb := List.mem_append.mp hb
        · exact (hshown b hb).1
        · exact hback b (hpending b hb)

/-- The invariant rule for a state together with what the run has shown so far. -/
theorem collect_invariant {β : Type} {out : σ → α → List β} {c : σ → α → Prop}
    {p : σ → List β → Prop}
    (hstep : ∀ s a t shown, p s shown → c s a → step s a = some t → p t (shown ++ out s a))
    {s t : σ} {as : List α} {shown : List β} (hs : p s shown) (hc : Meets step c s as)
    (h : run step s as = some t) : p t (shown ++ collect step out s as) := by
  induction as generalizing s shown with
  | nil =>
    cases h
    simpa [collect] using hs
  | cons a as ih =>
    obtain ⟨m, hm, ht⟩ := run_cons.mp h
    rw [collect_cons hm, ← List.append_assoc]
    exact ih (hstep s a m shown hs hc.1 hm) (hc.tail hm) ht

/-- A run whose steps are all enabled gets through. -/
theorem exists_run_of_meets {β : Type} {out : σ → α → List β} {c : σ → α → Prop}
    {p : σ → List β → Prop}
    (hstep : ∀ s a shown, p s shown → c s a → ∃ t, step s a = some t ∧ p t (shown ++ out s a))
    {s : σ} {as : List α} {shown : List β} (hs : p s shown) (hc : Meets step c s as) :
    ∃ t, run step s as = some t ∧ p t (shown ++ collect step out s as) := by
  induction as generalizing s shown with
  | nil => exact ⟨s, rfl, by simpa [collect] using hs⟩
  | cons a as ih =>
    obtain ⟨m, hm, hp⟩ := hstep s a shown hs hc.1
    obtain ⟨t, ht, hpt⟩ := ih hp (hc.tail hm)
    refine ⟨t, run_cons.mpr ⟨m, hm, ht⟩, ?_⟩
    rwa [collect_cons hm, ← List.append_assoc]

/-- A run takes no more steps of a kind than a measure allows that each of them decreases. -/
theorem countP_le_of_measure {c : σ → α → Prop} {q : α → Bool} (p : σ → Prop) (μ : σ → Nat)
    (hstep : ∀ s a t, p s → c s a → step s a = some t →
      p t ∧ (if q a then 1 else 0) + μ t ≤ μ s)
    {s t : σ} {as : List α} (hs : p s) (hc : Meets step c s as) (h : run step s as = some t) :
    as.countP q + μ t ≤ μ s := by
  induction as generalizing s with
  | nil =>
    cases h
    simp
  | cons a as ih =>
    obtain ⟨m, hm, ht⟩ := run_cons.mp h
    obtain ⟨hp, hle⟩ := hstep s a m hs hc.1 hm
    have htail := ih hp (hc.tail hm) ht
    rw [List.countP_cons]
    omega

/-- An endless run takes only finitely many steps of a kind when each of them decreases a measure
that no step increases. -/
theorem endless_of_measure {β : Type} [Preorder β] [WellFoundedLT β] {c : σ → α → Prop}
    {q : α → Prop} (p : σ → Prop) (μ : σ → β)
    (hstep : ∀ s a t, p s → c s a → step s a = some t → p t ∧ μ t ≤ μ s ∧ (q a → μ t < μ s))
    {f : Nat → σ} {as : Nat → α} (hp : p (f 0)) (hc : ∀ i, c (f i) (as i))
    (hrun : ∀ i, step (f i) (as i) = some (f (i + 1))) : ∃ i, ∀ j, i ≤ j → ¬ q (as j) := by
  have hall : ∀ i, p (f i) := by
    intro i
    induction i with
    | zero => exact hp
    | succ i ih => exact (hstep _ _ _ ih (hc i) (hrun i)).1
  have hle : ∀ i d, μ (f (i + d)) ≤ μ (f i) := by
    intro i d
    induction d with
    | zero => exact le_refl _
    | succ d ih => exact le_trans (hstep _ _ _ (hall _) (hc _) (hrun (i + d))).2.1 ih
  -- no measure is below the least one
  obtain ⟨-, ⟨i, rfl⟩, hmin⟩ :=
    WellFounded.has_min (wellFounded_lt (α := β)) (Set.range (fun i => μ (f i))) ⟨_, 0, rfl⟩
  refine ⟨i, fun j hij hq => hmin (μ (f (j + 1))) ⟨j + 1, rfl⟩ ?_⟩
  have hlt := (hstep _ _ _ (hall j) (hc j) (hrun j)).2.2 hq
  obtain ⟨d, rfl⟩ := Nat.exists_eq_add_of_le hij
  exact lt_of_lt_of_le hlt (hle i d)

/-- Each entry of the trace stands in the relation to the entries before it. -/
def Traced {β : Type} (r : List β → β → Prop) (trace : List β) : Prop :=
  ∀ pre b post, trace = pre ++ b :: post → r pre b

theorem traced_nil {β : Type} (r : List β → β → Prop) : Traced r [] :=
  fun pre b post h => by simp at h

theorem traced_concat {β : Type} {r : List β → β → Prop} {trace : List β} {b : β}
    (h : Traced r trace) (hb : r trace b) : Traced r (trace ++ [b]) := by
  intro pre b' post heq
  rcases List.eq_nil_or_concat post with rfl | ⟨post', e, rfl⟩
  · obtain ⟨rfl, hlast⟩ := List.append_inj' heq rfl
    obtain rfl := List.head_eq_of_cons_eq hlast
    exact hb
  · rw [List.concat_eq_append, ← List.cons_append, ← List.append_assoc] at heq
    obtain ⟨rfl, -⟩ := List.append_inj' heq rfl
    exact h pre b' post' rfl

/-- The labels of a run alone decide what a state shows. -/
theorem foldl_of_meets {β : Type} {g : β → α → β} {c : σ → α → Prop} (p : σ → Prop) (f : σ → β)
    (hstep : ∀ s a t, p s → c s a → step s a = some t → p t ∧ g (f s) a = f t)
    {s t : σ} {as : List α} (hs : p s) (hc : Meets step c s as) (h : run step s as = some t) :
    as.foldl g (f s) = f t := by
  induction as generalizing s with
  | nil => cases h; rfl
  | cons a as ih =>
    obtain ⟨m, hm, ht⟩ := run_cons.mp h
    obtain ⟨hp, hg⟩ := hstep s a m hs hc.1 hm
    rw [List.foldl_cons, hg, ih hp (hc.tail hm) ht]

/-- What a run shows is in order when every step shows only what lies between the bounds of its
states. -/
theorem collect_pairwise_lt {β : Type} [Preorder β] {out : σ → α → List β} {bound : σ → β}
    (hstep : ∀ s a t, step s a = some t → bound s ≤ bound t ∧ (out s a).Pairwise (· < ·) ∧
      ∀ b ∈ out s a, bound s < b ∧ b ≤ bound t) (s : σ) (as : List α) :
    (collect step out s as).Pairwise (· < ·) ∧ ∀ b ∈ collect step out s as, bound s < b := by
  induction as generalizing s with
  | nil => exact ⟨List.Pairwise.nil, fun _ h => absurd h List.not_mem_nil⟩
  | cons a as ih =>
    rw [collect]
    cases ht : step s a with
    | none => exact ⟨List.Pairwise.nil, fun _ h => absurd h List.not_mem_nil⟩
    | some t =>
      obtain ⟨hbound, hsorted, hout⟩ := hstep s a t ht
      obtain ⟨htail, hlt⟩ := ih t
      refine ⟨List.pairwise_append.mpr ⟨hsorted, htail, fun b hb c hc => ?_⟩, fun b hb => ?_⟩
      · exact lt_of_le_of_lt (hout b hb).2 (hlt c hc)
      · obtain hb | hb := List.mem_append.mp hb
        · exact (hout b hb).1
        · exact lt_of_le_of_lt hbound (hlt b hb)

/-- The invariant rule for the runs along which a predicate holds all the time. -/
theorem run_invariant_of_throughout {q p : σ → Prop}
    (hstep : ∀ s a t, p s → q s → q t → step s a = some t → p t)
    {s t : σ} {as : List α} (hs : p s) (hq : Throughout step q s as)
    (h : run step s as = some t) : p t := by
  induction as generalizing s with
  | nil => cases h; exact hs
  | cons a as ih =>
    obtain ⟨m, hm, ht⟩ := run_cons.mp h
    exact ih (hstep s a m hs hq.1 (hq.tail hm).head hm) (hq.tail hm) ht

theorem throughout_append {p : σ → Prop} {s t : σ} {as bs : List α}
    (h : run step s as = some t) :
    Throughout step p s (as ++ bs) ↔ Throughout step p s as ∧ Throughout step p t bs := by
  induction as generalizing s with
  | nil =>
    cases h
    exact ⟨fun hb => ⟨hb.head, hb⟩, fun hb => hb.2⟩
  | cons a as ih =>
    obtain ⟨m, hm, ht⟩ := run_cons.mp h
    simp only [List.cons_append, Throughout, hm, ih ht, and_assoc]

end AlgorithmLib.Run
