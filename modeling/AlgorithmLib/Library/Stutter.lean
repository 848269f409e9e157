import Mathlib.Data.List.Destutter

set_option autoImplicit false

namespace AlgorithmLib.Stutter

variable {α : Type} {R : α → α → Prop} [DecidableRel R]

theorem destutter'_concat (l : List α) (a b : α) :
    (l ++ [b]).destutter' R a =
      if R ((l.destutter' R a).getLast (List.destutter'_ne_nil l R)) b then
        l.destutter' R a ++ [b]
      else l.destutter' R a := by
  induction l generalizing a with
  | nil => by_cases hab : R a b <;> simp [List.destutter', hab]
  | cons c l ih =>
    simp only [List.cons_append, List.destutter']
    by_cases hac : R a c
    · simp only [if_pos hac, ih, List.getLast_cons (List.destutter'_ne_nil l R)]
      split <;> rfl
    · simp only [if_neg hac, ih]

/-- A value that repeats the last one is merged with it. -/
theorem destutter_concat_old {l : List α} {a b : α} (hlast : (l.destutter R).getLast? = some a)
    (h : ¬ R a b) : (l ++ [b]).destutter R = l.destutter R := by
  cases l with
  | nil => cases hlast
  | cons c l =>
    rw [List.destutter_cons', List.getLast?_eq_some_getLast (List.destutter'_ne_nil l R),
      Option.some.injEq] at hlast
    rw [List.cons_append, List.destutter_cons', List.destutter_cons', destutter'_concat, hlast,
      if_neg h]

/-- A value that does not repeat the last one is put behind it. -/
theorem destutter_concat_new {l : List α} {b : α}
    (h : ∀ a, (l.destutter R).getLast? = some a → R a b) :
    (l ++ [b]).destutter R = l.destutter R ++ [b] := by
  cases l with
  | nil => rfl
  | cons c l =>
    rw [List.cons_append, List.destutter_cons', List.destutter_cons', destutter'_concat, if_pos]
    exact h _ (List.getLast?_eq_some_getLast (List.destutter'_ne_nil l R))

end AlgorithmLib.Stutter
