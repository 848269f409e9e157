import Mathlib.Data.List.Basic
import Mathlib.Logic.Function.Basic

/-!
Values on the heap, by the number of their allocation, and pointers that are counted: who wants to
change a value that others point to takes a new one first.
-/

set_option autoImplicit false

namespace AlgorithmLib

structure Store (α : Type) where
  get : Nat → α
  made : Nat

namespace Store

variable {α : Type}

def alloc (h : Store α) (x : α) : Nat × Store α :=
  (h.made, { get := Function.update h.get h.made x, made := h.made + 1 })

def modify (h : Store α) (i : Nat) (f : α → α) : Store α :=
  { h with get := Function.update h.get i (f (h.get i)) }

/-- The pointer `i` is reset to the new value `x` when its use count, together with the pointers
of others, is not one. -/
def own (h : Store α) (i : Nat) (others : List Nat) (x : α) : Nat × Store α :=
  if (i :: others).count i ≠ 1 then h.alloc x else (i, h)

variable {h : Store α} {i j : Nat} {others : List Nat} {x : α} {f : α → α}

@[simp] theorem modify_made : (h.modify i f).made = h.made := rfl

@[simp] theorem modify_get : (h.modify i f).get i = f (h.get i) := by simp [modify]

theorem modify_get_of_ne (hj : j ≠ i) : (h.modify i f).get j = h.get j := by
  simp [modify, hj]

theorem own_cases (h : Store α) (i : Nat) (others : List Nat) (x : α) :
    (i ∈ others ∧ h.own i others x = h.alloc x) ∨
      (i ∉ others ∧ h.own i others x = (i, h)) := by
  by_cases hi : i ∈ others
  · have hcount := List.count_pos_iff.mpr hi
    refine Or.inl ⟨hi, ?_⟩
    rw [own, if_pos]
    simp only [List.count_cons_self]
    omega
  · refine Or.inr ⟨hi, ?_⟩
    rw [own, if_neg]
    simp [List.count_eq_zero_of_not_mem hi]

theorem own_of_not_mem (hi : i ∉ others) : h.own i others x = (i, h) :=
  (h.own_cases i others x).resolve_left (fun ho => hi ho.1) |>.2

theorem own_made : h.made ≤ (h.own i others x).2.made := by
  obtain ⟨-, ho⟩ | ⟨-, ho⟩ := h.own_cases i others x
  all_goals simp [ho, alloc]

theorem own_lt (hi : i < h.made) : (h.own i others x).1 < (h.own i others x).2.made := by
  obtain ⟨-, ho⟩ | ⟨-, ho⟩ := h.own_cases i others x
  all_goals simp [ho, alloc, hi]

/-- Nobody else points to an own value. -/
theorem own_not_mem (hlt : ∀ j ∈ others, j < h.made) : (h.own i others x).1 ∉ others := by
  obtain ⟨-, ho⟩ | ⟨hi, ho⟩ := h.own_cases i others x
  · rw [ho]
    exact fun hmem => absurd (hlt _ hmem) (Nat.lt_irrefl _)
  · rwa [ho]

theorem own_get_of_lt (hj : j < h.made) : (h.own i others x).2.get j = h.get j := by
  obtain ⟨-, ho⟩ | ⟨-, ho⟩ := h.own_cases i others x
  · simp [ho, alloc, Nat.ne_of_lt hj]
  · rw [ho]

theorem own_get_of_ne (hj : j ≠ (h.own i others x).1) :
    (h.own i others x).2.get j = h.get j := by
  obtain ⟨-, ho⟩ | ⟨-, ho⟩ := h.own_cases i others x
  · rw [ho] at hj ⊢
    exact Function.update_of_ne hj _ _
  · rw [ho]

theorem own_value : (h.own i others x).2.get (h.own i others x).1 =
    if i ∈ others then x else h.get i := by
  obtain ⟨hi, ho⟩ | ⟨hi, ho⟩ := h.own_cases i others x
  · simp [ho, alloc, hi]
  · simp [ho, hi]

/-- A copy has the value of the original. -/
theorem own_get : (h.own i others (h.get i)).2.get (h.own i others (h.get i)).1 = h.get i := by
  rw [own_value, ite_self]

end Store

end AlgorithmLib
