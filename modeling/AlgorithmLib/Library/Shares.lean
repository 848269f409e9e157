import Mathlib.Data.List.Basic
import Mathlib.Data.List.Perm.Basic

/-!
What the members of a list hold between them: the concatenation of the lists of all of them, up to
the order. When one member is replaced, the others keep what they hold.
-/

set_option autoImplicit false

namespace AlgorithmLib.Shares

variable {α β : Type}

theorem perm_flatten_set {ll : List (List β)} {i : Nat} {x : List β} (h : ll[i]? = some x)
    (y : List β) : (x ++ (ll.set i y).flatten).Perm (y ++ ll.flatten) := by
  induction ll generalizing i with
  | nil => simp at h
  | cons z ll ih =>
    cases i with
    | zero =>
      simp only [List.getElem?_cons_zero, Option.some.injEq] at h
      subst h
      simpa using List.perm_append_comm_assoc z y ll.flatten
    | succ i =>
      simp only [List.getElem?_cons_succ] at h
      simp only [List.set_cons_succ, List.flatten_cons]
      have hmove := List.perm_append_comm_assoc x z (ll.set i y).flatten
      exact hmove.trans (((ih h).append_left z).trans (List.perm_append_comm_assoc z y ll.flatten))

/-- The shares of the members, each one told its index. -/
def all (share : Nat → α → List β) (l : List α) : List β := (l.mapIdx share).flatten

@[simp] theorem all_nil (share : Nat → α → List β) : all share [] = [] := rfl

@[simp] theorem all_concat (share : Nat → α → List β) (l : List α) (a : α) :
    all share (l ++ [a]) = all share l ++ share l.length a := by
  simp [all, List.mapIdx_append]

theorem all_set (share : Nat → α → List β) {l : List α} {i : Nat} {a : α} (h : l[i]? = some a)
    (b : α) : (share i a ++ all share (l.set i b)).Perm (share i b ++ all share l) := by
  have hset : (l.set i b).mapIdx share = (l.mapIdx share).set i (share i b) := by
    simp [List.mapIdx_set]
  rw [all, hset]
  exact perm_flatten_set (by simp [h]) _

theorem share_sublist (share : Nat → α → List β) {l : List α} {i : Nat} {a : α}
    (h : l[i]? = some a) : (share i a).Sublist (all share l) := by
  obtain ⟨hlt, rfl⟩ := List.getElem?_eq_some_iff.mp h
  exact List.sublist_flatten_of_mem (List.mem_mapIdx.mpr ⟨i, hlt, rfl⟩)

theorem mem_all_of_mem (share : Nat → α → List β) {l : List α} {i : Nat} {a : α}
    (h : l[i]? = some a) {x : β} (hx : x ∈ share i a) : x ∈ all share l :=
  (share_sublist share h).subset hx

theorem exists_of_mem_all (share : Nat → α → List β) {l : List α} {x : β} (h : x ∈ all share l) :
    ∃ i a, l[i]? = some a ∧ x ∈ share i a := by
  obtain ⟨y, hy, hx⟩ := List.mem_flatten.mp h
  obtain ⟨i, hi, rfl⟩ := List.mem_mapIdx.mp hy
  exact ⟨i, l[i], List.getElem?_eq_getElem hi, hx⟩

/-- A member of the changed list is the new one or an old one. -/
theorem get_set {l : List α} {i j : Nat} {a b : α} (h : (l.set i a)[j]? = some b) :
    b = a ∨ l[j]? = some b := by
  rw [List.getElem?_set] at h
  split at h
  · split at h
    · exact .inl (Option.some.inj h).symm
    · cases h
  · exact .inr h

theorem get_concat {l : List α} {j : Nat} {a b : α} (h : (l ++ [a])[j]? = some b) :
    b = a ∨ l[j]? = some b := by
  rcases Nat.lt_trichotomy j l.length with hj | rfl | hj
  · rw [List.getElem?_append_left hj] at h
    exact .inr h
  · rw [List.getElem?_concat_length, Option.some.injEq] at h
    exact .inl h.symm
  · rw [List.getElem?_eq_none (by rw [List.length_append]; exact hj)] at h
    cases h

end AlgorithmLib.Shares
