import Mathlib.Data.List.Perm.Basic
import Mathlib.Order.Basic

/-!
Binary heaps in a list, by level: the children of position `i` are at `2 * i + 1` and `2 * i + 2`.
An element moves along a path by a hole that the others fill.
-/

set_option autoImplicit false

namespace AlgorithmLib.Heap

variable {α κ : Type} [LT κ] [DecidableLT κ] (key : α → κ)

/-- The hole moves up until its parent is not above `x`; at most `turns` times. -/
def percolateUp (x : α) : Nat → Nat → List α → List α
  | 0, hole, xs => xs.set hole x
  | turns + 1, hole, xs =>
    if hole = 0 then xs.set hole x
    else
      let parent := (hole - 1) / 2
      let p := xs.getD parent x
      if key x < key p then percolateUp x turns parent (xs.set hole p) else xs.set hole x

/-- The child of the hole with the smaller key, the left one when they are equal. -/
def child (x : α) (hole : Nat) (xs : List α) : Nat :=
  let left := 2 * hole + 1
  if left + 1 < xs.length ∧ key (xs.getD (left + 1) x) < key (xs.getD left x) then left + 1
  else left

/-- The hole moves down until no child is below `x`; at most `turns` times. -/
def percolateDown (x : α) : Nat → Nat → List α → List α
  | 0, hole, xs => xs.set hole x
  | turns + 1, hole, xs =>
    if 2 * hole + 1 < xs.length then
      let c := child key x hole xs
      let y := xs.getD c x
      if key y < key x then percolateDown x turns c (xs.set hole y) else xs.set hole x
    else xs.set hole x

def insert (x : α) (xs : List α) : List α :=
  percolateUp key x xs.length xs.length (xs ++ [x])

/-- Without the first element; the last one takes its place and moves down. -/
def pop : List α → List α
  | [] => []
  | x :: xs =>
    match xs.getLast? with
    | none => []
    | some y => percolateDown key y xs.length 0 ((x :: xs).dropLast.set 0 y)

variable {key}

/-- Filling the hole from another place moves the hole there. -/
theorem set_set_perm_set {x : α} {xs : List α} {i j : Nat} (hi : i < xs.length)
    (hj : j < xs.length) (hij : i ≠ j) :
    ((xs.set i (xs.getD j x)).set j x).Perm (xs.set i x) := by
  have hi' : i < (xs.set i x).length := by simpa using hi
  have hj' : j < (xs.set i x).length := by simpa using hj
  have hswap := List.set_set_perm hi' hj'
  rw [List.getElem_set_self, List.getElem_set_ne hij, List.set_set] at hswap
  rw [List.getD_eq_getElem?_getD, List.getElem?_eq_getElem hj]
  exact hswap

theorem percolateUp_perm (x : α) (turns : Nat) {hole : Nat} {xs : List α} (h : hole < xs.length) :
    (percolateUp key x turns hole xs).Perm (xs.set hole x) := by
  induction turns generalizing hole xs with
  | zero => exact List.Perm.refl _
  | succ turns ih =>
    simp only [percolateUp]
    split
    · exact List.Perm.refl _
    · split
      · have hp : (hole - 1) / 2 < hole := by omega
        refine (ih (by simp only [List.length_set]; omega)).trans ?_
        exact set_set_perm_set h (by omega) (by omega)
      · exact List.Perm.refl _

theorem child_spec (key : α → κ) (x : α) {hole : Nat} {xs : List α} (h : 2 * hole + 1 < xs.length) :
    hole < child key x hole xs ∧ child key x hole xs < xs.length := by
  simp only [child]
  split <;> omega

theorem percolateDown_perm (x : α) (turns : Nat) {hole : Nat} {xs : List α}
    (h : hole < xs.length) : (percolateDown key x turns hole xs).Perm (xs.set hole x) := by
  induction turns generalizing hole xs with
  | zero => exact List.Perm.refl _
  | succ turns ih =>
    simp only [percolateDown]
    split
    · next hlt =>
      obtain ⟨hc, hc'⟩ := child_spec key x hlt
      split
      · refine (ih (by simpa using hc')).trans ?_
        exact set_set_perm_set h hc' (by omega)
      · exact List.Perm.refl _
    · exact List.Perm.refl _

theorem insert_perm (key : α → κ) (x : α) (xs : List α) :
    (insert key x xs).Perm (x :: xs) := by
  refine (percolateUp_perm x _ (by simp)).trans ?_
  rw [List.set_append_right _ _ (Nat.le_refl _), Nat.sub_self]
  exact List.perm_append_singleton x xs

theorem pop_perm (x : α) (xs : List α) : (pop key (x :: xs)).Perm xs := by
  rcases List.eq_nil_or_concat xs with rfl | ⟨ys, y, rfl⟩
  · exact List.Perm.refl _
  · have hlast : (ys ++ [y]).getLast? = some y := List.getLast?_concat
    have hdrop : (x :: (ys ++ [y])).dropLast = x :: ys := by
      rw [← List.cons_append, List.dropLast_concat]
    simp only [List.concat_eq_append, pop, hlast, hdrop]
    refine (percolateDown_perm y _ (by simp)).trans ?_
    exact (List.perm_append_singleton y ys).symm

theorem percolateUp_head {x y : α} (turns : Nat) {hole : Nat} {xs : List α} (hpos : 0 < hole)
    (hy : xs[0]? = some y) (hnot : ¬ key x < key y) :
    (percolateUp key x turns hole xs)[0]? = some y := by
  induction turns generalizing hole xs with
  | zero =>
    simp only [percolateUp]
    rw [List.getElem?_set, if_neg (by omega)]
    exact hy
  | succ turns ih =>
    simp only [percolateUp]
    rw [if_neg (by omega)]
    split
    · next hlt =>
      by_cases hpar : (hole - 1) / 2 = 0
      · rw [hpar, List.getD_eq_getElem?_getD, hy, Option.getD_some] at hlt
        exact absurd hlt hnot
      · refine ih (by omega) ?_
        rw [List.getElem?_set, if_neg (by omega)]
        exact hy
    · rw [List.getElem?_set, if_neg (by omega)]
      exact hy

/-- What is inserted does not come before a first element that it is not below. -/
theorem insert_head {x y : α} {xs : List α} (hnot : ¬ key x < key y) :
    (insert key x (y :: xs)).head? = some y := by
  rw [List.head?_eq_getElem?]
  exact percolateUp_head _ (by simp) rfl hnot

/-! The order. -/

section Order

variable [LE κ] [Std.IsLinearPreorder κ] [Std.LawfulOrderLT κ]

/-- No element is below its parent. -/
def Ordered (key : α → κ) (xs : List α) : Prop :=
  ∀ i p c, 0 < i → xs[(i - 1) / 2]? = some p → xs[i]? = some c → key p ≤ key c

omit [LT κ] [DecidableLT κ] [Std.IsLinearPreorder κ] [Std.LawfulOrderLT κ] in
theorem Ordered.congr {key key' : α → κ} {xs : List α} (h : Ordered key xs)
    (hkey : ∀ x ∈ xs, key x = key' x) : Ordered key' xs := by
  intro i p c hi hp hc
  rw [← hkey p (List.mem_of_getElem? hp), ← hkey c (List.mem_of_getElem? hc)]
  exact h i p c hi hp hc

/-- The order off a hole on its way up, where `x` is to be put: the children of the hole are not
below `x`, nor below the parent of the hole. -/
structure UpOrder (key : α → κ) (x : α) (hole : Nat) (xs : List α) : Prop where
  off : ∀ i p c, 0 < i → i ≠ hole → (i - 1) / 2 ≠ hole → xs[(i - 1) / 2]? = some p →
    xs[i]? = some c → key p ≤ key c
  below : ∀ i c, 0 < i → (i - 1) / 2 = hole → xs[i]? = some c → key x ≤ key c
  grand : ∀ i p c, 0 < i → (i - 1) / 2 = hole → 0 < hole → xs[(hole - 1) / 2]? = some p →
    xs[i]? = some c → key p ≤ key c

/-- The order off a hole on its way down: `x` and the children of the hole are not below the parent
of the hole. -/
structure DownOrder (key : α → κ) (x : α) (hole : Nat) (xs : List α) : Prop where
  off : ∀ i p c, 0 < i → i ≠ hole → (i - 1) / 2 ≠ hole → xs[(i - 1) / 2]? = some p →
    xs[i]? = some c → key p ≤ key c
  above : ∀ p, 0 < hole → xs[(hole - 1) / 2]? = some p → key p ≤ key x
  grand : ∀ i p c, 0 < i → (i - 1) / 2 = hole → 0 < hole → xs[(hole - 1) / 2]? = some p →
    xs[i]? = some c → key p ≤ key c

omit [DecidableLT κ] [Std.IsLinearPreorder κ] [Std.LawfulOrderLT κ] [LT κ] in
/-- The hole is filled where both neighbourhoods are in order. -/
theorem ordered_set {x : α} {hole : Nat} {xs : List α}
    (hoff : ∀ i p c, 0 < i → i ≠ hole → (i - 1) / 2 ≠ hole → xs[(i - 1) / 2]? = some p →
      xs[i]? = some c → key p ≤ key c)
    (habove : ∀ p, 0 < hole → xs[(hole - 1) / 2]? = some p → key p ≤ key x)
    (hbelow : ∀ i c, 0 < i → (i - 1) / 2 = hole → xs[i]? = some c → key x ≤ key c) :
    Ordered key (xs.set hole x) := by
  intro i p c hi hp hc
  rw [List.getElem?_set] at hp hc
  by_cases hih : hole = i
  · subst hih
    rw [if_neg (by omega)] at hp
    rw [if_pos rfl] at hc
    split at hc
    · cases hc
      exact habove p hi hp
    · cases hc
  · rw [if_neg hih] at hc
    by_cases hph : hole = (i - 1) / 2
    · rw [if_pos hph] at hp
      split at hp
      · cases hp
        exact hbelow i c hi hph.symm hc
      · cases hp
    · rw [if_neg hph] at hp
      exact hoff i p c hi (Ne.symm hih) (Ne.symm hph) hp hc

omit [DecidableLT κ] in
theorem UpOrder.move {x p : α} {hole : Nat} {xs : List α} (h : UpOrder key x hole xs)
    (hpos : 0 < hole) (hp : xs[(hole - 1) / 2]? = some p) (hlt : key x < key p) :
    UpOrder key x ((hole - 1) / 2) (xs.set hole p) := by
  have hxp : key x ≤ key p := Std.le_of_lt hlt
  refine ⟨fun i q c hi hih hph hq hc => ?_, fun i c hi hih hc => ?_,
    fun i q c hi hih hpos' hq hc => ?_⟩
  · rw [List.getElem?_set] at hq hc
    rw [if_neg (fun he => hph (by rw [← he]))] at hc
    by_cases hhole : hole = (i - 1) / 2
    · rw [if_pos hhole] at hq
      split at hq
      · cases hq
        exact h.grand i p c hi hhole.symm hpos hp hc
      · cases hq
    · rw [if_neg hhole] at hq
      refine h.off i q c hi (fun he => hph (by rw [he])) (Ne.symm hhole) hq hc
  · rw [List.getElem?_set] at hc
    by_cases hhole : hole = i
    · rw [if_pos hhole] at hc
      split at hc
      · cases hc
        exact hxp
      · cases hc
    · rw [if_neg hhole] at hc
      exact Std.le_trans hxp (h.off i p c hi (Ne.symm hhole) (by omega) (hih ▸ hp) hc)
  · rw [List.getElem?_set, if_neg (by omega)] at hq
    have hqp := h.off ((hole - 1) / 2) q p hpos' (by omega) (by omega) hq hp
    rw [List.getElem?_set] at hc
    by_cases hhole : hole = i
    · rw [if_pos hhole] at hc
      split at hc
      · cases hc
        exact hqp
      · cases hc
    · rw [if_neg hhole] at hc
      exact Std.le_trans hqp (h.off i p c hi (Ne.symm hhole) (by omega) (hih ▸ hp) hc)

theorem percolateUp_ordered {x : α} {turns hole : Nat} {xs : List α} (h : UpOrder key x hole xs)
    (hlt : hole < xs.length) (hturns : hole ≤ turns) :
    Ordered key (percolateUp key x turns hole xs) := by
  induction turns generalizing hole xs with
  | zero =>
    exact ordered_set h.off (fun _ hpos => by omega) h.below
  | succ turns ih =>
    simp only [percolateUp]
    by_cases hpos : hole = 0
    · rw [if_pos hpos]
      exact ordered_set h.off (fun _ hpos' => by omega) h.below
    · rw [if_neg hpos]
      have hpar : (hole - 1) / 2 < xs.length := by omega
      obtain ⟨p, hp⟩ : ∃ p, xs[(hole - 1) / 2]? = some p :=
        ⟨_, List.getElem?_eq_getElem hpar⟩
      rw [List.getD_eq_getElem?_getD, hp, Option.getD_some]
      split
      · next hless =>
        exact ih (h.move (by omega) hp hless) (by rw [List.length_set]; exact hpar) (by omega)
      · next hnot =>
        refine ordered_set h.off (fun q _ hq => ?_) h.below
        rw [hp] at hq
        cases hq
        exact Std.not_lt.mp hnot

theorem insert_ordered {x : α} {xs : List α} (h : Ordered key xs) :
    Ordered key (insert key x xs) := by
  refine percolateUp_ordered ⟨fun i p c hi hih hph hp hc => ?_, fun i c hi hih hc => ?_,
    fun i p c hi hih hpos hp hc => ?_⟩ (by simp) (Nat.le_refl _)
  · have hlt : i < (xs ++ [x]).length := (List.getElem?_eq_some_iff.mp hc).1
    rw [List.length_append, List.length_singleton] at hlt
    rw [List.getElem?_append_left (by omega)] at hp hc
    exact h i p c hi hp hc
  · have hlt : i < (xs ++ [x]).length := (List.getElem?_eq_some_iff.mp hc).1
    rw [List.length_append, List.length_singleton] at hlt
    omega
  · have hlt : i < (xs ++ [x]).length := (List.getElem?_eq_some_iff.mp hc).1
    rw [List.length_append, List.length_singleton] at hlt
    omega

/-- The child that is chosen is in the list, a child of the hole, and not above the other one. -/
theorem child_min (key : α → κ) (x : α) {hole : Nat} {xs : List α} (h : 2 * hole + 1 < xs.length) :
    ∃ y, xs[child key x hole xs]? = some y ∧ xs.getD (child key x hole xs) x = y ∧
      (child key x hole xs - 1) / 2 = hole ∧ 0 < child key x hole xs ∧
      ∀ i c, 0 < i → (i - 1) / 2 = hole → xs[i]? = some c → key y ≤ key c := by
  have hsib : ∀ i, 0 < i → (i - 1) / 2 = hole → i = 2 * hole + 1 ∨ i = 2 * hole + 2 := by
    intro i hi hih
    omega
  obtain ⟨l, hl⟩ : ∃ l, xs[2 * hole + 1]? = some l := ⟨_, List.getElem?_eq_getElem h⟩
  have hgl : xs.getD (2 * hole + 1) x = l := by
    rw [List.getD_eq_getElem?_getD, hl, Option.getD_some]
  simp only [child]
  by_cases hr : 2 * hole + 1 + 1 < xs.length
  · obtain ⟨r, hr'⟩ : ∃ r, xs[2 * hole + 1 + 1]? = some r := ⟨_, List.getElem?_eq_getElem hr⟩
    have hgr : xs.getD (2 * hole + 1 + 1) x = r := by
      rw [List.getD_eq_getElem?_getD, hr', Option.getD_some]
    rw [hgl, hgr]
    split
    · next hless =>
      refine ⟨r, hr', hgr, by omega, by omega, fun i c hi hih hc => ?_⟩
      rcases hsib i hi hih with rfl | rfl
      · rw [hl] at hc
        cases hc
        exact Std.le_of_lt hless.2
      · rw [hr'] at hc
        cases hc
        exact Std.le_refl _
    · next hnot =>
      have hle : key l ≤ key r := Std.not_lt.mp (fun hlt => hnot ⟨hr, hlt⟩)
      refine ⟨l, hl, hgl, by omega, by omega, fun i c hi hih hc => ?_⟩
      rcases hsib i hi hih with rfl | rfl
      · rw [hl] at hc
        cases hc
        exact Std.le_refl _
      · rw [hr'] at hc
        cases hc
        exact hle
  · rw [if_neg (fun hand => hr hand.1)]
    refine ⟨l, hl, hgl, by omega, by omega, fun i c hi hih hc => ?_⟩
    rcases hsib i hi hih with rfl | rfl
    · rw [hl] at hc
      cases hc
      exact Std.le_refl _
    · have hlt := (List.getElem?_eq_some_iff.mp hc).1
      omega

omit [DecidableLT κ] [Std.IsLinearPreorder κ] in
theorem DownOrder.move {x y : α} {hole c : Nat} {xs : List α} (h : DownOrder key x hole xs)
    (hy : xs[c]? = some y) (hc : (c - 1) / 2 = hole) (hpos : 0 < c)
    (hmin : ∀ i d, 0 < i → (i - 1) / 2 = hole → xs[i]? = some d → key y ≤ key d)
    (hlt : key y < key x) : DownOrder key x c (xs.set hole y) := by
  refine ⟨fun i p d hi hic hpc hp hd => ?_, fun p _ hp => ?_, fun i p d hi hic _ hp hd => ?_⟩
  · rw [List.getElem?_set] at hp hd
    by_cases hih : hole = i
    · subst hih
      rw [if_neg (by omega)] at hp
      rw [if_pos rfl] at hd
      split at hd
      · cases hd
        exact h.grand c p y hpos hc hi hp hy
      · cases hd
    · rw [if_neg hih] at hd
      by_cases hph : hole = (i - 1) / 2
      · rw [if_pos hph] at hp
        split at hp
        · cases hp
          exact hmin i d hi hph.symm hd
        · cases hp
      · rw [if_neg hph] at hp
        exact h.off i p d hi (Ne.symm hih) (Ne.symm hph) hp hd
  · rw [hc, List.getElem?_set, if_pos rfl] at hp
    split at hp
    · cases hp
      exact Std.le_of_lt hlt
    · cases hp
  · rw [hc, List.getElem?_set, if_pos rfl] at hp
    rw [List.getElem?_set, if_neg (by omega)] at hd
    split at hp
    · cases hp
      exact h.off i y d hi (by omega) (by omega) (hic ▸ hy) hd
    · cases hp

theorem percolateDown_ordered {x : α} {turns hole : Nat} {xs : List α}
    (h : DownOrder key x hole xs) (hturns : xs.length ≤ turns + hole) :
    Ordered key (percolateDown key x turns hole xs) := by
  induction turns generalizing hole xs with
  | zero =>
    refine ordered_set h.off h.above (fun i c hi hih hc => ?_)
    have hlt := (List.getElem?_eq_some_iff.mp hc).1
    omega
  | succ turns ih =>
    simp only [percolateDown]
    by_cases hchild : 2 * hole + 1 < xs.length
    · rw [if_pos hchild]
      obtain ⟨y, hy, hget, hpar, hpos, hmin⟩ := child_min key x hchild
      rw [hget]
      split
      · next hless =>
        refine ih (h.move hy hpar hpos hmin hless) ?_
        rw [List.length_set]
        omega
      · next hnot =>
        exact ordered_set h.off h.above
          (fun i c hi hih hc => Std.le_trans (Std.not_lt.mp hnot) (hmin i c hi hih hc))
    · rw [if_neg hchild]
      refine ordered_set h.off h.above (fun i c hi hih hc => ?_)
      have hlt := (List.getElem?_eq_some_iff.mp hc).1
      omega

theorem pop_ordered {x : α} {xs : List α} (h : Ordered key (x :: xs)) :
    Ordered key (pop key (x :: xs)) := by
  rcases List.eq_nil_or_concat xs with rfl | ⟨ys, y, rfl⟩
  · intro i p c _ hp
    simp [pop] at hp
  · have hlast : (ys ++ [y]).getLast? = some y := List.getLast?_concat
    have hdrop : (x :: (ys ++ [y])).dropLast = x :: ys := by
      rw [← List.cons_append, List.dropLast_concat]
    simp only [List.concat_eq_append] at h ⊢
    simp only [pop, hlast, hdrop, List.set_cons_zero]
    refine percolateDown_ordered ⟨fun i p c hi hi0 hp0 hp hc => ?_, fun _ hpos => by omega,
      fun _ _ _ _ _ hpos => by omega⟩ (by simp)
    have hlt : i < (y :: ys).length := (List.getElem?_eq_some_iff.mp hc).1
    obtain ⟨j, rfl⟩ : ∃ j, i = j + 1 := ⟨i - 1, by omega⟩
    obtain ⟨k, hk⟩ : ∃ k, (j + 1 - 1) / 2 = k + 1 := ⟨(j + 1 - 1) / 2 - 1, by omega⟩
    rw [List.length_cons] at hlt
    refine h (j + 1) p c hi ?_ ?_
    · rw [hk, List.getElem?_cons_succ] at hp ⊢
      rw [List.getElem?_append_left (by omega)]
      exact hp
    · rw [List.getElem?_cons_succ] at hc ⊢
      rw [List.getElem?_append_left (by omega)]
      exact hc

omit [DecidableLT κ] [Std.LawfulOrderLT κ] [LT κ] in
/-- The first element is not above any other one. -/
theorem Ordered.head_le {x : α} {xs : List α} (h : Ordered key (x :: xs)) :
    ∀ y ∈ x :: xs, key x ≤ key y := by
  have hat : ∀ (i : Nat) (y : α), (x :: xs)[i]? = some y → key x ≤ key y := by
    intro i
    induction i using Nat.strongRecOn with
    | _ i ih =>
      intro y hy
      by_cases hi : i = 0
      · subst hi
        cases hy
        exact Std.le_refl _
      · have hlt := (List.getElem?_eq_some_iff.mp hy).1
        obtain ⟨p, hp⟩ : ∃ p, (x :: xs)[(i - 1) / 2]? = some p :=
          ⟨_, List.getElem?_eq_getElem (by omega)⟩
        exact Std.le_trans (ih ((i - 1) / 2) (by omega) p hp) (h i p y (by omega) hp hy)
  intro y hy
  obtain ⟨i, hi⟩ := List.getElem?_of_mem hy
  exact hat i y hi

/-- The elements in the order in which they are popped. -/
def popAll (key : α → κ) : Nat → List α → List α
  | 0, _ => []
  | turns + 1, xs =>
    match xs with
    | [] => []
    | x :: xs => x :: popAll key turns (pop key (x :: xs))

theorem popAll_sorted {turns : Nat} {xs : List α} (h : Ordered key xs)
    (hturns : xs.length ≤ turns) :
    (popAll key turns xs).Perm xs ∧ (popAll key turns xs).Pairwise (fun a b => key a ≤ key b) := by
  induction turns generalizing xs with
  | zero =>
    cases xs with
    | nil => exact ⟨List.Perm.refl _, List.Pairwise.nil⟩
    | cons x xs => simp at hturns
  | succ turns ih =>
    cases xs with
    | nil => exact ⟨List.Perm.refl _, List.Pairwise.nil⟩
    | cons x xs =>
      have hpop : (pop key (x :: xs)).Perm xs := pop_perm x xs
      obtain ⟨hperm, hsorted⟩ := ih (pop_ordered h) (by
        rw [hpop.length_eq]
        simpa using hturns)
      have hall := hperm.trans hpop
      refine ⟨hall.cons x, List.pairwise_cons.mpr ⟨fun y hy => ?_, hsorted⟩⟩
      exact h.head_le y (List.mem_cons_of_mem _ (hall.mem_iff.mp hy))

end Order

end AlgorithmLib.Heap
