import Mathlib.Data.List.Nodup

set_option autoImplicit false

namespace AlgorithmLib.Keyed

variable {κ β : Type} [DecidableEq κ] (key : β → κ)

def lookup (k : κ) (l : List β) : Option β := l.find? (fun x => key x = k)

/-- Change the first record with the key. -/
def update (k : κ) (f : β → β) : List β → List β
  | [] => []
  | x :: xs => if key x = k then f x :: xs else x :: update k f xs

/-- Append a record unless there is one with the key. -/
def lookupOrAppend (k : κ) (new : β) (l : List β) : List β :=
  match lookup key k l with
  | some _ => l
  | none => l ++ [new]

/-- Put a record in front unless there is one with the key. -/
def lookupOrPush (k : κ) (new : β) (l : List β) : List β :=
  match lookup key k l with
  | some _ => l
  | none => new :: l

variable {key} {k k' : κ} {f : β → β} {l : List β} {x : β}

theorem key_of_lookup (h : lookup key k l = some x) : key x = k := by
  simpa using List.find?_some h

theorem mem_of_lookup (h : lookup key k l = some x) : x ∈ l := List.mem_of_find?_eq_some h

theorem lookup_eq_none_iff : lookup key k l = none ↔ k ∉ l.map key := by
  simp [lookup, List.find?_eq_none]

theorem exists_lookup (h : k ∈ l.map key) : ∃ x, lookup key k l = some x := by
  rw [← Option.ne_none_iff_exists']
  exact fun hn => lookup_eq_none_iff.mp hn h

theorem lookup_cons (x : β) (l : List β) :
    lookup key k (x :: l) = if key x = k then some x else lookup key k l := by
  simp only [lookup, List.find?_cons]
  split <;> simp_all

/-- Take away every record with the key. -/
theorem lookup_filter :
    lookup key k' (l.filter fun x => key x ≠ k) = if k' = k then none else lookup key k' l := by
  induction l with
  | nil => simp [lookup]
  | cons y l ih =>
    by_cases hy : key y = k
    · rw [List.filter_cons_of_neg (by simpa using hy), ih, lookup_cons]
      split
      · rfl
      · rename_i hk
        rw [if_neg (fun h => hk (h.symm.trans hy))]
    · rw [List.filter_cons_of_pos (by simpa using hy), lookup_cons, lookup_cons, ih]
      by_cases hk : k' = k
      · rw [if_neg (fun h => hy (h.trans hk)), if_pos hk, if_pos hk]
      · rw [if_neg hk, if_neg hk]

theorem lookup_append_singleton (x : β) (l : List β) :
    lookup key k (l ++ [x]) = (lookup key k l).or (if key x = k then some x else none) := by
  simp only [lookup, List.find?_append, List.find?_singleton, decide_eq_true_eq]

theorem lookup_eq_some_iff (hn : (l.map key).Nodup) :
    lookup key k l = some x ↔ x ∈ l ∧ key x = k := by
  induction l with
  | nil => simp [lookup]
  | cons y l ih =>
    obtain ⟨hy, hl⟩ := List.nodup_cons.mp hn
    rw [lookup_cons, List.mem_cons]
    by_cases hk : key y = k
    · rw [if_pos hk, Option.some.injEq]
      constructor
      · rintro rfl
        exact ⟨Or.inl rfl, hk⟩
      · rintro ⟨rfl | hx, hxk⟩
        · rfl
        · exact absurd (List.mem_map.mpr ⟨x, hx, hxk.trans hk.symm⟩) hy
    · rw [if_neg hk, ih hl]
      constructor
      · rintro ⟨hx, hxk⟩
        exact ⟨Or.inr hx, hxk⟩
      · rintro ⟨rfl | hx, hxk⟩
        · exact absurd hxk hk
        · exact ⟨hx, hxk⟩

theorem update_keys (hf : ∀ x, key x = k → key (f x) = k) :
    (update key k f l).map key = l.map key := by
  induction l with
  | nil => rfl
  | cons y l ih =>
    rw [update]
    split
    · rename_i hk
      rw [List.map_cons, List.map_cons, hf y hk, hk]
    · rw [List.map_cons, List.map_cons, ih]

theorem lookup_update_self (hf : ∀ x, key x = k → key (f x) = k) :
    lookup key k (update key k f l) = (lookup key k l).map f := by
  induction l with
  | nil => rfl
  | cons y l ih =>
    rw [update, lookup_cons]
    split
    · rename_i hk
      rw [lookup_cons, if_pos (hf y hk)]
      rfl
    · rename_i hk
      rw [lookup_cons, if_neg hk, ih]

theorem lookup_update_of_ne (hf : ∀ x, key x = k → key (f x) = k) (h : k' ≠ k) :
    lookup key k' (update key k f l) = lookup key k' l := by
  induction l with
  | nil => rfl
  | cons y l ih =>
    rw [update]
    split
    · rename_i hk
      rw [lookup_cons, lookup_cons, hf y hk, hk, if_neg (Ne.symm h), if_neg (Ne.symm h)]
    · rw [lookup_cons, lookup_cons, ih]

theorem lookup_update (hf : ∀ x, key x = k → key (f x) = k) :
    lookup key k' (update key k f l) =
      if k' = k then (lookup key k l).map f else lookup key k' l := by
  split
  · rename_i h
    rw [h, lookup_update_self hf]
  · rename_i h
    exact lookup_update_of_ne hf h

theorem mem_update (hn : (l.map key).Nodup) (hk : k ∈ l.map key) :
    x ∈ update key k f l ↔ (∃ y ∈ l, key y = k ∧ x = f y) ∨ x ∈ l ∧ key x ≠ k := by
  induction l with
  | nil => simp at hk
  | cons y l ih =>
    obtain ⟨hy, hl⟩ := List.nodup_cons.mp hn
    rw [update]
    by_cases hyk : key y = k
    · have hne : ∀ z ∈ l, key z ≠ k :=
        fun z hz hzk => hy (List.mem_map.mpr ⟨z, hz, hzk.trans hyk.symm⟩)
      rw [if_pos hyk, List.mem_cons]
      constructor
      · rintro (rfl | hx)
        · exact Or.inl ⟨y, List.mem_cons_self, hyk, rfl⟩
        · exact Or.inr ⟨List.mem_cons_of_mem y hx, hne x hx⟩
      · rintro (⟨z, hz, hzk, rfl⟩ | ⟨hx, hxk⟩)
        · rcases List.mem_cons.mp hz with rfl | hz
          · exact Or.inl rfl
          · exact absurd hzk (hne z hz)
        · rcases List.mem_cons.mp hx with rfl | hx
          · exact absurd hyk hxk
          · exact Or.inr hx
    · have hkl : k ∈ l.map key := by
        rw [List.map_cons, List.mem_cons] at hk
        exact hk.resolve_left (fun he => hyk he.symm)
      rw [if_neg hyk, List.mem_cons, ih hl hkl]
      constructor
      · rintro (rfl | ⟨z, hz, hzk, rfl⟩ | ⟨hx, hxk⟩)
        · exact Or.inr ⟨List.mem_cons_self, hyk⟩
        · exact Or.inl ⟨z, List.mem_cons_of_mem y hz, hzk, rfl⟩
        · exact Or.inr ⟨List.mem_cons_of_mem y hx, hxk⟩
      · rintro (⟨z, hz, hzk, rfl⟩ | ⟨hx, hxk⟩)
        · rcases List.mem_cons.mp hz with rfl | hz
          · exact absurd hzk hyk
          · exact Or.inr (Or.inl ⟨z, hz, hzk, rfl⟩)
        · rcases List.mem_cons.mp hx with rfl | hx
          · exact Or.inl rfl
          · exact Or.inr (Or.inr ⟨hx, hxk⟩)

theorem lookupOrAppend_nodup {new : β} (hk : key new = k) (hn : (l.map key).Nodup) :
    ((lookupOrAppend key k new l).map key).Nodup := by
  rw [lookupOrAppend]
  split
  · exact hn
  · rename_i h
    have hnew := lookup_eq_none_iff.mp h
    rw [List.map_append, List.map_singleton, hk]
    exact List.nodup_append.mpr ⟨hn, by simp, by simpa using fun a ha hka => hnew (by simp_all)⟩

theorem lookup_lookupOrAppend {new : β} (hk : key new = k) :
    lookup key k' (lookupOrAppend key k new l) =
      if k' = k then some ((lookup key k l).getD new) else lookup key k' l := by
  rw [lookupOrAppend]
  cases h : lookup key k l with
  | some x =>
    by_cases hkk : k' = k
    · rw [if_pos hkk, hkk, h]
      rfl
    · rw [if_neg hkk]
  | none =>
    rw [lookup_append_singleton, hk]
    by_cases hkk : k' = k
    · rw [if_pos hkk, hkk, h, if_pos rfl]
      rfl
    · rw [if_neg hkk, if_neg (Ne.symm hkk), Option.or_none]

theorem lookupOrPush_nodup {new : β} (hk : key new = k) (hn : (l.map key).Nodup) :
    ((lookupOrPush key k new l).map key).Nodup := by
  rw [lookupOrPush]
  split
  · exact hn
  · rename_i h
    rw [List.map_cons, hk]
    exact List.nodup_cons.mpr ⟨lookup_eq_none_iff.mp h, hn⟩

theorem lookup_lookupOrPush {new : β} (hk : key new = k) :
    lookup key k' (lookupOrPush key k new l) =
      if k' = k then some ((lookup key k l).getD new) else lookup key k' l := by
  rw [lookupOrPush]
  cases h : lookup key k l with
  | some x =>
    by_cases hkk : k' = k
    · rw [if_pos hkk, hkk, h]
      rfl
    · rw [if_neg hkk]
  | none =>
    rw [lookup_cons, hk]
    by_cases hkk : k' = k
    · rw [if_pos hkk, hkk, if_pos rfl]
      rfl
    · rw [if_neg hkk, if_neg (Ne.symm hkk)]

theorem mem_keys_lookupOrPush {new : β} (hk : key new = k) :
    k' ∈ (lookupOrPush key k new l).map key ↔ k' = k ∨ k' ∈ l.map key := by
  rw [lookupOrPush]
  split
  · rename_i x h
    have hmem : k ∈ l.map key := List.mem_map.mpr ⟨x, mem_of_lookup h, key_of_lookup h⟩
    constructor
    · exact Or.inr
    · rintro (rfl | h)
      · exact hmem
      · exact h
  · rw [List.map_cons, hk, List.mem_cons]

end AlgorithmLib.Keyed
