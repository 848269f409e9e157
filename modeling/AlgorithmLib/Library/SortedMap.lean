import Mathlib.Order.Lattice
import Mathlib.Data.List.Nodup

/-!
Finite maps as lists in the order of their keys, and the iterators over them: an iterator stands at
a key of the map, or behind the last one.
-/

set_option autoImplicit false

namespace AlgorithmLib

structure SortedMap (κ ν : Type) [LinearOrder κ] where
  entries : List (κ × ν)
  sorted : entries.Pairwise fun a b => a.1 < b.1

namespace SortedMap

variable {κ ν : Type} [LinearOrder κ]

def insertEntry (k : κ) (v : ν) : List (κ × ν) → List (κ × ν)
  | [] => [(k, v)]
  | e :: es =>
    if k < e.1 then (k, v) :: e :: es else if k = e.1 then e :: es else e :: insertEntry k v es

theorem mem_insertEntry {k : κ} {v : ν} {es : List (κ × ν)} {e : κ × ν}
    (h : e ∈ insertEntry k v es) : e = (k, v) ∨ e ∈ es := by
  induction es with
  | nil => exact .inl (List.mem_singleton.mp h)
  | cons a es ih =>
    rw [insertEntry] at h
    split at h
    · exact List.mem_cons.mp h
    · split at h
      · exact .inr h
      · obtain rfl | h := List.mem_cons.mp h
        · exact .inr List.mem_cons_self
        · exact (ih h).imp_right (List.mem_cons_of_mem a)

theorem sorted_insertEntry {k : κ} {v : ν} {es : List (κ × ν)}
    (h : es.Pairwise fun a b => a.1 < b.1) :
    (insertEntry k v es).Pairwise fun a b => a.1 < b.1 := by
  induction es with
  | nil => exact List.pairwise_singleton _ _
  | cons a es ih =>
    obtain ⟨ha, hes⟩ := List.pairwise_cons.mp h
    rw [insertEntry]
    split
    · rename_i hlt
      refine List.pairwise_cons.mpr ⟨fun b hb => ?_, h⟩
      obtain rfl | hb := List.mem_cons.mp hb
      · exact hlt
      · exact lt_trans hlt (ha b hb)
    · split
      · exact h
      · rename_i hlt hne
        refine List.pairwise_cons.mpr ⟨fun b hb => ?_, ih hes⟩
        obtain rfl | hb := mem_insertEntry hb
        · exact lt_of_le_of_ne (not_lt.mp hlt) (Ne.symm hne)
        · exact ha b hb

def empty : SortedMap κ ν := ⟨[], List.Pairwise.nil⟩

/-- A key that is there keeps its value. -/
def insert (m : SortedMap κ ν) (k : κ) (v : ν) : SortedMap κ ν :=
  ⟨insertEntry k v m.entries, sorted_insertEntry m.sorted⟩

def erase (m : SortedMap κ ν) (k : κ) : SortedMap κ ν :=
  ⟨m.entries.filter fun e => e.1 ≠ k, m.sorted.filter _⟩

def lookup (m : SortedMap κ ν) (k : κ) : Option (κ × ν) := m.entries.find? fun e => e.1 = k

/-- Where an iteration begins. -/
def first (m : SortedMap κ ν) : Option κ := m.entries.head?.map Prod.fst

/-- Where an iterator at this key goes on. -/
def next (m : SortedMap κ ν) (k : κ) : Option κ :=
  (m.entries.find? fun e => k < e.1).map Prod.fst

/-- The entries behind a key. -/
def after (m : SortedMap κ ν) (k : κ) : List (κ × ν) := m.entries.filter fun e => k < e.1

/-- The entries an iterator still goes through. -/
def rest (m : SortedMap κ ν) : Option κ → List (κ × ν)
  | none => []
  | some k => m.entries.filter fun e => k ≤ e.1

variable {m : SortedMap κ ν} {k k' : κ} {v : ν} {e : κ × ν}

theorem key_of_lookup (h : m.lookup k = some e) : e.1 = k := by
  simpa using List.find?_some h

theorem mem_of_lookup (h : m.lookup k = some e) : e ∈ m.entries := List.mem_of_find?_eq_some h

theorem nodup_keys (m : SortedMap κ ν) : (m.entries.map Prod.fst).Nodup :=
  List.pairwise_map.mpr (m.sorted.imp fun h => ne_of_lt h)

theorem eq_of_key (he : e ∈ m.entries) {e' : κ × ν} (he' : e' ∈ m.entries) (h : e.1 = e'.1) :
    e = e' :=
  List.inj_on_of_nodup_map m.nodup_keys he he' h

theorem lookup_eq_some (he : e ∈ m.entries) : m.lookup e.1 = some e := by
  have hsome : (m.lookup e.1).isSome = true := by
    simpa [lookup, List.find?_isSome] using ⟨e.2, he⟩
  obtain ⟨e', he'⟩ := Option.isSome_iff_exists.mp hsome
  rw [he', eq_of_key (mem_of_lookup he') he (key_of_lookup he')]

theorem rest_first (m : SortedMap κ ν) : m.rest m.first = m.entries := by
  obtain ⟨entries, hsorted⟩ := m
  cases entries with
  | nil => rfl
  | cons a es =>
    refine List.filter_eq_self.mpr fun e he => ?_
    obtain rfl | he := List.mem_cons.mp he
    · exact decide_eq_true (le_refl _)
    · exact decide_eq_true (le_of_lt ((List.pairwise_cons.mp hsorted).1 e he))

theorem rest_of_lookup (h : m.lookup k = some e) : m.rest (some k) = e :: m.after k := by
  obtain ⟨entries, hsorted⟩ := m
  simp only [rest, after, lookup] at h ⊢
  induction entries with
  | nil => cases h
  | cons a es ih =>
    obtain ⟨ha, hes⟩ := List.pairwise_cons.mp hsorted
    by_cases hak : a.1 = k
    · simp only [hak, decide_true, List.find?_cons_of_pos, Option.some.injEq] at h
      subst h hak
      rw [List.filter_cons_of_pos (by simp), List.filter_cons_of_neg (by simp)]
      congr 1
      refine List.filter_congr fun b hb => ?_
      simp [ha b hb, le_of_lt (ha b hb)]
    · rw [List.find?_cons_of_neg (by simpa using hak)] at h
      -- the key is behind the head
      have hlt : a.1 < k := by
        have he := ha e (List.mem_of_find?_eq_some h)
        have hek : e.1 = k := by simpa using List.find?_some h
        rwa [hek] at he
      rw [List.filter_cons_of_neg (by simpa using hlt), List.filter_cons_of_neg (by
        simpa using le_of_lt hlt)]
      exact ih hes h

theorem after_eq_rest (m : SortedMap κ ν) (k : κ) : m.after k = m.rest (m.next k) := by
  obtain ⟨entries, hsorted⟩ := m
  simp only [after, next]
  cases hfind : entries.find? (fun e => k < e.1) with
  | none =>
    refine List.filter_eq_nil_iff.mpr fun e he => ?_
    exact List.find?_eq_none.mp hfind e he
  | some e =>
    obtain ⟨hke, before, behind, rfl, hbefore⟩ := List.find?_eq_some_iff_append.mp hfind
    have hke : k < e.1 := by simpa using hke
    refine List.filter_congr fun b hb => ?_
    rw [Bool.eq_iff_iff, decide_eq_true_eq, decide_eq_true_eq]
    refine ⟨fun hkb => ?_, fun heb => lt_of_lt_of_le hke heb⟩
    obtain hb | hb := List.mem_append.mp hb
    · exact absurd hkb (by simpa using hbefore b hb)
    · obtain rfl | hb := List.mem_cons.mp hb
      · exact le_refl _
      · exact le_of_lt ((List.pairwise_cons.mp (List.pairwise_append.mp hsorted).2.1).1 b hb)

theorem lookup_of_next (h : m.next k = some k') : (m.lookup k').isSome = true := by
  obtain ⟨e, he, rfl⟩ := Option.map_eq_some_iff.mp h
  rw [lookup_eq_some (List.mem_of_find?_eq_some he)]
  rfl

theorem lookup_of_first (h : m.first = some k) : (m.lookup k).isSome = true := by
  obtain ⟨e, he, rfl⟩ := Option.map_eq_some_iff.mp h
  rw [lookup_eq_some (List.mem_of_mem_head? he)]
  rfl

theorem mem_insert (h : e ∈ (m.insert k v).entries) : e = (k, v) ∨ e ∈ m.entries :=
  mem_insertEntry h

theorem mem_erase : e ∈ (m.erase k).entries ↔ e ∈ m.entries ∧ e.1 ≠ k := by
  rw [erase, List.mem_filter, decide_eq_true_eq]

/-- Erase a key that is not there. -/
theorem erase_of_not_mem (h : ∀ e ∈ m.entries, e.1 ≠ k) : m.erase k = m := by
  obtain ⟨entries, hsorted⟩ := m
  rw [erase, SortedMap.mk.injEq]
  exact List.filter_eq_self.mpr fun e he => decide_eq_true (h e he)

theorem eq_empty_of_first (h : m.first = none) : m = empty := by
  obtain ⟨entries, hsorted⟩ := m
  rw [empty, SortedMap.mk.injEq]
  exact List.head?_eq_none_iff.mp (Option.map_eq_none_iff.mp h)

theorem first_le (h : m.first = some k) (he : e ∈ m.entries) : k ≤ e.1 := by
  rw [← rest_first, h, rest, List.mem_filter, decide_eq_true_eq] at he
  exact he.2

theorem erase_first (h : m.first = some k) : (m.erase k).entries = m.after k := by
  refine List.filter_congr fun e he => ?_
  rw [decide_eq_decide, ne_comm]
  exact ⟨fun hne => lt_of_le_of_ne (first_le h he) hne, ne_of_lt⟩

/-- Where an iterator at the first entry goes on, the map without that entry begins. -/
theorem next_of_first (h : m.first = some k) : m.next k = (m.erase k).first := by
  rw [first, erase_first h, after, List.head?_filter]
  rfl

theorem entries_of_first (h : m.first = some k) (he : m.lookup k = some e) :
    m.entries = e :: m.after k := by
  rw [← rest_first, h, rest_of_lookup he]

end SortedMap

end AlgorithmLib
