import Mathlib.Data.List.Flatten

/-!
A pipeline of byte blocks through which whole records travel. Every record is appended
to the last block; blocks are pushed behind, and may be thrown away as a whole.
-/

set_option autoImplicit false

namespace AlgorithmLib.Pipeline

variable {β : Type}

/-- The blocks are the concatenations of groups of records, and the records of all
groups, in order, are some of those appended, none of them twice. -/
def Carries (blocks records : List (List β)) : Prop :=
  ∃ gs : List (List (List β)), gs.map List.flatten = blocks ∧ gs.flatten.Sublist records

/-- The blocks hold every record appended, in order. -/
def Holds (blocks records : List (List β)) : Prop := blocks.flatten = records.flatten

theorem carries_nil : Carries ([[]] : List (List β)) [] := ⟨[[]], rfl, by simp⟩

theorem Carries.append {bs : List (List β)} {b : List β} {records : List (List β)}
    (h : Carries (bs ++ [b]) records) (r : List β) :
    Carries (bs ++ [b ++ r]) (records ++ [r]) := by
  obtain ⟨gs, hg, hs⟩ := h
  obtain ⟨gs', g, rfl, hgs, hgb⟩ := List.map_eq_append_iff.mp hg
  obtain ⟨g, rfl⟩ : ∃ x, g = [x] := by
    rw [← List.length_eq_one_iff]
    simpa using congrArg List.length hgb
  refine ⟨gs' ++ [g ++ [r]], ?_, ?_⟩
  · have hb : g.flatten = b := by simpa using hgb
    simp [hgs, hb]
  · have h := List.Sublist.append hs (List.Sublist.refl [r])
    simpa [List.append_assoc] using h

theorem Carries.push {bs : List (List β)} {records : List (List β)} (h : Carries bs records) :
    Carries (bs ++ [[]]) records := by
  obtain ⟨gs, hg, hs⟩ := h
  exact ⟨gs ++ [[]], by simp [hg], by simpa using hs⟩

/-- Throwing whole blocks away loses their records and reorders nothing. -/
theorem Carries.sublist {bs bs' : List (List β)} {records : List (List β)}
    (h : Carries bs records) (hb : bs'.Sublist bs) : Carries bs' records := by
  obtain ⟨gs, rfl, hs⟩ := h
  obtain ⟨gs', hgs, rfl⟩ := List.sublist_map_iff.mp hb
  exact ⟨gs', rfl, (List.Sublist.flatten hgs).trans hs⟩

theorem Carries.take {bs cs : List (List β)} {records : List (List β)}
    (h : Carries (bs ++ cs) records) : Carries bs records :=
  h.sublist (List.sublist_append_left bs cs)

theorem Holds.append {bs : List (List β)} {b : List β} {records : List (List β)}
    (h : Holds (bs ++ [b]) records) (r : List β) : Holds (bs ++ [b ++ r]) (records ++ [r]) := by
  simp only [Holds, List.flatten_append, List.flatten_singleton, ← List.append_assoc] at h ⊢
  rw [h]

theorem Holds.push {bs : List (List β)} {records : List (List β)} (h : Holds bs records) :
    Holds (bs ++ [[]]) records := by
  simpa [Holds] using h

end AlgorithmLib.Pipeline
