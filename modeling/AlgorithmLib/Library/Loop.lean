import Mathlib.Data.Option.Basic

/-!
Loops of a program: a turn goes on with another state, ends the loop with a result, or fails. A loop
ends when some number of turns is enough.
-/

set_option autoImplicit false

namespace AlgorithmLib.Loop

variable {σ ρ : Type}

inductive Turn (σ ρ : Type) where
  | next (s : σ)
  | done (r : ρ)
  deriving DecidableEq, Repr

/-- The loop with so many turns at most. -/
def loop (turn : σ → Option (Turn σ ρ)) : Nat → σ → Option ρ
  | 0, _ => none
  | turns + 1, s =>
    match turn s with
    | none => none
    | some (.next t) => loop turn turns t
    | some (.done r) => some r

/-- The loop ends with this result. -/
def Ends (turn : σ → Option (Turn σ ρ)) (s : σ) (r : ρ) : Prop := ∃ turns, loop turn turns s = some r

variable {turn : σ → Option (Turn σ ρ)} {s t : σ} {r r' : ρ}

theorem loop_mono {turns turns' : Nat} (h : loop turn turns s = some r) (hle : turns ≤ turns') :
    loop turn turns' s = some r := by
  induction turns generalizing s turns' with
  | zero => simp [loop] at h
  | succ turns ih =>
    obtain ⟨more, rfl⟩ : ∃ more, turns' = more + 1 := ⟨turns' - 1, by omega⟩
    rw [loop] at h ⊢
    cases hturn : turn s with
    | none => simp [hturn] at h
    | some next =>
      cases next with
      | next t =>
        simp only [hturn] at h ⊢
        exact ih h (by omega)
      | done r' =>
        simp only [hturn] at h ⊢
        exact h

theorem Ends.unique (h : Ends turn s r) (h' : Ends turn s r') : r = r' := by
  obtain ⟨turns, h⟩ := h
  obtain ⟨turns', h'⟩ := h'
  have hmax := loop_mono h (Nat.le_max_left turns turns')
  exact Option.some.inj (hmax.symm.trans (loop_mono h' (Nat.le_max_right turns turns')))

theorem ends_of_done (h : turn s = some (.done r)) : Ends turn s r := ⟨1, by simp [loop, h]⟩

theorem ends_of_next (h : turn s = some (.next t)) (ht : Ends turn t r) : Ends turn s r := by
  obtain ⟨turns, ht⟩ := ht
  exact ⟨turns + 1, by simp only [loop, h, ht]⟩

/-- Total correctness: every turn from a state with the invariant ends the loop as it should, or
keeps the invariant and decreases the measure. -/
theorem ends_of_measure {p : σ → Prop} {q : ρ → Prop} (measure : σ → Nat)
    (hturn : ∀ s, p s → (∃ r, turn s = some (.done r) ∧ q r) ∨
      ∃ t, turn s = some (.next t) ∧ p t ∧ measure t < measure s)
    (hs : p s) : ∃ r, Ends turn s r ∧ q r := by
  induction hn : measure s using Nat.strongRecOn generalizing s with
  | ind n ih =>
    rcases hturn s hs with ⟨r, hdone, hq⟩ | ⟨t, hnext, ht, hlt⟩
    · exact ⟨r, ends_of_done hdone, hq⟩
    · obtain ⟨r, hends, hq⟩ := ih (measure t) (hn ▸ hlt) ht rfl
      exact ⟨r, ends_of_next hnext hends, hq⟩

end AlgorithmLib.Loop
