import Mathlib.Data.List.Nodup
import Mathlib.Data.List.Perm.Basic

set_option autoImplicit false

namespace AlgorithmLib.Sample

variable {α : Type}

/-- What is left when the entry at the place is drawn. -/
def takeOut (l : List α) (k : Nat) : List α :=
  match l.getLast? with
  | some x => (l.set k x).dropLast
  | none => []

/-- The entries drawn, by the places. -/
def sample : List α → List Nat → List α
  | _, [] => []
  | l, k :: ks =>
    match l[k]? with
    | some x => x :: sample (takeOut l k) ks
    | none => []

/-- Each place is one of the list that is left. -/
def InRange : Nat → List Nat → Prop
  | _, [] => True
  | n, k :: ks => k < n ∧ InRange (n - 1) ks

instance decidableInRange : ∀ n ks, Decidable (InRange n ks)
  | _, [] => .isTrue trivial
  | n, k :: ks =>
    have := decidableInRange (n - 1) ks
    inferInstanceAs (Decidable (k < n ∧ InRange (n - 1) ks))

variable {l r : List α} {k : Nat} {ks : List Nat} {x : α}

theorem takeOut_concat (l : List α) (x : α) (k : Nat) :
    takeOut (l ++ [x]) k = if k < l.length then l.set k x else l := by
  unfold takeOut
  rw [List.getLast?_concat]
  change ((l ++ [x]).set k x).dropLast = _
  split
  next hk => simp [List.set_append_left _ _ hk]
  next hk =>
    rw [List.set_append_right _ _ (Nat.le_of_not_lt hk)]
    cases k - l.length <;> simp

theorem perm_takeOut (h : l[k]? = some x) : (x :: takeOut l k).Perm l := by
  rcases List.eq_nil_or_concat l with rfl | ⟨l, y, rfl⟩
  · simp at h
  · rw [List.concat_eq_append] at h ⊢
    rw [takeOut_concat]
    split
    next hk =>
      rw [List.getElem?_append_left hk, List.getElem?_eq_getElem hk, Option.some.injEq] at h
      subst h
      -- the last entry stands for the one drawn, and the other way round
      have hset := (List.set_perm_cons_eraseIdx hk y).cons l[k]
      have hback := (List.getElem_cons_eraseIdx_perm hk).cons y
      exact (hset.trans (List.Perm.swap _ _ _)).trans
        (hback.trans (List.perm_append_singleton y l).symm)
    next hk =>
      have hlt := (List.getElem?_eq_some_iff.mp h).1
      have hlast : k = l.length := by
        rw [List.length_append, List.length_singleton] at hlt
        omega
      subst hlast
      rw [List.getElem?_concat_length, Option.some.injEq] at h
      subst h
      exact (List.perm_append_singleton y l).symm

theorem length_takeOut (h : k < l.length) : (takeOut l k).length = l.length - 1 := by
  have hperm := (perm_takeOut (List.getElem?_eq_getElem h)).length_eq
  rw [List.length_cons] at hperm
  omega

theorem sample_cons (h : l[k]? = some x) (ks : List Nat) :
    sample l (k :: ks) = x :: sample (takeOut l k) ks := by
  rw [sample, h]

theorem length_sample (h : InRange l.length ks) : (sample l ks).length = ks.length := by
  induction ks generalizing l with
  | nil => rfl
  | cons k ks ih =>
    obtain ⟨hk, hks⟩ := h
    rw [← length_takeOut hk] at hks
    rw [sample_cons (List.getElem?_eq_getElem hk), List.length_cons, List.length_cons, ih hks]

/-- What is drawn is part of the list. -/
theorem sample_perm (h : InRange l.length ks) : ∃ rest, (sample l ks ++ rest).Perm l := by
  induction ks generalizing l with
  | nil => exact ⟨l, List.Perm.refl _⟩
  | cons k ks ih =>
    obtain ⟨hk, hks⟩ := h
    have hget := List.getElem?_eq_getElem hk
    rw [← length_takeOut hk] at hks
    obtain ⟨rest, hrest⟩ := ih hks
    exact ⟨rest, by rw [sample_cons hget]; exact (hrest.cons _).trans (perm_takeOut hget)⟩

theorem nodup_sample (hl : l.Nodup) (h : InRange l.length ks) : (sample l ks).Nodup := by
  obtain ⟨rest, hrest⟩ := sample_perm h
  exact (List.nodup_append.mp (hrest.nodup_iff.mpr hl)).1

theorem sample_subset (h : InRange l.length ks) : sample l ks ⊆ l := by
  obtain ⟨rest, hrest⟩ := sample_perm h
  exact fun y hy => hrest.subset (List.mem_append_left rest hy)

/-- Each sequence of different entries is drawn by exactly one sequence of places. -/
theorem existsUnique_sample (hl : l.Nodup) (hr : r.Nodup) (hsub : r ⊆ l) :
    ∃! ks, ks.length = r.length ∧ InRange l.length ks ∧ sample l ks = r := by
  induction r generalizing l with
  | nil =>
    refine ⟨[], ⟨rfl, trivial, rfl⟩, fun ks hks => ?_⟩
    exact List.eq_nil_of_length_eq_zero hks.1
  | cons x r ih =>
    obtain ⟨k, hk⟩ := List.mem_iff_getElem?.mp (hsub List.mem_cons_self)
    have hlt := (List.getElem?_eq_some_iff.mp hk).1
    have hperm := perm_takeOut hk
    have hnodup := hperm.nodup_iff.mpr hl
    have hx := (List.nodup_cons.mp hr).1
    have hleft : r ⊆ takeOut l k := by
      intro y hy
      have hmem := hperm.mem_iff.mpr (hsub (List.mem_cons_of_mem x hy))
      rcases List.mem_cons.mp hmem with rfl | hmem
      · exact absurd hy hx
      · exact hmem
    obtain ⟨ks, ⟨hlen, hrange, hsample⟩, hunique⟩ :=
      ih (List.nodup_cons.mp hnodup).2 (List.nodup_cons.mp hr).2 hleft
    refine ⟨k :: ks, ⟨by rw [List.length_cons, List.length_cons, hlen], ⟨hlt, ?_⟩, ?_⟩, ?_⟩
    · rw [← length_takeOut hlt]
      exact hrange
    · rw [sample_cons hk, hsample]
    · rintro ks' ⟨hlen', hrange', hsample'⟩
      cases ks' with
      | nil => cases hlen'
      | cons k' ks' =>
        obtain ⟨hlt', hrange'⟩ := hrange'
        rw [sample_cons (List.getElem?_eq_getElem hlt'), List.cons.injEq] at hsample'
        -- a list without duplicates has the entry at one place only
        have hk' : k' = k := by
          have hget := (List.getElem?_eq_some_iff.mp hk).2
          exact (List.Nodup.getElem_inj_iff hl).mp (hsample'.1.trans hget.symm)
        subst hk'
        rw [← length_takeOut hlt'] at hrange'
        rw [hunique ks' ⟨Nat.succ.inj hlen', hrange', hsample'.2⟩]

end AlgorithmLib.Sample
