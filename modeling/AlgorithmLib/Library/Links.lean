import Mathlib.Data.List.Nodup
import Mathlib.Logic.Function.Basic

/-!
Intrusive doubly linked lists: a node carries one link field, so it can be on one list at a
time. The lists of a component are named by places; a node's link says at which place it is,
if at all. Linking a node that is still linked elsewhere breaks the agreement of the two.
-/

set_option autoImplicit false

namespace AlgorithmLib

structure Links (ν π : Type) where
  list : π → List ν
  head : ν → Option π

namespace Links

variable {ν π : Type}

/-- All lists empty, no node linked. -/
def empty : Links ν π := ⟨fun _ => [], fun _ => none⟩

/-- Lists and links agree. -/
structure WF (l : Links ν π) : Prop where
  mem_iff : ∀ p n, n ∈ l.list p ↔ l.head n = some p
  nodup : ∀ p, (l.list p).Nodup

theorem wf_empty : WF (empty : Links ν π) :=
  ⟨fun p n => by simp [empty], fun _ => List.nodup_nil⟩

variable [DecidableEq ν] [DecidableEq π]

/-- Take a node off the list it is on, if any, and mark it as unlinked. -/
def unlink (l : Links ν π) (n : ν) : Links ν π :=
  match l.head n with
  | none => l
  | some p => ⟨Function.update l.list p ((l.list p).erase n), Function.update l.head n none⟩

def addTail (l : Links ν π) (n : ν) (p : π) : Links ν π :=
  ⟨Function.update l.list p (l.list p ++ [n]), Function.update l.head n (some p)⟩

def addFront (l : Links ν π) (n : ν) (p : π) : Links ν π :=
  ⟨Function.update l.list p (n :: l.list p), Function.update l.head n (some p)⟩

/-- Move the whole list at `p` in front of the one at `q`. -/
def splice (l : Links ν π) (p q : π) : Links ν π :=
  ⟨Function.update (Function.update l.list q (l.list p ++ l.list q)) p [],
    fun n => if n ∈ l.list p then some q else l.head n⟩

/-- Move the whole list at `q` behind the one at `p`. -/
def join (l : Links ν π) (p q : π) : Links ν π :=
  ⟨Function.update (Function.update l.list p (l.list p ++ l.list q)) q [],
    fun n => if n ∈ l.list q then some p else l.head n⟩

/-- Take all nodes off the list at `p`. -/
def drain (l : Links ν π) (p : π) : Links ν π :=
  ⟨Function.update l.list p [], fun n => if n ∈ l.list p then none else l.head n⟩

/-- Put nodes that are on no list in front of the list at `p`. -/
def fill (l : Links ν π) (ns : List ν) (p : π) : Links ν π :=
  ⟨Function.update l.list p (ns ++ l.list p), fun n => if n ∈ ns then some p else l.head n⟩

variable {l : Links ν π} {n m : ν} {p q : π}

@[simp] theorem unlink_head (l : Links ν π) (n m : ν) :
    (l.unlink n).head m = if m = n then none else l.head m := by
  cases h : l.head n with
  | none =>
    by_cases hm : m = n
    · simp [unlink, h, hm]
    · simp [unlink, h, hm]
  | some p => simp only [unlink, h, Function.update_apply]

theorem unlink_of_none (h : l.head n = none) : l.unlink n = l := by
  rw [unlink, h]

/-- The lists the node is not on stay as they are. -/
theorem unlink_list_of_ne (h : l.head n ≠ some p) : (l.unlink n).list p = l.list p := by
  cases hn : l.head n with
  | none => rw [unlink_of_none hn]
  | some q =>
    have hpq : p ≠ q := fun he => h (he ▸ hn)
    simp only [unlink, hn, Function.update_of_ne hpq]

theorem unlink_list_of_eq (h : l.head n = some p) : (l.unlink n).list p = (l.list p).erase n := by
  simp only [unlink, h, Function.update_self]

theorem unlink_sublist (l : Links ν π) (n : ν) (p : π) :
    ((l.unlink n).list p).Sublist (l.list p) := by
  by_cases h : l.head n = some p
  · rw [unlink_list_of_eq h]
    exact List.erase_sublist
  · rw [unlink_list_of_ne h]

@[simp] theorem addTail_head (l : Links ν π) (n m : ν) (p : π) :
    (l.addTail n p).head m = if m = n then some p else l.head m := by
  simp only [addTail, Function.update_apply]

@[simp] theorem addFront_head (l : Links ν π) (n m : ν) (p : π) :
    (l.addFront n p).head m = if m = n then some p else l.head m := by
  simp only [addFront, Function.update_apply]

theorem addTail_list (l : Links ν π) (n : ν) (p q : π) :
    (l.addTail n p).list q = if q = p then l.list p ++ [n] else l.list q := by
  simp only [addTail, Function.update_apply]

theorem addFront_list (l : Links ν π) (n : ν) (p q : π) :
    (l.addFront n p).list q = if q = p then n :: l.list p else l.list q := by
  simp only [addFront, Function.update_apply]

namespace WF

theorem unlink (h : l.WF) (n : ν) : (l.unlink n).WF := by
  cases hn : l.head n with
  | none =>
    rw [unlink_of_none hn]
    exact h
  | some q =>
    refine ⟨fun p m => ?_, fun p => ?_⟩
    · rw [unlink_head]
      by_cases hp : l.head n = some p
      · rw [unlink_list_of_eq hp, (h.nodup p).mem_erase_iff, h.mem_iff]
        by_cases hm : m = n <;> simp [hm]
      · rw [unlink_list_of_ne hp, h.mem_iff]
        by_cases hm : m = n
        · simp [hm, hp]
        · simp [hm]
    · by_cases hp : l.head n = some p
      · rw [unlink_list_of_eq hp]
        exact (h.nodup p).erase n
      · rw [unlink_list_of_ne hp]
        exact h.nodup p

theorem unlink_list (h : l.WF) (n : ν) (p : π) : (l.unlink n).list p = (l.list p).erase n := by
  by_cases hn : l.head n = some p
  · exact unlink_list_of_eq hn
  · rw [unlink_list_of_ne hn, List.erase_of_not_mem]
    rwa [h.mem_iff]

omit [DecidableEq ν] [DecidableEq π] in
theorem not_mem_of_none (h : l.WF) (hn : l.head n = none) (p : π) : n ∉ l.list p := by
  rw [h.mem_iff, hn]
  exact fun he => by cases he

omit [DecidableEq ν] [DecidableEq π] in
/-- A node is at one place. -/
theorem place_unique (h : l.WF) (hp : n ∈ l.list p) (hq : n ∈ l.list q) : p = q := by
  rw [h.mem_iff] at hp hq
  exact Option.some.inj (hp.symm.trans hq)

theorem addTail (h : l.WF) (hn : l.head n = none) (p : π) : (l.addTail n p).WF := by
  have hfresh := h.not_mem_of_none hn
  refine ⟨fun q m => ?_, fun q => ?_⟩
  · rw [addTail_head, addTail_list]
    by_cases hq : q = p
    · subst hq
      rw [if_pos rfl, List.mem_append, h.mem_iff]
      by_cases hm : m = n <;> simp [hm]
    · rw [if_neg hq, h.mem_iff]
      by_cases hm : m = n
      · simp [hm, hn, Ne.symm hq]
      · simp [hm]
  · rw [addTail_list]
    split
    · exact List.nodup_append.mpr ⟨h.nodup p, by simp,
        fun a ha b hb hab => hfresh p (by simp_all)⟩
    · exact h.nodup q

theorem addFront (h : l.WF) (hn : l.head n = none) (p : π) : (l.addFront n p).WF := by
  have hfresh := h.not_mem_of_none hn
  refine ⟨fun q m => ?_, fun q => ?_⟩
  · rw [addFront_head, addFront_list]
    by_cases hq : q = p
    · subst hq
      rw [if_pos rfl, List.mem_cons, h.mem_iff]
      by_cases hm : m = n <;> simp [hm]
    · rw [if_neg hq, h.mem_iff]
      by_cases hm : m = n
      · simp [hm, hn, Ne.symm hq]
      · simp [hm]
  · rw [addFront_list]
    split
    · exact List.nodup_cons.mpr ⟨hfresh p, h.nodup p⟩
    · exact h.nodup q

theorem splice_head (h : l.WF) (p q : π) (m : ν) :
    (l.splice p q).head m = if l.head m = some p then some q else l.head m := by
  have hmem := h.mem_iff p m
  rw [Links.splice]
  dsimp only
  by_cases hm : m ∈ l.list p
  · rw [if_pos hm, if_pos (hmem.mp hm)]
  · rw [if_neg hm, if_neg (fun he => hm (hmem.mpr he))]

theorem splice_list (l : Links ν π) (p q r : π) :
    (l.splice p q).list r =
      if r = p then [] else if r = q then l.list p ++ l.list q else l.list r := by
  simp only [Links.splice, Function.update_apply]

theorem splice (h : l.WF) (hpq : p ≠ q) : (l.splice p q).WF := by
  refine ⟨fun r m => ?_, fun r => ?_⟩
  · rw [h.splice_head, splice_list]
    by_cases hrp : r = p
    · subst hrp
      by_cases hm : l.head m = some r
      · simp [hm, Ne.symm hpq]
      · simp [hm]
    · rw [if_neg hrp]
      by_cases hrq : r = q
      · subst hrq
        rw [if_pos rfl, List.mem_append, h.mem_iff, h.mem_iff]
        by_cases hm : l.head m = some p <;> simp [hm]
      · rw [if_neg hrq, h.mem_iff]
        by_cases hm : l.head m = some p
        · simp [hm, Ne.symm hrp, Ne.symm hrq]
        · simp [hm]
  · rw [splice_list]
    split
    · exact List.nodup_nil
    · split
      · refine List.nodup_append.mpr ⟨h.nodup p, h.nodup q, ?_⟩
        intro a ha b hb hab
        subst hab
        rw [h.mem_iff] at ha hb
        rw [ha, Option.some.injEq] at hb
        exact hpq hb
      · exact h.nodup r

theorem join_head (h : l.WF) (p q : π) (m : ν) :
    (l.join p q).head m = if l.head m = some q then some p else l.head m := by
  have hmem := h.mem_iff q m
  by_cases hm : m ∈ l.list q
  · simp [Links.join, hm, hmem.mp hm]
  · simp [Links.join, hm, mt hmem.mpr hm]

theorem join_list (l : Links ν π) (p q r : π) :
    (l.join p q).list r =
      if r = q then [] else if r = p then l.list p ++ l.list q else l.list r := by
  simp only [Links.join, Function.update_apply]

theorem join (h : l.WF) (hpq : p ≠ q) : (l.join p q).WF := by
  refine ⟨fun r m => ?_, fun r => ?_⟩
  · rw [h.join_head, join_list]
    by_cases hrq : r = q
    · subst hrq
      by_cases hm : l.head m = some r
      · simp [hm, hpq]
      · simp [hm]
    · rw [if_neg hrq]
      by_cases hrp : r = p
      · subst hrp
        rw [if_pos rfl, List.mem_append, h.mem_iff, h.mem_iff]
        by_cases hm : l.head m = some q <;> simp [hm]
      · rw [if_neg hrp, h.mem_iff]
        by_cases hm : l.head m = some q
        · simp [hm, Ne.symm hrp, Ne.symm hrq]
        · simp [hm]
  · rw [join_list]
    split
    · exact List.nodup_nil
    · split
      · refine List.nodup_append.mpr ⟨h.nodup p, h.nodup q, ?_⟩
        rintro a ha _ hb rfl
        rw [h.mem_iff] at ha hb
        exact hpq (Option.some.inj (ha.symm.trans hb))
      · exact h.nodup r

theorem drain_head (h : l.WF) (p : π) (m : ν) :
    (l.drain p).head m = if l.head m = some p then none else l.head m := by
  have hmem := h.mem_iff p m
  rw [Links.drain]
  dsimp only
  by_cases hm : m ∈ l.list p
  · rw [if_pos hm, if_pos (hmem.mp hm)]
  · rw [if_neg hm, if_neg (fun he => hm (hmem.mpr he))]

theorem drain (h : l.WF) (p : π) : (l.drain p).WF := by
  refine ⟨fun r m => ?_, fun r => ?_⟩
  · rw [h.drain_head]
    simp only [Links.drain, Function.update_apply]
    by_cases hr : r = p
    · by_cases hm : l.head m = some p <;> simp [hr, hm]
    · rw [if_neg hr, h.mem_iff]
      by_cases hm : l.head m = some p
      · simp [hm, Ne.symm hr]
      · simp [hm]
  · simp only [Links.drain, Function.update_apply]
    split
    · exact List.nodup_nil
    · exact h.nodup r

theorem fill (h : l.WF) {ns : List ν} (hnd : ns.Nodup) (hns : ∀ n ∈ ns, l.head n = none) (p : π) :
    (l.fill ns p).WF := by
  refine ⟨fun r m => ?_, fun r => ?_⟩
  · simp only [Links.fill, Function.update_apply]
    by_cases hr : r = p
    · subst hr
      rw [if_pos rfl, List.mem_append, h.mem_iff]
      by_cases hm : m ∈ ns <;> simp [hm]
    · rw [if_neg hr, h.mem_iff]
      by_cases hm : m ∈ ns
      · simp [hm, hns m hm, Ne.symm hr]
      · simp [hm]
  · simp only [Links.fill, Function.update_apply]
    split
    · refine List.nodup_append.mpr ⟨hnd, h.nodup p, ?_⟩
      rintro a ha b hb rfl
      exact h.not_mem_of_none (hns a ha) p hb
    · exact h.nodup r

end WF

end Links

end AlgorithmLib
