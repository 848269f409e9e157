import AlgorithmLib.Library.Links

/-!
Pools of records that are made in batches and never given back to the system: a record is on
the free list, linked at some other place, or in the hands of the operation that took it.
Records are numbered in the order in which they are made; the counters of the code are of 32 bits,
and wrap.
-/

set_option autoImplicit false

namespace AlgorithmLib

structure Pool (π : Type) where
  links : Links Nat π
  /-- the records made so far -/
  made : Nat
  alloc : BitVec 32
  unuse : BitVec 32

namespace Pool

variable {π : Type}

def empty : Pool π := ⟨.empty, 0, 0#32, 0#32⟩

section

variable [DecidableEq π]

def make (free : π) (p : Pool π) : Pool π :=
  { links := p.links.addTail p.made free, made := p.made + 1, alloc := p.alloc + 1#32
    unuse := p.unuse + 1#32 }

/-- Make a batch of free records. -/
def add (free : π) : Nat → Pool π → Pool π
  | 0, p => p
  | size + 1, p => (p.make free).add free size

/-- Take the first free record, after making a batch if there is none. -/
def take (free : π) (size : Nat) (p : Pool π) : Option (Nat × Pool π) :=
  let p := if p.links.list free = [] then p.add free size else p
  match p.links.list free with
  | [] => none
  | n :: _ => some (n, { p with links := p.links.unlink n, unuse := p.unuse - 1#32 })

/-- Take a record off its list and put it on the free one. -/
def give (free : π) (n : Nat) (p : Pool π) : Pool π :=
  { p with links := (p.links.unlink n).addTail n free, unuse := p.unuse + 1#32 }

/-- Link a record that is in hand. -/
def link (n : Nat) (q : π) (p : Pool π) : Pool π :=
  { p with links := p.links.addTail n q }

end

theorem add_list [DecidableEq π] {free q : π} (hq : q ≠ free) (size : Nat) (p : Pool π) :
    (p.add free size).links.list q = p.links.list q := by
  induction size generalizing p with
  | zero => rfl
  | succ size ih =>
    rw [add, ih, make]
    dsimp only
    rw [Links.addTail_list, if_neg hq]

/-- Only made records are linked, and `unuse` counts the free ones modulo 2^32. -/
structure Ok (free : π) (p : Pool π) : Prop where
  wf : p.links.WF
  fresh : ∀ n, p.made ≤ n → p.links.head n = none
  counted : p.unuse = BitVec.ofNat 32 (p.links.list free).length

theorem ok_empty (free : π) : Ok free (empty : Pool π) :=
  ⟨Links.wf_empty, fun _ _ => rfl, rfl⟩

namespace Ok

variable {free q : π} {p : Pool π} {n : Nat}

theorem lt_of_head (h : Ok free p) (hn : p.links.head n = some q) : n < p.made := by
  by_contra hlt
  rw [h.fresh n (Nat.le_of_not_lt hlt)] at hn
  cases hn

variable [DecidableEq π]

theorem make (h : Ok free p) : Ok free (p.make free) := by
  have hnew := h.fresh p.made (Nat.le_refl _)
  refine ⟨h.wf.addTail hnew free, fun n hn => ?_, ?_⟩
  · simp only [Pool.make] at hn ⊢
    rw [Links.addTail_head, if_neg (by omega)]
    exact h.fresh n (by omega)
  · simp only [Pool.make]
    rw [Links.addTail_list, if_pos rfl, List.length_append, h.counted, List.length_singleton,
      BitVec.ofNat_add]

theorem make_head (h : Ok free p) (hq : q ≠ free) :
    (p.make free).links.head n = some q ↔ p.links.head n = some q := by
  simp only [Pool.make, Links.addTail_head]
  by_cases hn : n = p.made
  · simp [hn, h.fresh p.made (Nat.le_refl _), Ne.symm hq]
  · simp [hn]

theorem add (h : Ok free p) (size : Nat) :
    Ok free (p.add free size) ∧ (p.add free size).made = p.made + size ∧
      ((p.add free size).links.list free).length = (p.links.list free).length + size ∧
      ∀ n q, q ≠ free → ((p.add free size).links.head n = some q ↔ p.links.head n = some q) := by
  induction size generalizing p with
  | zero => exact ⟨h, rfl, rfl, fun _ _ _ => Iff.rfl⟩
  | succ size ih =>
    obtain ⟨hok, ha, hu, hhead⟩ := ih h.make
    refine ⟨hok, ?_, ?_, fun n q hq => (hhead n q hq).trans (h.make_head hq)⟩
    · rw [Pool.add, ha, Pool.make]
      exact Nat.succ_add p.made size
    · rw [Pool.add, hu, Pool.make]
      dsimp only
      rw [Links.addTail_list, if_pos rfl, List.length_append, List.length_singleton]
      omega

/-- A record is taken off the free list, and no other place is touched. -/
theorem take (h : Ok free p) {size : Nat} (hsize : 0 < size) :
    ∃ n p', p.take free size = some (n, p') ∧ Ok free p' ∧ n < p'.made ∧ p.made ≤ p'.made ∧
      p'.links.head n = none ∧
      ∀ m q, q ≠ free → (p'.links.head m = some q ↔ p.links.head m = some q) := by
  obtain ⟨hok, ha, hu, hhead⟩ := h.add size
  simp only [Pool.take]
  generalize hp₀ : (if p.links.list free = [] then p.add free size else p) = p₀
  have h₀ : Ok free p₀ ∧ p.made ≤ p₀.made ∧ p₀.links.list free ≠ [] ∧
      ∀ m q, q ≠ free → (p₀.links.head m = some q ↔ p.links.head m = some q) := by
    split at hp₀
    · next hnil =>
      subst hp₀
      refine ⟨hok, by omega, fun hnil' => ?_, hhead⟩
      rw [hnil', List.length_nil] at hu
      omega
    · next hne =>
      subst hp₀
      exact ⟨h, Nat.le_refl _, hne, fun _ _ _ => Iff.rfl⟩
  obtain ⟨hok₀, hle, hne, hhead₀⟩ := h₀
  cases hlist : p₀.links.list free with
  | nil => exact absurd hlist hne
  | cons n ns =>
    have hn : p₀.links.head n = some free :=
      (hok₀.wf.mem_iff _ n).mp (by rw [hlist]; exact List.mem_cons_self)
    refine ⟨n, _, rfl, ⟨hok₀.wf.unlink n, fun m hm => ?_, ?_⟩, hok₀.lt_of_head hn, hle, ?_,
      fun m q hq => ?_⟩
    · simp only [Links.unlink_head]
      split
      · rfl
      · exact hok₀.fresh m hm
    · simp only [Links.unlink_list_of_eq hn, hok₀.counted, hlist, List.erase_cons_head,
        List.length_cons, BitVec.ofNat_add, BitVec.add_sub_cancel]
    · simp only [Links.unlink_head, if_true]
    · rw [← hhead₀ m q hq]
      simp only [Links.unlink_head]
      by_cases hm : m = n
      · simp [hm, hn, Ne.symm hq]
      · simp [hm]

theorem give (h : Ok free p) (hlt : n < p.made) (hn : p.links.head n ≠ some free) :
    Ok free (p.give free n) := by
  have hnone : (p.links.unlink n).head n = none := by rw [Links.unlink_head, if_pos rfl]
  refine ⟨(h.wf.unlink n).addTail hnone free, fun m hm => ?_, ?_⟩
  · simp only [Pool.give] at hm ⊢
    rw [Links.addTail_head, if_neg (by omega), Links.unlink_head, if_neg (by omega)]
    exact h.fresh m hm
  · simp only [Pool.give]
    rw [Links.addTail_list, if_pos rfl, List.length_append, Links.unlink_list_of_ne hn, h.counted,
      List.length_singleton, BitVec.ofNat_add]

theorem link (h : Ok free p) (hlt : n < p.made) (hn : p.links.head n = none) (hq : q ≠ free) :
    Ok free (p.link n q) := by
  refine ⟨h.wf.addTail hn q, fun m hm => ?_, ?_⟩
  · simp only [Pool.link] at hm ⊢
    rw [Links.addTail_head, if_neg (by omega)]
    exact h.fresh m hm
  · simp only [Pool.link]
    rw [Links.addTail_list, if_neg (Ne.symm hq), h.counted]

/-- A record that is not free leaves its list for good. -/
theorem unlink (h : Ok free p) (hn : p.links.head n ≠ some free) (alloc : BitVec 32) :
    Ok free { p with links := p.links.unlink n, alloc := alloc } := by
  refine ⟨h.wf.unlink n, fun m hm => ?_, ?_⟩
  · simp only [Links.unlink_head, h.fresh m hm, ite_self]
  · rw [h.counted, Links.unlink_list_of_ne hn]

/-- Only the free list is touched when a record is taken. -/
theorem take_list (h : Ok free p) {size : Nat} {p' : Pool π} (ht : p.take free size = some (n, p'))
    (hq : q ≠ free) : p'.links.list q = p.links.list q := by
  simp only [Pool.take] at ht
  generalize hp₀ : (if p.links.list free = [] then p.add free size else p) = p₀ at ht
  have h₀ : Ok free p₀ ∧ p₀.links.list q = p.links.list q := by
    split at hp₀
    · subst hp₀
      exact ⟨(h.add size).1, add_list hq size p⟩
    · subst hp₀
      exact ⟨h, rfl⟩
  cases hlist : p₀.links.list free with
  | nil => simp [hlist] at ht
  | cons m ns =>
    simp only [hlist, Option.some.injEq, Prod.mk.injEq] at ht
    obtain ⟨rfl, rfl⟩ := ht
    have hm : p₀.links.head m = some free :=
      (h₀.1.wf.mem_iff _ m).mp (by rw [hlist]; exact List.mem_cons_self)
    rw [Links.unlink_list_of_ne (by simp [hm, Ne.symm hq])]
    exact h₀.2

/-- One record more is not free when one is taken. -/
theorem take_made (h : Ok free p) {size : Nat} {p' : Pool π}
    (ht : p.take free size = some (n, p')) :
    p'.made + (p.links.list free).length = p.made + (p'.links.list free).length + 1 := by
  simp only [Pool.take] at ht
  generalize hp₀ : (if p.links.list free = [] then p.add free size else p) = p₀ at ht
  have h₀ : Ok free p₀ ∧
      p₀.made + (p.links.list free).length = p.made + (p₀.links.list free).length := by
    obtain ⟨hok, hmade, hlen, -⟩ := h.add size
    split at hp₀
    · subst hp₀
      exact ⟨hok, by omega⟩
    · subst hp₀
      exact ⟨h, rfl⟩
  cases hlist : p₀.links.list free with
  | nil => simp [hlist] at ht
  | cons m ns =>
    simp only [hlist, Option.some.injEq, Prod.mk.injEq] at ht
    obtain ⟨rfl, rfl⟩ := ht
    have hm : p₀.links.head m = some free :=
      (h₀.1.wf.mem_iff _ m).mp (by rw [hlist]; exact List.mem_cons_self)
    have hlen := h₀.2
    dsimp only
    rw [Links.unlink_list_of_eq hm, hlist, List.erase_cons_head]
    rw [hlist, List.length_cons] at hlen
    omega

/-- The records made are the free ones and those linked elsewhere. -/
theorem made_eq (h : Ok free p) :
    p.made = (p.links.list free).length +
      ((List.range p.made).filter fun n => p.links.head n ≠ some free).length := by
  have hfree : ((List.range p.made).filter fun n => p.links.head n = some free).length =
      (p.links.list free).length := by
    refine List.Perm.length_eq ((List.perm_ext_iff_of_nodup ?_ (h.wf.nodup free)).mpr ?_)
    · exact List.nodup_range.filter _
    · intro n
      rw [List.mem_filter, h.wf.mem_iff, List.mem_range, decide_eq_true_eq]
      exact ⟨fun hn => hn.2, fun hn => ⟨h.lt_of_head hn, hn⟩⟩
  have hsplit := List.length_eq_length_filter_add (l := List.range p.made)
    fun n => decide (p.links.head n = some free)
  rw [List.length_range, hfree] at hsplit
  simpa using hsplit

theorem unuse_toNat (h : Ok free p) (hlt : p.made < 4294967296) :
    p.unuse.toNat = (p.links.list free).length := by
  have hmade := h.made_eq
  rw [h.counted, BitVec.toNat_ofNat, Nat.mod_eq_of_lt (by omega)]

end Ok

/-- No record was ever given up: `alloc` counts those made, modulo 2^32. -/
def Kept (p : Pool π) : Prop := p.alloc = BitVec.ofNat 32 p.made

theorem kept_empty : Kept (empty : Pool π) := rfl

namespace Kept

variable [DecidableEq π] {free : π} {p p' : Pool π} {n : Nat}

theorem add (h : Kept p) (free : π) (size : Nat) : Kept (p.add free size) := by
  induction size generalizing p with
  | zero => exact h
  | succ size ih =>
    refine ih (?_ : p.alloc + 1#32 = BitVec.ofNat 32 (p.made + 1))
    rw [h, BitVec.ofNat_add]

theorem take (h : Kept p) {size : Nat} (ht : p.take free size = some (n, p')) : Kept p' := by
  simp only [Pool.take] at ht
  generalize hp₀ : (if p.links.list free = [] then p.add free size else p) = p₀ at ht
  have h₀ : Kept p₀ := by
    split at hp₀
    · subst hp₀
      exact h.add free size
    · subst hp₀
      exact h
  split at ht
  · cases ht
  · cases ht
    exact h₀

end Kept

/-- Every record made is linked: none is in hand. -/
def Full (p : Pool π) : Prop := ∀ n, n < p.made → p.links.head n ≠ none

theorem full_empty : Full (empty : Pool π) := fun _ hn => absurd hn (Nat.not_lt_zero _)

section

variable [DecidableEq π]

@[simp] theorem give_head (free : π) (n : Nat) (p : Pool π) (m : Nat) :
    (p.give free n).links.head m = if m = n then some free else p.links.head m := by
  simp only [give, Links.addTail_head, Links.unlink_head]
  split <;> rfl

@[simp] theorem link_head (n : Nat) (q : π) (p : Pool π) (m : Nat) :
    (p.link n q).links.head m = if m = n then some q else p.links.head m := by
  simp only [link, Links.addTail_head]

/-- The record was taken and is on no list. -/
def InHand (p : Pool π) (n : Nat) : Prop := n < p.made ∧ p.links.head n = none

theorem add_inHand (free : π) (size : Nat) (p : Pool π) (m : Nat) :
    (p.add free size).InHand m ↔ p.InHand m := by
  induction size generalizing p with
  | zero => rfl
  | succ size ih =>
    rw [add, ih, InHand, InHand, make]
    dsimp only
    rw [Links.addTail_head]
    by_cases hm : m = p.made
    · simp [hm]
    · rw [if_neg hm]
      exact and_congr_left (fun _ => by omega)

theorem take_inHand {free : π} {size n : Nat} {p p' : Pool π} (h : Ok free p)
    (ht : p.take free size = some (n, p')) :
    ¬ p.InHand n ∧ ∀ m, p'.InHand m ↔ p.InHand m ∨ m = n := by
  simp only [take] at ht
  generalize hp₀ : (if p.links.list free = [] then p.add free size else p) = p₀ at ht
  have h₀ : Ok free p₀ ∧ ∀ k, p₀.InHand k ↔ p.InHand k := by
    split at hp₀
    · subst hp₀
      exact ⟨(h.add size).1, add_inHand free size p⟩
    · subst hp₀
      exact ⟨h, fun _ => Iff.rfl⟩
  cases hlist : p₀.links.list free with
  | nil => simp [hlist] at ht
  | cons k ns =>
    simp only [hlist, Option.some.injEq, Prod.mk.injEq] at ht
    obtain ⟨rfl, rfl⟩ := ht
    have hk : p₀.links.head k = some free :=
      (h₀.1.wf.mem_iff _ k).mp (by rw [hlist]; exact List.mem_cons_self)
    have hlt := h₀.1.lt_of_head hk
    refine ⟨fun hin => ?_, fun m => ?_⟩
    · have hnone := ((h₀.2 k).mpr hin).2
      rw [hk] at hnone
      cases hnone
    · rw [← h₀.2, InHand, InHand]
      dsimp only
      rw [Links.unlink_head]
      by_cases hm : m = k
      · simp [hm, hlt]
      · simp [hm]

theorem give_inHand (free : π) (n : Nat) (p : Pool π) (m : Nat) :
    (p.give free n).InHand m ↔ p.InHand m ∧ m ≠ n := by
  rw [InHand, InHand, give_head]
  by_cases hm : m = n
  · simp [hm]
  · simp [hm, give]

theorem link_inHand (n : Nat) (q : π) (p : Pool π) (m : Nat) :
    (p.link n q).InHand m ↔ p.InHand m ∧ m ≠ n := by
  rw [InHand, InHand, link_head]
  by_cases hm : m = n
  · simp [hm]
  · simp [hm, link]

/-- A linked record is taken in hand. -/
theorem unlink_inHand {p : Pool π} {n : Nat} (hn : n < p.made) (m : Nat) :
    InHand { p with links := p.links.unlink n } m ↔ p.InHand m ∨ m = n := by
  rw [InHand, InHand]
  dsimp only
  rw [Links.unlink_head]
  by_cases hm : m = n
  · simp [hm, hn]
  · simp [hm]

namespace Full

variable {free q : π} {p p' : Pool π} {n : Nat}

theorem add (h : Full p) (size : Nat) : Full (p.add free size) := by
  induction size generalizing p with
  | zero => exact h
  | succ size ih =>
    refine ih (fun m hm => ?_)
    simp only [make] at hm ⊢
    rw [Links.addTail_head]
    split
    · simp
    · exact h m (by omega)

/-- The record that is taken is the only one that is not linked. -/
theorem take (h : Full p) {size : Nat} (ht : p.take free size = some (n, p')) :
    ∀ m, m < p'.made → m ≠ n → p'.links.head m ≠ none := by
  simp only [Pool.take] at ht
  generalize hp₀ : (if p.links.list free = [] then p.add free size else p) = p₀ at ht
  have h₀ : Full p₀ := by
    split at hp₀
    · subst hp₀
      exact h.add size
    · subst hp₀
      exact h
  intro m hm hne
  split at ht
  · cases ht
  · cases ht
    rw [Links.unlink_head, if_neg hne]
    exact h₀ m hm

theorem link (h : ∀ m, m < p.made → m ≠ n → p.links.head m ≠ none) (q : π) :
    Full (p.link n q) := by
  intro m hm
  rw [link_head]
  split
  · simp
  · next hne => exact h m hm hne

theorem give (h : Full p) (free : π) (n : Nat) : Full (p.give free n) := by
  intro m hm
  rw [give_head]
  split
  · simp
  · exact h m hm

omit [DecidableEq π] in
/-- Every record made is on exactly one list. -/
theorem existsUnique (h : Full p) (hok : Ok free p) (hn : n < p.made) :
    ∃! q, n ∈ p.links.list q := by
  cases hq : p.links.head n with
  | none => exact absurd hq (h n hn)
  | some q =>
    refine ⟨q, (hok.wf.mem_iff q n).mpr hq, fun q' hq' => ?_⟩
    have hhead := (hok.wf.mem_iff q' n).mp hq'
    rw [hq, Option.some.injEq] at hhead
    exact hhead.symm

end Full

end

/-- The records in hand are in the hand of one holder each. -/
structure HeldBy {ω : Type} (p : Pool π) (hand : ω → Option Nat) : Prop where
  iff : ∀ n, p.InHand n ↔ ∃ w, hand w = some n
  apart : ∀ w w' n, hand w = some n → hand w' = some n → w = w'

namespace HeldBy

variable {ω : Type} {p p' : Pool π} {hand hand' : ω → Option Nat} {w : ω} {n : Nat}

theorem congr (h : HeldBy p hand) (hp : ∀ m, p'.InHand m ↔ p.InHand m) (hh : hand' = hand) :
    HeldBy p' hand' := by
  subst hh
  exact ⟨fun m => (hp m).trans (h.iff m), h.apart⟩

variable [DecidableEq ω]

theorem grab (h : HeldBy p hand) (hw : hand w = none) (hn : ¬ p.InHand n)
    (hp : ∀ m, p'.InHand m ↔ p.InHand m ∨ m = n)
    (hh : hand' = Function.update hand w (some n)) : HeldBy p' hand' := by
  subst hh
  have hfresh : ∀ v, hand v ≠ some n := fun v hv => hn ((h.iff n).mpr ⟨v, hv⟩)
  refine ⟨fun m => ?_, fun v v' m hv hv' => ?_⟩
  · rw [hp, h.iff]
    constructor
    · rintro (⟨v, hv⟩ | rfl)
      · have hne : v ≠ w := by
          rintro rfl
          rw [hw] at hv
          cases hv
        exact ⟨v, by rw [Function.update_of_ne hne, hv]⟩
      · exact ⟨w, Function.update_self ..⟩
    · rintro ⟨v, hv⟩
      by_cases hvw : v = w
      · subst hvw
        rw [Function.update_self, Option.some.injEq] at hv
        exact Or.inr hv.symm
      · rw [Function.update_of_ne hvw] at hv
        exact Or.inl ⟨v, hv⟩
  · by_cases hvw : v = w
    · subst hvw
      rw [Function.update_self, Option.some.injEq] at hv
      subst hv
      by_contra hne
      rw [Function.update_of_ne (Ne.symm hne)] at hv'
      exact hfresh v' hv'
    · rw [Function.update_of_ne hvw] at hv
      by_cases hvw' : v' = w
      · subst hvw'
        rw [Function.update_self, Option.some.injEq] at hv'
        exact absurd (hv'.symm ▸ hv) (hfresh v)
      · rw [Function.update_of_ne hvw'] at hv'
        exact h.apart v v' m hv hv'

theorem drop (h : HeldBy p hand) (hw : hand w = some n)
    (hp : ∀ m, p'.InHand m ↔ p.InHand m ∧ m ≠ n) (hh : hand' = Function.update hand w none) :
    HeldBy p' hand' := by
  subst hh
  have hold : ∀ v m, Function.update hand w none v = some m → v ≠ w ∧ hand v = some m := by
    intro v m hv
    by_cases hvw : v = w
    · rw [hvw, Function.update_self] at hv
      cases hv
    · rw [Function.update_of_ne hvw] at hv
      exact ⟨hvw, hv⟩
  refine ⟨fun m => ?_, fun v v' m hv hv' => h.apart v v' m (hold v m hv).2 (hold v' m hv').2⟩
  rw [hp, h.iff]
  constructor
  · rintro ⟨⟨v, hv⟩, hne⟩
    have hvw : v ≠ w := by
      rintro rfl
      rw [hw, Option.some.injEq] at hv
      exact hne hv.symm
    exact ⟨v, by rw [Function.update_of_ne hvw, hv]⟩
  · rintro ⟨v, hv⟩
    obtain ⟨hvw, hv⟩ := hold v m hv
    refine ⟨⟨v, hv⟩, ?_⟩
    rintro rfl
    exact hvw (h.apart v w m hv hw)

omit [DecidableEq ω] in
/-- Every record made is on exactly one list, or in exactly one hand. -/
theorem place {free : π} (h : HeldBy p hand) (hok : Ok free p) (hn : n < p.made) :
    (∃! q, n ∈ p.links.list q) ∧ (∀ w, hand w ≠ some n) ∨
      (∀ q, n ∉ p.links.list q) ∧ ∃! w, hand w = some n := by
  cases hq : p.links.head n with
  | none =>
    obtain ⟨w, hw⟩ := (h.iff n).mp ⟨hn, hq⟩
    refine Or.inr ⟨fun q hmem => ?_, w, hw, fun v hv => h.apart v w n hv hw⟩
    rw [hok.wf.mem_iff, hq] at hmem
    cases hmem
  | some q =>
    refine Or.inl ⟨⟨q, (hok.wf.mem_iff q n).mpr hq, fun q' hq' => ?_⟩, fun w hw => ?_⟩
    · have hhead := (hok.wf.mem_iff q' n).mp hq'
      rw [hq, Option.some.injEq] at hhead
      exact hhead.symm
    · have hnone := ((h.iff n).mpr ⟨w, hw⟩).2
      rw [hq] at hnone
      cases hnone

end HeldBy

end Pool

end AlgorithmLib
