import AlgorithmLib.Library.Run
import AlgorithmLib.MemLeaks.Model
import Mathlib.Algebra.BigOperators.Group.Finset.Piecewise
import Mathlib.Data.Fintype.BigOperators

set_option autoImplicit false

namespace AlgorithmLib.MemLeaks

def shown : Option Block → List Nat
  | some ⟨size, true⟩ => [size.toNat]
  | _ => []

namespace Hash

def sizes (h : Hash) (p : UInt64) : List Nat :=
  ((h.bucket (memHashKey p)).filter fun i => i.p = p).map fun i => i.size.toNat

/-- An entry is in the bucket of its address, and the counters agree with the buckets. -/
structure Counted (h : Hash) : Prop where
  placed : ∀ k, ∀ i ∈ h.bucket k, memHashKey i.p = k
  count : ∀ k, h.count k = (h.bucket k).length
  total : h.total = ∑ k, h.count k

/-- One entry for each tracked block, with its size, and no other one. -/
structure Mirrors (h : Hash) (live : Live) : Prop extends Counted h where
  entries : ∀ p, h.sizes p = shown (live p)

variable {h : Hash} {p q : UInt64} {i : Info}

theorem sum_update (f : Key → Int) (k : Key) (d : Int) :
    ∑ k', Function.update f k (f k + d) k' = (∑ k', f k') + d := by
  rw [Finset.sum_update_of_mem (Finset.mem_univ k), ← Finset.erase_eq,
    ← Finset.add_sum_erase _ f (Finset.mem_univ k)]
  omega

theorem counted_empty : empty.Counted where
  placed := fun _ _ h => absurd h List.not_mem_nil
  count := fun _ => rfl
  total := Finset.sum_const_zero.symm

theorem Counted.memHashAdd (hc : h.Counted) (i : Info) : (h.memHashAdd i).Counted where
  placed := fun k j hj => by
    by_cases hk : k = memHashKey i.p
    · subst hk
      simp only [Hash.memHashAdd, Function.update_self] at hj
      obtain rfl | hj := List.mem_cons.mp hj
      · rfl
      · exact hc.placed _ j hj
    · simp only [Hash.memHashAdd, Function.update_of_ne hk] at hj
      exact hc.placed k j hj
  count := fun k => by
    by_cases hk : k = memHashKey i.p
    · subst hk
      simp [Hash.memHashAdd, hc.count]
    · simp [Hash.memHashAdd, hk, hc.count]
  total := by
    simp only [Hash.memHashAdd, sum_update, ← hc.total]

theorem Counted.memHashDel (hc : h.Counted) (hi : h.memHashLookup p = some i) :
    (h.memHashDel i).Counted where
  placed := fun k j hj => by
    by_cases hk : k = memHashKey i.p
    · subst hk
      simp only [Hash.memHashDel, Function.update_self] at hj
      exact hc.placed _ j (List.mem_of_mem_eraseP hj)
    · simp only [Hash.memHashDel, Function.update_of_ne hk] at hj
      exact hc.placed k j hj
  count := fun k => by
    by_cases hk : k = memHashKey i.p
    · subst hk
      have hp := Keyed.key_of_lookup hi
      have hmem : i ∈ h.bucket (memHashKey i.p) := hp ▸ Keyed.mem_of_lookup hi
      have hlen := List.length_eraseP_of_mem hmem (p := fun j => j.p = i.p) (by simp)
      have hpos := List.length_pos_of_mem hmem
      simp only [Hash.memHashDel, Function.update_self, hc.count, hlen]
      omega
    · simp [Hash.memHashDel, hk, hc.count]
  total := by
    simp only [Hash.memHashDel, sub_eq_add_neg, sum_update, ← hc.total]

theorem Counted.memAllocInfoDel (hc : h.Counted) (p : UInt64) : (h.memAllocInfoDel p).Counted := by
  rw [Hash.memAllocInfoDel]
  cases hi : h.memHashLookup p with
  | none => exact hc
  | some i => exact hc.memHashDel hi

theorem filter_eraseP (p q : UInt64) (l : List Info) :
    (l.eraseP fun i => i.p = p).filter (fun i => i.p = q) =
      if q = p then (l.filter fun i => i.p = q).tail else l.filter fun i => i.p = q := by
  induction l with
  | nil => simp
  | cons i l ih =>
    by_cases hi : i.p = p
    · rw [List.eraseP_cons_of_pos (by simpa using hi)]
      by_cases hq : q = p
      · simp [hi, hq]
      · simp [hi, hq, Ne.symm hq]
    · rw [List.eraseP_cons_of_neg (by simpa using hi), List.filter_cons, ih]
      by_cases hq : q = p
      · simp [hi, hq]
      · simp only [hq, if_false]
        rw [List.filter_cons]

theorem sizes_memHashAdd (h : Hash) (i : Info) :
    (h.memHashAdd i).sizes = Function.update h.sizes i.p (i.size.toNat :: h.sizes i.p) := by
  funext q
  by_cases hq : q = i.p
  · subst hq
    simp [sizes, memHashAdd]
  · rw [Function.update_of_ne hq, sizes, sizes, memHashAdd]
    by_cases hk : memHashKey q = memHashKey i.p
    · simp [hk, Ne.symm hq]
    · simp [hk]

theorem memHashLookup_eq_none : h.memHashLookup p = none ↔ h.sizes p = [] := by
  rw [memHashLookup, Keyed.lookup_eq_none_iff, sizes, List.map_eq_nil_iff, List.filter_eq_nil_iff]
  simp

theorem sizes_memAllocInfoDel (h : Hash) (p : UInt64) :
    (h.memAllocInfoDel p).sizes = Function.update h.sizes p (h.sizes p).tail := by
  rw [memAllocInfoDel]
  cases hi : h.memHashLookup p with
  | none => simp [memHashLookup_eq_none.mp hi]
  | some i =>
    obtain rfl := Keyed.key_of_lookup hi
    funext q
    by_cases hq : q = i.p
    · subst hq
      simp [sizes, memHashDel, filter_eraseP, List.map_tail]
    · rw [Function.update_of_ne hq]
      by_cases hk : memHashKey q = memHashKey i.p
      · simp [sizes, memHashDel, hk, filter_eraseP, hq]
      · simp [sizes, memHashDel, hk]

end Hash

section

variable {live live' : Live} {b : Block} {ptr p : UInt64}

theorem libcMalloc_cases (h : libcMalloc live b p = some live') : (p = 0 ∧ live' = live) ∨
    (p ≠ 0 ∧ live p = none ∧ live' = Function.update live p (some b)) := by
  rw [libcMalloc] at h
  split at h
  · rename_i hp
    exact .inl ⟨hp, (Option.some.inj h).symm⟩
  · rename_i hp
    split at h
    · cases h
    · rename_i hlive
      exact .inr ⟨hp, by simpa using hlive, (Option.some.inj h).symm⟩

/-- A product that does not overflow is that of the naturals. -/
theorem libcCalloc_cases {n m : UInt64} {tracked : Bool}
    (h : libcCalloc live n m tracked p = some live') :
    libcMalloc live ⟨n * m, tracked⟩ p = some live' ∧
      (p ≠ 0 → (n * m).toNat = n.toNat * m.toNat) := by
  rw [libcCalloc] at h
  split at h
  · cases h
  · rename_i hno
    refine ⟨h, fun hp => ?_⟩
    have hlt : n.toNat * m.toNat < 2 ^ 64 := by
      by_contra hge
      exact hno ⟨hp, Nat.not_lt.mp hge⟩
    rw [UInt64.toNat_mul, Nat.mod_eq_of_lt hlt]

theorem libcRealloc_cases (hnull : live 0 = none) (h : libcRealloc live ptr b p = some live') :
    (p ≠ 0 ∧ (ptr ≠ 0 → b.size ≠ 0) ∧
      libcMalloc (Function.update live ptr none) b p = some live') ∨
    (p = 0 ∧ (ptr ≠ 0 → b.size ≠ 0) ∧ live' = live) ∨
    (p = 0 ∧ ptr ≠ 0 ∧ b.size = 0 ∧ live' = Function.update live ptr none) := by
  rw [libcRealloc] at h
  split at h
  · rename_i hptr
    have hsame : Function.update live ptr none = live :=
      Function.update_eq_self_iff.mpr (by rw [hptr, hnull])
    by_cases hp : p = 0
    · rw [libcMalloc, if_pos hp] at h
      exact .inr (.inl ⟨hp, fun hne => absurd hptr hne, (Option.some.inj h).symm⟩)
    · exact .inl ⟨hp, fun hne => absurd hptr hne, hsame.symm ▸ h⟩
  · rename_i hptr
    split at h
    · cases h
    · split at h
      · rename_i hsize
        split at h
        · exact .inr (.inr ⟨‹_›, hptr, hsize, (Option.some.inj h).symm⟩)
        · cases h
      · rename_i hsize
        split at h
        · exact .inr (.inl ⟨‹_›, fun _ => hsize, (Option.some.inj h).symm⟩)
        · exact .inl ⟨‹_›, fun _ => hsize, h⟩

theorem libcFree_cases (h : libcFree live ptr = some live') : (ptr = 0 ∧ live' = live) ∨
    (ptr ≠ 0 ∧ live' = Function.update live ptr none) := by
  rw [libcFree] at h
  split at h
  · exact .inl ⟨‹_›, (Option.some.inj h).symm⟩
  · split at h
    · cases h
    · exact .inr ⟨‹_›, (Option.some.inj h).symm⟩

theorem libcMalloc_null (hnull : live 0 = none) (h : libcMalloc live b p = some live') :
    live' 0 = none := by
  obtain ⟨-, rfl⟩ | ⟨hp, -, rfl⟩ := libcMalloc_cases h
  · exact hnull
  · rw [Function.update_of_ne (Ne.symm hp), hnull]

theorem drop_null (hnull : live 0 = none) (ptr : UInt64) :
    Function.update live ptr none 0 = none := by
  by_cases hptr : 0 = ptr
  · rw [hptr, Function.update_self]
  · rw [Function.update_of_ne hptr, hnull]

end

def showns (live : Live) (p : UInt64) : List Nat := shown (live p)

theorem showns_update (live : Live) (p : UInt64) (b : Option Block) :
    showns (Function.update live p b) = Function.update (showns live) p (shown b) := by
  funext q
  rw [showns, Function.apply_update (fun _ => shown)]
  rfl

theorem shown_tail (b : Option Block) : (shown b).tail = [] := by
  rcases b with - | ⟨size, - | -⟩ <;> rfl

theorem showns_untracked {live : Live} {p : UInt64} (hp : live p = none) (size : UInt64) :
    showns (Function.update live p (some ⟨size, false⟩)) = showns live := by
  rw [showns_update]
  exact Function.update_eq_self_iff.mpr (by rw [showns, hp]; rfl)

namespace Hash

variable {h : Hash} {live : Live} {p : UInt64}

theorem sizes_memAllocInfoAdd (h : Hash) (p size : UInt64) : (h.memAllocInfoAdd p size).sizes =
    Function.update h.sizes p (size.toUInt32.toNat :: h.sizes p) := h.sizes_memHashAdd _

theorem sizes_drop (hs : h.sizes = showns live) (p : UInt64) :
    (h.memAllocInfoDel p).sizes = showns (Function.update live p none) := by
  rw [sizes_memAllocInfoDel, showns_update, hs, showns, shown_tail]
  rfl

theorem sizes_enter (hs : h.sizes = showns live) (hp : live p = none) (size : UInt64) :
    (h.memAllocInfoAdd p size).sizes = showns (Function.update live p (some ⟨size, true⟩)) ↔
      size.toNat < 2 ^ 32 := by
  have hnone : h.sizes p = [] := by
    rw [hs, showns, hp]
    rfl
  rw [sizes_memAllocInfoAdd, showns_update, hs, ← hs, hnone]
  constructor
  · intro heq
    have hsize := congrFun heq p
    rw [Function.update_self, Function.update_self, shown, UInt64.toNat_toUInt32] at hsize
    have hmod := List.head_eq_of_cons_eq hsize
    omega
  · intro hlt
    rw [shown, UInt64.toNat_toUInt32, Nat.mod_eq_of_lt hlt]

theorem sizes_null (hp : live 0 = none) (size : UInt64) :
    (h.memAllocInfoAdd 0 size).sizes ≠ showns live := by
  intro heq
  have hnull := congrFun heq 0
  rw [sizes_memAllocInfoAdd, Function.update_self, showns, hp] at hnull
  cases hnull

theorem sizes_malloc (hs : h.sizes = showns live) (hnull : live 0 = none) {size : UInt64}
    {live' : Live} (hl : libcMalloc live ⟨size, true⟩ p = some live') :
    (h.memAllocInfoAdd p size).sizes = showns live' ↔ p ≠ 0 ∧ size.toNat < 2 ^ 32 := by
  obtain ⟨rfl, rfl⟩ | ⟨hp, hnone, rfl⟩ := libcMalloc_cases hl
  · exact ⟨fun heq => absurd heq (sizes_null hnull size), fun hp => absurd rfl hp.1⟩
  · rw [sizes_enter hs hnone, and_iff_right hp]

theorem sizes_malloc_untracked (hs : h.sizes = showns live) {size : UInt64} {live' : Live}
    (hl : libcMalloc live ⟨size, false⟩ p = some live') : h.sizes = showns live' := by
  obtain ⟨-, rfl⟩ | ⟨-, hnone, rfl⟩ := libcMalloc_cases hl
  · exact hs
  · rw [showns_untracked hnone, hs]

end Hash

namespace Mem

def entered (s : Mem) : Hash :=
  match s.frame with
  | some (.add p size) => s.hash.memAllocInfoAdd p size
  | _ => s.hash

/-- The table, together with the entry that a call has still to make, shows the tracked blocks. -/
def Mirrored (s : Mem) : Prop := s.entered.Mirrors s.live

/-- No tracked call fails or allocates four gigabytes, and `realloc` frees no block that is in the
table. -/
def Clean (s : Mem) : Act → Prop
  | .malloc size p => s.tracking = true → p ≠ 0 ∧ size.toNat < 2 ^ 32
  | .calloc numElements sizeOfElement p =>
    s.tracking = true → p ≠ 0 ∧ numElements.toNat * sizeOfElement.toNat < 2 ^ 32
  | .realloc ptr size p => (ptr ≠ 0 → size = 0 → s.hash.memHashLookup ptr = none) ∧
      (s.tracking = true → p ≠ 0 → size.toNat < 2 ^ 32)
  | _ => True

instance (s : Mem) : ∀ a, Decidable (s.Clean a)
  | .malloc _ _ => inferInstanceAs (Decidable (_ → _))
  | .calloc _ _ _ => inferInstanceAs (Decidable (_ → _))
  | .realloc _ _ _ => inferInstanceAs (Decidable (_ ∧ _))
  | .memLeaksStart | .memLeaksStop | .free _ | .add | .leave => .isTrue trivial

structure Inv (s : Mem) : Prop where
  counted : s.hash.Counted
  null : s.live 0 = none
  outside : s.pids = true → s.frame = none

theorem inv_init : init.Inv where
  counted := Hash.counted_empty
  null := rfl
  outside := fun _ => rfl

variable {s t : Mem} {ptr size p : UInt64}

theorem Inv.frame_of_tracking (hi : s.Inv) (ht : s.tracking = true) : s.frame = none :=
  hi.outside (Bool.and_eq_true_iff.mp ht).2

theorem Inv.entered_of_tracking (hi : s.Inv) (ht : s.tracking = true) : s.entered = s.hash := by
  rw [entered, hi.frame_of_tracking ht]

theorem Inv.mirrored_iff (hi : s.Inv) : s.Mirrored ↔ s.entered.sizes = showns s.live := by
  refine ⟨fun h => funext h.entries, fun h => ⟨?_, congrFun h⟩⟩
  rw [entered]
  split
  · exact hi.counted.memHashAdd _
  · exact hi.counted

theorem entered_memAllocInfoDel (hm : s.entered.sizes = showns s.live) (hnull : s.live 0 = none)
    (hheld : s.held ptr = false) :
    (s.memAllocInfoDel ptr).entered.sizes = (s.entered.memAllocInfoDel ptr).sizes := by
  cases hf : s.frame with
  | none => simp only [entered, memAllocInfoDel, hf]
  | some f =>
    cases f with
    | leave => simp only [entered, memAllocInfoDel, hf]
    | add p size =>
      have hne : ptr ≠ p := by
        rintro rfl
        have hptr : ptr = 0 := by simpa [held, hf] using hheld
        subst hptr
        rw [entered, hf] at hm
        exact Hash.sizes_null hnull size hm
      simp only [entered, memAllocInfoDel, hf, Hash.sizes_memAllocInfoAdd,
        Hash.sizes_memAllocInfoDel]
      rw [Function.update_of_ne hne, Function.update_of_ne (Ne.symm hne),
        Function.update_comm hne]

theorem malloc_eq (s : Mem) (size p : UInt64) : s.malloc size p =
    (libcMalloc s.live ⟨size, s.tracking⟩ p).map fun live =>
      if s.tracking then s.enter live (.add p size) else { s with live := live } := by
  rw [malloc, tracking]
  cases s.memCheck <;> cases s.pids <;> rfl

theorem calloc_eq (s : Mem) (n m p : UInt64) : s.calloc n m p =
    (libcCalloc s.live n m s.tracking p).map fun live =>
      if s.tracking then s.enter live (.add p (n * m)) else { s with live := live } := by
  rw [calloc, tracking]
  cases s.memCheck <;> cases s.pids <;> rfl

theorem realloc_eq (s : Mem) (ptr size p : UInt64) : s.realloc ptr size p =
    (libcRealloc s.live ptr ⟨size, s.tracking⟩ p).map fun live =>
      let s' := if p ≠ 0 then s.memAllocInfoDel ptr else s
      if s.tracking then s'.enter live (if p ≠ 0 then .add p size else .leave)
      else { s' with live := live } := by
  obtain ⟨memCheck, pids, hash, live, frame⟩ := s
  by_cases hp : p = 0
  · cases memCheck <;> cases pids <;> simp [realloc, tracking, hp]
  · cases memCheck <;> cases pids <;> simp [realloc, tracking, hp, memAllocInfoDel]

theorem Inv.enter (hi : s.Inv) {live : Live} (hnull : live 0 = none) (frame : Frame) :
    (s.enter live frame).Inv := ⟨hi.counted, hnull, fun h => absurd h Bool.false_ne_true⟩

theorem Inv.setLive (hi : s.Inv) {live : Live} (hnull : live 0 = none) :
    ({ s with live := live } : Mem).Inv := ⟨hi.counted, hnull, hi.outside⟩

theorem Inv.memAllocInfoDel (hi : s.Inv) (ptr : UInt64) : (s.memAllocInfoDel ptr).Inv :=
  ⟨hi.counted.memAllocInfoDel ptr, hi.null, hi.outside⟩

theorem Inv.malloc (hi : s.Inv) (h : s.malloc size p = some t) : t.Inv := by
  rw [malloc_eq] at h
  obtain ⟨live, hl, rfl⟩ := Option.map_eq_some_iff.mp h
  split
  · exact hi.enter (libcMalloc_null hi.null hl) _
  · exact hi.setLive (libcMalloc_null hi.null hl)

theorem Inv.malloc_mirrored (hi : s.Inv) (hm : s.Mirrored) (h : s.malloc size p = some t) :
    t.Mirrored ↔ (s.tracking = true → p ≠ 0 ∧ size.toNat < 2 ^ 32) := by
  have hs := hi.mirrored_iff.mp hm
  rw [(hi.malloc h).mirrored_iff]
  rw [malloc_eq] at h
  obtain ⟨live, hl, rfl⟩ := Option.map_eq_some_iff.mp h
  cases ht : s.tracking with
  | false =>
    rw [ht] at hl
    exact iff_of_true (Hash.sizes_malloc_untracked hs hl) (fun h => absurd h Bool.false_ne_true)
  | true =>
    rw [ht] at hl
    rw [hi.entered_of_tracking ht] at hs
    exact (Hash.sizes_malloc hs hi.null hl).trans ⟨fun h _ => h, fun h => h rfl⟩

/-- What `calloc` does is a `malloc` of the product. -/
theorem malloc_of_calloc {n m : UInt64} (h : s.calloc n m p = some t) :
    s.malloc (n * m) p = some t ∧ (p ≠ 0 → (n * m).toNat = n.toNat * m.toNat) := by
  rw [calloc_eq] at h
  obtain ⟨live, hl, rfl⟩ := Option.map_eq_some_iff.mp h
  obtain ⟨hl, hproduct⟩ := libcCalloc_cases hl
  rw [malloc_eq, hl]
  exact ⟨rfl, hproduct⟩

theorem Inv.realloc (hi : s.Inv) (h : s.realloc ptr size p = some t) : t.Inv := by
  rw [realloc_eq] at h
  obtain ⟨live, hl, rfl⟩ := Option.map_eq_some_iff.mp h
  have hnull : live 0 = none := by
    obtain ⟨-, -, hl⟩ | ⟨-, -, rfl⟩ | ⟨-, -, -, rfl⟩ := libcRealloc_cases hi.null hl
    · exact libcMalloc_null (drop_null hi.null ptr) hl
    · exact hi.null
    · exact drop_null hi.null ptr
  have hdel : (if p ≠ 0 then s.memAllocInfoDel ptr else s).Inv := by
    split
    · exact hi.memAllocInfoDel ptr
    · exact hi
  dsimp only
  split
  · exact hdel.enter hnull _
  · exact hdel.setLive hnull

theorem entered_sizes (hheld : s.held ptr = false) (hptr : ptr ≠ 0) :
    s.entered.sizes ptr = s.hash.sizes ptr := by
  cases hf : s.frame with
  | none => simp only [entered, hf]
  | some f =>
    cases f with
    | leave => simp only [entered, hf]
    | add p size =>
      have hne : ptr ≠ p := by simpa [held, hf, hptr] using hheld
      simp only [entered, hf]
      rw [Hash.sizes_memAllocInfoAdd, Function.update_of_ne hne]

theorem Inv.realloc_mirrored (hi : s.Inv) (hm : s.Mirrored) (hheld : s.held ptr = false)
    (h : s.realloc ptr size p = some t) : t.Mirrored ↔ s.Clean (.realloc ptr size p) := by
  have hs := hi.mirrored_iff.mp hm
  rw [(hi.realloc h).mirrored_iff]
  rw [realloc_eq] at h
  obtain ⟨live, hl, rfl⟩ := Option.map_eq_some_iff.mp h
  -- nothing is entered when null is returned
  have hentered : p = 0 → ∀ t : Mem, (if s.tracking then s.enter live .leave
      else { s with live := live }) = t → t.entered = s.entered ∧ t.live = live := by
    rintro - t rfl
    split
    · rename_i ht
      exact ⟨(hi.entered_of_tracking ht).symm, rfl⟩
    · exact ⟨rfl, rfl⟩
  obtain ⟨hp, hsize, hl⟩ | ⟨hp, hsize, rfl⟩ | ⟨hp, hptr, hsize, rfl⟩ := libcRealloc_cases hi.null hl
  · have hclean : s.Clean (.realloc ptr size p) ↔ (s.tracking = true → size.toNat < 2 ^ 32) :=
      ⟨fun h ht => h.2 ht hp, fun h => ⟨fun hptr h0 => absurd h0 (hsize hptr), fun ht _ => h ht⟩⟩
    rw [hclean]
    dsimp only
    rw [if_pos hp, if_pos hp]
    cases ht : s.tracking with
    | false =>
      rw [ht] at hl
      have hdrop := Hash.sizes_drop hs ptr
      rw [← entered_memAllocInfoDel hs hi.null hheld] at hdrop
      exact iff_of_true (Hash.sizes_malloc_untracked hdrop hl) (fun h => absurd h Bool.false_ne_true)
    | true =>
      rw [ht] at hl
      rw [hi.entered_of_tracking ht] at hs
      refine (Hash.sizes_malloc (Hash.sizes_drop hs ptr) (drop_null hi.null ptr) hl).trans ?_
      exact ⟨fun h _ => h.2, fun h => ⟨hp, h rfl⟩⟩
  · have hclean : s.Clean (.realloc ptr size p) :=
      ⟨fun hptr h0 => absurd h0 (hsize hptr), fun _ h0 => absurd hp h0⟩
    dsimp only
    rw [if_neg (not_not_intro hp), if_neg (not_not_intro hp)]
    obtain ⟨he, hlive⟩ := hentered hp _ rfl
    rw [he, hlive]
    exact iff_of_true hs hclean
  · dsimp only at hsize
    dsimp only
    rw [if_neg (not_not_intro hp), if_neg (not_not_intro hp)]
    obtain ⟨he, hlive⟩ := hentered hp _ rfl
    have hclean : s.Clean (.realloc ptr size p) ↔ showns s.live ptr = [] := by
      rw [← hs, entered_sizes hheld hptr, ← Hash.memHashLookup_eq_none]
      exact ⟨fun h => h.1 hptr hsize, fun h => ⟨fun _ _ => h, fun _ h0 => absurd hp h0⟩⟩
    rw [he, hlive, hs, hclean, showns_update, eq_comm]
    exact Function.update_eq_self_iff.trans eq_comm

theorem Inv.free (hi : s.Inv) (h : s.free ptr = some t) : t.Inv := by
  obtain ⟨live, hl, rfl⟩ := Option.map_eq_some_iff.mp h
  obtain ⟨hptr, rfl⟩ | ⟨hptr, rfl⟩ := libcFree_cases hl
  · rw [if_neg (not_not_intro hptr)] at *
    exact hi
  · rw [if_pos hptr]
    exact (hi.memAllocInfoDel ptr).setLive (drop_null hi.null ptr)

theorem Inv.free_mirrored (hi : s.Inv) (hm : s.Mirrored) (hheld : s.held ptr = false)
    (h : s.free ptr = some t) : t.Mirrored := by
  rw [(hi.free h).mirrored_iff]
  have hs := hi.mirrored_iff.mp hm
  obtain ⟨live, hl, rfl⟩ := Option.map_eq_some_iff.mp h
  obtain ⟨hptr, rfl⟩ | ⟨hptr, rfl⟩ := libcFree_cases hl
  · rw [if_neg (not_not_intro hptr)]
    exact hs
  · rw [if_pos hptr]
    exact (entered_memAllocInfoDel hs hi.null hheld).trans (Hash.sizes_drop hs ptr)

theorem Inv.step (hi : s.Inv) {a : Act} (h : MemLeaks.step s a = some t) : t.Inv := by
  cases a with
  | memLeaksStart | memLeaksStop =>
    obtain ⟨-, ht⟩ := Option.ite_none_right_eq_some.mp h
    cases ht
    exact ⟨hi.counted, hi.null, hi.outside⟩
  | malloc size p => exact hi.malloc h
  | calloc n m p => exact hi.malloc (malloc_of_calloc h).1
  | realloc ptr size p => exact hi.realloc (Option.ite_none_left_eq_some.mp h).2
  | free ptr => exact hi.free (Option.ite_none_left_eq_some.mp h).2
  | add =>
    simp only [MemLeaks.step] at h
    split at h
    · rename_i p size hf
      cases h
      refine ⟨hi.counted.memHashAdd _, hi.null, fun hpids => ?_⟩
      rw [hi.outside hpids] at hf
      cases hf
    · cases h
  | leave =>
    simp only [MemLeaks.step] at h
    split at h
    · cases h
      exact ⟨hi.counted, hi.null, fun _ => rfl⟩
    · cases h

theorem Inv.step_mirrored (hi : s.Inv) (hm : s.Mirrored) {a : Act}
    (h : MemLeaks.step s a = some t) : t.Mirrored ↔ s.Clean a := by
  cases a with
  | memLeaksStart | memLeaksStop =>
    obtain ⟨-, ht⟩ := Option.ite_none_right_eq_some.mp h
    cases ht
    exact iff_of_true hm trivial
  | malloc size p => exact hi.malloc_mirrored hm h
  | calloc n m p =>
    obtain ⟨hmalloc, hproduct⟩ := malloc_of_calloc h
    refine (hi.malloc_mirrored hm hmalloc).trans (forall_congr' fun _ => ?_)
    exact and_congr_right fun hp => by rw [hproduct hp]
  | realloc ptr size p =>
    obtain ⟨hheld, h⟩ := Option.ite_none_left_eq_some.mp h
    exact hi.realloc_mirrored hm (by simpa using hheld) h
  | free ptr =>
    obtain ⟨hheld, h⟩ := Option.ite_none_left_eq_some.mp h
    exact iff_of_true (hi.free_mirrored hm (by simpa using hheld) h) trivial
  | add =>
    refine iff_of_true ?_ trivial
    simp only [MemLeaks.step] at h
    split at h
    · rename_i p size hf
      cases h
      simpa only [Mirrored, entered, hf] using hm
    · cases h
  | leave =>
    refine iff_of_true ?_ trivial
    simp only [MemLeaks.step] at h
    split at h
    · rename_i hf
      cases h
      simpa only [Mirrored, entered, hf] using hm
    · cases h

theorem mirrored_init : init.Mirrored := inv_init.mirrored_iff.mpr rfl

end Mem

end AlgorithmLib.MemLeaks
