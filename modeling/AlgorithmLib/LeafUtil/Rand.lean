import AlgorithmLib.Library.Sample
import Mathlib.Data.Int.Basic
import Mathlib.Logic.Function.Basic

/-!
`util/rand.go`: `RandIntervalN` draws different numbers of an interval. The map stands for the array
of the numbers that are left, of which it has only the places that differ from the beginning.
-/

set_option autoImplicit false

namespace AlgorithmLib.LeafUtil

/-- `m`: a key that is not in the map has `none`. -/
abbrev RandMap := Int32 → Option Int32

/-- The body of the loop, with the answer `d` of `rand.Int63n(l)`. -/
def randTurn (min l : Int) (m : RandMap) (d : Nat) : Int32 × RandMap :=
  let v := Int32.ofInt (d + min)
  let r := (m v).getD v
  let lv := Int32.ofInt (l - 1 + min)
  (r, if v ≠ lv then Function.update m v (some ((m lv).getD lv)) else m)

def randLoop (min : Int) : Int → RandMap → List Nat → List Int32
  | _, _, [] => []
  | l, m, d :: ds => (randTurn min l m d).1 :: randLoop min (l - 1) (randTurn min l m d).2 ds

/-- `min` and `max` after they have been swapped if need be. -/
def interval (b1 b2 : Int32) : Int × Int :=
  if b1.toInt > b2.toInt then (b2.toInt, b1.toInt) else (b1.toInt, b2.toInt)

/-- `l := max - min + 1` -/
def intervalLen (b1 b2 : Int32) : Int := (interval b1 b2).2 - (interval b1 b2).1 + 1

/-- `n`, or as many numbers as there are. -/
def randCount (b1 b2 : Int32) (n : UInt32) : UInt32 :=
  if n.toNat > intervalLen b1 b2 then UInt32.ofNat (intervalLen b1 b2).toNat else n

def randIntervalN (b1 b2 : Int32) (n : UInt32) (rand : List Nat) : List Int32 :=
  if b1 = b2 then [b1]
  else randLoop (interval b1 b2).1 (intervalLen b1 b2) (fun _ => none)
    (rand.take (randCount b1 b2 n).toNat)

def numbers (min : Int) (l : Nat) : List Int32 :=
  (List.range l).map fun (k : Nat) => Int32.ofInt (k + min)

/-- The map stands for the list, whose place `k` it knows as `k + min`. -/
def Stands (min : Int) (m : RandMap) (left : List Int32) : Prop :=
  ∀ (k : Nat) (x : Int32), left[k]? = some x →
    (m (Int32.ofInt (k + min))).getD (Int32.ofInt (k + min)) = x

def Places (min : Int) (l : Nat) : Prop := -2147483648 ≤ min ∧ min + l ≤ 2147483648

variable {min : Int} {l n : Nat} {m : RandMap} {left : List Int32} {d k : Nat} {ds : List Nat}

theorem toInt_place (h : Places min l) (hk : k < l) : (Int32.ofInt (k + min)).toInt = k + min := by
  obtain ⟨hmin, hmax⟩ := h
  exact Int32.toInt_ofInt_of_le (by omega) (by omega)

theorem place_inj (h : Places min l) (hk : k < l) (hd : d < l)
    (heq : Int32.ofInt (k + min) = Int32.ofInt (d + min)) : k = d := by
  have hint := congrArg Int32.toInt heq
  rw [toInt_place h hk, toInt_place h hd] at hint
  omega

theorem Places.mono (h : Places min l) (hle : n ≤ l) : Places min n :=
  ⟨h.1, by have := h.2; omega⟩

theorem randTurn_stands (hp : Places min left.length) (h : Stands min m left)
    (hd : d < left.length) :
    (randTurn min left.length m d).1 = left[d] ∧
    Stands min (randTurn min left.length m d).2 (Sample.takeOut left d) := by
  refine ⟨h d _ (List.getElem?_eq_getElem hd), fun k x hk => ?_⟩
  rcases List.eq_nil_or_concat left with rfl | ⟨init, y, hinit⟩
  · exact absurd hd (Nat.not_lt_zero d)
  rw [List.concat_eq_append] at hinit
  subst hinit
  have hlen : (init ++ [y]).length = init.length + 1 := by simp
  rw [hlen] at hd hp
  have hlast : (init.length + 1 : Nat) - 1 + min = init.length + min := by omega
  have hy := h init.length y (by simp)
  have hklt : k < init.length := by
    have hk := (List.getElem?_eq_some_iff.mp hk).1
    rw [Sample.length_takeOut (by rw [hlen]; exact hd), hlen] at hk
    exact hk
  rw [Sample.takeOut_concat] at hk
  simp only [randTurn, hlen, hlast, hy]
  by_cases hdl : d < init.length
  · have hne : Int32.ofInt (d + min) ≠ Int32.ofInt (init.length + min) := by
      intro heq
      exact absurd (place_inj hp hd (Nat.lt_succ_self _) heq) (Nat.ne_of_lt hdl)
    rw [if_pos hdl] at hk
    rw [if_pos hne]
    by_cases hkd : k = d
    · subst hkd
      rw [List.getElem?_set_self hdl, Option.some.injEq] at hk
      rw [Function.update_self, Option.getD_some, hk]
    · have hplace : Int32.ofInt (k + min) ≠ Int32.ofInt (d + min) := by
        intro heq
        exact hkd (place_inj hp (Nat.lt_succ_of_lt hklt) hd heq)
      rw [List.getElem?_set_ne (Ne.symm hkd)] at hk
      rw [Function.update_of_ne hplace]
      exact h k x (by rw [List.getElem?_append_left hklt]; exact hk)
  · have hdeq : d = init.length := by omega
    rw [if_neg hdl] at hk
    rw [hdeq, if_neg (not_not.mpr rfl)]
    exact h k x (by rw [List.getElem?_append_left hklt]; exact hk)

theorem randLoop_eq (hp : Places min left.length) (h : Stands min m left)
    (hds : Sample.InRange left.length ds) :
    randLoop min left.length m ds = Sample.sample left ds := by
  induction ds generalizing m left with
  | nil => rfl
  | cons d ds ih =>
    obtain ⟨hd, hds⟩ := hds
    obtain ⟨hdrawn, hstands⟩ := randTurn_stands hp h hd
    have hlen := Sample.length_takeOut hd
    have hint : (left.length : Int) - 1 = (Sample.takeOut left d).length := by omega
    rw [← hlen] at hds
    rw [randLoop, Sample.sample_cons (List.getElem?_eq_getElem hd), hdrawn, hint,
      ih (hp.mono (by omega)) hstands hds]

theorem length_numbers (min : Int) (l : Nat) : (numbers min l).length = l := by
  simp [numbers]

theorem numbers_stands (min : Int) (l : Nat) : Stands min (fun _ => none) (numbers min l) := by
  intro k x hk
  simp only [numbers, List.getElem?_map, Option.map_eq_some_iff] at hk
  obtain ⟨j, hj, rfl⟩ := hk
  obtain ⟨hlt, rfl⟩ := List.getElem?_eq_some_iff.mp hj
  simp

theorem nodup_numbers (hp : Places min l) : (numbers min l).Nodup := by
  refine List.Nodup.map_on (fun k hk d hd heq => ?_) List.nodup_range
  exact place_inj hp (List.mem_range.mp hk) (List.mem_range.mp hd) heq

theorem mem_numbers (hp : Places min l) (x : Int32) :
    x ∈ numbers min l ↔ min ≤ x.toInt ∧ x.toInt < min + l := by
  rw [numbers, List.mem_map]
  constructor
  · rintro ⟨k, hk, rfl⟩
    have hlt := List.mem_range.mp hk
    rw [toInt_place hp hlt]
    omega
  · rintro ⟨hmin, hmax⟩
    refine ⟨(x.toInt - min).toNat, List.mem_range.mpr (by omega), ?_⟩
    have hplace : (((x.toInt - min).toNat : Nat) : Int) + min = x.toInt := by omega
    rw [hplace, Int32.ofInt_toInt]

variable {b1 b2 : Int32}

theorem interval_places (b1 b2 : Int32) : ∃ l : Nat, intervalLen b1 b2 = l ∧ 0 < l ∧
    Places (interval b1 b2).1 l := by
  have h1 := b1.toInt_lt
  have h2 := b2.toInt_lt
  have h3 := b1.le_toInt
  have h4 := b2.le_toInt
  refine ⟨(intervalLen b1 b2).toNat, ?_⟩
  unfold intervalLen interval Places
  split <;> simp only <;> refine ⟨by omega, by omega, by omega, by omega⟩

/-- `rand` holds the answers to the calls of `rand.Int63n`, of which each is below its argument. -/
def Answers (b1 b2 : Int32) (n : UInt32) (rand : List Nat) : Prop :=
  rand.length = (randCount b1 b2 n).toNat ∧ Sample.InRange (intervalLen b1 b2).toNat rand

theorem randCount_toNat (b1 b2 : Int32) (n : UInt32) :
    ((randCount b1 b2 n).toNat : Int) = Min.min (n.toNat : Int) (intervalLen b1 b2) := by
  obtain ⟨l, hl, -, -⟩ := interval_places b1 b2
  have hn := n.toNat_lt
  rw [randCount, hl]
  split
  next hgt =>
    rw [Int.toNat_natCast, UInt32.toNat_ofNat', Nat.mod_eq_of_lt (by omega)]
    omega
  next hle => omega

theorem randIntervalN_eq {n : UInt32} {rand : List Nat} (hne : b1 ≠ b2)
    (h : Answers b1 b2 n rand) :
    randIntervalN b1 b2 n rand =
      Sample.sample (numbers (interval b1 b2).1 (intervalLen b1 b2).toNat) rand := by
  obtain ⟨l, hl, -, hp⟩ := interval_places b1 b2
  have hrange := h.2
  have hlen := length_numbers (interval b1 b2).1 l
  rw [hl, Int.toNat_natCast] at hrange
  rw [randIntervalN, if_neg hne, ← h.1, List.take_length, hl, Int.toNat_natCast]
  rw [← hlen] at hrange hp
  have hloop := randLoop_eq hp (numbers_stands (interval b1 b2).1 l) hrange
  rwa [hlen] at hloop

/-- The numbers are different ones of the interval, and for different bounds as many as asked for or
all of them. -/
theorem rand_interval_distinct {b1 b2 : Int32} {n : UInt32} {rand : List Nat}
    (h : Answers b1 b2 n rand) :
    (randIntervalN b1 b2 n rand).Nodup ∧
    (∀ x ∈ randIntervalN b1 b2 n rand,
      (interval b1 b2).1 ≤ x.toInt ∧ x.toInt ≤ (interval b1 b2).2) ∧
    ((randIntervalN b1 b2 n rand).length : Int) =
      if b1 = b2 then 1 else Min.min (n.toNat : Int) (intervalLen b1 b2) := by
  by_cases hb : b1 = b2
  · subst hb
    simp [randIntervalN, interval]
  · obtain ⟨l, hl, -, hp⟩ := interval_places b1 b2
    have hrange : Sample.InRange (numbers (interval b1 b2).1 l).length rand := by
      rw [length_numbers, ← Int.toNat_natCast l, ← hl]
      exact h.2
    rw [randIntervalN_eq hb h, hl, Int.toNat_natCast, if_neg hb]
    refine ⟨Sample.nodup_sample (nodup_numbers hp) hrange, fun x hx => ?_, ?_⟩
    · have hx := (mem_numbers hp x).mp (Sample.sample_subset hrange hx)
      rw [intervalLen] at hl
      omega
    · rw [Sample.length_sample hrange, h.1, randCount_toNat, hl]

/-- All the sequences of different numbers are equally likely: for different bounds each one is the
result of exactly one sequence of answers. -/
theorem rand_interval_uniform {b1 b2 : Int32} {n : UInt32} {r : List Int32} (hne : b1 ≠ b2)
    (hr : r.Nodup) (hlen : r.length = (randCount b1 b2 n).toNat)
    (hmem : ∀ x ∈ r, (interval b1 b2).1 ≤ x.toInt ∧ x.toInt ≤ (interval b1 b2).2) :
    ∃! rand, Answers b1 b2 n rand ∧ randIntervalN b1 b2 n rand = r := by
  obtain ⟨l, hl, -, hp⟩ := interval_places b1 b2
  have hsub : r ⊆ numbers (interval b1 b2).1 l := by
    intro x hx
    have hx := hmem x hx
    rw [mem_numbers hp]
    rw [intervalLen] at hl
    omega
  obtain ⟨rand, ⟨hrand, hrange, hsample⟩, hunique⟩ :=
    Sample.existsUnique_sample (nodup_numbers hp) hr hsub
  have hiff : ∀ ks, (Answers b1 b2 n ks ∧ randIntervalN b1 b2 n ks = r) ↔
      ks.length = r.length ∧ Sample.InRange (numbers (interval b1 b2).1 l).length ks ∧
        Sample.sample (numbers (interval b1 b2).1 l) ks = r := by
    intro ks
    rw [length_numbers]
    constructor
    · rintro ⟨h, hks⟩
      rw [randIntervalN_eq hne h, hl, Int.toNat_natCast] at hks
      refine ⟨h.1.trans hlen.symm, ?_, hks⟩
      rw [← Int.toNat_natCast l, ← hl]
      exact h.2
    · rintro ⟨hks, hin, hdrawn⟩
      have h : Answers b1 b2 n ks := ⟨hks.trans hlen, by rw [hl, Int.toNat_natCast]; exact hin⟩
      refine ⟨h, ?_⟩
      rw [randIntervalN_eq hne h, hl, Int.toNat_natCast]
      exact hdrawn
  exact ⟨rand, (hiff rand).mpr ⟨hrand, hrange, hsample⟩,
    fun ks hks => hunique ks ((hiff ks).mp hks)⟩

/-- The same answer twice, the second time for the number that was the last one. -/
theorem rand_interval_distinct_twice : (randIntervalN 7 5 2 [0, 0]).Nodup :=
  (rand_interval_distinct (show Answers 7 5 2 [0, 0] from ⟨by decide, by decide⟩)).1

theorem rand_interval_uniform_pair :
    ∃! rand, Answers 7 5 2 rand ∧ randIntervalN 7 5 2 rand = [6, 5] := by
  have hmem : ∀ x ∈ ([6, 5] : List Int32),
      (interval 7 5).1 ≤ x.toInt ∧ x.toInt ≤ (interval 7 5).2 := by
    intro x hx
    rcases List.mem_cons.mp hx with rfl | hx
    · exact ⟨by decide, by decide⟩
    · rw [List.mem_singleton.mp hx]
      exact ⟨by decide, by decide⟩
  exact rand_interval_uniform (by decide) (by decide) (by decide) hmem

end AlgorithmLib.LeafUtil
