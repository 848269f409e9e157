import AlgorithmLib.TimeWheel.Core
import Mathlib.Data.Nat.Bitwise

/-!
Where a node stands that is due at a given tick. Ticks are counted without wrap-around here;
the counter of the core is the tick modulo 2^32. A node of a coarse bucket moves down at the
first tick of the block of ticks that the bucket stands for.
-/

set_option autoImplicit false

namespace AlgorithmLib.TimeWheel

/-- How many ticks a bucket of the wheel stands for. -/
def Tvn.block : Tvn → Nat
  | .tv2 => 256
  | .tv3 => 16384
  | .tv4 => 1048576
  | .tv5 => 67108864

theorem Tvn.block_eq (k : Tvn) : 2 ^ k.shift = k.block := by
  cases k <;> rfl

/-- A node due at tick `d` may stand at the place while the counter is at `N`. -/
def Fits (N d : Nat) : Place → Prop
  | .tv1 i => N ≤ d ∧ d < N + 256 ∧ i = d % 256
  | .tvn k i => N ≤ k.block * (d / k.block) ∧ d < N + 2 ^ 31 ∧ d < N + 64 * k.block ∧
      i = d / k.block % 64
  | .queued => d + 1 = N

def Ahead (N d : Nat) : Place → Prop
  | .tv1 _ => True
  | .tvn k _ => N < k.block * (d / k.block)
  | .queued => False

/-- How many ticks behind the current one a node added with this expiry is due. -/
def delay (expires timerJiffies : BitVec 32) : Nat :=
  if (expires - timerJiffies).toNat < 2 ^ 31 then (expires - timerJiffies).toNat else 0

theorem and_itvrMask (x : BitVec 32) : (x &&& itvrMask).toNat = x.toNat % 256 := by
  rw [BitVec.toNat_and]
  exact Nat.and_two_pow_sub_one_eq_mod x.toNat 8

theorem and_itvnMask (x : BitVec 32) (k : Nat) :
    ((x >>> k) &&& itvnMask).toNat = x.toNat / 2 ^ k % 64 := by
  rw [BitVec.toNat_and, BitVec.toNat_ushiftRight, Nat.shiftRight_eq_div_pow]
  exact Nat.and_two_pow_sub_one_eq_mod _ 6

theorem slt_zero_iff (x : BitVec 32) : x.slt 0#32 = true ↔ 2 ^ 31 ≤ x.toNat := by
  have hx := x.isLt
  rw [BitVec.slt_iff_toInt_lt, BitVec.toInt_eq_toNat_cond]
  simp only [BitVec.toInt_zero]
  split <;> omega

theorem ofNat_sub_ofNat {N d : Nat} (h : N ≤ d) (h' : d < N + 2 ^ 32) :
    (BitVec.ofNat 32 d - BitVec.ofNat 32 N).toNat = d - N := by
  rw [BitVec.toNat_sub, BitVec.toNat_ofNat, BitVec.toNat_ofNat]
  omega

theorem vecOf_fits {N d : Nat} (h : N ≤ d) (h' : d < N + 2 ^ 31) :
    Fits N d (vecOf (BitVec.ofNat 32 d) (BitVec.ofNat 32 N)) ∧
      Ahead N d (vecOf (BitVec.ofNat 32 d) (BitVec.ofNat 32 N)) := by
  have hidx := ofNat_sub_ofNat h (by omega)
  have hneg : ¬ (BitVec.ofNat 32 d - BitVec.ofNat 32 N).slt 0#32 = true := by
    rw [slt_zero_iff, hidx]
    omega
  simp only [vecOf, BitVec.lt_def, hidx, and_itvrMask, and_itvnMask, itvrBits, itvnBits,
    BitVec.toNat_ofNat, BitVec.toNat_shiftLeft, if_neg hneg]
  by_cases h1 : d - N < 256
  · rw [if_pos (by omega)]
    refine ⟨⟨h, by omega, by omega⟩, trivial⟩
  rw [if_neg (by omega)]
  by_cases h2 : d - N < 16384
  · rw [if_pos (by omega)]
    simp only [Fits, Ahead, Tvn.block]
    omega
  rw [if_neg (by omega)]
  by_cases h3 : d - N < 1048576
  · rw [if_pos (by omega)]
    simp only [Fits, Ahead, Tvn.block]
    omega
  rw [if_neg (by omega)]
  by_cases h4 : d - N < 67108864
  · rw [if_pos (by omega)]
    simp only [Fits, Ahead, Tvn.block]
    omega
  rw [if_neg (by omega)]
  simp only [Fits, Ahead, Tvn.block]
  omega

theorem vecOf_overdue {expires : BitVec 32} {N : Nat}
    (h : 2 ^ 31 ≤ (expires - BitVec.ofNat 32 N).toNat) :
    vecOf expires (BitVec.ofNat 32 N) = .tv1 (N % 256) := by
  have hneg := (slt_zero_iff _).mpr h
  simp only [vecOf, BitVec.lt_def, and_itvrMask, itvrBits, itvnBits, BitVec.toNat_ofNat,
    BitVec.toNat_shiftLeft, if_pos hneg]
  rw [if_neg (by omega), if_neg (by omega), if_neg (by omega), if_neg (by omega)]
  congr 1
  omega

theorem vecOf_delay (expires : BitVec 32) (N : Nat) :
    Fits N (N + delay expires (BitVec.ofNat 32 N)) (vecOf expires (BitVec.ofNat 32 N)) ∧
      ∀ k i, vecOf expires (BitVec.ofNat 32 N) = .tvn k i →
        expires = BitVec.ofNat 32 (N + delay expires (BitVec.ofNat 32 N)) := by
  by_cases hlt : (expires - BitVec.ofNat 32 N).toNat < 2 ^ 31
  · have hd : delay expires (BitVec.ofNat 32 N) = (expires - BitVec.ofNat 32 N).toNat := if_pos hlt
    have he : expires = BitVec.ofNat 32 (N + delay expires (BitVec.ofNat 32 N)) := by
      rw [hd]
      apply BitVec.eq_of_toNat_eq
      have hx := expires.isLt
      rw [BitVec.toNat_ofNat, BitVec.toNat_sub, BitVec.toNat_ofNat]
      omega
    have hfit := vecOf_fits (N := N) (d := N + delay expires (BitVec.ofNat 32 N)) (by omega)
      (by omega)
    rw [← he] at hfit
    exact ⟨hfit.1, fun _ _ _ => he⟩
  · have hd : delay expires (BitVec.ofNat 32 N) = 0 := if_neg hlt
    rw [vecOf_overdue (by omega), hd]
    exact ⟨⟨by omega, by omega, by omega⟩, fun k i h => by cases h⟩

end AlgorithmLib.TimeWheel
