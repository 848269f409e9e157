import Mathlib.Algebra.Order.Ring.Int

set_option autoImplicit false

namespace AlgorithmLib.CInt

/-- The result of an operation in `int`. -/
def int (n : Int) : Option Int := if -2 ^ 31 ≤ n ∧ n < 2 ^ 31 then some n else none

/-- The conversion to `size_t`. -/
def sizeT (n : Int) : Nat := (n % 2 ^ 64).toNat

/-- The conversion to `int`. -/
def toInt (n : Int) : Int := (n + 2 ^ 31) % 2 ^ 32 - 2 ^ 31

theorem toInt_of_range {n : Int} (h : -2 ^ 31 ≤ n) (h' : n < 2 ^ 31) : toInt n = n := by
  rw [toInt]
  omega

theorem int_of_range {n : Int} (h : 0 ≤ n) (h' : n < 2 ^ 31) : int n = some n := by
  rw [int, if_pos ⟨by omega, h'⟩]

theorem sizeT_natCast {n : Nat} (h : n < 2 ^ 64) : sizeT n = n := by
  rw [sizeT]
  omega

theorem sizeT_toNat {n : Int} (h : 0 ≤ n) (h' : n < 2 ^ 31) : sizeT n = n.toNat := by
  rw [sizeT]
  omega

/-- A negative length is a huge one. -/
theorem le_sizeT {n : Int} (h : n < 0) (h' : -2 ^ 31 ≤ n) : 2 ^ 63 ≤ sizeT n := by
  rw [sizeT]
  omega

end AlgorithmLib.CInt
