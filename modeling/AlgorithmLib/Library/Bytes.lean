import Mathlib.Algebra.Order.Ring.Nat
import Mathlib.Data.Nat.Basic

set_option autoImplicit false

namespace AlgorithmLib.Bytes

/-- The `k` low base-256 digits of a number, least significant first. -/
def leBytes : Nat → Nat → List UInt8
  | 0, _ => []
  | k + 1, n => UInt8.ofNat n :: leBytes k (n / 256)

def leValue : List UInt8 → Nat
  | [] => 0
  | b :: bs => b.toNat + 256 * leValue bs

@[simp] theorem leBytes_length (k n : Nat) : (leBytes k n).length = k := by
  induction k generalizing n with
  | zero => rfl
  | succ k ih => simp [leBytes, ih]

theorem leValue_leBytes (k n : Nat) : leValue (leBytes k n) = n % 256 ^ k := by
  induction k generalizing n with
  | zero => simp [leBytes, leValue, Nat.mod_one]
  | succ k ih =>
    have hb : (UInt8.ofNat n).toNat = n % 256 := UInt8.toNat_ofNat'
    rw [leBytes, leValue, ih, hb, pow_succ', Nat.mod_mul]

/-- A number that fits the field is read back unchanged. -/
theorem leValue_leBytes_of_lt {k n : Nat} (h : n < 256 ^ k) : leValue (leBytes k n) = n := by
  rw [leValue_leBytes, Nat.mod_eq_of_lt h]

theorem leValue_lt (bs : List UInt8) : leValue bs < 256 ^ bs.length := by
  induction bs with
  | nil => exact Nat.one_pos
  | cons b bs ih =>
    have hb := b.toNat_lt
    rw [leValue, List.length_cons, pow_succ']
    omega

theorem leBytes_leValue (bs : List UInt8) : leBytes bs.length (leValue bs) = bs := by
  induction bs with
  | nil => rfl
  | cons b bs ih =>
    have hb := b.toNat_lt
    have hdiv : (b.toNat + 256 * leValue bs) / 256 = leValue bs := by omega
    have hmod : UInt8.ofNat (b.toNat + 256 * leValue bs) = b := by
      apply UInt8.toNat_inj.mp
      rw [UInt8.toNat_ofNat']
      omega
    rw [List.length_cons, leValue, leBytes, hdiv, ih, hmod]

/-- The same digits, most significant first. -/
def beBytes (k n : Nat) : List UInt8 := (leBytes k n).reverse

def beValue (bs : List UInt8) : Nat := leValue bs.reverse

@[simp] theorem beBytes_length (k n : Nat) : (beBytes k n).length = k := by
  rw [beBytes, List.length_reverse, leBytes_length]

theorem beValue_beBytes_of_lt {k n : Nat} (h : n < 256 ^ k) : beValue (beBytes k n) = n := by
  rw [beValue, beBytes, List.reverse_reverse, leValue_leBytes_of_lt h]

theorem beValue_lt {k : Nat} {bs : List UInt8} (h : bs.length = k) : beValue bs < 256 ^ k := by
  have hlt := leValue_lt bs.reverse
  rwa [List.length_reverse, h] at hlt

/-- A field is its value. -/
theorem beBytes_beValue {k : Nat} {bs : List UInt8} (h : bs.length = k) :
    beBytes k (beValue bs) = bs := by
  have hle := leBytes_leValue bs.reverse
  rw [List.length_reverse, h] at hle
  rw [beBytes, beValue, hle, List.reverse_reverse]

section

variable {α : Type} {n m k : Nat} {a b c data : List α}

/-- Three fields one after the other, and what follows them. -/
theorem take_fields (ha : a.length = n) (hb : b.length = m) (hc : c.length = k) (data : List α) :
    (a ++ b ++ c ++ data).take n = a ∧ ((a ++ b ++ c ++ data).drop n).take m = b ∧
      ((a ++ b ++ c ++ data).drop (n + m)).take k = c := by
  have hab : (a ++ b).length = n + m := by rw [List.length_append, ha, hb]
  refine ⟨?_, ?_, ?_⟩
  · rw [List.append_assoc, List.append_assoc, List.take_left' ha]
  · rw [List.append_assoc, List.append_assoc, List.drop_left' ha, List.take_left' hb]
  · rw [List.append_assoc, List.drop_left' hab, List.take_left' hc]

/-- Three fields that are all of the data. -/
theorem append_fields (h : data.length = n + m + k) :
    data.take n ++ (data.drop n).take m ++ (data.drop (n + m)).take k = data := by
  have hk : (data.drop (n + m)).take k = data.drop (n + m) := by
    refine List.take_of_length_le ?_
    rw [List.length_drop]
    omega
  rw [hk, ← List.take_add, List.take_append_drop]

end

end AlgorithmLib.Bytes
