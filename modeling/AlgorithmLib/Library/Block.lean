import Mathlib.Data.List.Basic
import Mathlib.Algebra.Order.Ring.Int

set_option autoImplicit false

namespace AlgorithmLib.Block

variable {α : Type}

/-- The access to `n` cells from this offset on is inside the block. -/
def Inside (bs : List α) (off : Int) (n : Nat) : Prop := 0 ≤ off ∧ off.toNat + n ≤ bs.length

instance (bs : List α) (off : Int) (n : Nat) : Decidable (Inside bs off n) :=
  inferInstanceAs (Decidable (_ ∧ _))

def read (bs : List α) (off : Int) (n : Nat) : Option (List α) :=
  if Inside bs off n then some ((bs.drop off.toNat).take n) else none

def write (bs : List α) (off : Int) (data : List α) : Option (List α) :=
  if Inside bs off data.length then
    some (bs.take off.toNat ++ data ++ bs.drop (off.toNat + data.length))
  else none

/-- `memset` -/
def fill (bs : List α) (off : Int) (v : α) (n : Nat) : Option (List α) :=
  if Inside bs off n then write bs off (List.replicate n v) else none

/-- `memmove` within the block -/
def move (bs : List α) (dst src : Int) (n : Nat) : Option (List α) :=
  (read bs src n).bind (write bs dst)

/-- `realloc`; the cells it adds hold what `fresh` says. -/
def resize (bs : List α) (n : Nat) (fresh : Nat → α) : List α :=
  bs.take n ++ (List.range (n - bs.length)).map (fun i => fresh (bs.length + i))

variable {pre mid post data : List α} {off : Int}

theorem inside_cut (hoff : off = pre.length) : Inside (pre ++ mid ++ post) off mid.length := by
  subst hoff
  constructor
  · exact Int.natCast_nonneg _
  · simp only [Int.toNat_natCast, List.length_append]
    omega

/-- A block is read where it is cut. -/
theorem read_cut {n : Nat} (hoff : off = pre.length) (hn : n = mid.length) :
    read (pre ++ mid ++ post) off n = some mid := by
  subst hn
  rw [read, if_pos (inside_cut hoff), hoff, Int.toNat_natCast, List.append_assoc, List.drop_left,
    List.take_left]

/-- A block is overwritten where it is cut. -/
theorem write_cut (hoff : off = pre.length) (hdata : data.length = mid.length) :
    write (pre ++ mid ++ post) off data = some (pre ++ data ++ post) := by
  rw [write, hdata, if_pos (inside_cut hoff), hoff, Int.toNat_natCast]
  congr 2
  · rw [List.append_assoc, List.take_left]
  · rw [← List.length_append, List.drop_left]

theorem fill_cut (pre mid post : List α) (v : α) {n : Nat} (hoff : off = pre.length)
    (hn : n = mid.length) :
    fill (pre ++ mid ++ post) off v n = some (pre ++ List.replicate n v ++ post) := by
  subst hn
  rw [fill, if_pos (inside_cut hoff), write_cut hoff List.length_replicate]

/-- What a larger block holds behind the old one comes from the allocator. -/
theorem resize_of_le (bs : List α) {n : Nat} (fresh : Nat → α) (h : bs.length ≤ n) :
    ∃ new : List α, resize bs n fresh = bs ++ new ∧ new.length = n - bs.length := by
  refine ⟨_, congrArg₂ _ (List.take_of_length_le h) rfl, ?_⟩
  simp

end AlgorithmLib.Block
