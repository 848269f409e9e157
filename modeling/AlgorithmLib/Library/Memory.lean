import Mathlib.Data.List.Basic

/-!
`memcpy` between a memory and a buffer. A memory maps offsets to cells; a copy out of it is the list
of the cells of an interval, and a copy into it leaves the cells outside of the interval alone.
-/

set_option autoImplicit false

namespace AlgorithmLib.Memory

variable {α : Type}

def copyOut (mem : Nat → α) (lo hi : Nat) : List α := (List.range' lo (hi - lo)).map mem

def copyIn (mem : Nat → α) (lo : Nat) (buf : List α) : Nat → α := fun addr =>
  if lo ≤ addr then (buf[addr - lo]?).getD (mem addr) else mem addr

@[simp] theorem copyOut_length (mem : Nat → α) (lo hi : Nat) :
    (copyOut mem lo hi).length = hi - lo := by
  simp [copyOut]

theorem copyOut_getElem {mem : Nat → α} {lo hi addr : Nat} (hlo : lo ≤ addr) (hhi : addr < hi) :
    (copyOut mem lo hi)[addr - lo]? = some (mem addr) := by
  have hlt : addr - lo < hi - lo := by omega
  have hadd : lo + (addr - lo) = addr := by omega
  simp [copyOut, hlt, hadd]

@[simp] theorem copyIn_nil (mem : Nat → α) (lo : Nat) : copyIn mem lo [] = mem := by
  funext addr
  simp [copyIn]

theorem copyIn_of_getElem {mem : Nat → α} {lo addr : Nat} {buf : List α} {v : α}
    (hlo : lo ≤ addr) (h : buf[addr - lo]? = some v) : copyIn mem lo buf addr = v := by
  simp [copyIn, hlo, h]

end AlgorithmLib.Memory
