import AlgorithmLib.Library.Keyed
import Mathlib.Algebra.BigOperators.Group.Finset.Basic
import Mathlib.Algebra.Order.Ring.Nat
import Mathlib.Logic.Function.Basic

/-!
`check_mem_leaks/mem_leaks.c` in one thread: `malloc`, `calloc`, `realloc` and `free` around those of
the C library, and the hash table with the blocks that are tracked.

What the C library returns comes with the call: null, or the address of a block that no caller
holds. A tracked call is divided: while it takes the stack trace and prints, it is itself a caller,
with its `pids` entry cleared. The stack traces and the memory of the table are left out.
-/

set_option autoImplicit false

namespace AlgorithmLib.MemLeaks

structure Block where
  size : UInt64
  tracked : Bool
  deriving DecidableEq, Repr

abbrev Live := UInt64 → Option Block

def libcMalloc (live : Live) (b : Block) (p : UInt64) : Option Live :=
  if p = 0 then some live
  else if (live p).isSome then none
  else some (Function.update live p (some b))

def libcCalloc (live : Live) (numElements sizeOfElement : UInt64) (tracked : Bool) (p : UInt64) :
    Option Live :=
  if p ≠ 0 ∧ 2 ^ 64 ≤ numElements.toNat * sizeOfElement.toNat then none
  else libcMalloc live ⟨numElements * sizeOfElement, tracked⟩ p

def libcRealloc (live : Live) (ptr : UInt64) (b : Block) (p : UInt64) : Option Live :=
  if ptr = 0 then libcMalloc live b p
  else if (live ptr).isNone then none
  else if b.size = 0 then if p = 0 then some (Function.update live ptr none) else none
  else if p = 0 then some live
  else libcMalloc (Function.update live ptr none) b p

def libcFree (live : Live) (ptr : UInt64) : Option Live :=
  if ptr = 0 then some live
  else if (live ptr).isNone then none
  else some (Function.update live ptr none)

/-- `mem_leaks_info_t` -/
structure Info where
  p : UInt64
  size : UInt32
  deriving DecidableEq, Repr

def memHashSize : Nat := 1024 * 64

abbrev Key := Fin memHashSize

def memHashKey (ptr : UInt64) : Key := ⟨ptr.toNat % memHashSize, Nat.mod_lt _ (by decide)⟩

/-- `mem_leaks_hash_t` -/
structure Hash where
  bucket : Key → List Info
  count : Key → Int
  total : Int

namespace Hash

def empty : Hash := { bucket := fun _ => [], count := fun _ => 0, total := 0 }

def memHashAdd (hash : Hash) (info : Info) : Hash :=
  let key := memHashKey info.p
  { bucket := Function.update hash.bucket key (info :: hash.bucket key)
    count := Function.update hash.count key (hash.count key + 1)
    total := hash.total + 1 }

def memHashDel (hash : Hash) (info : Info) : Hash :=
  let key := memHashKey info.p
  { bucket := Function.update hash.bucket key ((hash.bucket key).eraseP fun i => i.p = info.p)
    count := Function.update hash.count key (hash.count key - 1)
    total := hash.total - 1 }

def memHashLookup (hash : Hash) (ptr : UInt64) : Option Info :=
  Keyed.lookup Info.p ptr (hash.bucket (memHashKey ptr))

def memAllocInfoAdd (hash : Hash) (p size : UInt64) : Hash := hash.memHashAdd ⟨p, size.toUInt32⟩

def memAllocInfoDel (hash : Hash) (p : UInt64) : Hash :=
  match hash.memHashLookup p with
  | some pos => hash.memHashDel pos
  | none => hash

end Hash

inductive Frame where
  /-- before `mem_alloc_info_add` -/
  | add (p size : UInt64)
  /-- before `pids[GetPid()] = 1` -/
  | leave
  deriving DecidableEq, Repr

structure Mem where
  memCheck : Bool
  /-- of the thread -/
  pids : Bool
  hash : Hash
  live : Live
  frame : Option Frame

inductive Act where
  | memLeaksStart
  | memLeaksStop
  | malloc (size p : UInt64)
  | calloc (numElements sizeOfElement p : UInt64)
  | realloc (ptr size p : UInt64)
  | free (ptr : UInt64)
  | add
  | leave
  deriving DecidableEq, Repr

namespace Mem

def init : Mem :=
  { memCheck := false, pids := true, hash := .empty, live := fun _ => none, frame := none }

def tracking (s : Mem) : Bool := s.memCheck && s.pids

def enter (s : Mem) (live : Live) (frame : Frame) : Mem :=
  { s with pids := false, live := live, frame := some frame }

def malloc (s : Mem) (size p : UInt64) : Option Mem :=
  if !s.memCheck then (libcMalloc s.live ⟨size, false⟩ p).map fun live => { s with live := live }
  else if s.pids then (libcMalloc s.live ⟨size, true⟩ p).map fun live => s.enter live (.add p size)
  else (libcMalloc s.live ⟨size, false⟩ p).map fun live => { s with live := live }

def calloc (s : Mem) (numElements sizeOfElement p : UInt64) : Option Mem :=
  if !s.memCheck then
    (libcCalloc s.live numElements sizeOfElement false p).map fun live => { s with live := live }
  else if s.pids then
    (libcCalloc s.live numElements sizeOfElement true p).map fun live =>
      s.enter live (.add p (numElements * sizeOfElement))
  else (libcCalloc s.live numElements sizeOfElement false p).map fun live => { s with live := live }

def memAllocInfoDel (s : Mem) (p : UInt64) : Mem := { s with hash := s.hash.memAllocInfoDel p }

def realloc (s : Mem) (ptr size p : UInt64) : Option Mem :=
  if !s.memCheck then
    (libcRealloc s.live ptr ⟨size, false⟩ p).map fun live =>
      let s := { s with live := live }
      if p ≠ 0 then s.memAllocInfoDel ptr else s
  else if s.pids then
    (libcRealloc s.live ptr ⟨size, true⟩ p).map fun live =>
      if p ≠ 0 then (s.memAllocInfoDel ptr).enter live (.add p size) else s.enter live .leave
  else
    (libcRealloc s.live ptr ⟨size, false⟩ p).map fun live =>
      let s := { s with live := live }
      if p ≠ 0 then s.memAllocInfoDel ptr else s

def free (s : Mem) (ptr : UInt64) : Option Mem :=
  let s := if ptr ≠ 0 then s.memAllocInfoDel ptr else s
  (libcFree s.live ptr).map fun live => { s with live := live }

def held (s : Mem) (ptr : UInt64) : Bool :=
  match s.frame with
  | some (.add p _) => ptr ≠ 0 && ptr = p
  | _ => false

end Mem

def step (s : Mem) : Act → Option Mem
  | .memLeaksStart => if s.frame.isNone then some { s with memCheck := true } else none
  | .memLeaksStop => if s.frame.isNone then some { s with memCheck := false } else none
  | .malloc size p => s.malloc size p
  | .calloc numElements sizeOfElement p => s.calloc numElements sizeOfElement p
  | .realloc ptr size p => if s.held ptr then none else s.realloc ptr size p
  | .free ptr => if s.held ptr then none else s.free ptr
  | .add =>
    match s.frame with
    | some (.add p size) =>
      some { s with hash := s.hash.memAllocInfoAdd p size, frame := some .leave }
    | _ => none
  | .leave =>
    match s.frame with
    | some .leave => some { s with pids := true, frame := none }
    | _ => none

end AlgorithmLib.MemLeaks
