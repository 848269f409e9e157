import AlgorithmLib.CoRoutine.Model
import AlgorithmLib.Library.Memory
import AlgorithmLib.Library.Run

/-!
The stacks of the coroutines of one thread. A coroutine has a stack of its own, or executes on one
of those of a share stack, which several coroutines use by turns: `co_swap` copies the frames of the
one that has it into its `save_buffer` before another one goes on there, and the other one's frames
back. An address is the offset from the `stack_buffer`, and the environment chooses what the running
coroutine writes and reads on its stack and where its stack pointer is when it switches.
-/

set_option autoImplicit false

namespace AlgorithmLib.CoRoutine

open Memory

/-- The stack of the thread, one of `co_alloc_stackmem`, or an entry of a `stack_array`. -/
inductive StackBuf where
  | thread
  | own (k : Nat)
  | share (shareStack idx : Nat)
  deriving DecidableEq, Repr

def StackBuf.isShare : StackBuf → Bool
  | share _ _ => true
  | _ => false

structure StackCo where
  cStart : Bool
  cEnd : Bool
  cIsMain : Bool
  cIsShareStack : Bool
  stackMem : StackBuf
  stackSp : Nat
  /-- its length is the `save_size` -/
  saveBuffer : Option (List UInt8)
  deriving DecidableEq, Repr

structure ShareStack where
  allocIdx : BitVec 32
  stackSize : Nat
  count : Nat
  deriving DecidableEq, Repr

/-- `size` and `occupy` are the `stack_size` and the `occupy_co` of a `stStackMem_t`; `live` says
which records are not released. -/
structure StackSys where
  co : CoId → StackCo
  live : CoId → Bool
  mem : StackBuf → Nat → UInt8
  size : StackBuf → Nat
  occupy : StackBuf → Option CoId
  made : Nat
  shareStack : Nat → ShareStack
  shareMade : Nat
  pCallStack : List CoId
  pendingCo : Option CoId
  occupyCo : Option CoId

/-- What `co_create_env` makes of the `stack_size` of the attributes. -/
def attrStackSize (stackSize : Int) : Nat :=
  let n := if stackSize ≤ 0 then 128 * 1024 else min stackSize.toNat (1024 * 1024 * 8)
  if n % 0x1000 ≠ 0 then n / 0x1000 * 0x1000 + 0x1000 else n

namespace StackSys

/-- The main coroutine runs on the stack of the thread. -/
def init (main : CoId) (size : StackBuf → Nat) (mem : StackBuf → Nat → UInt8) : StackSys :=
  { co := fun _ => { cStart := false, cEnd := false, cIsMain := true, cIsShareStack := false
                     stackMem := .thread, stackSp := 0, saveBuffer := none }
    live := fun co => co = main, mem := mem, size := size, occupy := fun _ => none
    made := 0, shareStack := fun _ => { allocIdx := 0, stackSize := 0, count := 0 }, shareMade := 0
    pCallStack := [main], pendingCo := none, occupyCo := none }

def setCo (s : StackSys) (lp : CoId) (co : StackCo) : StackSys :=
  { s with co := Function.update s.co lp co }

def coAllocSharestack (s : StackSys) (count stackSize : Nat) : StackSys :=
  { s with
    shareStack := Function.update s.shareStack s.shareMade
      { allocIdx := 0, stackSize := stackSize, count := count }
    size := fun k =>
      match k with
      | .share j _ => if j = s.shareMade then stackSize else s.size k
      | _ => s.size k
    shareMade := s.shareMade + 1 }

def coGetStackmem (s : StackSys) (j : Nat) : StackBuf × StackSys :=
  let shareStack := s.shareStack j
  (.share j (shareStack.allocIdx.toNat % shareStack.count),
    { s with shareStack := Function.update s.shareStack j
               { shareStack with allocIdx := shareStack.allocIdx + 1 } })

def coAllocStackmem (s : StackSys) (stackSize : Nat) : StackBuf × StackSys :=
  (.own s.made, { s with size := Function.update s.size (.own s.made) stackSize, made := s.made + 1 })

/-- On the record that `stCoRoutine_alloc` returned. -/
def coCreateEnv (s : StackSys) (lp : CoId) (stackSize : Int) (shareStack : Option Nat) : StackSys :=
  let (stackMem, s) :=
    match shareStack with
    | some j => s.coGetStackmem j
    | none => s.coAllocStackmem (attrStackSize stackSize)
  { s.setCo lp
      { cStart := false, cEnd := false, cIsMain := false, cIsShareStack := shareStack.isSome
        stackMem := stackMem, stackSp := 0, saveBuffer := none } with
    live := Function.update s.live lp true }

/-- `co_release`, and the record is free. -/
def coRelease (s : StackSys) (co : CoId) : StackSys :=
  if (s.co co).cIsShareStack = true then
    { s.setCo co { s.co co with saveBuffer := none } with
      occupyCo := if s.occupyCo = some co then none else s.occupyCo
      occupy := if s.occupy (s.co co).stackMem = some co then
          Function.update s.occupy (s.co co).stackMem none
        else s.occupy
      live := Function.update s.live co false }
  else { s with live := Function.update s.live co false }

/-- `save_stack_buffer`, up to the `stack_bp`. -/
def saveStackBuffer (s : StackSys) (occupyCo : CoId) : StackSys :=
  let co := s.co occupyCo
  s.setCo occupyCo
    { co with saveBuffer := some (copyOut (s.mem co.stackMem) co.stackSp (s.size co.stackMem)) }

/-- `co_swap` from `curr`, with its stack pointer at `sp`, up to `coctx_swap`. -/
def coSwap (s : StackSys) (curr pendingCo : CoId) (sp : Nat) : StackSys :=
  let s := s.setCo curr { s.co curr with stackSp := sp }
  if (s.co pendingCo).cIsShareStack = false then { s with pendingCo := none, occupyCo := none }
  else
    let occupyCo := s.occupy (s.co pendingCo).stackMem
    let s := { s with
      pendingCo := some pendingCo
      occupy := Function.update s.occupy (s.co pendingCo).stackMem (some pendingCo)
      occupyCo := occupyCo }
    match occupyCo with
    | some co => if co ≠ pendingCo then s.saveStackBuffer co else s
    | none => s

/-- The rest of the `co_swap` that a coroutine goes on in. -/
def afterSwap (s : StackSys) : StackSys :=
  match s.pendingCo with
  | some co =>
    if s.occupyCo ≠ some co then
      match (s.co co).saveBuffer with
      | some buf =>
        if 0 < buf.length then
          { s with mem := Function.update s.mem (s.co co).stackMem
                     (copyIn (s.mem (s.co co).stackMem) (s.co co).stackSp buf) }
        else s
      | none => s
    else s
  | none => s

/-- `co_resume`: `coctx_make` leaves the stack alone, and a coroutine that has not run yet does so
from the start of `CoRoutineFunc`. -/
def coResume (s : StackSys) (co : CoId) (sp : Nat) : Option StackSys :=
  match s.pCallStack with
  | curr :: rest =>
    if (s.co co).cStart = true then
      some ({ s with pCallStack := co :: curr :: rest }.coSwap curr co sp).afterSwap
    else
      some ({ s.setCo co { s.co co with cStart := true } with
        pCallStack := co :: curr :: rest }.coSwap curr co sp)
  | [] => none

def coYieldEnv (s : StackSys) (sp : Nat) : Option StackSys :=
  match s.pCallStack with
  | curr :: last :: rest =>
    some ({ s with pCallStack := last :: rest }.coSwap curr last sp).afterSwap
  | _ => none

end StackSys

inductive StackAct where
  | allocSharestack (count stackSize : Nat)
  | create (lp : CoId) (stackSize : Int) (shareStack : Option Nat)
  | resume (co : CoId) (sp : Nat)
  | yield (sp : Nat)
  /-- the function of the coroutine returns -/
  | finish (sp : Nat)
  | release (co : CoId)
  /-- the running coroutine on its stack -/
  | write (addr : Nat) (b : UInt8)
  | read (addr : Nat) (b : UInt8)
  deriving DecidableEq, Repr

def stackStep (s : StackSys) (act : StackAct) : Option StackSys :=
  match s.pCallStack with
  | [] => none
  | curr :: _ =>
    let stackMem := (s.co curr).stackMem
    match act with
    | .allocSharestack count stackSize => some (s.coAllocSharestack count stackSize)
    | .create lp stackSize shareStack =>
      -- `% count` traps when the share stack has no stacks
      if s.live lp = false ∧ ∀ j ∈ shareStack, j < s.shareMade ∧ 0 < (s.shareStack j).count then
        some (s.coCreateEnv lp stackSize shareStack)
      else none
    | .resume co sp =>
      if s.live co = true ∧ (s.co co).cEnd = false ∧ co ∉ s.pCallStack ∧ sp ≤ s.size stackMem then
        s.coResume co sp
      else none
    | .yield sp => if sp ≤ s.size stackMem then s.coYieldEnv sp else none
    | .finish sp =>
      if sp ≤ s.size stackMem then (s.setCo curr { s.co curr with cEnd := true }).coYieldEnv sp
      else none
    | .release co =>
      if s.live co = true ∧ co ∉ s.pCallStack then some (s.coRelease co) else none
    | .write addr b =>
      if addr < s.size stackMem then
        some { s with mem := Function.update s.mem stackMem
                        (Function.update (s.mem stackMem) addr b) }
      else none
    | .read addr b =>
      if addr < s.size stackMem ∧ s.mem stackMem addr = b then some s else none

/-- `co_resume` has room on the call stack, which it does not check. -/
def StackSys.HasRoom (s : StackSys) : StackAct → Prop
  | .resume _ _ => s.pCallStack.length < MAX_CALLSTACK
  | _ => True

instance (s : StackSys) : DecidablePred s.HasRoom
  | .resume _ _ => inferInstanceAs (Decidable (s.pCallStack.length < MAX_CALLSTACK))
  | .allocSharestack .. | .create .. | .yield _ | .finish _ | .release _ | .write .. | .read .. =>
    .isTrue trivial

/-!
What the coroutines can rely on: each one has a stack that no other one touches. What is below the
stack pointer when it switches is gone, and so is everything once its function has returned.
-/

/-- `stack` says what a coroutine has on its stack, as far as it knows. -/
structure PrivSys where
  stack : CoId → Nat → Option UInt8
  live : CoId → Bool
  ended : CoId → Bool
  pCallStack : List CoId

namespace PrivSys

def init (main : CoId) : PrivSys :=
  { stack := fun _ _ => none, live := fun co => co = main, ended := fun _ => false
    pCallStack := [main] }

def forget (s : PrivSys) (co : CoId) (sp : Nat) : PrivSys :=
  { s with stack := Function.update s.stack co fun addr =>
      if addr < sp then none else s.stack co addr }

def clear (s : PrivSys) (co : CoId) : PrivSys :=
  { s with stack := Function.update s.stack co fun _ => none }

def know (s : PrivSys) (co : CoId) (addr : Nat) (b : UInt8) : PrivSys :=
  { s with stack := Function.update s.stack co (Function.update (s.stack co) addr (some b)) }

end PrivSys

def privStep (s : PrivSys) (act : StackAct) : Option PrivSys :=
  match s.pCallStack with
  | [] => none
  | curr :: rest =>
    match act with
    | .allocSharestack _ _ => some s
    | .create lp _ _ =>
      if s.live lp = false then
        some { s.clear lp with live := Function.update s.live lp true
                               ended := Function.update s.ended lp false }
      else none
    | .resume co sp =>
      if s.live co = true ∧ s.ended co = false ∧ co ∉ s.pCallStack then
        some { s.forget curr sp with pCallStack := co :: curr :: rest }
      else none
    | .yield sp => if rest = [] then none else some { s.forget curr sp with pCallStack := rest }
    | .finish _ =>
      if rest = [] then none
      else some { s.clear curr with ended := Function.update s.ended curr true, pCallStack := rest }
    | .release co =>
      if s.live co = true ∧ co ∉ s.pCallStack then
        some { s with live := Function.update s.live co false }
      else none
    | .write addr b => some (s.know curr addr b)
    | .read addr b =>
      -- what was never written has some value as well
      if s.stack curr addr = none ∨ s.stack curr addr = some b then some (s.know curr addr b)
      else none

end AlgorithmLib.CoRoutine
