import AlgorithmLib.Library.Pool

/-!
`libco_pool`: threads that run coroutines, and the pool their records come from. A thread has a call
stack of coroutines, `pCallStack`, and executes on the stack of the innermost one. A coroutine that
is through puts its record on `coroutine_end`, and a pass of `stCoRoutine_recovery` frees its stack
and puts the record on `coroutine_free`.
-/

set_option autoImplicit false

namespace AlgorithmLib.CoRoutine

abbrev CoId := Nat

abbrev Thread := Nat

/-- The length of the array `pCallStack`. -/
def MAX_CALLSTACK : Nat := 128

/-- The lists of the pool, `coroutine_free` and `coroutine_end`. -/
inductive Place where
  | free
  | end_
  deriving DecidableEq, Repr

inductive StackMem where
  | own (k : Nat)
  | share (k : Nat)
  deriving DecidableEq, Repr

structure Co where
  env : Thread
  cEnd : Bool
  cIsMain : Bool
  cIsShareStack : Bool
  stackMem : Option StackMem
  deriving DecidableEq, Repr

/-- A record fresh from `calloc`. -/
def Co.calloc : Co :=
  { env := 0, cEnd := false, cIsMain := false, cIsShareStack := false, stackMem := none }

/-- The main coroutine of a thread executes on the stack of the thread. -/
def Co.stack (co : Co) : Option StackMem := if co.cIsMain then none else co.stackMem

/-- Where a thread is in `CoRoutineFunc`. -/
inductive Pc where
  /-- in a function of a coroutine, or in `main` -/
  | running
  /-- it has read `co->env`, before `stCoRoutine_release` -/
  | ended (co : CoId) (env : Thread)
  /-- before `co_yield_env` -/
  | released (co : CoId) (env : Thread)
  deriving DecidableEq, Repr

/-- `live` are the stacks of `co_alloc_stackmem` that are not freed. -/
structure CoSys where
  pool : Pool Place
  co : CoId → Co
  live : Nat → Bool
  made : Nat
  pCallStack : Thread → List CoId
  stack : Thread → Option StackMem
  pc : Thread → Pc

def DEF_ROUTINE_POOL_MAX : Nat := 500
def DEF_ROUTINE_POOL_ADD_SIZE : Nat := 20
def DEF_ROUTINE_POOL_RECOVERY_MAX : Nat := 2000
def DEF_ROUTINE_POOL_RECOVERY_ALLOC_LIMIT : Nat := 20000

namespace CoSys

/-- The pool is there, and no thread has its env yet. -/
def init : CoSys :=
  { pool := Pool.empty.add .free DEF_ROUTINE_POOL_MAX, co := fun _ => .calloc
    live := fun _ => false, made := 0
    pCallStack := fun _ => [], stack := fun _ => none, pc := fun _ => .running }

def setCo (s : CoSys) (lp : CoId) (co : Co) : CoSys :=
  { s with co := Function.update s.co lp co }

def goto (s : CoSys) (thd : Thread) (pc : Pc) : CoSys :=
  { s with pc := Function.update s.pc thd pc }

/-- The record of `stCoRoutine_alloc`. -/
def stCoRoutineAlloc (s : CoSys) : Option (CoId × Pool Place) :=
  s.pool.take .free DEF_ROUTINE_POOL_ADD_SIZE

/-- With the stack that `co_get_stackmem` chose, or a new one. -/
def coCreateEnv (s : CoSys) (env : Thread) (shareStack : Option Nat) : Option (CoId × CoSys) :=
  s.stCoRoutineAlloc.map fun (lp, pool) =>
    match shareStack with
    | some k =>
      (lp, { s with pool := pool }.setCo lp
        { env := env, cEnd := false, cIsMain := false, cIsShareStack := true
          stackMem := some (.share k) })
    | none =>
      (lp, { s with pool := pool, live := Function.update s.live s.made true, made := s.made + 1 }.setCo
        lp { env := env, cEnd := false, cIsMain := false, cIsShareStack := false
             stackMem := some (.own s.made) })

def coInitCurrThreadEnv (s : CoSys) (thd : Thread) : Option CoSys :=
  (s.coCreateEnv thd none).map fun (self, s) =>
    { s.setCo self { s.co self with cIsMain := true } with
      pCallStack := Function.update s.pCallStack thd [self]
      stack := Function.update s.stack thd none }

/-- `co_swap`: the thread goes on with the innermost coroutine of the call stack. -/
def coSwap (s : CoSys) (thd env : Thread) (pCallStack : List CoId) (pending : CoId) : CoSys :=
  { s with
    pCallStack := Function.update s.pCallStack env pCallStack
    stack := Function.update s.stack thd (s.co pending).stack }

def coYieldEnv (s : CoSys) (thd env : Thread) : Option CoSys :=
  match s.pCallStack env with
  | _ :: last :: rest => some (s.coSwap thd env (last :: rest) last)
  | _ => none

def coRelease (s : CoSys) (co : CoId) : CoSys :=
  if (s.co co).cIsShareStack then s
  else
    { s.setCo co { s.co co with stackMem := none } with
      live := match (s.co co).stackMem with
        | some (.own k) => Function.update s.live k false
        | _ => s.live }

/-- What a pass does with one coroutine: `co_free`, or `co_release` and back to the free ones. -/
def recover (s : CoSys) (pos : CoId) : CoSys :=
  if DEF_ROUTINE_POOL_RECOVERY_ALLOC_LIMIT ≤ s.pool.unuse.toNat then
    { s.coRelease pos with
      pool := { s.pool with links := s.pool.links.unlink pos, alloc := s.pool.alloc - 1#32 } }
  else { s.coRelease pos with pool := s.pool.give .free pos }

def stCoRoutineRecovery : Nat → CoSys → CoSys
  | 0, s => s
  | count + 1, s =>
    match s.pool.links.list .end_ with
    | [] => s
    | pos :: _ => (s.recover pos).stCoRoutineRecovery count

end CoSys

inductive CoAct where
  /-- `co_init_curr_thread_env` -/
  | initEnv (thd : Thread)
  | create (thd : Thread) (shareStack : Option Nat)
  | resume (thd : Thread) (co : CoId)
  | yield (thd : Thread)
  /-- the function of the coroutine returns -/
  | ret (thd : Thread)
  | release (thd : Thread)
  /-- `co_yield_env` at the end of `CoRoutineFunc` -/
  | switch (thd : Thread)
  | recovery (thd : Thread)
  deriving DecidableEq, Repr

def coStep (s : CoSys) : CoAct → Option CoSys
  | .initEnv thd => if s.pCallStack thd = [] then s.coInitCurrThreadEnv thd else none
  | .create thd shareStack =>
    if s.pc thd = .running ∧ s.pCallStack thd ≠ [] then (s.coCreateEnv thd shareStack).map Prod.snd
    else none
  | .resume thd co =>
    -- a coroutine of this thread that has not ended and waits to be resumed
    if s.pc thd = .running ∧ s.pCallStack thd ≠ [] ∧ co < s.pool.made ∧
        s.pool.links.head co = none ∧ (s.co co).env = thd ∧ (s.co co).cEnd = false ∧
          co ∉ s.pCallStack thd then
      some (s.coSwap thd thd (co :: s.pCallStack thd) co)
    else none
  | .yield thd => if s.pc thd = .running then s.coYieldEnv thd thd else none
  | .ret thd =>
    match s.pc thd, s.pCallStack thd with
    | .running, co :: _ :: _ =>
      some ((s.setCo co { s.co co with cEnd := true }).goto thd (.ended co (s.co co).env))
    | _, _ => none
  | .release thd =>
    match s.pc thd with
    | .ended co env => some ({ s with pool := s.pool.link co .end_ }.goto thd (.released co env))
    | _ => none
  | .switch thd =>
    match s.pc thd with
    | .released _ env => (s.coYieldEnv thd env).map fun s => s.goto thd .running
    | _ => none
  | .recovery thd =>
    if s.pc thd = .running ∧ s.pCallStack thd ≠ [] then
      some (s.stCoRoutineRecovery (DEF_ROUTINE_POOL_RECOVERY_MAX + 1))
    else none

end AlgorithmLib.CoRoutine
