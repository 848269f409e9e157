import AlgorithmLib.Library.Links

/-!
`itimer_internal.c`, the timer core: a wheel of 256 one-tick buckets and four wheels of 64
coarser ones, whose nodes move down when the tick counter reaches them. There is one core, so
the `core` pointer of a node says no more than whether the node is linked.
-/

set_option autoImplicit false

namespace AlgorithmLib.TimeWheel

abbrev NodeId := Nat

def itvnBits : Nat := 6

def itvrBits : Nat := 8

def itvnMask : BitVec 32 := 63#32

def itvrMask : BitVec 32 := 255#32

inductive Tvn where
  | tv2
  | tv3
  | tv4
  | tv5
  deriving DecidableEq, Repr

def Tvn.shift : Tvn → Nat
  | .tv2 => itvrBits
  | .tv3 => itvrBits + itvnBits
  | .tv4 => itvrBits + itvnBits * 2
  | .tv5 => itvrBits + itvnBits * 3

/-- The lists a node can be on: a bucket of `tv1`, a bucket of a coarse wheel, the local list
of `itimer_internal_update`. -/
inductive Place where
  | tv1 (i : Nat)
  | tvn (k : Tvn) (i : Nat)
  | queued
  deriving DecidableEq, Repr

inductive NodeState where
  | ok
  | bad
  deriving DecidableEq, Repr

/-- `itimer_node` without its link and its core; the callback is a function pointer. -/
structure ItimerNode where
  expires : BitVec 32
  state : NodeState
  callback : Option Nat
  data : Nat
  deriving DecidableEq, Repr

structure ItimerCore where
  timerJiffies : BitVec 32
  links : Links NodeId Place
  node : NodeId → ItimerNode

/-- `itimer_core_init`, the nodes as they are. -/
def itimerCoreInit (jiffies : BitVec 32) (node : NodeId → ItimerNode) : ItimerCore :=
  ⟨jiffies, .empty, node⟩

def itimerNodeInit (callback : Option Nat) (data : Nat) : ItimerNode :=
  { expires := 0, state := .ok, callback := callback, data := data }

/-- The bucket `itimer_internal_add` chooses. -/
def vecOf (expires timerJiffies : BitVec 32) : Place :=
  let idx := expires - timerJiffies
  if idx < 256#32 then .tv1 (expires &&& itvrMask).toNat
  else if idx < 1#32 <<< (itvrBits + itvnBits) then
    .tvn .tv2 ((expires >>> itvrBits) &&& itvnMask).toNat
  else if idx < 1#32 <<< (itvrBits + itvnBits * 2) then
    .tvn .tv3 ((expires >>> (itvrBits + itvnBits)) &&& itvnMask).toNat
  else if idx < 1#32 <<< (itvrBits + itvnBits * 3) then
    .tvn .tv4 ((expires >>> (itvrBits + itvnBits * 2)) &&& itvnMask).toNat
  else if idx.slt 0#32 then .tv1 (timerJiffies &&& itvrMask).toNat
  else .tvn .tv5 ((expires >>> (itvrBits + itvnBits * 3)) &&& itvnMask).toNat

namespace ItimerCore

def itimerInternalAdd (c : ItimerCore) (n : NodeId) : ItimerCore :=
  { c with links := c.links.addTail n (vecOf (c.node n).expires c.timerJiffies) }

def itimerNodeAdd (c : ItimerCore) (n : NodeId) (expires : BitVec 32) : ItimerCore :=
  if (c.node n).state ≠ .ok then c
  else
    { c with
      links := c.links.unlink n
      node := Function.update c.node n { c.node n with expires := expires }
    }.itimerInternalAdd n

/-- `itimer_node_del` with its result. -/
def itimerNodeDel (c : ItimerCore) (n : NodeId) : ItimerCore × Int :=
  if (c.node n).state ≠ .ok then (c, -1)
  else if (c.links.head n).isSome then ({ c with links := c.links.unlink n }, 1)
  else (c, 0)

def itimerNodeMod (c : ItimerCore) (n : NodeId) (expires : BitVec 32) : ItimerCore × Int :=
  let (c, ret) := c.itimerNodeDel n
  (c.itimerNodeAdd n expires, ret)

/-- One turn of the loop of `itimer_internal_cascade`. -/
def cascadeStep (c : ItimerCore) (n : NodeId) : ItimerCore :=
  { c with links := c.links.unlink n }.itimerInternalAdd n

/-- `itimer_internal_cascade`; what is left of the bucket stands for the local list. -/
def itimerInternalCascade (c : ItimerCore) (k : Tvn) (index : Nat) : ItimerCore :=
  (c.links.list (.tvn k index)).foldl cascadeStep c

def itimerIndex (c : ItimerCore) (k : Tvn) : Nat :=
  ((c.timerJiffies >>> k.shift) &&& itvnMask).toNat

/-- The cascades at the start of an iteration of `itimer_internal_update`. -/
def cascades (c : ItimerCore) : ItimerCore :=
  let index := (c.timerJiffies &&& itvrMask).toNat
  if index = 0 then
    let i := c.itimerIndex .tv2
    let c := c.itimerInternalCascade .tv2 i
    if i = 0 then
      let i := c.itimerIndex .tv3
      let c := c.itimerInternalCascade .tv3 i
      if i = 0 then
        let i := c.itimerIndex .tv4
        let c := c.itimerInternalCascade .tv4 i
        if i = 0 then c.itimerInternalCascade .tv5 (c.itimerIndex .tv5) else c
      else c
    else c
  else c

/-- An iteration of `itimer_internal_update` up to its loop over the due nodes. -/
def beginTick (c : ItimerCore) : ItimerCore :=
  let index := (c.timerJiffies &&& itvrMask).toNat
  let c := c.cascades
  { c with
    timerJiffies := c.timerJiffies + 1
    links := c.links.splice (.tv1 index) .queued }

end ItimerCore

inductive Event where
  /-- added with this expiry while `timer_jiffies` has this value -/
  | added (n : NodeId) (expires timerJiffies : BitVec 32)
  /-- `itimer_node_del` with its result -/
  | deleted (n : NodeId) (ret : Int)
  /-- an iteration of `itimer_internal_update` that processes this tick begins -/
  | tick (timerJiffies : BitVec 32)
  /-- taken off the due nodes, and the callback called if there is one -/
  | fired (n : NodeId) (fn : Option Nat)
  deriving DecidableEq, Repr

/-- Where `itimer_core_run` is. -/
inductive Ctrl where
  /-- not running -/
  | idle
  /-- before the test of its outer loop -/
  | looping (jiffies : BitVec 32)
  /-- before the test of its loop over the due nodes -/
  | draining (jiffies : BitVec 32)
  /-- in a callback -/
  | calling (jiffies : BitVec 32)
  deriving DecidableEq, Repr

/-- The core, the place in its code and the events so far, the latest first. -/
structure Sys where
  core : ItimerCore
  ctrl : Ctrl
  log : List Event

namespace Sys

/-- All nodes initialised, with these callbacks. -/
def init (jiffies : BitVec 32) (callback : NodeId → Option Nat) : Sys :=
  { core := itimerCoreInit jiffies (fun n => itimerNodeInit (callback n) n)
    ctrl := .idle
    log := [] }

def open_ (s : Sys) : Bool :=
  match s.ctrl with
  | .idle => true
  | .calling _ => true
  | _ => false

def add (s : Sys) (n : NodeId) (expires : BitVec 32) : Sys :=
  { s with
    core := s.core.itimerNodeAdd n expires
    log := .added n expires s.core.timerJiffies :: s.log }

def del (s : Sys) (n : NodeId) : Sys :=
  { s with
    core := (s.core.itimerNodeDel n).1
    log := .deleted n (s.core.itimerNodeDel n).2 :: s.log }

def mod (s : Sys) (n : NodeId) (expires : BitVec 32) : Sys :=
  { s with
    core := (s.core.itimerNodeMod n expires).1
    log := .added n expires s.core.timerJiffies ::
      .deleted n (s.core.itimerNodeMod n expires).2 :: s.log }

/-- The next step inside `itimer_core_run`. -/
def advance (s : Sys) : Option Sys :=
  match s.ctrl with
  | .idle => none
  | .looping jiffies =>
    if (jiffies - s.core.timerJiffies).slt 0#32 then some { s with ctrl := .idle }
    else
      some
        { core := s.core.beginTick
          ctrl := .draining jiffies
          log := .tick s.core.timerJiffies :: s.log }
  | .draining jiffies =>
    match s.core.links.list .queued with
    | [] => some { s with ctrl := .looping jiffies }
    | n :: _ =>
      let fn := (s.core.node n).callback
      some
        { core := { s.core with links := s.core.links.unlink n }
          ctrl := if fn.isSome then .calling jiffies else .draining jiffies
          log := .fired n fn :: s.log }
  | .calling jiffies => some { s with ctrl := .draining jiffies }

end Sys

/-- The steps: a call of a node function, a call of `itimer_core_run`, and what it does next;
a callback ends with an `advance` of its own. -/
inductive Act where
  | add (n : NodeId) (expires : BitVec 32)
  | del (n : NodeId)
  | mod (n : NodeId) (expires : BitVec 32)
  | run (jiffies : BitVec 32)
  | advance
  deriving DecidableEq, Repr

def step (s : Sys) : Act → Option Sys
  | .add n expires => if s.open_ then some (s.add n expires) else none
  | .del n => if s.open_ then some (s.del n) else none
  | .mod n expires => if s.open_ then some (s.mod n expires) else none
  | .run jiffies => if s.ctrl = .idle then some { s with ctrl := .looping jiffies } else none
  | .advance => s.advance

end AlgorithmLib.TimeWheel
