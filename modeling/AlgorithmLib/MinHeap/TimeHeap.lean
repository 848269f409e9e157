import AlgorithmLib.Library.Heap
import Mathlib.Algebra.Order.Ring.Nat

/-!
`minheap_internal/min_heap.c`: timers in a binary heap of pointers to nodes, ordered by a 32-bit
expiry, in an array that is doubled when it is full. A deleted timer stays in the heap without
its callback. With the result of a function on the array goes the list of the indices it used;
no result is a null pointer followed, an index outside of the array, or an `int` that overflows.
-/

set_option autoImplicit false

namespace AlgorithmLib.MinHeap

structure MinheapNode where
  expire : BitVec 32
  cb : Option Nat
  args : Nat
  deriving DecidableEq, Repr

/-- `time_heap_t` and the nodes its pointers point to, which are numbered as they are made. -/
structure TimeHeap where
  nodes : List (Option Nat)
  capacity : Nat
  cursize : Nat
  node : Nat → MinheapNode
  made : Nat

def timeHeapNodeIsize : Nat := 100

def timeHeapInit : TimeHeap :=
  { nodes := List.replicate timeHeapNodeIsize none
    capacity := timeHeapNodeIsize
    cursize := 0
    node := fun _ => { expire := 0, cb := none, args := 0 }
    made := 0 }

/-- The node a cell points to. -/
def load (nodes : List (Option Nat)) (i : Nat) : Option Nat := nodes.getD i none

def store (nodes : List (Option Nat)) (i : Nat) (n : Option Nat) : Option (List (Option Nat)) :=
  if i < nodes.length then some (nodes.set i n) else none

/-- `insert_time_heap`, in at most so many turns -/
def insertTimeHeap (expire : Nat → BitVec 32) (n : Nat) :
    Nat → Nat → List (Option Nat) → Option (List (Option Nat) × List Nat)
  | turns, hole, nodes =>
    if hole > 0 then
      let parent := (hole - 1) / 2
      match turns, load nodes parent with
      | turns + 1, some p =>
        if expire p ≤ expire n then
          (store nodes hole (some n)).map fun nodes => (nodes, [parent, hole])
        else
          (store nodes hole (some p)).bind fun nodes =>
            (insertTimeHeap expire n turns parent nodes).map fun r =>
              (r.1, parent :: hole :: r.2)
      | _, _ => none
    else (store nodes hole (some n)).map fun nodes => (nodes, [hole])

def firstChild (expire : Nat → BitVec 32) (cursize : Nat) (nodes : List (Option Nat))
    (hole : Nat) : Option (Nat × List Nat) :=
  let child := 2 * hole + 1
  if child + 1 < cursize then
    match load nodes (child + 1), load nodes child with
    | some r, some l =>
      some (if expire r < expire l then child + 1 else child, [child + 1, child])
    | _, _ => none
  else some (child, [])

/-- The loop of `percolate_down` and the store behind it. -/
def percolateLoop (expire : Nat → BitVec 32) (cursize : Nat) (tmp : Option Nat) :
    Nat → Nat → List (Option Nat) → Option (List (Option Nat) × List Nat)
  | 0, _, _ => none
  | turns + 1, hole, nodes =>
    if 2 * hole + 1 < cursize then
      match firstChild expire cursize nodes hole, tmp with
      | some (child, seen), some t =>
        match load nodes child with
        | none => none
        | some c =>
          if expire c < expire t then
            (store nodes hole (some c)).bind fun nodes =>
              (percolateLoop expire cursize tmp turns child nodes).map fun r =>
                (r.1, seen ++ child :: hole :: r.2)
          else (store nodes hole tmp).map fun nodes => (nodes, seen ++ [child, hole])
      | _, _ => none
    else (store nodes hole tmp).map fun nodes => (nodes, [hole])

def percolateDown (expire : Nat → BitVec 32) (cursize : Nat) (nodes : List (Option Nat))
    (hole : Nat) : Option (List (Option Nat) × List Nat) :=
  if hole < nodes.length then
    (percolateLoop expire cursize (load nodes hole) (cursize + 1) hole nodes).map fun r =>
      (r.1, hole :: r.2)
  else none

namespace TimeHeap

def expire (h : TimeHeap) (n : Nat) : BitVec 32 := (h.node n).expire

/-- `time_heap_resize`; the capacity is an `int`. -/
def timeHeapResize (h : TimeHeap) : Option TimeHeap :=
  if 2 ^ 31 ≤ h.capacity * 2 then none
  else
    some
      { h with
        nodes := h.nodes.take h.cursize ++ List.replicate (h.capacity * 2 - h.cursize) none
        capacity := h.capacity * 2 }

/-- `minheap_node_init` at this reading of the clock -/
def minheapNodeInit (now : BitVec 64) (cb : Option Nat) (args : Nat) (timeout : BitVec 32) :
    MinheapNode :=
  { expire := (now + timeout.setWidth 64).setWidth 32, cb := cb, args := args }

/-- `time_heap_add_timer` with the node it returns. -/
def timeHeapAddTimer (h : TimeHeap) (now : BitVec 64) (cb : Option Nat) (args : Nat)
    (timeout : BitVec 32) : Option (Nat × TimeHeap × List Nat) :=
  (if h.cursize ≥ h.capacity then h.timeHeapResize else some h).bind fun h =>
    let node := Function.update h.node h.made (minheapNodeInit now cb args timeout)
    (insertTimeHeap (fun n => (node n).expire) h.made (h.cursize + 1) h.cursize h.nodes).map
      fun r =>
        (h.made,
          { h with nodes := r.1, cursize := h.cursize + 1, node := node, made := h.made + 1 }, r.2)

def timeHeapDelTimer (h : TimeHeap) (n : Nat) : TimeHeap :=
  { h with node := Function.update h.node n { h.node n with cb := none } }

/-- `pop_timer`, with the indices that `percolate_down` used -/
def popTimer (h : TimeHeap) : Option (TimeHeap × List Nat) :=
  if h.cursize = 0 then some (h, [])
  else
    match load h.nodes 0 with
    | none => some (h, [])
    | some _ =>
      let nodes := h.nodes.set 0 none
      (store nodes 0 (load nodes (h.cursize - 1))).bind fun nodes =>
        (percolateDown h.expire (h.cursize - 1) nodes 0).map fun r =>
          ({ h with nodes := r.1, cursize := h.cursize - 1 }, r.2)

def timeHeapTop (h : TimeHeap) : Option Nat :=
  if h.cursize = 0 then none else load h.nodes 0

/-- What the first `cursize` cells point to. -/
def contents (h : TimeHeap) : List Nat := (h.nodes.take h.cursize).filterMap id

/-- The nodes that are on top as the heap is popped so many times. -/
def popAll : Nat → TimeHeap → Option (List Nat)
  | 0, _ => some []
  | turns + 1, h =>
    match h.timeHeapTop, h.popTimer with
    | some n, some (h, _) => (h.popAll turns).map (n :: ·)
    | _, _ => none

end TimeHeap

end AlgorithmLib.MinHeap
