import AlgorithmLib.DeadLock.Tables
import AlgorithmLib.Library.Peel

/-!
`dead_lock_stub.c`: `_check_dead_lock_stub` builds a graph of threads from the two tables
and peels it through a bounded stack of thread ids.
-/

set_option autoImplicit false

namespace AlgorithmLib.DeadLock

open Keyed Peel

def waitHoldThreadMax : Nat := 10

def maxDeadMutexlockCheck : Nat := 100

/-- `thread_graphic_vertex_t`; `threads` holds the first `thread_count` array entries. -/
structure ThreadGraphicVertex where
  indegress : Int
  threadId : UInt64
  threads : List UInt64
  deriving DecidableEq, Repr

abbrev Graphics := List ThreadGraphicVertex

def threadGraphicVertexLookup (g : Graphics) (threadId : UInt64) : Option ThreadGraphicVertex :=
  lookup ThreadGraphicVertex.threadId threadId g

def threadGraphicVertexAlloc (threadId : UInt64) : ThreadGraphicVertex :=
  { indegress := 0, threadId := threadId, threads := [] }

def threadGraphicVertexLookupOrAlloc (g : Graphics) (threadId : UInt64) : Graphics :=
  lookupOrPush ThreadGraphicVertex.threadId threadId (threadGraphicVertexAlloc threadId) g

namespace ThreadGraphicVertex

def threadGraphicVertexPushBack (threadId : UInt64) (v : ThreadGraphicVertex) :
    ThreadGraphicVertex :=
  if v.threads.length < waitHoldThreadMax then { v with threads := v.threads ++ [threadId] }
  else v

def addIndegress (d : Int) (v : ThreadGraphicVertex) : ThreadGraphicVertex :=
  { v with indegress := v.indegress + d }

theorem threadGraphicVertexPushBack_key {k threadId : UInt64} (v : ThreadGraphicVertex)
    (h : v.threadId = k) : (v.threadGraphicVertexPushBack threadId).threadId = k := by
  rw [← h, threadGraphicVertexPushBack]
  split <;> rfl

theorem addIndegress_key {k : UInt64} {d : Int} (v : ThreadGraphicVertex)
    (h : v.threadId = k) : (v.addIndegress d).threadId = k := h

end ThreadGraphicVertex

namespace Graphics

/-- The edge from `thd1` to `thd2`, with the vertices made where they are missing. -/
def addEdge (g : Graphics) (thd1 thd2 : UInt64) : Graphics :=
  let g := threadGraphicVertexLookupOrAlloc g thd1
  let g := threadGraphicVertexLookupOrAlloc g thd2
  let g := update ThreadGraphicVertex.threadId thd1
    (ThreadGraphicVertex.threadGraphicVertexPushBack thd2) g
  update ThreadGraphicVertex.threadId thd2 (ThreadGraphicVertex.addIndegress 1) g

end Graphics

def Tables.buildStep (t : Tables) (g : Graphics) (l : ThreadReqLock) : Graphics :=
  if l.valid = 0 then g
  else
    match threadHoldLockLookup t.lockBelongThread l.lockAddr with
    | none => g
    | some h => if h.count ≤ 0 then g else Graphics.addEdge g l.threadId h.threadId

def Tables.buildGraphics (t : Tables) : Graphics := t.threadApplyLock.foldl t.buildStep []

/-- `graphics_queue` as a stack of thread ids, the last array entry at the head. A full
stack drops the id. -/
def graphicsQueuePushBack (q : List UInt64) (threadId : UInt64) : List UInt64 :=
  if q.length < maxDeadMutexlockCheck then threadId :: q else q

/-- The local state of `_check_dead_lock_stub` behind the building of the graph. -/
structure Check where
  graphics : Graphics
  queue : List UInt64
  counter : Nat
  deriving DecidableEq, Repr

namespace Check

def findStep (s : Check) (v : ThreadGraphicVertex) : Check :=
  if v.indegress = 0 then
    { s with queue := graphicsQueuePushBack s.queue v.threadId, counter := s.counter + 1 }
  else s

def find (g : Graphics) : Check := g.foldl findStep ⟨g, [], 0⟩

/-- One turn of the loop over the outgoing edges of the popped vertex; `none` where the
lookup gives no vertex to dereference. -/
def releaseStep (s : Check) (threadId : UInt64) : Option Check :=
  match threadGraphicVertexLookup s.graphics threadId with
  | none => none
  | some v2 =>
    let g := update ThreadGraphicVertex.threadId threadId
      (ThreadGraphicVertex.addIndegress (-1)) s.graphics
    if v2.indegress - 1 = 0 then
      some ⟨g, graphicsQueuePushBack s.queue threadId, s.counter + 1⟩
    else some { s with graphics := g }

def release (s : Check) : List UInt64 → Option Check
  | [] => some s
  | threadId :: ts => (s.releaseStep threadId).bind (fun s => s.release ts)

/-- `while (!graphics_queue_empty())`; `none` as well when the fuel runs out. -/
def peel : Nat → Check → Option Check
  | 0, _ => none
  | fuel + 1, s =>
    match s.queue with
    | [] => some s
    | thd1 :: q =>
      match threadGraphicVertexLookup s.graphics thd1 with
      | none => none
      | some v1 => (release { s with queue := q } v1.threads).bind (peel fuel)

end Check

/-- `_check_dead_lock_stub`: whether it reports a deadlock. -/
def checkDeadLockStub (t : Tables) : Option Bool :=
  let g := t.buildGraphics
  (Check.peel (g.length + 1) (Check.find g)).map
    (fun s => decide (s.counter ≠ s.graphics.length))

/-- The wait-for graph the tables stand for: a valid request for a lock whose recorded
holder holds it. -/
def Tables.WaitsFor (t : Tables) (thd1 thd2 : UInt64) : Prop :=
  ∃ l ∈ t.threadApplyLock, l.valid ≠ 0 ∧ l.threadId = thd1 ∧
    ∃ h ∈ t.lockBelongThread, h.lockAddr = l.lockAddr ∧ 0 < h.count ∧ h.threadId = thd2

def Tables.edgeOf (t : Tables) (l : ThreadReqLock) : Option (UInt64 × UInt64) :=
  if l.valid = 0 then none
  else
    match threadHoldLockLookup t.lockBelongThread l.lockAddr with
    | none => none
    | some h => if h.count ≤ 0 then none else some (l.threadId, h.threadId)

def Tables.edges (t : Tables) : List (UInt64 × UInt64) := t.threadApplyLock.filterMap t.edgeOf

namespace Tables

variable {t : Tables} {thd1 thd2 : UInt64}

theorem edgeOf_eq_some {l : ThreadReqLock} :
    t.edgeOf l = some (thd1, thd2) ↔ l.valid ≠ 0 ∧ l.threadId = thd1 ∧
      ∃ h ∈ t.lockBelongThread, h.lockAddr = l.lockAddr ∧ 0 < h.count ∧ h.threadId = thd2 := by
  have hfind : ∀ h, threadHoldLockLookup t.lockBelongThread l.lockAddr = some h ↔
      h ∈ t.lockBelongThread ∧ h.lockAddr = l.lockAddr := fun h => lookup_eq_some_iff t.locks
  rw [edgeOf]
  by_cases hv : l.valid = 0
  · simp [hv]
  rw [if_neg hv]
  cases hl : threadHoldLockLookup t.lockBelongThread l.lockAddr with
  | none =>
    simp only [reduceCtorEq, false_iff]
    rintro ⟨-, -, h, hm, ha, -⟩
    rw [(hfind h).mpr ⟨hm, ha⟩] at hl
    cases hl
  | some h =>
    obtain ⟨hm, ha⟩ := (hfind h).mp hl
    dsimp only
    split
    · rename_i hc
      simp only [reduceCtorEq, false_iff]
      rintro ⟨-, -, h', hm', ha', hc', -⟩
      rw [(hfind h').mpr ⟨hm', ha'⟩, Option.some.injEq] at hl
      rw [hl] at hc'
      omega
    · rename_i hc
      rw [Option.some.injEq, Prod.mk.injEq]
      constructor
      · rintro ⟨h1, h2⟩
        exact ⟨hv, h1, h, hm, ha, by omega, h2⟩
      · rintro ⟨-, h1, h', hm', ha', -, h2⟩
        rw [(hfind h').mpr ⟨hm', ha'⟩, Option.some.injEq] at hl
        exact ⟨h1, by rw [← hl, h2]⟩

theorem edge_edges_iff : Edge t.edges thd1 thd2 ↔ t.WaitsFor thd1 thd2 := by
  rw [Edge, edges, List.mem_filterMap]
  constructor
  · rintro ⟨l, hl, he⟩
    exact ⟨l, hl, edgeOf_eq_some.mp he⟩
  · rintro ⟨l, hl, he⟩
    exact ⟨l, hl, edgeOf_eq_some.mpr he⟩

theorem cyclic_edges_iff : Cyclic t.edges ↔ ∃ thd, Relation.TransGen t.WaitsFor thd thd := by
  have hrel : Edge t.edges = t.WaitsFor := by
    funext a b
    exact propext edge_edges_iff
  rw [Cyclic, hrel]

/-- A thread has at most one request, so at most one edge leaves it. -/
theorem edges_nodup : (t.edges.map Prod.fst).Nodup := by
  refine (List.Sublist.nodup ?_ t.threads)
  rw [edges]
  induction t.threadApplyLock with
  | nil => exact List.Sublist.slnil
  | cons l ls ih =>
    rw [List.filterMap_cons]
    cases he : t.edgeOf l with
    | none => exact ih.cons _
    | some e =>
      obtain ⟨a, b⟩ := e
      have ha := (edgeOf_eq_some.mp he).2.1
      dsimp only
      rw [List.map_cons, List.map_cons, ha]
      exact ih.cons_cons _

theorem buildGraphics_eq :
    t.buildGraphics = t.edges.foldl (fun g e => Graphics.addEdge g e.1 e.2) [] := by
  have hstep : ∀ (g : Graphics) (l : ThreadReqLock), t.buildStep g l =
      match t.edgeOf l with
      | none => g
      | some e => Graphics.addEdge g e.1 e.2 := by
    intro g l
    simp only [buildStep, edgeOf]
    by_cases hv : l.valid = 0
    · simp [hv]
    · rw [if_neg hv, if_neg hv]
      cases threadHoldLockLookup t.lockBelongThread l.lockAddr with
      | none => rfl
      | some h =>
        dsimp only
        split <;> rfl
  rw [buildGraphics, edges]
  generalize ([] : Graphics) = g
  induction t.threadApplyLock generalizing g with
  | nil => rfl
  | cons l ls ih =>
    rw [List.foldl_cons, ih, hstep, List.filterMap_cons]
    cases t.edgeOf l with
    | none => rfl
    | some e => rfl

end Tables

end AlgorithmLib.DeadLock
