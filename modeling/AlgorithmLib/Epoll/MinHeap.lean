import AlgorithmLib.Library.Heap

/-!
`zebra_epoll/min_heap.c`: timers in a binary heap of pointers to nodes, ordered by a 32-bit
expiry. A deleted timer stays in the heap without its arguments until it comes to the top.
-/

set_option autoImplicit false

namespace AlgorithmLib.Epoll

structure MinheapNode where
  expire : BitVec 32
  cb : Option Nat
  args : Option Nat
  deriving DecidableEq, Repr

/-- `time_heap_t`: the first `cursize` pointers, what they point to, how many nodes were made. -/
structure TimeHeap where
  nodes : List Nat
  node : Nat → MinheapNode
  made : Nat
  capacity : Nat

def timeHeapNodeIsize : Nat := 100

def timeHeapInit : TimeHeap :=
  { nodes := [], node := fun _ => { expire := 0, cb := none, args := none }, made := 0
    capacity := timeHeapNodeIsize }

namespace TimeHeap

def expire (h : TimeHeap) (n : Nat) : BitVec 32 := (h.node n).expire

/-- `time_heap_add_timer` at this reading of the clock, with the node it returns. -/
def timeHeapAddTimer (h : TimeHeap) (now : BitVec 64) (cb args : Option Nat)
    (timeout : BitVec 32) : Nat × TimeHeap :=
  let node := Function.update h.node h.made
    { expire := (now + timeout.setWidth 64).setWidth 32, cb := cb, args := args }
  (h.made,
    { nodes := Heap.insert (fun n => (node n).expire) h.made h.nodes
      node := node
      made := h.made + 1
      capacity := if h.nodes.length ≥ h.capacity then h.capacity * 2 else h.capacity })

def timeHeapDelTimer (h : TimeHeap) (n : Nat) : TimeHeap :=
  { h with node := Function.update h.node n { h.node n with cb := none, args := none } }

def popTimer (h : TimeHeap) : TimeHeap :=
  { h with nodes := Heap.pop h.expire h.nodes }

/-- The loop of `cl_time_heap_tick`, which pops a node at each turn. -/
def tickLoop (cur : BitVec 32) : Nat → TimeHeap → TimeHeap × Option Nat
  | 0, h => (h, none)
  | turns + 1, h =>
    match h.nodes with
    | [] => (h, none)
    | n :: _ =>
      if (h.node n).expire > cur then (h, none)
      else
        match (h.node n).args with
        | some args => (h.popTimer, some args)
        | none => tickLoop cur turns h.popTimer

/-- `cl_time_heap_tick` with the arguments of the first due timer. -/
def clTimeHeapTick (h : TimeHeap) (now : BitVec 64) : TimeHeap × Option Nat :=
  h.tickLoop (now.setWidth 32) h.nodes.length

/-- `time_heap_time_wait`: what it stores, if anything. -/
def timeHeapTimeWait (h : TimeHeap) (now : BitVec 64) : Option (BitVec 32) :=
  h.nodes.head?.map fun n =>
    let t := now.setWidth 32
    if (h.node n).expire > t then (h.node n).expire - t else 1#32

structure Ok (h : TimeHeap) : Prop where
  nodup : h.nodes.Nodup
  made : ∀ n ∈ h.nodes, n < h.made

def Armed (h : TimeHeap) (n args : Nat) : Prop :=
  n ∈ h.nodes ∧ (h.node n).args = some args

theorem ok_init : Ok timeHeapInit :=
  ⟨List.nodup_nil, fun _ hn => absurd hn List.not_mem_nil⟩

namespace Ok

variable {h h' : TimeHeap}

theorem addTimer (hok : Ok h) (now : BitVec 64) (cb args : Option Nat) (timeout : BitVec 32) :
    Ok (h.timeHeapAddTimer now cb args timeout).2 ∧
      ∀ n a, Armed (h.timeHeapAddTimer now cb args timeout).2 n a ↔
        n = h.made ∧ args = some a ∨ Armed h n a := by
  have hperm := Heap.insert_perm (fun n =>
    ((h.timeHeapAddTimer now cb args timeout).2.node n).expire) h.made h.nodes
  have hmem : ∀ n, n ∈ (h.timeHeapAddTimer now cb args timeout).2.nodes ↔
      n = h.made ∨ n ∈ h.nodes := fun n => hperm.mem_iff.trans List.mem_cons
  have hnew : h.made ∉ h.nodes := fun hin => Nat.lt_irrefl _ (hok.made _ hin)
  refine ⟨⟨hperm.nodup_iff.mpr (List.nodup_cons.mpr ⟨hnew, hok.nodup⟩), fun n hn => ?_⟩,
    fun n a => ?_⟩
  · simp only [timeHeapAddTimer]
    rcases (hmem n).mp hn with rfl | hin
    · omega
    · have := hok.made n hin
      omega
  · rw [Armed, hmem, Armed]
    by_cases hn : n = h.made
    · subst hn
      simp [timeHeapAddTimer, hnew]
    · simp [timeHeapAddTimer, hn]

theorem delTimer (hok : Ok h) (n : Nat) :
    Ok (h.timeHeapDelTimer n) ∧
      ∀ m a, Armed (h.timeHeapDelTimer n) m a ↔ m ≠ n ∧ Armed h m a := by
  refine ⟨⟨hok.nodup, hok.made⟩, fun m a => ?_⟩
  rw [Armed, Armed]
  by_cases hm : m = n
  · simp [timeHeapDelTimer, hm]
  · simp [timeHeapDelTimer, hm]

theorem popTimer (hok : Ok h) {n : Nat} {ns : List Nat} (hn : h.nodes = n :: ns) :
    Ok h.popTimer ∧ ∀ m a, Armed h.popTimer m a ↔ m ≠ n ∧ Armed h m a := by
  have hperm : h.popTimer.nodes.Perm ns := by
    rw [TimeHeap.popTimer, hn]
    exact Heap.pop_perm n ns
  obtain ⟨hnot, hnd⟩ := List.nodup_cons.mp (hn ▸ hok.nodup)
  have hmem : ∀ m, m ∈ h.popTimer.nodes ↔ m ≠ n ∧ m ∈ h.nodes := by
    intro m
    rw [hperm.mem_iff, hn, List.mem_cons]
    constructor
    · intro hm
      exact ⟨fun he => hnot (he ▸ hm), Or.inr hm⟩
    · rintro ⟨hne, rfl | hm⟩
      · exact absurd rfl hne
      · exact hm
  refine ⟨⟨hperm.nodup_iff.mpr hnd, fun m hm => hok.made m ((hmem m).mp hm).2⟩, fun m a => ?_⟩
  rw [Armed, hmem, and_assoc]
  rfl

theorem tickLoop (hok : Ok h) {cur : BitVec 32} {turns : Nat} {r : Option Nat}
    (ht : h.tickLoop cur turns = (h', r)) :
    Ok h' ∧ ((r = none ∧ ∀ n a, Armed h' n a ↔ Armed h n a) ∨
      ∃ n args, r = some args ∧ Armed h n args ∧
        ∀ m a, Armed h' m a ↔ m ≠ n ∧ Armed h m a) := by
  induction turns generalizing h with
  | zero =>
    cases ht
    exact ⟨hok, Or.inl ⟨rfl, fun _ _ => Iff.rfl⟩⟩
  | succ turns ih =>
    rw [TimeHeap.tickLoop] at ht
    cases hn : h.nodes with
    | nil =>
      simp only [hn] at ht
      cases ht
      exact ⟨hok, Or.inl ⟨rfl, fun _ _ => Iff.rfl⟩⟩
    | cons n ns =>
      have hin : n ∈ h.nodes := by rw [hn]; exact List.mem_cons_self
      obtain ⟨hpop, harmed⟩ := hok.popTimer hn
      simp only [hn] at ht
      split at ht
      · cases ht
        exact ⟨hok, Or.inl ⟨rfl, fun _ _ => Iff.rfl⟩⟩
      · cases ha : (h.node n).args with
        | some args =>
          simp only [ha] at ht
          cases ht
          exact ⟨hpop, Or.inr ⟨n, args, rfl, ⟨hin, ha⟩, harmed⟩⟩
        | none =>
          simp only [ha] at ht
          -- the node on top was deleted before
          have hsame : ∀ m a, Armed h.popTimer m a ↔ Armed h m a := by
            intro m a
            rw [harmed, and_iff_right_iff_imp]
            rintro ⟨-, hm⟩ rfl
            rw [ha] at hm
            cases hm
          simpa only [hsame] using ih hpop ht

theorem clTimeHeapTick (hok : Ok h) {now : BitVec 64} {r : Option Nat}
    (ht : h.clTimeHeapTick now = (h', r)) :
    Ok h' ∧ ((r = none ∧ ∀ n a, Armed h' n a ↔ Armed h n a) ∨
      ∃ n args, r = some args ∧ Armed h n args ∧
        ∀ m a, Armed h' m a ↔ m ≠ n ∧ Armed h m a) :=
  hok.tickLoop ht

end Ok

end TimeHeap

end AlgorithmLib.Epoll
