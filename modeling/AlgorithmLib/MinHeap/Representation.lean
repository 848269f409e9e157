import AlgorithmLib.Library.Run
import AlgorithmLib.MinHeap.TimeHeap

set_option autoImplicit false

namespace AlgorithmLib.MinHeap

def Cells (nodes : List (Option Nat)) (hole : Nat) (ys : List Nat) : Prop :=
  ∀ i y, i ≠ hole → ys[i]? = some y → load nodes i = some y

theorem load_set {nodes : List (Option Nat)} {i j : Nat} {n : Option Nat} (h : i < nodes.length) :
    load (nodes.set i n) j = if i = j then n else load nodes j := by
  rw [load, load, List.getD_eq_getElem?_getD, List.getD_eq_getElem?_getD, List.getElem?_set]
  by_cases hij : i = j
  · rw [if_pos hij, if_pos h, if_pos hij]
    rfl
  · rw [if_neg hij, if_neg hij]

theorem cells_set {nodes : List (Option Nat)} {hole x : Nat} {ys : List Nat}
    (h : Cells nodes hole ys) (hlt : hole < nodes.length) (hole' : Nat) :
    Cells (nodes.set hole (some x)) hole' (ys.set hole x) := by
  intro i y _ hy
  rw [List.getElem?_set] at hy
  rw [load_set hlt]
  by_cases hi : hole = i
  · rw [if_pos hi] at hy ⊢
    split at hy
    · exact hy
    · cases hy
  · rw [if_neg hi] at hy ⊢
    exact h i y (Ne.symm hi) hy

theorem store_some {nodes : List (Option Nat)} {i : Nat} (h : i < nodes.length) (n : Option Nat) :
    store nodes i n = some (nodes.set i n) := if_pos h

/-- `insert_time_heap` does what the library does, and stays at or above the first hole. -/
theorem insertTimeHeap_cells (expire : Nat → BitVec 32) (n : Nat) {turns hole : Nat}
    {nodes : List (Option Nat)} {ys : List Nat} (h : Cells nodes hole ys)
    (hturns : hole ≤ turns) (hys : hole < ys.length) (hlen : ys.length ≤ nodes.length) :
    ∃ nodes' seen, insertTimeHeap expire n (turns + 1) hole nodes = some (nodes', seen) ∧
      nodes'.length = nodes.length ∧ (∀ i ∈ seen, i ≤ hole) ∧
      ∀ i y, (Heap.percolateUp expire n turns hole ys)[i]? = some y → load nodes' i = some y := by
  induction turns generalizing hole nodes ys with
  | zero =>
    obtain rfl : hole = 0 := by omega
    refine ⟨nodes.set 0 (some n), [0], ?_, by simp, by simp, fun i y hy => ?_⟩
    · rw [insertTimeHeap, if_neg (by omega), store_some (by omega)]
      rfl
    · exact cells_set h (by omega) (i + 1) i y (by omega) hy
  | succ turns ih =>
    rw [insertTimeHeap]
    simp only [Heap.percolateUp]
    by_cases hpos : hole = 0
    · subst hpos
      rw [if_neg (by omega), store_some (by omega), if_pos rfl]
      exact ⟨_, _, rfl, by simp, by simp, fun i y hy => cells_set h (by omega) (i + 1) i y (by omega) hy⟩
    · have hparent : (hole - 1) / 2 < ys.length := by omega
      obtain ⟨p, hp⟩ : ∃ p, ys[(hole - 1) / 2]? = some p := ⟨_, List.getElem?_eq_getElem hparent⟩
      have hload : load nodes ((hole - 1) / 2) = some p := h _ p (by omega) hp
      rw [if_pos (by omega), if_neg hpos, List.getD_eq_getElem?_getD, hp, Option.getD_some]
      simp only [hload]
      by_cases hle : expire p ≤ expire n
      · rw [if_pos hle, if_neg (Std.not_lt.mpr hle), store_some (by omega)]
        refine ⟨_, _, rfl, by simp, by simp; omega, fun i y hy => ?_⟩
        exact cells_set h (by omega) (i + 1) i y (by omega) hy
      · rw [if_neg hle, if_pos (Std.not_le.mp hle), store_some (by omega)]
        have hmoved : Cells (nodes.set hole (some p)) ((hole - 1) / 2) (ys.set hole p) :=
          cells_set h (by omega) _
        obtain ⟨nodes', seen, hins, hlen', hseen, hcells⟩ :=
          ih hmoved (by omega) (by simpa using hparent) (by simpa using hlen)
        refine ⟨nodes', (hole - 1) / 2 :: hole :: seen, ?_, by simpa using hlen', ?_, hcells⟩
        · rw [Option.bind_some, hins]
          rfl
        · intro i hi
          simp only [List.mem_cons] at hi
          rcases hi with rfl | rfl | hi
          · omega
          · omega
          · have := hseen i hi
            omega

theorem firstChild_cells (expire : Nat → BitVec 32) (t : Nat) {hole : Nat}
    {nodes : List (Option Nat)} {ys : List Nat} (h : Cells nodes hole ys)
    (hchild : 2 * hole + 1 < ys.length) :
    ∃ seen, firstChild expire ys.length nodes hole = some (Heap.child expire t hole ys, seen) ∧
      ∀ i ∈ seen, i < ys.length := by
  obtain ⟨l, hl⟩ : ∃ l, ys[2 * hole + 1]? = some l := ⟨_, List.getElem?_eq_getElem hchild⟩
  have hll : load nodes (2 * hole + 1) = some l := h _ l (by omega) hl
  simp only [firstChild, Heap.child]
  by_cases hr : 2 * hole + 1 + 1 < ys.length
  · obtain ⟨r, hr'⟩ : ∃ r, ys[2 * hole + 1 + 1]? = some r := ⟨_, List.getElem?_eq_getElem hr⟩
    have hlr : load nodes (2 * hole + 1 + 1) = some r := h _ r (by omega) hr'
    rw [if_pos hr]
    simp only [hlr, hll, List.getD_eq_getElem?_getD, hr', hl, Option.getD_some, hr, true_and]
    refine ⟨_, rfl, fun i hi => ?_⟩
    simp only [List.mem_cons, List.not_mem_nil, or_false] at hi
    omega
  · rw [if_neg hr, if_neg (fun hand => hr hand.1)]
    exact ⟨[], rfl, fun i hi => absurd hi List.not_mem_nil⟩

/-- The loop of `percolate_down` does what the library does, and stays below `cursize`. -/
theorem percolateLoop_cells (expire : Nat → BitVec 32) (t : Nat) {turns hole : Nat}
    {nodes : List (Option Nat)} {ys : List Nat} (h : Cells nodes hole ys)
    (hturns : ys.length ≤ turns + hole) (hys : hole < ys.length) (hlen : ys.length ≤ nodes.length) :
    ∃ nodes' seen, percolateLoop expire ys.length (some t) (turns + 1) hole nodes =
        some (nodes', seen) ∧
      nodes'.length = nodes.length ∧ (∀ i ∈ seen, i < ys.length) ∧
      ∀ i y, (Heap.percolateDown expire t turns hole ys)[i]? = some y →
        load nodes' i = some y := by
  induction turns generalizing hole nodes ys with
  | zero => omega
  | succ turns ih =>
    unfold percolateLoop
    simp only [Heap.percolateDown]
    by_cases hchild : 2 * hole + 1 < ys.length
    · rw [if_pos hchild, if_pos hchild]
      obtain ⟨seen, hfirst, hseen⟩ := firstChild_cells expire t h hchild
      obtain ⟨hc, hc'⟩ := Heap.child_spec expire t hchild
      simp only [hfirst]
      generalize Heap.child expire t hole ys = child at hc hc'
      obtain ⟨c, hcs⟩ : ∃ c, ys[child]? = some c := ⟨_, List.getElem?_eq_getElem hc'⟩
      rw [h child c (by omega) hcs, List.getD_eq_getElem?_getD, hcs, Option.getD_some]
      dsimp only
      by_cases hless : expire c < expire t
      · rw [if_pos hless, if_pos hless, store_some (by omega)]
        have hmoved : Cells (nodes.set hole (some c)) child (ys.set hole c) :=
          cells_set h (by omega) _
        obtain ⟨nodes', seen', hloop, hlen', hseen', hcells⟩ := ih hmoved
          (by rw [List.length_set]; omega) (by simpa using hc') (by simpa using hlen)
        rw [List.length_set] at hloop hseen'
        refine ⟨nodes', seen ++ child :: hole :: seen', ?_, by simpa using hlen', ?_, hcells⟩
        · rw [Option.bind_some, hloop]
          rfl
        · intro i hi
          simp only [List.mem_append, List.mem_cons] at hi
          rcases hi with hi | rfl | rfl | hi
          · exact hseen i hi
          · exact hc'
          · exact hys
          · exact hseen' i hi
      · rw [if_neg hless, if_neg hless, store_some (by omega)]
        refine ⟨_, _, rfl, by simp, fun i hi => ?_, fun i y hy => ?_⟩
        · simp only [List.mem_append, List.mem_cons, List.not_mem_nil, or_false] at hi
          rcases hi with hi | rfl | rfl
          · exact hseen i hi
          · exact hc'
          · exact hys
        · exact cells_set h (by omega) (i + 1) i y (by omega) hy
    · rw [if_neg hchild, if_neg hchild, store_some (by omega)]
      refine ⟨_, _, rfl, by simp, by simpa using hys, fun i y hy => ?_⟩
      exact cells_set h (by omega) (i + 1) i y (by omega) hy

/-- The heap holds the nodes of the list by level, in heap order, in an array with room for them. -/
structure Rep (h : TimeHeap) (xs : List Nat) : Prop where
  size : h.cursize = xs.length
  room : h.cursize ≤ h.capacity
  capacity : 0 < h.capacity
  length : h.nodes.length = h.capacity
  cells : ∀ (i x : Nat), xs[i]? = some x → load h.nodes i = some x
  made : ∀ x ∈ xs, x < h.made
  nodup : xs.Nodup
  ordered : Heap.Ordered h.expire xs

theorem rep_init : Rep timeHeapInit [] where
  size := rfl
  room := Nat.zero_le _
  capacity := by decide
  length := List.length_replicate
  cells _ _ h := by cases h
  made _ h := by cases h
  nodup := List.nodup_nil
  ordered _ _ _ _ _ h := by cases h

namespace Rep

variable {h : TimeHeap} {xs : List Nat}

theorem timeHeapResize (hr : Rep h xs) {h' : TimeHeap} (hs : h.timeHeapResize = some h') :
    Rep h' xs ∧ h'.cursize < h'.capacity ∧ h'.node = h.node ∧ h'.made = h.made := by
  rw [TimeHeap.timeHeapResize] at hs
  split at hs
  · cases hs
  · cases hs
    have hsize := hr.size
    have hroom := hr.room
    have hcap := hr.capacity
    have hlen := hr.length
    refine ⟨⟨hr.size, by dsimp only; omega, by dsimp only; omega, ?_, fun i x hx => ?_, hr.made,
      hr.nodup, hr.ordered⟩, by dsimp only; omega, rfl, rfl⟩
    · simp only [List.length_append, List.length_take, List.length_replicate]
      omega
    · have hlt := (List.getElem?_eq_some_iff.mp hx).1
      rw [load, List.getD_eq_getElem?_getD, List.getElem?_append_left (by
        rw [List.length_take]; omega), List.getElem?_take_of_lt (by omega)]
      have hcell := hr.cells i x hx
      rwa [load, List.getD_eq_getElem?_getD] at hcell

theorem grow (hr : Rep h xs) {h' : TimeHeap}
    (hs : (if h.cursize ≥ h.capacity then h.timeHeapResize else some h) = some h') :
    Rep h' xs ∧ h'.cursize < h'.capacity ∧ h'.node = h.node ∧ h'.made = h.made := by
  split at hs
  · exact hr.timeHeapResize hs
  · cases hs
    exact ⟨hr, by omega, rfl, rfl⟩

theorem insertTimeHeap (hr : Rep h xs) (hlt : h.cursize < h.capacity) (expire : Nat → BitVec 32)
    (n : Nat) :
    ∃ nodes seen, insertTimeHeap expire n (h.cursize + 1) h.cursize h.nodes = some (nodes, seen) ∧
      nodes.length = h.nodes.length ∧ (∀ i ∈ seen, i ≤ h.cursize) ∧
      ∀ i y, (Heap.insert expire n xs)[i]? = some y → load nodes i = some y := by
  have hsize := hr.size
  have hlen := hr.length
  have hcells : Cells h.nodes h.cursize (xs ++ [n]) := by
    intro i y hi hy
    have hil := (List.getElem?_eq_some_iff.mp hy).1
    rw [List.length_append, List.length_singleton] at hil
    rw [List.getElem?_append_left (by omega)] at hy
    exact hr.cells i y hy
  have hins := insertTimeHeap_cells expire n hcells (Nat.le_refl _) (by simp; omega)
    (by simp; omega)
  rw [Heap.insert, ← hsize]
  exact hins

theorem timeHeapAddTimer (hr : Rep h xs) {now : BitVec 64} {cb : Option Nat} {args : Nat}
    {timeout : BitVec 32} {r : Nat × TimeHeap × List Nat}
    (hadd : h.timeHeapAddTimer now cb args timeout = some r) :
    r.1 = h.made ∧ r.2.1.made = h.made + 1 ∧
      r.2.1.node = Function.update h.node h.made
        (TimeHeap.minheapNodeInit now cb args timeout) ∧
      (∀ i ∈ r.2.2, i < r.2.1.cursize) ∧
      ∃ xs', Rep r.2.1 xs' ∧ xs'.Perm (h.made :: xs) ∧
        ∀ y, xs.head? = some y → h.expire y ≤ r.2.1.expire h.made → xs'.head? = some y := by
  rw [TimeHeap.timeHeapAddTimer] at hadd
  obtain ⟨h₁, hgrow, hadd⟩ := Option.bind_eq_some_iff.mp hadd
  obtain ⟨hr₁, hlt, hnode, hmade⟩ := hr.grow hgrow
  rw [← hnode, ← hmade]
  generalize hnode' : Function.update h₁.node h₁.made
    (TimeHeap.minheapNodeInit now cb args timeout) = node' at hadd
  have hfresh : h₁.made ∉ xs := fun hmem => Nat.lt_irrefl _ (hr₁.made _ hmem)
  have hexpire : ∀ x ∈ xs, h₁.expire x = (node' x).expire := by
    intro x hx
    have hne : x ≠ h₁.made := by
      rintro rfl
      exact hfresh hx
    rw [← hnode', Function.update_of_ne hne]
    rfl
  obtain ⟨nodes', seen, hins, hlen', hseen, hcells⟩ :=
    hr₁.insertTimeHeap hlt (fun n => (node' n).expire) h₁.made
  simp only [hins, Option.map_some, Option.some.injEq] at hadd
  subst hadd
  have hperm := Heap.insert_perm (fun n => (node' n).expire) h₁.made xs
  refine ⟨rfl, rfl, rfl, fun i hi => Nat.lt_succ_of_le (hseen i hi),
    Heap.insert (fun n => (node' n).expire) h₁.made xs, ⟨?_, hlt, hr₁.capacity,
      hlen'.trans hr₁.length, hcells, fun x hx => ?_, ?_, ?_⟩, hperm, fun y hy hle => ?_⟩
  · rw [hperm.length_eq, List.length_cons, ← hr₁.size]
  · rcases List.mem_cons.mp (hperm.mem_iff.mp hx) with rfl | hx
    · exact Nat.lt_succ_self _
    · exact Nat.lt_succ_of_lt (hr₁.made x hx)
  · exact hperm.nodup_iff.mpr (List.nodup_cons.mpr ⟨hfresh, hr₁.nodup⟩)
  · exact Heap.insert_ordered (hr₁.ordered.congr hexpire)
  · obtain ⟨ys, rfl⟩ := List.head?_eq_some_iff.mp hy
    refine Heap.insert_head (Std.not_lt.mpr ?_)
    rw [← hexpire y List.mem_cons_self, TimeHeap.expire, hnode]
    exact hle

/-- A timer can be added unless the array would be doubled beyond an `int`. -/
theorem timeHeapAddTimer_isSome (hr : Rep h xs)
    (hcap : h.cursize < h.capacity ∨ h.capacity * 2 < 2 ^ 31) (now : BitVec 64) (cb : Option Nat)
    (args : Nat) (timeout : BitVec 32) :
    (h.timeHeapAddTimer now cb args timeout).isSome = true := by
  obtain ⟨h₁, hgrow⟩ : ∃ h₁,
      (if h.cursize ≥ h.capacity then h.timeHeapResize else some h) = some h₁ := by
    by_cases hfull : h.cursize ≥ h.capacity
    · rw [if_pos hfull, TimeHeap.timeHeapResize, if_neg (by omega)]
      exact ⟨_, rfl⟩
    · rw [if_neg hfull]
      exact ⟨_, rfl⟩
  obtain ⟨hr₁, hlt, -⟩ := hr.grow hgrow
  obtain ⟨nodes', seen, hins, -⟩ := hr₁.insertTimeHeap hlt
    (fun n => (Function.update h₁.node h₁.made
      (TimeHeap.minheapNodeInit now cb args timeout) n).expire) h₁.made
  rw [TimeHeap.timeHeapAddTimer, hgrow, Option.bind_some]
  simp only [hins, Option.map_some, Option.isSome_some]

theorem timeHeapDelTimer (hr : Rep h xs) (n : Nat) : Rep (h.timeHeapDelTimer n) xs := by
  refine { hr with ordered := hr.ordered.congr fun x _ => ?_ }
  simp only [TimeHeap.expire, TimeHeap.timeHeapDelTimer, Function.update_apply]
  split
  · next hx => rw [hx]
  · rfl

theorem popTimer_nil (hr : Rep h []) : h.popTimer = some (h, []) := if_pos hr.size

/-- Popping takes the first node out. `percolate_down` uses cells below `cursize` only, but for the
first one when no node is left. -/
theorem popTimer {x : Nat} (hr : Rep h (x :: xs)) :
    ∃ h' seen, h.popTimer = some (h', seen) ∧ Rep h' (Heap.pop h.expire (x :: xs)) ∧
      h'.node = h.node ∧ h'.made = h.made ∧
      ∀ i ∈ seen, i < h'.cursize ∨ i = 0 ∧ h'.cursize = 0 := by
  have hsize := hr.size
  have hroom := hr.room
  have hlen := hr.length
  rw [List.length_cons] at hsize
  have hfirst : load h.nodes 0 = some x := hr.cells 0 x rfl
  have hperm : (Heap.pop h.expire (x :: xs)).Perm xs := Heap.pop_perm x xs
  have hrep : ∀ nodes : List (Option Nat), nodes.length = h.nodes.length →
      (∀ (i y : Nat), (Heap.pop h.expire (x :: xs))[i]? = some y → load nodes i = some y) →
      Rep { h with nodes := nodes, cursize := h.cursize - 1 } (Heap.pop h.expire (x :: xs)) := by
    intro nodes hl hcells
    refine ⟨?_, by dsimp only; omega, hr.capacity, hl.trans hlen, hcells, fun y hy => ?_, ?_,
      Heap.pop_ordered hr.ordered⟩
    · rw [hperm.length_eq]
      dsimp only
      omega
    · exact hr.made y (List.mem_cons_of_mem _ (hperm.mem_iff.mp hy))
    · exact hperm.nodup_iff.mpr (List.nodup_cons.mp hr.nodup).2
  rw [TimeHeap.popTimer, if_neg (by omega)]
  simp only [hfirst]
  rcases List.eq_nil_or_concat xs with rfl | ⟨ys, y, rfl⟩
  · -- the only node: its cell, now null, is moved onto itself
    have hone : h.cursize - 1 = 0 := by
      rw [List.length_nil] at hsize
      omega
    have hnull : load (h.nodes.set 0 none) 0 = none := by
      rw [load_set (by omega), if_pos rfl]
    have hdown : percolateDown h.expire 0 (h.nodes.set 0 none) 0 =
        some ((h.nodes.set 0 none).set 0 none, [0, 0]) := by
      rw [percolateDown, if_pos (by rw [List.length_set]; omega), hnull]
      unfold percolateLoop
      rw [if_neg (by omega), store_some (by rw [List.length_set]; omega)]
      rfl
    rw [hone, hnull, store_some (by rw [List.length_set]; omega), Option.bind_some, List.set_set,
      hdown]
    refine ⟨_, _, rfl, ?_, rfl, rfl, fun i hi => ?_⟩
    · rw [← hone]
      exact hrep _ (by simp) (fun i y hy => by simp [Heap.pop] at hy)
    · simp only [List.mem_cons, List.not_mem_nil, or_false, or_self] at hi
      exact Or.inr ⟨hi, rfl⟩
  · have hlast : (ys ++ [y]).getLast? = some y := List.getLast?_concat
    have hdrop : (x :: (ys ++ [y])).dropLast = x :: ys := by
      rw [← List.cons_append, List.dropLast_concat]
    simp only [List.concat_eq_append] at hr hsize hperm hrep ⊢
    have hsize' : h.cursize - 1 = (y :: ys).length := by
      simp only [List.length_append, List.length_cons, List.length_nil] at hsize ⊢
      omega
    have hpos : 0 < (y :: ys).length := Nat.succ_pos _
    have hmoved : load (h.nodes.set 0 none) (h.cursize - 1) = some y := by
      rw [load_set (by omega), if_neg (by omega)]
      refine hr.cells _ y ?_
      rw [hsize', List.length_cons, List.getElem?_cons_succ, List.getElem?_append_right (by simp)]
      simp
    have hcells : Cells (h.nodes.set 0 (some y)) 0 (y :: ys) := by
      intro i z hi hz
      obtain ⟨j, rfl⟩ : ∃ j, i = j + 1 := ⟨i - 1, by omega⟩
      rw [load_set (by omega), if_neg (by omega)]
      refine hr.cells _ z ?_
      rw [List.getElem?_cons_succ] at hz ⊢
      have hlt := (List.getElem?_eq_some_iff.mp hz).1
      rw [List.getElem?_append_left hlt]
      exact hz
    obtain ⟨nodes, seen, hloop, hlen', hseen, hpopped⟩ := percolateLoop_cells h.expire y hcells
      (show (y :: ys).length ≤ (y :: ys).length + 0 from Nat.le_refl _) hpos
      (by rw [List.length_set]; omega)
    rw [List.length_set] at hlen'
    have hdown : percolateDown h.expire (h.cursize - 1) (h.nodes.set 0 (some y)) 0 =
        some (nodes, 0 :: seen) := by
      rw [percolateDown, if_pos (by rw [List.length_set]; omega), load_set (by omega), if_pos rfl,
        hsize', hloop]
      rfl
    rw [hmoved, store_some (by rw [List.length_set]; omega), Option.bind_some, List.set_set, hdown]
    refine ⟨_, _, rfl, hrep nodes hlen' (fun i z hz => hpopped i z ?_), rfl, rfl, fun i hi => ?_⟩
    · simp only [Heap.pop, hlast, hdrop, List.set_cons_zero] at hz
      simpa using hz
    · left
      dsimp only
      rw [hsize']
      rcases List.mem_cons.mp hi with rfl | hi
      · exact hpos
      · exact hseen i hi

theorem contents (hr : Rep h xs) : h.contents = xs := by
  have hlen := hr.length
  have hroom := hr.room
  have hsize := hr.size
  have htake : h.nodes.take h.cursize = xs.map some := by
    refine List.ext_getElem? (fun i => ?_)
    by_cases hi : i < xs.length
    · have hcell := hr.cells i xs[i] (List.getElem?_eq_getElem hi)
      have hin : i < h.nodes.length := by omega
      rw [load, List.getD_eq_getElem?_getD, List.getElem?_eq_getElem hin, Option.getD_some] at hcell
      rw [List.getElem?_take_of_lt (by omega), List.getElem?_eq_getElem hin, List.getElem?_map,
        List.getElem?_eq_getElem hi, hcell]
      rfl
    · rw [List.getElem?_eq_none (by rw [List.length_take]; omega),
        List.getElem?_eq_none (by rw [List.length_map]; omega)]
  rw [TimeHeap.contents, htake, List.filterMap_map]
  exact List.filterMap_some

theorem timeHeapTop (hr : Rep h xs) : h.timeHeapTop = xs.head? := by
  have hsize := hr.size
  cases xs with
  | nil => rw [TimeHeap.timeHeapTop, if_pos (show h.cursize = 0 from hsize), List.head?_nil]
  | cons x xs =>
    rw [List.length_cons] at hsize
    rw [TimeHeap.timeHeapTop, if_neg (by omega), hr.cells 0 x rfl, List.head?_cons]

theorem popAll (hr : Rep h xs) :
    h.popAll xs.length = some (Heap.popAll h.expire xs.length xs) := by
  generalize hn : xs.length = n
  induction n generalizing h xs with
  | zero => rfl
  | succ n ih =>
    cases xs with
    | nil => cases hn
    | cons x xs =>
      obtain ⟨h', seen, hpop, hr', hnode, -⟩ := hr.popTimer
      have hlen : (Heap.pop h.expire (x :: xs)).length = n := by
        rw [(Heap.pop_perm x xs).length_eq]
        exact Nat.succ.inj hn
      have hexpire : h'.expire = h.expire := by
        funext m
        rw [TimeHeap.expire, hnode, TimeHeap.expire]
      rw [TimeHeap.popAll, hr.timeHeapTop, hpop]
      simp only [List.head?_cons]
      rw [ih hr' hlen, hexpire]
      rfl

end Rep

/-- What a call of a function of the heap did: the node it added or freed, the indices of the array
that `insert_time_heap` or `percolate_down` used, and `cursize` then. -/
structure Call where
  added : Option Nat
  popped : Option Nat
  used : List Nat
  cursize : Nat
  deriving DecidableEq, Repr

inductive Act where
  | add (now : BitVec 64) (cb : Option Nat) (args : Nat) (timeout : BitVec 32)
  | del (n : Nat)
  | pop
  deriving DecidableEq, Repr

/-- The heap and the calls so far, the latest first. -/
structure Sys where
  heap : TimeHeap
  calls : List Call

def Sys.init : Sys := { heap := timeHeapInit, calls := [] }

def step (s : Sys) : Act → Option Sys
  | .add now cb args timeout =>
    (s.heap.timeHeapAddTimer now cb args timeout).map fun r =>
      { heap := r.2.1
        calls := { added := some r.1, popped := none, used := r.2.2, cursize := r.2.1.cursize } ::
          s.calls }
  | .del n => some { s with heap := s.heap.timeHeapDelTimer n }
  | .pop =>
    s.heap.popTimer.map fun r =>
      { heap := r.1
        calls := { added := none, popped := s.heap.timeHeapTop, used := r.2
                   cursize := r.1.cursize } :: s.calls }

/-- The nodes added and not popped. -/
def pending : List Call → List Nat
  | [] => []
  | c :: calls => c.added.toList ++ c.popped.elim (pending calls) (pending calls).erase

/-- The array is used below `cursize`, but for the first cell of a heap that has become empty. -/
def Call.Within (c : Call) : Prop :=
  ∀ i ∈ c.used, i < c.cursize ∨ i = 0 ∧ c.cursize = 0 ∧ c.popped.isSome = true

structure Inv (s : Sys) (xs : List Nat) : Prop where
  rep : Rep s.heap xs
  pending : xs.Perm (pending s.calls)
  within : ∀ c ∈ s.calls, c.Within

theorem inv_init : Inv Sys.init [] :=
  ⟨rep_init, List.Perm.refl _, fun _ h => absurd h List.not_mem_nil⟩

theorem Inv.step {s t : Sys} {xs : List Nat} (h : Inv s xs) {a : Act}
    (hstep : MinHeap.step s a = some t) : ∃ xs', Inv t xs' := by
  cases a with
  | add now cb args timeout =>
    obtain ⟨r, hadd, rfl⟩ := Option.map_eq_some_iff.mp hstep
    obtain ⟨hn, -, -, hused, xs', hrep, hperm, -⟩ := h.rep.timeHeapAddTimer hadd
    refine ⟨xs', hrep, ?_, fun c hc => ?_⟩
    · simp only [MinHeap.pending, hn, Option.toList_some, List.singleton_append, Option.elim_none]
      exact hperm.trans (h.pending.cons _)
    · rcases List.mem_cons.mp hc with rfl | hc
      · exact fun i hi => Or.inl (hused i hi)
      · exact h.within c hc
  | del n =>
    cases hstep
    exact ⟨xs, h.rep.timeHeapDelTimer n, h.pending, h.within⟩
  | pop =>
    obtain ⟨r, hpop, rfl⟩ := Option.map_eq_some_iff.mp hstep
    cases xs with
    | nil =>
      rw [h.rep.popTimer_nil] at hpop
      cases hpop
      refine ⟨[], h.rep, ?_, fun c hc => ?_⟩
      · simp only [MinHeap.pending, h.rep.timeHeapTop, Option.toList_none, List.head?_nil,
          Option.elim_none, List.nil_append]
        exact h.pending
      · rcases List.mem_cons.mp hc with rfl | hc
        · exact fun i hi => absurd hi List.not_mem_nil
        · exact h.within c hc
    | cons x xs =>
      obtain ⟨h', seen, hpop', hrep, -, -, hused⟩ := h.rep.popTimer
      rw [hpop'] at hpop
      cases hpop
      refine ⟨_, hrep, ?_, fun c hc => ?_⟩
      · simp only [MinHeap.pending, h.rep.timeHeapTop, Option.toList_none, List.head?_cons,
          Option.elim_some, List.nil_append]
        have herase := h.pending.erase x
        rw [List.erase_cons_head] at herase
        exact (Heap.pop_perm x xs).trans herase
      · rcases List.mem_cons.mp hc with rfl | hc
        · intro i hi
          rcases hused i hi with hlt | ⟨hi0, hempty⟩
          · exact Or.inl hlt
          · exact Or.inr ⟨hi0, hempty, by rw [h.rep.timeHeapTop]; rfl⟩
        · exact h.within c hc

theorem inv_of_run {s : Sys} {as : List Act} (h : Run.run step Sys.init as = some s) :
    ∃ xs, Inv s xs :=
  Run.run_invariant (p := fun s => ∃ xs, Inv s xs) (fun _ _ _ ⟨_, hs⟩ hstep => hs.step hstep)
    ⟨[], inv_init⟩ h

/-- In every run the array is a heap of the nodes added and not popped, and it is used below
`cursize` but for the first cell of a heap that has become empty; a node can always be popped, and
one can be added unless the capacity outgrows an `int`; popping until the heap is empty frees its
nodes by nondecreasing expiry. -/
theorem time_heap_represented (as : List Act) (s : Sys)
    (h : Run.run step Sys.init as = some s) :
    (∀ i, 0 < i → i < s.heap.cursize → ∃ p c, load s.heap.nodes ((i - 1) / 2) = some p ∧
        load s.heap.nodes i = some c ∧ s.heap.expire p ≤ s.heap.expire c) ∧
      s.heap.cursize ≤ s.heap.capacity ∧ s.heap.nodes.length = s.heap.capacity ∧
      (∀ c ∈ s.calls, c.Within) ∧
      s.heap.contents.length = s.heap.cursize ∧ s.heap.contents.Perm (pending s.calls) ∧
      (step s .pop).isSome = true ∧
      ((s.heap.cursize < s.heap.capacity ∨ s.heap.capacity * 2 < 2 ^ 31) →
        ∀ now cb args timeout, (step s (.add now cb args timeout)).isSome = true) ∧
      ∃ ns, s.heap.popAll s.heap.cursize = some ns ∧ ns.Perm s.heap.contents ∧
        ns.Pairwise (fun m n => s.heap.expire m ≤ s.heap.expire n) := by
  obtain ⟨xs, hinv⟩ := inv_of_run h
  have hrep := hinv.rep
  have hcontents := hrep.contents
  have hsize := hrep.size
  refine ⟨fun i hi hlt => ?_, hrep.room, hrep.length, hinv.within, ?_, ?_, ?_,
    fun hcap now cb args timeout => ?_, ?_⟩
  · obtain ⟨p, hp⟩ : ∃ p, xs[(i - 1) / 2]? = some p := ⟨_, List.getElem?_eq_getElem (by omega)⟩
    obtain ⟨c, hc⟩ : ∃ c, xs[i]? = some c := ⟨_, List.getElem?_eq_getElem (by omega)⟩
    exact ⟨p, c, hrep.cells _ p hp, hrep.cells i c hc, hrep.ordered i p c hi hp hc⟩
  · rw [hcontents, hsize]
  · rw [hcontents]
    exact hinv.pending
  · rw [step, Option.isSome_map]
    cases xs with
    | nil => rw [hrep.popTimer_nil]; rfl
    | cons x xs =>
      obtain ⟨h', seen, hpop, -⟩ := hrep.popTimer
      rw [hpop]
      rfl
  · rw [step, Option.isSome_map]
    exact hrep.timeHeapAddTimer_isSome hcap now cb args timeout
  · obtain ⟨hperm, hsorted⟩ := Heap.popAll_sorted hrep.ordered (Nat.le_refl _)
    rw [hcontents, hsize]
    exact ⟨_, hrep.popAll, hperm, hsorted⟩

/-- Timers with equal and different expiries, one of them popped. -/
def fourTimers : List Act :=
  [.add 10#64 (some 1) 0 5#32, .add 10#64 (some 1) 1 3#32, .add 11#64 (some 1) 2 2#32, .del 1, .pop,
    .add 12#64 (some 1) 3 3#32]

theorem time_heap_represented_four :
    ∃ s, Run.run step Sys.init fourTimers = some s ∧ s.heap.contents = [2, 0, 3] ∧
      ∃ ns, s.heap.popAll s.heap.cursize = some ns ∧ ns.Perm [2, 0, 3] ∧
        ns.Pairwise (fun m n => s.heap.expire m ≤ s.heap.expire n) := by
  have hrun : (Run.run step Sys.init fourTimers).map (fun s => s.heap.contents) =
      some [2, 0, 3] := by
    decide +kernel
  obtain ⟨s, hs, hcontents⟩ := Option.map_eq_some_iff.mp hrun
  refine ⟨s, hs, hcontents, ?_⟩
  rw [← hcontents]
  exact (time_heap_represented _ s hs).2.2.2.2.2.2.2.2

/-- Popping the only node, `percolate_down` uses the first cell while `cursize` is 0. -/
theorem time_heap_emptied_access :
    ∃ s, Run.run step Sys.init [.add 10#64 (some 1) 0 5#32, .pop] = some s ∧
      ¬ ∀ c ∈ s.calls, ∀ i ∈ c.used, i < c.cursize := by
  have hrun : (Run.run step Sys.init [.add 10#64 (some 1) 0 5#32, .pop]).map Sys.calls =
      some [⟨none, some 0, [0, 0], 0⟩, ⟨some 0, none, [0], 1⟩] := by
    decide +kernel
  obtain ⟨s, hs, hcalls⟩ := Option.map_eq_some_iff.mp hrun
  refine ⟨s, hs, fun hall => ?_⟩
  rw [hcalls] at hall
  exact absurd (hall _ List.mem_cons_self 0 List.mem_cons_self) (Nat.lt_irrefl 0)

end AlgorithmLib.MinHeap
