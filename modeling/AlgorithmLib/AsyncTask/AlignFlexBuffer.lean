import AlgorithmLib.AsyncTask.FlexBuffer

/-!
`alignflexbuffer_t` of `flex_buffer.h`: an array of `max` buffers, the first `cout` in use.
`Filled t q` says that `t` represents the list `q`; each operation is specified on that list.
-/

set_option autoImplicit false

namespace AlgorithmLib.AsyncTask

def nullBuffer : FlexBuffer := ⟨none, 0, 0, 0⟩

structure AlignFlexBuffer where
  buffers : List FlexBuffer
  cout : Nat
  max : Nat
  deriving DecidableEq, Repr

namespace AlignFlexBuffer

def alignflexbufferInit (max : Nat) : AlignFlexBuffer := ⟨List.replicate max nullBuffer, 0, max⟩

/-- The array and the caller's buffer afterwards: a full array takes nothing and the
buffer is left as it was. -/
def alignflexbufferAddTail (t : AlignFlexBuffer) (b : FlexBuffer) : AlignFlexBuffer × FlexBuffer :=
  if t.cout ≥ t.max then (t, b)
  else ({ t with buffers := t.buffers.set t.cout b, cout := t.cout + 1 }, b.flexBufferClean)

def alignflexbufferErase (t : AlignFlexBuffer) (first last : Nat) : AlignFlexBuffer :=
  { t with
    buffers := t.buffers.mapIdx (fun i b => if first ≤ i ∧ i < last then b.flexBufferClean else b)
    cout := first }

def alignflexbufferMove (dst src : AlignFlexBuffer) : AlignFlexBuffer × AlignFlexBuffer :=
  let max := if dst.max > src.cout then src.cout else dst.max
  let dst := dst.alignflexbufferErase 0 dst.cout
  ({ dst with buffers := src.buffers.take max ++ dst.buffers.drop max, cout := max },
   { src with buffers := List.replicate max nullBuffer ++ src.buffers.drop max, cout := 0 })

def alignflexbufferClear (t : AlignFlexBuffer) : AlignFlexBuffer :=
  t.alignflexbufferErase 0 t.cout

/-- `flex_buffer_move(b, &t->buffers_[t->cout-1]); t->cout--`: the entry moved out and the
array afterwards; `none` when the index is below the array. -/
def takeLast (t : AlignFlexBuffer) : Option (FlexBuffer × AlignFlexBuffer) :=
  if t.cout = 0 then none
  else
    (t.buffers[t.cout - 1]?).map (fun b =>
      (b, { t with buffers := t.buffers.set (t.cout - 1) b.flexBufferClean, cout := t.cout - 1 }))

/-- The array represents the list `q`: its first `cout` entries are those of `q`, usable
and well formed, and the entries behind them are zeroed. -/
structure Filled (t : AlignFlexBuffer) (q : List FlexBuffer) : Prop where
  entries : t.buffers = q ++ List.replicate (t.max - q.length) nullBuffer
  cout : t.cout = q.length
  fits : q.length ≤ t.max
  usable : ∀ b ∈ q, b.flexBufferUsable
  valid : ∀ b ∈ q, b.Valid

theorem init_filled (max : Nat) : (alignflexbufferInit max).Filled [] :=
  ⟨by simp [alignflexbufferInit], rfl, Nat.zero_le _, by simp, by simp⟩

variable {t : AlignFlexBuffer} {q : List FlexBuffer}

theorem Filled.take (h : t.Filled q) : t.buffers.take t.cout = q := by
  rw [h.entries, h.cout, List.take_left]

theorem Filled.get (h : t.Filled q) {i : Nat} (hq : i < q.length) :
    t.buffers[i]? = some q[i] := by
  rw [h.entries, List.getElem?_append_left hq, List.getElem?_eq_getElem hq]

theorem Filled.addTail (h : t.Filled q) {b : FlexBuffer} (hu : b.flexBufferUsable)
    (hv : b.Valid) (hroom : q.length < t.max) :
    (t.alignflexbufferAddTail b).1.Filled (q ++ [b]) ∧
      (t.alignflexbufferAddTail b).2 = nullBuffer := by
  have hc : ¬ t.cout ≥ t.max := by rw [h.cout]; omega
  unfold alignflexbufferAddTail
  rw [if_neg hc]
  have hr : List.replicate (t.max - q.length) nullBuffer =
      nullBuffer :: List.replicate (t.max - (q.length + 1)) nullBuffer := by
    rw [← List.replicate_succ]
    congr 1
    omega
  refine ⟨⟨?_, by simp [h.cout], ?_, ?_, ?_⟩, rfl⟩
  · simp [h.entries, h.cout, hr]
  · simp only [List.length_append, List.length_singleton]
    omega
  · intro x hx
    rcases List.mem_append.mp hx with hx | hx
    · exact h.usable x hx
    · rw [List.mem_singleton.mp hx]
      exact hu
  · intro x hx
    rcases List.mem_append.mp hx with hx | hx
    · exact h.valid x hx
    · rw [List.mem_singleton.mp hx]
      exact hv

theorem Filled.addTail_full (h : t.Filled q) (b : FlexBuffer) (hfull : q.length = t.max) :
    t.alignflexbufferAddTail b = (t, b) := by
  unfold alignflexbufferAddTail
  rw [if_pos (by rw [h.cout]; omega)]

/-- Erasing from `first` to behind the last entry in use leaves the first `first` entries. -/
theorem Filled.erase (h : t.Filled q) {first last : Nat} (hf : first ≤ q.length)
    (hl : q.length ≤ last) : (t.alignflexbufferErase first last).Filled (q.take first) := by
  have hlen : (q.take first).length = first := by rw [List.length_take]; omega
  refine ⟨?_, hlen.symm, ?_, ?_, ?_⟩
  · change t.buffers.mapIdx _ = _ ++ List.replicate (t.max - _) nullBuffer
    rw [hlen]
    apply List.ext_getElem
    · simp only [List.length_mapIdx, h.entries, List.length_append, List.length_replicate, hlen]
      have := h.fits
      omega
    · intro i hi₁ hi₂
      rw [List.getElem_mapIdx]
      by_cases hi : i < first
      · have hq : i < q.length := by omega
        have hb : i < t.buffers.length := by simpa using hi₁
        have hl' : t.buffers[i] = q[i] := by
          simp only [h.entries, List.getElem_append_left hq]
        rw [if_neg (by omega), List.getElem_append_left (by omega), List.getElem_take, hl']
      · have hr : (q.take first ++ List.replicate (t.max - first) nullBuffer)[i] = nullBuffer := by
          rw [List.getElem_append_right (by omega), List.getElem_replicate]
        rw [hr]
        split
        · rfl
        · have hq : q.length ≤ i := by omega
          simp only [h.entries, List.getElem_append_right hq, List.getElem_replicate]
  · rw [hlen]
    exact Nat.le_trans hf h.fits
  · exact fun b hb => h.usable b (List.mem_of_mem_take hb)
  · exact fun b hb => h.valid b (List.mem_of_mem_take hb)

theorem Filled.clear (h : t.Filled q) : t.alignflexbufferClear.Filled [] := by
  exact h.erase (Nat.zero_le _) (Nat.le_of_eq h.cout.symm)

@[simp] theorem erase_max (t : AlignFlexBuffer) (first last : Nat) :
    (t.alignflexbufferErase first last).max = t.max := rfl

@[simp] theorem clear_max (t : AlignFlexBuffer) : t.alignflexbufferClear.max = t.max := rfl

@[simp] theorem addTail_max (t : AlignFlexBuffer) (b : FlexBuffer) :
    (t.alignflexbufferAddTail b).1.max = t.max := by
  unfold alignflexbufferAddTail
  split <;> rfl

theorem Filled.move {dst : AlignFlexBuffer} {q' : List FlexBuffer} (hd : dst.Filled q')
    (h : t.Filled q) (hmax : dst.max = t.max) :
    (alignflexbufferMove dst t).1.Filled q ∧ (alignflexbufferMove dst t).2.Filled [] ∧
      (alignflexbufferMove dst t).1.max = dst.max ∧ (alignflexbufferMove dst t).2.max = t.max := by
  have hfits := h.fits
  have hm : (if dst.max > t.cout then t.cout else dst.max) = q.length := by
    rw [h.cout]
    split <;> omega
  have hclear := hd.clear.entries
  simp only [List.nil_append, List.length_nil, Nat.sub_zero, clear_max] at hclear
  rw [alignflexbufferMove, hm]
  refine ⟨⟨?_, rfl, by simpa [hmax] using hfits, h.usable, h.valid⟩,
    ⟨?_, rfl, Nat.zero_le _, by simp, by simp⟩, rfl, rfl⟩
  · change t.buffers.take q.length ++ dst.alignflexbufferClear.buffers.drop q.length = _
    rw [hclear, List.drop_replicate, ← h.cout, h.take]
    rfl
  · change List.replicate q.length nullBuffer ++ t.buffers.drop q.length = [] ++ _
    rw [h.entries, List.drop_left, ← List.replicate_add]
    simp only [List.nil_append, List.length_nil]
    congr 1
    omega

theorem Filled.takeLast (h : t.Filled q) (hq : q ≠ []) :
    ∃ t', t.takeLast = some (q.getLast hq, t') ∧ t'.Filled q.dropLast ∧ t'.max = t.max := by
  have hpos : 0 < q.length := List.length_pos_iff.mpr hq
  have hfits := h.fits
  have hget : t.buffers[t.cout - 1]? = some (q.getLast hq) := by
    rw [h.cout, h.get (by omega), List.getLast_eq_getElem]
  have htake : t.takeLast = some (q.getLast hq,
      { t with buffers := t.buffers.set (t.cout - 1) nullBuffer, cout := t.cout - 1 }) := by
    rw [AlignFlexBuffer.takeLast, if_neg (by rw [h.cout]; omega), hget]
    rfl
  refine ⟨_, htake, ?_, rfl⟩
  have hsplit := List.dropLast_append_getLast hq
  have hd : q.dropLast.length = q.length - 1 := List.length_dropLast
  refine ⟨?_, ?_, ?_, ?_, ?_⟩
  · change t.buffers.set (t.cout - 1) nullBuffer =
      q.dropLast ++ List.replicate (t.max - q.dropLast.length) nullBuffer
    have hset : q.set (q.length - 1) nullBuffer = q.dropLast ++ [nullBuffer] := by
      conv => lhs; arg 1; rw [← hsplit]
      rw [← hd, List.set_append_right _ _ (Nat.le_refl _), Nat.sub_self]
      rfl
    have hr : t.max - (q.length - 1) = (t.max - q.length) + 1 := by omega
    rw [h.entries, h.cout, List.set_append_left _ _ (by omega), hset, hd, hr, List.replicate_succ,
      List.append_assoc]
    rfl
  · change t.cout - 1 = _
    rw [h.cout, hd]
  · change q.dropLast.length ≤ t.max
    omega
  · exact fun b hb => h.usable b (List.dropLast_subset _ hb)
  · exact fun b hb => h.valid b (List.dropLast_subset _ hb)

end AlignFlexBuffer

end AlgorithmLib.AsyncTask
