import AlgorithmLib.AsyncTask.Conservation

set_option autoImplicit false

namespace AlgorithmLib.AsyncTask

open Run

def FlexBuffer.references (b : FlexBuffer) : List Nat := (b.buffer.map Block.addr).toList

def AlignFlexBuffer.references (t : AlignFlexBuffer) : List Nat :=
  t.buffers.flatMap FlexBuffer.references

def AsyncProc.references (p : AsyncProc) : List Nat :=
  p.currentBuffer.references ++ p.nextBuffer.references ++ p.buffers.references

def ThreadFunc.references (t : ThreadFunc) : List Nat :=
  t.newBuffer1.references ++ t.newBuffer2.references ++ t.buffersToWrite.references

def Sys.references (s : Sys) : List Nat := s.proc.references ++ s.thread.references

/-- One for a block that was allocated at an address from `lo` up to `hi`. -/
def allocated (lo hi a : Nat) : Nat := if lo ≤ a ∧ a < hi then 1 else 0

theorem allocated_append {lo mid hi a : Nat} (h : lo ≤ mid) (h' : mid ≤ hi) :
    allocated lo mid a + allocated mid hi a = allocated lo hi a := by
  unfold allocated
  split <;> split <;> split <;> omega

namespace FlexBuffer

variable (a : Nat) (b : FlexBuffer)

@[simp] theorem count_clean : b.flexBufferClean.references.count a = 0 := rfl

@[simp] theorem count_null : nullBuffer.references.count a = 0 := rfl

@[simp] theorem references_poke (bytes : List UInt8) :
    (b.poke bytes).references = b.references := by
  cases h : b.buffer <;> simp [references, poke, h]

theorem count_init (addr size : Nat) :
    (flexBufferInit addr size).references.count a = allocated addr (addr + 1) a := by
  simp only [references, flexBufferInit, allocated, Option.map_some, Option.toList_some,
    List.count_singleton, beq_iff_eq]
  congr 1
  simp only [eq_iff_iff]
  omega

@[simp] theorem references_retrieveAll : b.flexRetrieveAll.references = b.references := by
  unfold flexRetrieveAll
  rw [references_poke]
  rfl

theorem references_moveFront : b.moveFront.references = b.references := by
  unfold moveFront
  split
  · exact references_poke b _
  · rfl

theorem count_grow (addr len : Nat) :
    (b.grow addr len).references.count a ≤
      b.references.count a + allocated addr (addr + 1) a := by
  unfold grow
  split
  · have hnew := count_init a addr 0
    simp only [references, flexBufferInit] at hnew ⊢
    simp only [Option.map_some] at hnew ⊢
    omega
  · exact Nat.le_add_right _ _

theorem count_flexAppend (addr : Nat) (data : List UInt8) :
    (b.flexAppend addr data).references.count a ≤
      b.references.count a + allocated addr (addr + 1) a := by
  have hcopy : (b.flexAppend addr data).references =
      (b.ensureWritableBytes addr data.length).references :=
    references_poke _ _
  rw [hcopy]
  unfold ensureWritableBytes
  split
  · have hgrow := count_grow a b.moveFront addr data.length
    rw [references_moveFront] at hgrow
    exact hgrow
  · exact Nat.le_add_right _ _

end FlexBuffer

namespace AlignFlexBuffer

variable (a : Nat) {t : AlignFlexBuffer}

theorem count_set (l : List FlexBuffer) (i : Nat) (b : FlexBuffer) :
    ((l.set i b).flatMap FlexBuffer.references).count a ≤
      (l.flatMap FlexBuffer.references).count a + b.references.count a := by
  induction l generalizing i with
  | nil => exact Nat.zero_le _
  | cons c l ih =>
    cases i with
    | zero =>
      simp only [List.set_cons_zero, List.flatMap_cons, List.count_append]
      omega
    | succ i =>
      have h := ih i
      simp only [List.set_cons_succ, List.flatMap_cons, List.count_append]
      omega

theorem count_set_get {l : List FlexBuffer} {i : Nat} {b : FlexBuffer} (h : l[i]? = some b) :
    ((l.set i b.flexBufferClean).flatMap FlexBuffer.references).count a + b.references.count a =
      (l.flatMap FlexBuffer.references).count a := by
  induction l generalizing i with
  | nil => simp at h
  | cons c l ih =>
    cases i with
    | zero =>
      simp only [List.getElem?_cons_zero, Option.some.injEq] at h
      simp only [h, List.set_cons_zero, List.flatMap_cons, List.count_append,
        FlexBuffer.count_clean]
      omega
    | succ i =>
      have hrest := ih (by simpa using h)
      simp only [List.set_cons_succ, List.flatMap_cons, List.count_append]
      omega

theorem count_mapIdx (l : List FlexBuffer) (f : Nat → FlexBuffer → FlexBuffer)
    (hf : ∀ i b, (f i b).references.count a ≤ b.references.count a) :
    ((l.mapIdx f).flatMap FlexBuffer.references).count a ≤
      (l.flatMap FlexBuffer.references).count a := by
  induction l generalizing f with
  | nil => exact Nat.le_refl _
  | cons c l ih =>
    have hrest := ih (fun i => f (i + 1)) fun i b => hf (i + 1) b
    have hfirst := hf 0 c
    simp only [List.mapIdx_cons, List.flatMap_cons, List.count_append]
    omega

theorem count_erase (first last : Nat) :
    (t.alignflexbufferErase first last).references.count a ≤ t.references.count a := by
  refine count_mapIdx a t.buffers _ fun i b => ?_
  split
  · exact Nat.zero_le _
  · exact Nat.le_refl _

theorem count_addTail (b : FlexBuffer) :
    (t.alignflexbufferAddTail b).1.references.count a +
        (t.alignflexbufferAddTail b).2.references.count a ≤
      t.references.count a + b.references.count a := by
  unfold alignflexbufferAddTail
  split
  · exact Nat.le_refl _
  · exact count_set a t.buffers t.cout b

theorem count_replicate_null (n : Nat) :
    ((List.replicate n nullBuffer).flatMap FlexBuffer.references).count a = 0 := by
  induction n with
  | zero => rfl
  | succ n ih => exact ih

theorem count_move (dst src : AlignFlexBuffer) :
    (alignflexbufferMove dst src).1.references.count a +
        (alignflexbufferMove dst src).2.references.count a ≤
      dst.references.count a + src.references.count a := by
  have herase := count_erase a (t := dst) 0 dst.cout
  have hcut : ∀ (l : List FlexBuffer) (n : Nat),
      ((l.take n).flatMap FlexBuffer.references).count a +
          ((l.drop n).flatMap FlexBuffer.references).count a =
        (l.flatMap FlexBuffer.references).count a := by
    intro l n
    rw [← List.count_append, ← List.flatMap_append, List.take_append_drop]
  have hdst := hcut (dst.alignflexbufferErase 0 dst.cout).buffers
    (if dst.max > src.cout then src.cout else dst.max)
  have hsrc := hcut src.buffers (if dst.max > src.cout then src.cout else dst.max)
  simp only [alignflexbufferMove, references, List.flatMap_append, List.count_append,
    count_replicate_null] at herase ⊢
  omega

theorem count_takeLast {b : FlexBuffer} {t' : AlignFlexBuffer} (h : t.takeLast = some (b, t')) :
    b.references.count a + t'.references.count a = t.references.count a := by
  unfold takeLast at h
  split at h
  · cases h
  · obtain ⟨c, hget, hc⟩ := Option.map_eq_some_iff.mp h
    cases hc
    rw [Nat.add_comm]
    exact count_set_get a hget

end AlignFlexBuffer

namespace AsyncProc

variable (a addr : Nat)

theorem count_appendSegments (b : FlexBuffer) (ds : List (List UInt8)) :
    (appendSegments addr b ds).references.count a ≤
      b.references.count a + allocated addr (addr + ds.length) a := by
  induction ds generalizing addr b with
  | nil => exact Nat.le_add_right _ _
  | cons d ds ih =>
    have hfirst := FlexBuffer.count_flexAppend a b addr d
    have hrest := ih (addr + 1) (b.flexAppend addr d)
    have hall := allocated_append (a := a) (Nat.le_add_right addr 1)
      (Nat.le_add_right (addr + 1) ds.length)
    simp only [appendSegments, List.length_cons] at hrest ⊢
    rw [show addr + (ds.length + 1) = addr + 1 + ds.length by omega]
    omega

theorem count_rotate (p : AsyncProc) :
    (p.rotate addr).references.count a ≤
      p.references.count a + allocated addr (addr + 1) a := by
  have hadd := AlignFlexBuffer.count_addTail a (t := p.buffers) p.currentBuffer
  unfold rotate
  split
  · simp only [FlexBuffer.flexBufferMove]
    split
    · simp only [references, List.count_append, FlexBuffer.count_clean]
      omega
    · simp only [references, List.count_append, FlexBuffer.flexBufferRecalloc,
        FlexBuffer.count_init]
      omega
  · exact Nat.le_add_right _ _

end AsyncProc

namespace Sys

variable (a : Nat) {s t : Sys}

theorem count_refill {b b' : FlexBuffer} {t t' : AlignFlexBuffer}
    (h : refill b t = some (b', t')) :
    b'.references.count a + t'.references.count a ≤
      b.references.count a + t.references.count a := by
  unfold refill at h
  split at h
  · obtain ⟨⟨c, u⟩, htake, hc⟩ := Option.map_eq_some_iff.mp h
    cases hc
    have hlast := AlignFlexBuffer.count_takeLast a htake
    simp only [FlexBuffer.references_retrieveAll]
    omega
  · cases h
    exact Nat.le_refl _

theorem count_swap : s.swap.references.count a ≤ s.references.count a := by
  have hadd := AlignFlexBuffer.count_addTail a (t := s.proc.buffers) s.proc.currentBuffer
  have hmove := AlignFlexBuffer.count_move a s.thread.buffersToWrite
    (s.proc.buffers.alignflexbufferAddTail s.proc.currentBuffer).1
  unfold swap
  simp only [FlexBuffer.flexBufferMove]
  split
  · simp only [references, AsyncProc.references, ThreadFunc.references, List.count_append,
      FlexBuffer.count_clean]
    omega
  · simp only [references, AsyncProc.references, ThreadFunc.references, List.count_append,
      FlexBuffer.count_clean]
    omega

theorem count_firstTwo (t : AlignFlexBuffer) :
    (firstTwo t).references.count a ≤ t.references.count a := by
  unfold firstTwo
  split
  · exact AlignFlexBuffer.count_erase a 2 (asyncprocMaxbuffer + 1)
  · exact Nat.le_refl _

theorem count_recycle (h : s.recycle = some t) :
    t.references.count a ≤ s.references.count a := by
  simp only [recycle, Option.bind_eq_bind, Option.bind_eq_some_iff, Prod.exists] at h
  obtain ⟨b₁, t₁, h₁, b₂, t₂, h₂, ht⟩ := h
  obtain rfl := Option.some.inj ht
  have htwo := count_firstTwo a s.thread.buffersToWrite
  have hfirst := count_refill a h₁
  have hsecond := count_refill a h₂
  have hclear := AlignFlexBuffer.count_erase a (t := t₂) 0 t₂.cout
  simp only [references, ThreadFunc.references, List.count_append, firstTwo,
    AlignFlexBuffer.alignflexbufferClear] at htwo ⊢
  omega

theorem fresh_recycle (h : s.recycle = some t) : t.fresh = s.fresh := by
  simp only [recycle, Option.bind_eq_bind, Option.bind_eq_some_iff, Prod.exists] at h
  obtain ⟨b₁, t₁, -, b₂, t₂, -, ht⟩ := h
  obtain rfl := Option.some.inj ht
  rfl

theorem count_work (h : s.work = some t) :
    t.fresh = s.fresh ∧ t.references.count a ≤ s.references.count a := by
  unfold work at h
  split at h
  case h_1 => cases h
  case h_2 =>
    split at h
    · cases h
      exact ⟨rfl, Nat.le_refl _⟩
    · cases h
      have hclear := AlignFlexBuffer.count_erase a (t := s.thread.buffersToWrite) 0
        s.thread.buffersToWrite.cout
      refine ⟨rfl, ?_⟩
      simp only [references, ThreadFunc.references, List.count_append, FlexBuffer.count_clean,
        AlignFlexBuffer.alignflexbufferClear]
      omega
  case h_3 =>
    split at h
    · cases h
      exact ⟨rfl, Nat.le_refl _⟩
    · cases h
      exact ⟨rfl, count_swap a⟩
  case h_4 =>
    cases h
    exact ⟨rfl, count_swap a⟩
  case h_5 =>
    cases h
    have hdrop : (dropOverload s.thread.buffersToWrite).references.count a ≤
        s.thread.buffersToWrite.references.count a := by
      unfold dropOverload
      split
      · exact AlignFlexBuffer.count_erase a 2 (asyncprocMaxbuffer + 1)
      · exact Nat.le_refl _
    refine ⟨rfl, ?_⟩
    simp only [references, ThreadFunc.references, List.count_append]
    omega
  case h_6 =>
    split at h
    · obtain ⟨cur, -, hcur⟩ := Option.map_eq_some_iff.mp h
      cases hcur
      exact ⟨rfl, Nat.le_refl _⟩
    · exact ⟨fresh_recycle h, count_recycle a h⟩
  case h_7 => cases h

theorem count_appendStream (stream : AsyncStream) :
    (s.appendStream stream).references.count a ≤
      s.references.count a + allocated s.fresh (s.appendStream stream).fresh a := by
  have hsegments := AsyncProc.count_appendSegments a s.fresh s.proc.currentBuffer stream.data
  have hrotate := AsyncProc.count_rotate a (s.fresh + stream.data.length)
    { s.proc with
      currentBuffer := AsyncProc.appendSegments s.fresh s.proc.currentBuffer stream.data }
  have hall := allocated_append (a := a) (Nat.le_add_right s.fresh stream.data.length)
    (Nat.le_add_right (s.fresh + stream.data.length) 1)
  simp only [references, appendStream, AsyncProc.asyncProcAppendStream, List.count_append] at *
  simp only [AsyncProc.references, List.count_append] at *
  omega

theorem count_append (data : List UInt8) :
    (s.append data).references.count a ≤
      s.references.count a + allocated s.fresh (s.append data).fresh a := by
  have hsegment := FlexBuffer.count_flexAppend a s.proc.currentBuffer s.fresh data
  have hrotate := AsyncProc.count_rotate a (s.fresh + 1)
    { s.proc with currentBuffer := s.proc.currentBuffer.flexAppend s.fresh data }
  have hall : allocated s.fresh (s.fresh + 1) a + allocated (s.fresh + 1) (s.fresh + 1 + 1) a =
      allocated s.fresh (s.fresh + 2) a := allocated_append (by omega) (by omega)
  simp only [references, append, AsyncProc.asyncProcAppend, List.count_append] at *
  simp only [AsyncProc.references, List.count_append] at *
  omega

theorem count_start :
    s.start.references.count a ≤ s.references.count a + allocated s.fresh s.start.fresh a := by
  have hall : allocated s.fresh (s.fresh + 1) a + allocated (s.fresh + 1) (s.fresh + 1 + 1) a =
      allocated s.fresh (s.fresh + 2) a := allocated_append (by omega) (by omega)
  have hnone := AlignFlexBuffer.count_replicate_null a (asyncprocMaxbuffer + 1)
  simp only [references, start, ThreadFunc.references, AlignFlexBuffer.references, List.count_append,
    FlexBuffer.count_init, AlignFlexBuffer.alignflexbufferInit, hnone]
  simp only [AsyncProc.references, List.count_append]
  omega

end Sys

theorem count_step {s t : Sys} {act : Act} (a : Nat) (h : step s act = some t) :
    s.fresh ≤ t.fresh ∧
      t.references.count a ≤ s.references.count a + allocated s.fresh t.fresh a := by
  cases act with
  | appendStream stream =>
    cases h
    refine ⟨?_, Sys.count_appendStream a stream⟩
    simp only [Sys.appendStream]
    omega
  | append data =>
    cases h
    refine ⟨?_, Sys.count_append a data⟩
    simp only [Sys.append]
    omega
  | start =>
    simp only [step] at h
    split at h
    case isFalse => cases h
    case isTrue =>
      cases h
      exact ⟨Nat.le_add_right _ _, Sys.count_start a⟩
  | work =>
    obtain ⟨hfresh, hcount⟩ := Sys.count_work a h
    exact ⟨hfresh.ge, hcount.trans (Nat.le_add_right _ _)⟩
  | stop =>
    simp only [step] at h
    split at h
    case isFalse => cases h
    case isTrue =>
      cases h
      exact ⟨Nat.le_refl _, Nat.le_add_right _ _⟩
  | join =>
    simp only [step] at h
    split at h
    case isFalse => cases h
    case isTrue =>
      cases h
      exact ⟨Nat.le_refl _, Nat.le_add_right _ _⟩

def Sys.Owned (s : Sys) : Prop :=
  ∀ a, s.references.count a ≤ 1 ∧ (s.fresh ≤ a → s.references.count a = 0)

theorem owned_init : Sys.init.Owned := by
  intro a
  have hall : allocated 0 1 a + allocated 1 2 a = allocated 0 2 a :=
    allocated_append (by omega) (by omega)
  have hcount : Sys.init.references.count a = allocated 0 2 a := by
    simp only [Sys.references, Sys.init, AsyncProc.references, AsyncProc.asyncProcDefInit,
      ThreadFunc.references, AlignFlexBuffer.references, AlignFlexBuffer.alignflexbufferInit,
      List.count_append, FlexBuffer.count_init, FlexBuffer.count_null,
      AlignFlexBuffer.count_replicate_null]
    omega
  rw [hcount]
  unfold allocated
  constructor
  · split <;> omega
  · intro ha
    rw [if_neg (by simp only [Sys.init] at ha; omega)]

theorem owned_step {s t : Sys} {act : Act} (hs : s.Owned) (h : step s act = some t) : t.Owned := by
  intro a
  obtain ⟨hfresh, hcount⟩ := count_step a h
  obtain ⟨hone, hnone⟩ := hs a
  unfold allocated at hcount
  split at hcount
  · constructor
    · have := hnone (by omega)
      omega
    · omega
  · constructor
    · omega
    · intro ha
      have := hnone (by omega)
      omega

/-- The entries below `cout` are usable, those from `cout` on are null, and no index is outside. -/
structure AlignFlexBuffer.Accounted (t : AlignFlexBuffer) : Prop where
  max : t.max = asyncprocMaxbuffer + 1
  length : t.buffers.length = asyncprocMaxbuffer + 1
  cout : t.cout ≤ asyncprocMaxbuffer + 1
  used : ∀ i, i < t.cout → ∃ b, t.buffers[i]? = some b ∧ b.flexBufferUsable = true
  unused : ∀ i, t.cout ≤ i → i < asyncprocMaxbuffer + 1 → t.buffers[i]? = some nullBuffer

theorem AlignFlexBuffer.Filled.accounted {t : AlignFlexBuffer} {q : List FlexBuffer}
    (h : t.Filled q) (hmax : t.max = asyncprocMaxbuffer + 1) : t.Accounted := by
  have hfits := h.fits
  refine ⟨hmax, ?_, ?_, fun i hi => ?_, fun i hi hlt => ?_⟩
  · simp only [h.entries, List.length_append, List.length_replicate]
    omega
  · rw [h.cout]
    omega
  · rw [h.cout] at hi
    exact ⟨q[i], h.get hi, h.usable _ (List.getElem_mem hi)⟩
  · rw [h.cout] at hi
    rw [h.entries, List.getElem?_append_right hi, List.getElem?_replicate, if_pos (by omega)]

/-- Where the worker refills its local buffers there is a buffer to take. -/
def Sys.Refills (s : Sys) : Prop :=
  (s.thread.newBuffer1.flexBufferUsable = false →
    1 ≤ (Sys.firstTwo s.thread.buffersToWrite).cout) ∧
  ∀ b t, Sys.refill s.thread.newBuffer1 (Sys.firstTwo s.thread.buffersToWrite) = some (b, t) →
    s.thread.newBuffer2.flexBufferUsable = false → 1 ≤ t.cout

theorem Sys.Inv.refills {s : Sys} {q w : List FlexBuffer} {i : Nat} (h : s.Inv q w)
    (hphase : s.thread.phase = .writing i) : s.Refills := by
  have hp := h.local_.phase
  rw [hphase] at hp
  obtain ⟨hne, h2, -⟩ := hp
  have hpos := List.length_pos_iff.mpr hne
  obtain ⟨v, hv, -, hvl⟩ := Sys.firstTwo_spec h.local_.write h.local_.max
  have hv₁ := hvl 1 (by omega) (by omega)
  refine ⟨fun _ => by rw [hv.cout]; exact hv₁, fun b t hb hu => ?_⟩
  obtain ⟨b', t', w', hr, -, -, hf, -, hl, -⟩ :=
    Sys.refill_spec h.local_.new1 hv fun _ => List.ne_nil_of_length_pos hv₁
  have hv₂ := hvl 2 (by omega) (h2 hu)
  rw [hr] at hb
  cases hb
  rw [hf.cout]
  omega

theorem Spare.readable {b : FlexBuffer} (h : Spare b) : b.readableBytes = 0 := by
  have hlength := FlexBuffer.content_length h.valid
  have hreader := h.valid.reader
  rw [h.empty, List.length_nil] at hlength
  simp only [FlexBuffer.readableBytes]
  omega

/-- In every state that the worker and the append calls come to. -/
theorem async_proc_accounts_for_buffers (acts : List Act) (s : Sys)
    (hrun : run step Sys.init acts = some s) :
    (s.thread.phase = .head →
      s.thread.newBuffer1.flexBufferUsable = true ∧ s.thread.newBuffer2.flexBufferUsable = true ∧
      s.thread.newBuffer1.readableBytes = 0 ∧ s.thread.newBuffer2.readableBytes = 0) ∧
    s.proc.currentBuffer.flexBufferUsable = true ∧
    s.proc.buffers.Accounted ∧ s.thread.buffersToWrite.Accounted ∧
    (∀ i, s.thread.phase = .writing i → i ≤ s.thread.buffersToWrite.cout ∧ s.Refills) ∧
    (s.thread.phase ≠ .idle → s.thread.phase ≠ .exited → ∃ t, step s .work = some t) ∧
    s.references.Nodup := by
  obtain ⟨⟨q, w, hinv⟩, -⟩ := run_inv hrun
  have howned : s.Owned := run_invariant (fun _ _ _ h hstep => owned_step h hstep) owned_init hrun
  have hp := hinv.local_.phase
  refine ⟨fun hhead => ?_, hinv.shared.usable, hinv.shared.queue.accounted hinv.shared.max,
    hinv.local_.write.accounted hinv.local_.max, fun i hi => ⟨?_, hinv.refills hi⟩,
    work_enabled hrun, List.nodup_iff_count.mpr fun a => (howned a).1⟩
  · rw [hhead] at hp
    exact ⟨hp.2.1, hp.2.2, hinv.local_.new1.readable, hinv.local_.new2.readable⟩
  · rw [hi] at hp
    rw [hinv.local_.write.cout]
    exact hp.2.2

/-- The worker comes back to the head of its loop with the buffer it has written. -/
theorem async_proc_accounts_for_a_turn :
    ∃ s, run step Sys.init [.start, .append [1], .work, .work, .work, .work, .work, .work] =
        some s ∧
      s.thread.newBuffer1.flexBufferUsable = true ∧ s.thread.newBuffer2.flexBufferUsable = true ∧
      s.references.Nodup := by
  have h := async_proc_accounts_for_buffers
    [.start, .append [1], .work, .work, .work, .work, .work, .work] _ rfl
  exact ⟨_, rfl, (h.1 rfl).1, (h.1 rfl).2.1, h.2.2.2.2.2.2⟩

end AlgorithmLib.AsyncTask
