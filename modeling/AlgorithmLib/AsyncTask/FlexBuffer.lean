import Mathlib.Data.List.Basic

/-!
`flex_buffer.h`: growable byte buffers and the bounded array of buffers.
Allocation succeeds and lengths stay below the C `int` range. The address of an
allocated block is carried with its bytes, so two buffers share memory exactly when
their blocks have one address.
-/

set_option autoImplicit false

namespace AlgorithmLib.AsyncTask

structure Block where
  addr : Nat
  bytes : List UInt8
  deriving DecidableEq, Repr

/-- `flex_buffer_t`; `none` is the null pointer. -/
structure FlexBuffer where
  buffer : Option Block
  readerIndex : Nat
  writerIndex : Nat
  size : Nat
  deriving DecidableEq, Repr

namespace FlexBuffer

def bytes (b : FlexBuffer) : List UInt8 :=
  match b.buffer with
  | none => []
  | some blk => blk.bytes

def readableBytes (b : FlexBuffer) : Int := b.writerIndex - b.readerIndex

def writableBytes (b : FlexBuffer) : Int := b.size - b.writerIndex

/-- The bytes from `flex_peek` on, as many as are readable. -/
def content (b : FlexBuffer) : List UInt8 :=
  (b.bytes.drop b.readerIndex).take (b.writerIndex - b.readerIndex)

def poke (b : FlexBuffer) (bytes : List UInt8) : FlexBuffer :=
  { b with buffer := b.buffer.map (fun blk => { blk with bytes := bytes }) }

def flexRetrieveAll (b : FlexBuffer) : FlexBuffer :=
  ({ b with readerIndex := 0, writerIndex := 0 }).poke (List.replicate b.size 0)

/-- The compaction of `flex_makeSpace`. -/
def moveFront (b : FlexBuffer) : FlexBuffer :=
  if b.readerIndex ≠ 0 then
    let readable := b.writerIndex - b.readerIndex
    { b.poke (b.content ++ b.bytes.drop readable) with
      readerIndex := 0, writerIndex := readable }
  else b

/-- The reallocation of `flex_makeSpace`; `addr` is the address it returns. -/
def grow (addr len : Nat) (b : FlexBuffer) : FlexBuffer :=
  if b.writableBytes < len then
    { b with
      buffer := some ⟨addr, b.bytes ++ List.replicate (b.writerIndex + len - b.size) 0⟩
      size := b.writerIndex + len }
  else b

def flexMakeSpace (addr : Nat) (b : FlexBuffer) (len : Nat) : FlexBuffer :=
  b.moveFront.grow addr len

def ensureWritableBytes (addr : Nat) (b : FlexBuffer) (len : Nat) : FlexBuffer :=
  if b.writableBytes < len then b.flexMakeSpace addr len else b

/-- `memcpy` behind the written bytes, then `flex_hasWritten`. -/
def copyIn (b : FlexBuffer) (data : List UInt8) : FlexBuffer :=
  { b.poke (b.bytes.take b.writerIndex ++ data ++ b.bytes.drop (b.writerIndex + data.length)) with
    writerIndex := b.writerIndex + data.length }

def flexAppend (addr : Nat) (b : FlexBuffer) (data : List UInt8) : FlexBuffer :=
  (b.ensureWritableBytes addr data.length).copyIn data

/-- `flex_buffer_clean`: the struct after it; freeing the block is not seen in the struct. -/
def flexBufferClean (_ : FlexBuffer) : FlexBuffer := ⟨none, 0, 0, 0⟩

/-- `flex_buffer_move` without freeing: destination and source after the shallow copy. -/
def flexBufferMove (_dst src : FlexBuffer) : FlexBuffer × FlexBuffer := (src, src.flexBufferClean)

def flexBufferUsable (b : FlexBuffer) : Bool := b.buffer.isSome

def flexBufferInit (addr size : Nat) : FlexBuffer :=
  ⟨some ⟨addr, List.replicate size 0⟩, 0, 0, size⟩

def flexBufferRecalloc (addr : Nat) (_ : FlexBuffer) (size : Nat) : FlexBuffer :=
  flexBufferInit addr size

/-- The indices are ordered and `size` is the length of the allocated block. -/
structure Valid (b : FlexBuffer) : Prop where
  reader : b.readerIndex ≤ b.writerIndex
  writer : b.writerIndex ≤ b.size
  alloc : b.size = b.bytes.length

theorem content_length {b : FlexBuffer} (h : b.Valid) :
    b.content.length = b.writerIndex - b.readerIndex := by
  have h₁ := h.reader
  have h₂ := h.writer
  have h₃ := h.alloc
  simp only [content, List.length_take, List.length_drop]
  omega

theorem bytes_poke (b : FlexBuffer) (l : List UInt8) :
    (b.poke l).bytes = if b.buffer.isSome then l else [] := by
  cases h : b.buffer <;> simp [poke, bytes, h]

theorem bytes_eq_nil_of_null {b : FlexBuffer} (h : b.buffer = none) : b.bytes = [] := by
  simp [bytes, h]

theorem bytes_poke_of_length {b : FlexBuffer} {l : List UInt8} (h : l.length = b.bytes.length) :
    (b.poke l).bytes = l := by
  rw [bytes_poke]
  split
  · rfl
  · rename_i hb
    have hn : b.buffer = none := by simpa using hb
    rw [bytes_eq_nil_of_null hn, List.length_nil, List.length_eq_zero_iff] at h
    exact h.symm

theorem clean_valid (b : FlexBuffer) : b.flexBufferClean.Valid :=
  ⟨Nat.le_refl _, Nat.le_refl _, rfl⟩

theorem init_valid (addr size : Nat) : (flexBufferInit addr size).Valid :=
  ⟨Nat.le_refl _, Nat.zero_le _, by simp [flexBufferInit, bytes]⟩

@[simp] theorem clean_content (b : FlexBuffer) : b.flexBufferClean.content = [] := rfl

@[simp] theorem init_content (addr size : Nat) : (flexBufferInit addr size).content = [] := by
  simp [content, flexBufferInit]

@[simp] theorem retrieveAll_content (b : FlexBuffer) : b.flexRetrieveAll.content = [] := by
  simp [content, flexRetrieveAll, poke]

@[simp] theorem poke_usable (b : FlexBuffer) (l : List UInt8) :
    (b.poke l).flexBufferUsable = b.flexBufferUsable := by
  simp [poke, flexBufferUsable]

@[simp] theorem retrieveAll_usable (b : FlexBuffer) :
    b.flexRetrieveAll.flexBufferUsable = b.flexBufferUsable :=
  poke_usable _ _

theorem retrieveAll_valid {b : FlexBuffer} (h : b.Valid) : b.flexRetrieveAll.Valid := by
  have hb : b.flexRetrieveAll.bytes = List.replicate b.size 0 := by
    unfold flexRetrieveAll
    exact bytes_poke_of_length (by simpa [bytes] using h.alloc)
  exact ⟨Nat.le_refl _, Nat.zero_le _, by rw [hb]; simp [flexRetrieveAll, poke]⟩

theorem moveFront_spec {b : FlexBuffer} (h : b.Valid) :
    b.moveFront.Valid ∧ b.moveFront.content = b.content := by
  unfold moveFront
  split
  · have hlen := content_length h
    have h₁ := h.reader
    have h₂ := h.writer
    have h₃ := h.alloc
    have hb : (b.poke (b.content ++ b.bytes.drop (b.writerIndex - b.readerIndex))).bytes =
        b.content ++ b.bytes.drop (b.writerIndex - b.readerIndex) := by
      apply bytes_poke_of_length
      simp only [List.length_append, List.length_drop, hlen]
      omega
    refine ⟨⟨Nat.zero_le _, ?_, ?_⟩, ?_⟩
    · simp only [poke]
      omega
    · change b.size = (b.poke _).bytes.length
      rw [hb, List.length_append, List.length_drop, hlen]
      omega
    · change ((b.poke _).bytes.drop 0).take (b.writerIndex - b.readerIndex - 0) = b.content
      rw [hb, List.drop_zero, Nat.sub_zero, ← hlen, List.take_left]
  · exact ⟨h, rfl⟩

theorem grow_spec {b : FlexBuffer} (addr len : Nat) (h : b.Valid) :
    (b.grow addr len).Valid ∧ (b.grow addr len).content = b.content ∧
      (len : Int) ≤ (b.grow addr len).writableBytes := by
  have h₁ := h.reader
  have h₂ := h.writer
  have h₃ := h.alloc
  unfold grow
  split
  · rename_i hw
    have hpre : b.readerIndex ≤ b.bytes.length := by omega
    refine ⟨⟨h₁, Nat.le_add_right _ _, ?_⟩, ?_, ?_⟩
    · simp only [bytes, List.length_append, List.length_replicate] at h₃ ⊢
      simp only [writableBytes] at hw
      omega
    · simp only [content, bytes]
      rw [List.drop_append_of_le_length (by simpa [bytes] using hpre),
        List.take_append_of_le_length]
      simp only [List.length_drop]
      simp only [bytes] at h₃
      omega
    · simp only [writableBytes]
      omega
  · rename_i hw
    exact ⟨h, rfl, by omega⟩

theorem ensureWritableBytes_spec {b : FlexBuffer} (addr len : Nat) (h : b.Valid) :
    (b.ensureWritableBytes addr len).Valid ∧
      (b.ensureWritableBytes addr len).content = b.content ∧
      (len : Int) ≤ (b.ensureWritableBytes addr len).writableBytes := by
  unfold ensureWritableBytes
  split
  · obtain ⟨hv, hc⟩ := moveFront_spec h
    obtain ⟨hv', hc', hw⟩ := grow_spec addr len hv
    exact ⟨hv', hc'.trans hc, hw⟩
  · exact ⟨h, rfl, by omega⟩

theorem copyIn_spec {b : FlexBuffer} {data : List UInt8} (h : b.Valid)
    (hw : (data.length : Int) ≤ b.writableBytes) :
    (b.copyIn data).Valid ∧ (b.copyIn data).content = b.content ++ data := by
  have h₁ := h.reader
  have h₂ := h.writer
  have h₃ := h.alloc
  simp only [writableBytes] at hw
  have hb : (b.copyIn data).bytes =
      b.bytes.take b.writerIndex ++ data ++ b.bytes.drop (b.writerIndex + data.length) := by
    apply bytes_poke_of_length (b := b)
    simp only [List.length_append, List.length_take, List.length_drop]
    omega
  have ht : (b.bytes.take b.writerIndex).length = b.writerIndex := by
    rw [List.length_take]
    omega
  refine ⟨⟨?_, ?_, ?_⟩, ?_⟩
  · simp only [copyIn, poke]
    omega
  · simp only [copyIn, poke]
    omega
  · rw [hb]
    simp only [copyIn, poke, List.length_append, List.length_drop, ht]
    omega
  · simp only [content, hb]
    change ((_ ++ data ++ _).drop b.readerIndex).take (b.writerIndex + data.length - b.readerIndex) = _
    rw [List.append_assoc, List.drop_append_of_le_length (by omega), ← List.append_assoc,
      List.take_append_of_le_length (by simp only [List.length_append, List.length_drop]; omega),
      List.take_of_length_le (by simp only [List.length_append, List.length_drop]; omega),
      List.drop_take]

/-- `flex_append` keeps the buffer well formed and appends to its readable bytes. -/
theorem flexAppend_spec {b : FlexBuffer} (addr : Nat) (data : List UInt8) (h : b.Valid) :
    (b.flexAppend addr data).Valid ∧ (b.flexAppend addr data).content = b.content ++ data := by
  obtain ⟨hv, hc, hw⟩ := ensureWritableBytes_spec addr data.length h
  obtain ⟨hv', hc'⟩ := copyIn_spec hv hw
  exact ⟨hv', by rw [← hc]; exact hc'⟩

theorem grow_usable {b : FlexBuffer} (addr len : Nat) (h : b.flexBufferUsable) :
    (b.grow addr len).flexBufferUsable := by
  unfold grow
  split
  · rfl
  · exact h

theorem flexAppend_usable {b : FlexBuffer} (addr : Nat) (data : List UInt8)
    (h : b.flexBufferUsable) : (b.flexAppend addr data).flexBufferUsable := by
  have hm : b.moveFront.flexBufferUsable := by
    unfold moveFront
    split
    · simpa [flexBufferUsable, poke] using h
    · exact h
  have he : (b.ensureWritableBytes addr data.length).flexBufferUsable := by
    unfold ensureWritableBytes
    split
    · exact grow_usable addr _ hm
    · exact h
  simpa [flexAppend, copyIn, flexBufferUsable, poke] using he

end FlexBuffer

end AlgorithmLib.AsyncTask
