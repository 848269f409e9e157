import AlgorithmLib.Library.Run
import AlgorithmLib.FlexBuffer.Model

set_option autoImplicit false

namespace AlgorithmLib.FlexBuffer

open CInt

/-- The buffer holds these readable bytes, in their place in the block. -/
structure Holds (b : FlexBufferT) (xs : List UInt8) : Prop where
  cut : ∃ pre post, b.buffer = pre ++ xs ++ post ∧ b.readerIndex = pre.length ∧
    b.writerIndex = pre.length + xs.length
  size : b.size = b.buffer.length
  range : b.size < 2 ^ 31

theorem holds_init {size : Int} (h : 0 ≤ size) (h' : size < 2 ^ 31) :
    Holds (flexBufferInit size) [] := by
  refine ⟨⟨[], List.replicate (sizeT size) 0, rfl, rfl, rfl⟩, ?_, h'⟩
  simp only [flexBufferInit, List.length_replicate, sizeT_toNat h h']
  omega

theorem cut_append (pre xs post : List UInt8) (n : Nat) :
    pre ++ xs ++ post = pre ++ xs.take n ++ (xs.drop n ++ post) := by
  rw [List.append_assoc pre (xs.take n), ← List.append_assoc (xs.take n), List.take_append_drop,
    List.append_assoc]

namespace Holds

variable {b : FlexBufferT} {xs : List UInt8}

theorem bounds (h : Holds b xs) :
    0 ≤ b.readerIndex ∧ b.readerIndex ≤ b.writerIndex ∧ b.writerIndex ≤ b.size ∧
      b.readableBytes = xs.length := by
  obtain ⟨pre, post, hbuffer, hreader, hwriter⟩ := h.cut
  have hsize := h.size
  simp only [hbuffer, List.length_append] at hsize
  rw [FlexBufferT.readableBytes]
  omega

theorem flexRetrieveAll (h : Holds b xs) : ∃ b', b.flexRetrieveAll = some b' ∧ Holds b' [] := by
  have hlen : sizeT b.size = b.buffer.length := by
    have hrange := h.range
    have hsize := h.size
    rw [hsize, sizeT_natCast (by omega)]
  have hfill : Block.fill b.buffer 0 0 (sizeT b.size) = some (List.replicate (sizeT b.size) 0) := by
    have hcut := Block.fill_cut [] b.buffer [] 0 rfl hlen
    simpa using hcut
  have heq : b.flexRetrieveAll = some
      { b with buffer := List.replicate (sizeT b.size) 0, readerIndex := 0, writerIndex := 0 } := by
    simp only [FlexBufferT.flexRetrieveAll, hfill, Option.bind_eq_bind, Option.bind_some]
  refine ⟨_, heq, ⟨[], _, rfl, rfl, rfl⟩, ?_, h.range⟩
  rw [List.length_replicate, hlen]
  exact h.size

theorem flexRetrieve (h : Holds b xs) (len : Int) (hlen : 0 ≤ len) (hle : len ≤ xs.length) :
    ∃ b', b.flexRetrieve len = some b' ∧ Holds b' (xs.drop len.toNat) := by
  obtain ⟨hpos, hreader, hwriter, hreadable⟩ := h.bounds
  have hrange := h.range
  rw [FlexBufferT.flexRetrieve, hreadable, if_pos hle]
  split
  · next hlt =>
    obtain ⟨pre, post, hbuffer, hr, hw⟩ := h.cut
    have htake : len.toNat = (xs.take len.toNat).length := by
      rw [List.length_take]
      omega
    have hcut := hbuffer.trans (cut_append pre xs post len.toNat)
    have hfill : Block.fill b.buffer b.readerIndex 0 (sizeT len) =
        some (pre ++ List.replicate (sizeT len) 0 ++ (xs.drop len.toNat ++ post)) := by
      rw [hcut]
      exact Block.fill_cut pre _ _ 0 hr (by rw [sizeT_toNat hlen (by omega)]; exact htake)
    have hint : int (b.readerIndex + len) = some (b.readerIndex + len) :=
      int_of_range (by omega) (by omega)
    have hsize := h.size
    simp only [hbuffer, List.length_append] at hsize
    refine ⟨{ b with
        buffer := pre ++ List.replicate (sizeT len) 0 ++ (xs.drop len.toNat ++ post)
        readerIndex := b.readerIndex + len }, ?_,
      ⟨pre ++ List.replicate (sizeT len) 0, post, ?_, ?_, ?_⟩, ?_, hrange⟩
    · simp only [hfill, hint, Option.bind_eq_bind, Option.bind_some]
    · simp only [List.append_assoc]
    · simp only [List.length_append, List.length_replicate, sizeT_toNat hlen (by omega)]
      omega
    · simp only [List.length_append, List.length_replicate, List.length_drop,
        sizeT_toNat hlen (by omega)]
      omega
    · simp only [List.length_append, List.length_replicate, List.length_drop,
        sizeT_toNat hlen (by omega)]
      omega
  · next hge =>
    obtain ⟨b', hb', hholds⟩ := h.flexRetrieveAll
    refine ⟨b', hb', ?_⟩
    rwa [List.drop_of_length_le (by omega)]

theorem retrieveReadData (h : Holds b xs) (len : Int) (hlen : 0 ≤ len) :
    ∃ b', b.retrieveReadData len = some (b', xs.take len.toNat, ((xs.take len.toNat).length : Int)) ∧
      Holds b' (xs.drop len.toNat) := by
  obtain ⟨hpos, hreader, hwriter, hreadable⟩ := h.bounds
  have hrange := h.range
  obtain ⟨pre, post, hbuffer, hr, hw⟩ := h.cut
  have hclamp : (if len > b.readableBytes then b.readableBytes else len) =
      ((xs.take len.toNat).length : Int) := by
    rw [hreadable, List.length_take]
    split <;> omega
  have hcut := hbuffer.trans (cut_append pre xs post len.toNat)
  have htake : (xs.take len.toNat).length ≤ xs.length :=
    (List.take_sublist _ _).length_le
  have hread : Block.read b.buffer b.readerIndex (sizeT (xs.take len.toNat).length) =
      some (xs.take len.toNat) := by
    rw [hcut]
    exact Block.read_cut hr (sizeT_natCast (by omega))
  obtain ⟨b', hb', hholds⟩ := h.flexRetrieve ((xs.take len.toNat).length : Int)
    (Int.natCast_nonneg _) (by omega)
  refine ⟨b', by simp only [FlexBufferT.retrieveReadData, hclamp, hread, hb', Option.bind_eq_bind,
    Option.bind_some], ?_⟩
  have hdrop : xs.drop (xs.take len.toNat).length = xs.drop len.toNat := by
    rw [List.length_take]
    rcases Nat.le_total len.toNat xs.length with hle | hle
    · rw [Nat.min_eq_left hle]
    · rw [Nat.min_eq_right hle, List.drop_length, List.drop_of_length_le hle]
  rwa [Int.toNat_natCast, hdrop] at hholds

theorem compact (h : Holds b xs) :
    ∃ b', b.compact = some b' ∧ Holds b' xs ∧ b'.writerIndex = xs.length := by
  obtain ⟨hpos, hreader, hwriter, hreadable⟩ := h.bounds
  have hrange := h.range
  have hsize := h.size
  obtain ⟨pre, post, hbuffer, hr, hw⟩ := h.cut
  simp only [hbuffer, List.length_append] at hsize
  rw [FlexBufferT.compact]
  split
  · next hne =>
    have hread : Block.read b.buffer b.readerIndex (sizeT xs.length) = some xs := by
      rw [hbuffer]
      exact Block.read_cut hr (sizeT_natCast (by omega))
    -- the bytes land on as many at the front of the block
    have hlen : ((pre ++ xs).take xs.length).length = xs.length := by
      rw [List.length_take, List.length_append]
      omega
    have hfront : b.buffer = [] ++ (pre ++ xs).take xs.length ++
        ((pre ++ xs).drop xs.length ++ post) := by
      rw [hbuffer, List.nil_append, ← List.append_assoc, List.take_append_drop]
    have hwrite : Block.write b.buffer 0 xs =
        some ([] ++ xs ++ ((pre ++ xs).drop xs.length ++ post)) := by
      rw [hfront]
      exact Block.write_cut rfl hlen.symm
    have hmove : Block.move b.buffer 0 b.readerIndex (sizeT xs.length) =
        some ([] ++ xs ++ ((pre ++ xs).drop xs.length ++ post)) := by
      rw [Block.move, hread]
      exact hwrite
    have hint : int (0 + (xs.length : Int)) = some (0 + (xs.length : Int)) :=
      int_of_range (by omega) (by omega)
    refine ⟨{ b with
        buffer := [] ++ xs ++ ((pre ++ xs).drop xs.length ++ post)
        readerIndex := 0
        writerIndex := 0 + (xs.length : Int) }, ?_,
      ⟨⟨[], (pre ++ xs).drop xs.length ++ post, rfl, rfl, ?_⟩, ?_, hrange⟩, ?_⟩
    · simp only [hreadable, hmove, hint, Option.bind_eq_bind, Option.bind_some]
    · simp
    · simp only [List.nil_append, List.length_append, List.length_drop]
      omega
    · simp
  · next hzero =>
    refine ⟨b, rfl, h, ?_⟩
    omega

theorem grow (h : Holds b xs) (hw : b.writerIndex = xs.length) (fresh : Nat → UInt8) (len : Nat)
    (hlen : xs.length + len < 2 ^ 31) :
    ∃ b', b.grow fresh len = some b' ∧ Holds b' xs ∧ len ≤ b'.writableBytes := by
  obtain ⟨hpos, hreader, hwriter, hreadable⟩ := h.bounds
  have hrange := h.range
  have hsize := h.size
  rw [FlexBufferT.grow]
  have hwritable : sizeT b.writableBytes = b.buffer.length - xs.length := by
    rw [FlexBufferT.writableBytes, sizeT_toNat (by omega) (by omega)]
    omega
  rw [hwritable]
  split
  · next hlt =>
    have htotal : (sizeT b.writerIndex + len) % 2 ^ 64 = xs.length + len := by
      rw [hw, sizeT_natCast (by omega)]
      omega
    have hcount : (xs.length + len + 2 ^ 64 - sizeT b.size) % 2 ^ 64 =
        xs.length + len - b.buffer.length := by
      rw [hsize, sizeT_natCast (by omega)]
      omega
    obtain ⟨new, hnew, hnewlen⟩ := Block.resize_of_le b.buffer (n := xs.length + len) fresh
      (by omega)
    have hfill : Block.fill (b.buffer ++ new) b.size 0 (xs.length + len - b.buffer.length) =
        some (b.buffer ++ List.replicate (xs.length + len - b.buffer.length) 0) := by
      have hcut := Block.fill_cut b.buffer new [] 0 hsize hnewlen.symm
      simpa using hcut
    have hint : int ((xs.length + len : Nat) : Int) = some ((xs.length + len : Nat) : Int) :=
      int_of_range (by omega) (by omega)
    obtain ⟨pre, post, hbuffer, hr, hw'⟩ := h.cut
    refine ⟨{ b with
        buffer := b.buffer ++ List.replicate (xs.length + len - b.buffer.length) 0
        size := (xs.length + len : Nat) }, ?_,
      ⟨⟨pre, post ++ List.replicate (xs.length + len - b.buffer.length) 0, ?_, hr, hw'⟩, ?_, ?_⟩, ?_⟩
    · simp only [htotal, hcount, hnew, hfill, hint, Option.bind_eq_bind, Option.bind_some]
    · rw [← List.append_assoc, ← hbuffer]
    · simp only [List.length_append, List.length_replicate]
      omega
    · simp only
      omega
    · simp only [FlexBufferT.writableBytes]
      omega
  · next hge =>
    refine ⟨b, rfl, h, ?_⟩
    rw [FlexBufferT.writableBytes]
    omega

theorem ensureWritableBytes (h : Holds b xs) (fresh : Nat → UInt8) (len : Int) (hlen : 0 ≤ len)
    (hsum : xs.length + len < 2 ^ 31) :
    ∃ b', b.ensureWritableBytes fresh len = some b' ∧ Holds b' xs ∧ len ≤ b'.writableBytes := by
  rw [FlexBufferT.ensureWritableBytes]
  split
  · next hlt =>
    obtain ⟨b₁, hb₁, hholds₁, hwriter⟩ := h.compact
    obtain ⟨b₂, hb₂, hholds₂, hroom⟩ := hholds₁.grow hwriter fresh len.toNat (by omega)
    have hle : len ≤ b₂.writableBytes := by omega
    refine ⟨b₂, ?_, hholds₂, hle⟩
    simp only [FlexBufferT.flexMakeSpace, sizeT_toNat hlen (by omega), hb₁, Option.bind_eq_bind,
      Option.bind_some, hb₂, if_pos hle]
  · next hge =>
    refine ⟨b, ?_, h, by omega⟩
    simp only [Option.bind_eq_bind, Option.bind_some]
    rw [if_pos (by omega)]

theorem flexAppend (h : Holds b xs) (fresh : Nat → UInt8) (data : List UInt8)
    (hsum : xs.length + data.length < 2 ^ 31) :
    ∃ b', b.flexAppend fresh data = some (b', (data.length : Int)) ∧ Holds b' (xs ++ data) := by
  obtain ⟨b₁, hb₁, hholds, hroom⟩ := h.ensureWritableBytes fresh data.length
    (Int.natCast_nonneg _) (by omega)
  obtain ⟨hpos, hreader, hwriter, hreadable⟩ := hholds.bounds
  have hrange := hholds.range
  have hsize := hholds.size
  obtain ⟨pre, post, hbuffer, hr, hw⟩ := hholds.cut
  have hpost : data.length ≤ post.length := by
    rw [FlexBufferT.writableBytes] at hroom
    simp only [hbuffer, List.length_append] at hsize
    omega
  have hcut : b₁.buffer = pre ++ xs ++ post.take data.length ++ post.drop data.length := by
    rw [hbuffer, List.append_assoc (pre ++ xs), List.take_append_drop]
  have hwrite : Block.write b₁.buffer b₁.writerIndex data =
      some (pre ++ xs ++ data ++ post.drop data.length) := by
    rw [hcut]
    refine Block.write_cut ?_ ?_
    · rw [hw, List.length_append]
      omega
    · rw [List.length_take]
      omega
  have hwritten : sizeT b₁.writableBytes = b₁.writableBytes.toNat := by
    rw [sizeT_toNat] <;> rw [FlexBufferT.writableBytes] <;> omega
  have htotal : ((sizeT b₁.writerIndex + data.length) % 2 ^ 64 : Nat) =
      pre.length + xs.length + data.length := by
    rw [sizeT_toNat (by omega) (by omega)]
    omega
  have hint : int ((pre.length + xs.length + data.length : Nat) : Int) =
      some ((pre.length + xs.length + data.length : Nat) : Int) := by
    refine int_of_range (by omega) ?_
    rw [FlexBufferT.writableBytes] at hroom
    omega
  refine ⟨{ b₁ with
      buffer := pre ++ xs ++ data ++ post.drop data.length
      writerIndex := (pre.length + xs.length + data.length : Nat) }, ?_,
    ⟨pre, post.drop data.length, ?_, hr, ?_⟩, ?_, hrange⟩
  · simp only [FlexBufferT.flexAppend, hb₁, hwrite, Option.bind_eq_bind, Option.bind_some,
      FlexBufferT.flexHasWritten, sizeT_natCast (show data.length < 2 ^ 64 by omega), htotal, hint]
    rw [if_pos]
    · rfl
    · show data.length ≤ sizeT b₁.writableBytes
      rw [hwritten]
      omega
  · simp only [List.append_assoc]
  · simp only [List.length_append]
    omega
  · simp only [List.length_append, List.length_drop, hsize, hbuffer]
    omega

end Holds

/-- The lengths are not negative and sums of lengths are in `int`; what is retrieved is readable. -/
def Allowed (b : FlexBufferT) : FlexAct → Prop
  | .append _ data => b.readableBytes + data.length < 2 ^ 31
  | .retrieve len => 0 ≤ len ∧ len ≤ b.readableBytes
  | .retrieveReadData len => 0 ≤ len
  | .retrieveAll => True
  | .ensureWritableBytes _ len => 0 ≤ len ∧ b.readableBytes + len < 2 ^ 31

instance (b : FlexBufferT) : ∀ a, Decidable (Allowed b a)
  | .append _ data => inferInstanceAs (Decidable (b.readableBytes + data.length < 2 ^ 31))
  | .retrieve len => inferInstanceAs (Decidable (0 ≤ len ∧ len ≤ b.readableBytes))
  | .retrieveReadData len => inferInstanceAs (Decidable (0 ≤ len))
  | .retrieveAll => .isTrue trivial
  | .ensureWritableBytes _ len =>
    inferInstanceAs (Decidable (0 ≤ len ∧ b.readableBytes + len < 2 ^ 31))

/-- The bytes between the indices. -/
def FlexBufferT.content (b : FlexBufferT) : List UInt8 :=
  (b.buffer.drop b.readerIndex.toNat).take b.readableBytes.toNat

inductive FlexEvent where
  | appended (data : List UInt8)
  /-- retrieved, and copied out if they are retrieved as data -/
  | retrieved (data : List UInt8)
  deriving DecidableEq, Repr

def FlexEvent.appendedBytes : FlexEvent → List UInt8
  | .appended data => data
  | .retrieved _ => []

def FlexEvent.retrievedBytes : FlexEvent → List UInt8
  | .appended _ => []
  | .retrieved data => data

def FlexBufferT.shows (b : FlexBufferT) : FlexAct → List FlexEvent
  | .append _ data => [.appended data]
  | .retrieve len => [.retrieved (b.content.take len.toNat)]
  | .retrieveReadData len =>
    match b.retrieveReadData len with
    | none => []
    | some (_, data, _) => [.retrieved data]
  | .retrieveAll => [.retrieved b.content]
  | .ensureWritableBytes _ _ => []

theorem Holds.content {b : FlexBufferT} {xs : List UInt8} (h : Holds b xs) : b.content = xs := by
  obtain ⟨pre, post, hbuffer, hr, hw⟩ := h.cut
  rw [FlexBufferT.content, h.bounds.2.2.2, hbuffer, hr, Int.toNat_natCast, Int.toNat_natCast,
    List.append_assoc, List.drop_left, List.take_left]

def Queued (b : FlexBufferT) (trace : List FlexEvent) : Prop :=
  Holds b b.content ∧
    trace.flatMap FlexEvent.appendedBytes = trace.flatMap FlexEvent.retrievedBytes ++ b.content

theorem queued_of {b b' : FlexBufferT} {trace out : List FlexEvent} {xs : List UInt8}
    (h : Queued b trace) (h' : Holds b' xs)
    (hout : b.content ++ out.flatMap FlexEvent.appendedBytes =
      out.flatMap FlexEvent.retrievedBytes ++ xs) : Queued b' (trace ++ out) := by
  rw [Queued, h'.content]
  refine ⟨h', ?_⟩
  rw [List.flatMap_append, List.flatMap_append, h.2, List.append_assoc, hout, List.append_assoc]

theorem Queued.step {b : FlexBufferT} {trace : List FlexEvent} (h : Queued b trace) {a : FlexAct}
    (ha : Allowed b a) : ∃ b', flexStep b a = some b' ∧ Queued b' (trace ++ b.shows a) := by
  obtain ⟨hpos, hreader, hwriter, hreadable⟩ := h.1.bounds
  cases a with
  | append fresh data =>
    simp only [Allowed, hreadable] at ha
    obtain ⟨b', hb', hholds⟩ := h.1.flexAppend fresh data (by omega)
    refine ⟨b', by simp [flexStep, hb'], queued_of h hholds ?_⟩
    simp [FlexBufferT.shows, FlexEvent.appendedBytes, FlexEvent.retrievedBytes]
  | retrieve len =>
    simp only [Allowed, hreadable] at ha
    obtain ⟨b', hb', hholds⟩ := h.1.flexRetrieve len ha.1 ha.2
    refine ⟨b', hb', queued_of h hholds ?_⟩
    simp [FlexBufferT.shows, FlexEvent.appendedBytes, FlexEvent.retrievedBytes]
  | retrieveReadData len =>
    obtain ⟨b', hb', hholds⟩ := h.1.retrieveReadData len ha
    refine ⟨b', by simp [flexStep, hb'], queued_of h hholds ?_⟩
    simp [FlexBufferT.shows, hb', FlexEvent.appendedBytes, FlexEvent.retrievedBytes]
  | retrieveAll =>
    obtain ⟨b', hb', hholds⟩ := h.1.flexRetrieveAll
    refine ⟨b', hb', queued_of h hholds ?_⟩
    simp [FlexBufferT.shows, FlexEvent.appendedBytes, FlexEvent.retrievedBytes]
  | ensureWritableBytes fresh len =>
    simp only [Allowed, hreadable] at ha
    obtain ⟨b', hb', hholds, -⟩ := h.1.ensureWritableBytes fresh len ha.1 ha.2
    refine ⟨b', hb', queued_of h hholds ?_⟩
    simp [FlexBufferT.shows]

/-- `flex_buffer` is a queue of bytes: every sequence of allowed calls gets through, without a
failed assertion or an access outside of the block; the indices stay in order; and what was
appended is what was retrieved, in order, and the readable bytes. -/
theorem flex_buffer_fifo (size : Int) (as : List FlexAct) (hsize : 0 ≤ size) (hint : size < 2 ^ 31)
    (hc : Run.Meets flexStep Allowed (flexBufferInit size) as) :
    ∃ b, Run.run flexStep (flexBufferInit size) as = some b ∧
      0 ≤ b.readerIndex ∧ b.readerIndex ≤ b.writerIndex ∧ b.writerIndex ≤ b.size ∧
      b.size = b.buffer.length ∧
      (Run.collect flexStep FlexBufferT.shows (flexBufferInit size) as).flatMap
          FlexEvent.appendedBytes =
        (Run.collect flexStep FlexBufferT.shows (flexBufferInit size) as).flatMap
          FlexEvent.retrievedBytes ++ b.content := by
  have hinit := holds_init hsize hint
  have hqueued : Queued (flexBufferInit size) [] := by
    rw [Queued, hinit.content]
    exact ⟨hinit, rfl⟩
  obtain ⟨b, hb, hq⟩ := Run.exists_run_of_meets (p := Queued) (fun s a shown hs ha => hs.step ha)
    hqueued hc
  obtain ⟨hpos, hreader, hwriter, -⟩ := hq.1.bounds
  exact ⟨b, hb, hpos, hreader, hwriter, hq.1.size, hq.2⟩

/-- A compaction, a growth, and both kinds of retrieval. -/
def fiveCalls : List FlexAct :=
  [.append (fun _ => 7) [1, 2, 3], .retrieve 2, .append (fun _ => 7) [4, 5],
    .ensureWritableBytes (fun _ => 9) 6, .retrieveReadData 2]

theorem flex_buffer_fifo_five :
    ∃ b, Run.run flexStep (flexBufferInit 3) fiveCalls = some b ∧ b.content = [5] ∧
      (Run.collect flexStep FlexBufferT.shows (flexBufferInit 3) fiveCalls).flatMap
          FlexEvent.appendedBytes =
        (Run.collect flexStep FlexBufferT.shows (flexBufferInit 3) fiveCalls).flatMap
          FlexEvent.retrievedBytes ++ b.content := by
  obtain ⟨b, hb, -, -, -, -, hbytes⟩ :=
    flex_buffer_fifo 3 fiveCalls (by decide) (by decide) (by decide +kernel)
  have hrun : (Run.run flexStep (flexBufferInit 3) fiveCalls).map FlexBufferT.content =
      some [5] := by decide +kernel
  rw [hb] at hrun
  exact ⟨b, hb, Option.some.inj hrun, hbytes⟩

end AlgorithmLib.FlexBuffer
