import AlgorithmLib.Library.Block
import AlgorithmLib.Library.CInt

/-!
`flex_buffer.h` with its arithmetic and its accesses to memory: a failed assertion, an access
outside of the block and an `int` that overflows are `none`. Allocation succeeds.
-/

set_option autoImplicit false

namespace AlgorithmLib.FlexBuffer

open CInt

/-- `flex_buffer_t`; the buffer is the allocated block. -/
structure FlexBufferT where
  buffer : List UInt8
  readerIndex : Int
  writerIndex : Int
  size : Int
  deriving DecidableEq, Repr

def flexBufferInit (size : Int) : FlexBufferT :=
  { buffer := List.replicate (sizeT size) 0, readerIndex := 0, writerIndex := 0, size := size }

namespace FlexBufferT

def readableBytes (b : FlexBufferT) : Int := b.writerIndex - b.readerIndex

def writableBytes (b : FlexBufferT) : Int := b.size - b.writerIndex

def flexRetrieveAll (b : FlexBufferT) : Option FlexBufferT := do
  let buffer ← Block.fill b.buffer 0 0 (sizeT b.size)
  some { b with buffer := buffer, readerIndex := 0, writerIndex := 0 }

def flexRetrieve (b : FlexBufferT) (len : Int) : Option FlexBufferT :=
  if len ≤ b.readableBytes then
    if len < b.readableBytes then do
      let buffer ← Block.fill b.buffer b.readerIndex 0 (sizeT len)
      let readerIndex ← int (b.readerIndex + len)
      some { b with buffer := buffer, readerIndex := readerIndex }
    else b.flexRetrieveAll
  else none

/-- The buffer, what is copied to `data`, and the result. -/
def retrieveReadData (b : FlexBufferT) (len : Int) : Option (FlexBufferT × List UInt8 × Int) := do
  let len := if len > b.readableBytes then b.readableBytes else len
  let data ← Block.read b.buffer b.readerIndex (sizeT len)
  let b ← b.flexRetrieve len
  some (b, data, len)

/-- `flex_makeSpace` up to its growth. -/
def compact (b : FlexBufferT) : Option FlexBufferT :=
  if b.readerIndex ≠ 0 then do
    let readable := b.readableBytes
    let buffer ← Block.move b.buffer 0 b.readerIndex (sizeT readable)
    let writerIndex ← int (0 + readable)
    some { b with buffer := buffer, readerIndex := 0, writerIndex := writerIndex }
  else some b

/-- The growth of `flex_makeSpace`, which compares and adds in `size_t`. -/
def grow (fresh : Nat → UInt8) (b : FlexBufferT) (len : Nat) : Option FlexBufferT :=
  if sizeT b.writableBytes < len then do
    let total := (sizeT b.writerIndex + len) % 2 ^ 64
    let buffer ← Block.fill (Block.resize b.buffer total fresh) b.size 0
      ((total + 2 ^ 64 - sizeT b.size) % 2 ^ 64)
    let size ← int total
    some { b with buffer := buffer, size := size }
  else some b

def flexMakeSpace (fresh : Nat → UInt8) (b : FlexBufferT) (len : Nat) : Option FlexBufferT := do
  let b ← b.compact
  b.grow fresh len

def ensureWritableBytes (fresh : Nat → UInt8) (b : FlexBufferT) (len : Int) :
    Option FlexBufferT := do
  let b ← if b.writableBytes < len then b.flexMakeSpace fresh (sizeT len) else some b
  if b.writableBytes ≥ len then some b else none

def flexHasWritten (b : FlexBufferT) (len : Nat) : Option FlexBufferT :=
  if len ≤ sizeT b.writableBytes then do
    let writerIndex ← int ((sizeT b.writerIndex + len) % 2 ^ 64 : Nat)
    some { b with writerIndex := writerIndex }
  else none

/-- The buffer and the result; `len` is the length of `data`. -/
def flexAppend (fresh : Nat → UInt8) (b : FlexBufferT) (data : List UInt8) :
    Option (FlexBufferT × Int) := do
  let len := (data.length : Int)
  let b ← b.ensureWritableBytes fresh len
  let buffer ← Block.write b.buffer b.writerIndex data
  let b ← { b with buffer := buffer }.flexHasWritten (sizeT len)
  some (b, len)

end FlexBufferT

/-- The calls of a program; `fresh` is what `realloc` leaves in new memory. -/
inductive FlexAct where
  | append (fresh : Nat → UInt8) (data : List UInt8)
  | retrieve (len : Int)
  | retrieveReadData (len : Int)
  | retrieveAll
  | ensureWritableBytes (fresh : Nat → UInt8) (len : Int)

def flexStep (b : FlexBufferT) : FlexAct → Option FlexBufferT
  | .append fresh data => (b.flexAppend fresh data).map Prod.fst
  | .retrieve len => b.flexRetrieve len
  | .retrieveReadData len => (b.retrieveReadData len).map Prod.fst
  | .retrieveAll => b.flexRetrieveAll
  | .ensureWritableBytes fresh len => b.ensureWritableBytes fresh len

end AlgorithmLib.FlexBuffer
