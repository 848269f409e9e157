import AlgorithmLib.Library.CInt

/-!
`arbuffer.h` and the two loggers above it, `asynclog.c` and `linkageasynclog.c`: the program appends
to the current buffer, and a writer thread takes the full ones. Pointers are numbers, `NULL` is 0;
allocation succeeds. What is in the buffers, and the file it is written to, are left out.
-/

set_option autoImplicit false

namespace AlgorithmLib.AsyncLog

/-- `arraybuffers_t` -/
structure ArrayBuffer where
  buffer : Int
  cur : Int
  len : Int
  deriving DecidableEq, Repr

namespace ArrayBuffer

def usable (b : ArrayBuffer) : Bool := b.buffer ≠ 0

def avail (b : ArrayBuffer) : Int := b.buffer + b.len - b.cur

/-- `arbuffer_append`; the `memcpy` is seen in `Copy`. -/
def append (b : ArrayBuffer) (len : Int) : ArrayBuffer := { b with cur := b.cur + len }

def null : ArrayBuffer := { buffer := 0, cur := 0, len := 0 }

/-- The destination of `arbuffer_move`; the source is `null` then. -/
def moved (src : ArrayBuffer) : ArrayBuffer := { src with cur := src.buffer }

def reset (b : ArrayBuffer) : ArrayBuffer := { b with cur := b.buffer }

/-- `arbuffer_init`, with the address that `calloc` returns. -/
def init (addr len : Int) : ArrayBuffer := { buffer := addr, cur := addr, len := len }

end ArrayBuffer

/-- `ASYNCLOG_BUFMAX`, `LINKAGEASYNCLOG_BUFMAX` -/
def bufMax : Int := 1024 * 1024 * 4

/-- `MAXBUFFER`, `LINKAGEASYNCLOG_MAXBUFFER` -/
def maxBuffer : Nat := 23

/-- `arraybufferalign_add_tail` on an array of `MAXBUFFER + 1` buffers: the array and the buffer. -/
def addTail (t : List ArrayBuffer) (b : ArrayBuffer) : List ArrayBuffer × ArrayBuffer :=
  if t.length ≥ maxBuffer + 1 then (t, b) else (t ++ [b], .null)

structure Writer where
  newBuffer1 : ArrayBuffer
  newBuffer2 : ArrayBuffer
  buffersToWrite : List ArrayBuffer
  swapped : Bool
  deriving DecidableEq, Repr

/-- `asynclog_t`, `linkageasynclog_t`; `none` when the writer thread does not run. -/
structure Log where
  currentBuffer : ArrayBuffer
  nextBuffer : ArrayBuffer
  buffers : List ArrayBuffer
  writer : Option Writer
  deriving DecidableEq, Repr

/-- What an `arbuffer_append` copies, the room it has, and what it reads of the `logline` and what
was written there. -/
structure Copy where
  copied : Nat
  avail : Int
  read : Nat
  written : Nat
  deriving DecidableEq, Repr

/-- `asynclog_def_init`, `linkageasynclog_def_init` -/
def defInit (addr₁ addr₂ : Int) : Log :=
  { currentBuffer := .init addr₁ bufMax, nextBuffer := .init addr₂ bufMax, buffers := []
    writer := none }

namespace Log

/-- The current buffer to which `_log_append` and `linkagelog_append` append, and what they have
done to the others before. -/
def makeRoom (l : Log) (fresh len : Int) : Log :=
  if l.currentBuffer.avail > len then l
  else
    let (buffers, currentBuffer) := addTail l.buffers l.currentBuffer
    let l := { l with buffers := buffers, currentBuffer := currentBuffer }
    if l.nextBuffer.usable then
      { l with currentBuffer := l.nextBuffer.moved, nextBuffer := .null }
    else { l with currentBuffer := .init fresh bufMax }

/-- `_log_append`, and `linkagelog_append` under its lock. -/
def append (l : Log) (fresh len : Int) : Log :=
  let l := l.makeRoom fresh len
  { l with currentBuffer := l.currentBuffer.append len }

def swap (l : Log) (w : Writer) : Log :=
  let (buffers, currentBuffer) := addTail l.buffers l.currentBuffer
  let l := { l with buffers := buffers, currentBuffer := currentBuffer }
  let w := { w with buffersToWrite := l.buffers.take (maxBuffer + 1), swapped := true }
  let l := { l with buffers := [], currentBuffer := w.newBuffer1.moved }
  let w := { w with newBuffer1 := .null }
  if l.nextBuffer.usable then { l with writer := some w }
  else { l with nextBuffer := w.newBuffer2.moved, writer := some { w with newBuffer2 := .null } }

end Log

namespace Writer

def init (addr₁ addr₂ : Int) : Writer :=
  { newBuffer1 := .init addr₁ bufMax, newBuffer2 := .init addr₂ bufMax, buffersToWrite := []
    swapped := false }

/-- A new buffer of the writer thread that it gave away becomes the last of the array; `none` when
there is none at this index. -/
def refill (b : ArrayBuffer) (t : List ArrayBuffer) : Option (ArrayBuffer × List ArrayBuffer) :=
  if b.usable then some (b, t)
  else t.getLast?.map fun last => (last.moved.reset, t.dropLast)

def finish (w : Writer) : Option Writer := do
  let t := if w.buffersToWrite.length > maxBuffer then w.buffersToWrite.take 2
    else w.buffersToWrite
  let t := if t.length > 2 then t.take 2 else t
  let (newBuffer1, t) ← refill w.newBuffer1 t
  let (newBuffer2, _) ← refill w.newBuffer2 t
  some { newBuffer1 := newBuffer1, newBuffer2 := newBuffer2, buffersToWrite := [], swapped := false }

end Writer

/-- `vsnprintf` with a buffer of this size and a result of `n` characters: what it returns, and how
many bytes it writes. -/
def vsnprintf (size n : Nat) : Int × Nat :=
  (if n < 2 ^ 31 then n else -1, min n (size - 1) + 1)

/-- A program with both loggers. -/
structure Logs where
  aslog : Log
  linkAslog : Log
  deriving DecidableEq, Repr

inductive LogAct where
  /-- `log_append` with a message of `n` characters; an address for a new buffer -/
  | logAppend (n : Nat) (fresh : Int)
  | linkagelogAppend (len fresh : Int)
  /-- the writer thread of one logger starts, takes the buffers, writes them, ends -/
  | start (link : Bool) (addr₁ addr₂ : Int)
  | swap (link : Bool)
  | finish (link : Bool)
  | stop (link : Bool)
  deriving DecidableEq, Repr

namespace Log

def start (l : Log) (addr₁ addr₂ : Int) : Option Log :=
  match l.writer with
  | none =>
    if addr₁ ≠ 0 ∧ addr₂ ≠ 0 then
      some { l with writer := some (.init addr₁ addr₂) }
    else none
  | some _ => none

def takeBuffers (l : Log) : Option Log :=
  match l.writer with
  | none => none
  | some w => if w.swapped then none else some (l.swap w)

def finish (l : Log) : Option Log :=
  match l.writer with
  | none => none
  | some w => if w.swapped then w.finish.map fun w => { l with writer := some w } else none

def stop (l : Log) : Option Log :=
  match l.writer with
  | none => none
  | some w => if w.swapped then none else some { l with writer := none }

end Log

namespace Logs

def log (s : Logs) (link : Bool) : Log := if link then s.linkAslog else s.aslog

def setLog (s : Logs) (link : Bool) (l : Log) : Logs :=
  if link then { s with linkAslog := l } else { s with aslog := l }

end Logs

/-- `asynclog_init` and `linkageasynclog_init`. -/
def logsInit (addr : Fin 4 → Int) : Logs :=
  { aslog := defInit (addr 0) (addr 1), linkAslog := defInit (addr 2) (addr 3) }

def logStep (s : Logs) : LogAct → Option Logs
  | .logAppend n fresh =>
    if fresh = 0 then none
    else
      let ret := (vsnprintf (bufMax - 1).toNat n).1
      if ret > -1 then some (s.setLog false (s.aslog.append fresh ret)) else some s
  | .linkagelogAppend len fresh =>
    if fresh = 0 ∨ ¬ (-2 ^ 31 ≤ len ∧ len < 2 ^ 31) then none
    else some (s.setLog true (s.linkAslog.append fresh len))
  | .start link addr₁ addr₂ => ((s.log link).start addr₁ addr₂).map (s.setLog link)
  | .swap link => (s.log link).takeBuffers.map (s.setLog link)
  | .finish link => (s.log link).finish.map (s.setLog link)
  | .stop link => (s.log link).stop.map (s.setLog link)

/-- The `arbuffer_append` of a step. -/
def Logs.shows (s : Logs) : LogAct → List Copy
  | .logAppend n fresh =>
    let (ret, written) := vsnprintf (bufMax - 1).toNat n
    if ret > -1 then
      [{ copied := CInt.sizeT ret, avail := (s.aslog.makeRoom fresh ret).currentBuffer.avail
         read := CInt.sizeT ret, written := written }]
    else []
  | .linkagelogAppend len fresh =>
    [{ copied := CInt.sizeT len, avail := (s.linkAslog.makeRoom fresh len).currentBuffer.avail
       read := 0, written := 0 }]
  | _ => []

end AlgorithmLib.AsyncLog
