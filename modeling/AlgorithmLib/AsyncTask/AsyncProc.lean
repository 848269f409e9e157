import AlgorithmLib.AsyncTask.AlignFlexBuffer
import AlgorithmLib.Library.Run

/-!
`async_proc.c`: producers append records to a current buffer under `mutex_`, a worker
thread swaps the filled buffers out and hands them to `proc`. Each section under the
mutex is one step, the worker's work on its own buffers is cut into steps between
the calls of `proc`, and the steps of all threads interleave freely.
-/

set_option autoImplicit false

namespace AlgorithmLib.AsyncTask

def asyncprocBufmax : Nat := 1024 * 1024 * 4

def asyncprocMaxbuffer : Nat := 23

/-- `async_stream_t`: the `cout` byte strings that make one record. -/
structure AsyncStream where
  data : List (List UInt8)
  deriving DecidableEq, Repr

/-- The part of `asyncProc_t` the two sides share. -/
structure AsyncProc where
  running : Bool
  currentBuffer : FlexBuffer
  nextBuffer : FlexBuffer
  buffers : AlignFlexBuffer
  deriving DecidableEq, Repr

namespace AsyncProc

/-- The end both append functions share: a full current buffer is queued and replaced
by the spare one or by a new one at `addr`. -/
def rotate (addr : Nat) (p : AsyncProc) : AsyncProc :=
  if p.currentBuffer.readableBytes ≥ asyncprocBufmax then
    let (buffers, current) := p.buffers.alignflexbufferAddTail p.currentBuffer
    if p.nextBuffer.flexBufferUsable then
      let (current, next) := current.flexBufferMove p.nextBuffer
      { p with buffers := buffers, currentBuffer := current, nextBuffer := next }
    else
      { p with
        buffers := buffers
        currentBuffer := current.flexBufferRecalloc addr asyncprocBufmax }
  else p

/-- The loop over the segments of a stream; each append may move the buffer to a new address. -/
def appendSegments (addr : Nat) (b : FlexBuffer) : List (List UInt8) → FlexBuffer
  | [] => b
  | d :: ds => appendSegments (addr + 1) (b.flexAppend addr d) ds

def asyncProcAppendStream (addr : Nat) (p : AsyncProc) (s : AsyncStream) : AsyncProc :=
  ({ p with currentBuffer := appendSegments addr p.currentBuffer s.data }).rotate
    (addr + s.data.length)

def asyncProcAppend (addr : Nat) (p : AsyncProc) (data : List UInt8) : AsyncProc :=
  ({ p with currentBuffer := p.currentBuffer.flexAppend addr data }).rotate (addr + 1)

/-- `async_proc_def_init`, the two buffers at addresses 0 and 1. -/
def asyncProcDefInit : AsyncProc :=
  { running := false
    currentBuffer := .flexBufferInit 0 asyncprocBufmax
    nextBuffer := .flexBufferInit 1 asyncprocBufmax
    buffers := .alignflexbufferInit (asyncprocMaxbuffer + 1) }

end AsyncProc

/-- Where the worker is in `async_proc_threadFunc`. -/
inductive Phase where
  /-- not created yet -/
  | idle
  /-- before the test of `running_` -/
  | head
  /-- in the loop body, before the section under the mutex -/
  | locking
  /-- in `condition_waitForSeconds`, the mutex released -/
  | waiting
  /-- behind the section under the mutex -/
  | swapped
  /-- in the loop over the swapped-out buffers, entry `i` next -/
  | writing (i : Nat)
  /-- left the outer loop -/
  | exited
  deriving DecidableEq, Repr

structure ThreadFunc where
  phase : Phase
  newBuffer1 : FlexBuffer
  newBuffer2 : FlexBuffer
  buffersToWrite : AlignFlexBuffer
  deriving DecidableEq, Repr

/-- How far the call of `async_proc_stop` has got. -/
inductive Stopping where
  | notCalled
  | joining
  | returned
  deriving DecidableEq, Repr

/-- The shared structure, the worker, the next free address, and what an observer saw:
the records appended and the blocks handed to `proc`. -/
structure Sys where
  proc : AsyncProc
  thread : ThreadFunc
  fresh : Nat
  appended : List (List UInt8)
  handed : List (List UInt8)
  stopping : Stopping
  deriving DecidableEq, Repr

namespace Sys

def init : Sys :=
  { proc := .asyncProcDefInit
    thread := ⟨.idle, nullBuffer, nullBuffer, .alignflexbufferInit (asyncprocMaxbuffer + 1)⟩
    fresh := 2
    appended := []
    handed := []
    stopping := .notCalled }

def appendStream (s : Sys) (stream : AsyncStream) : Sys :=
  { s with
    proc := s.proc.asyncProcAppendStream s.fresh stream
    fresh := s.fresh + stream.data.length + 1
    appended := s.appended ++ [stream.data.flatten] }

def append (s : Sys) (data : List UInt8) : Sys :=
  { s with
    proc := s.proc.asyncProcAppend s.fresh data
    fresh := s.fresh + 2
    appended := s.appended ++ [data] }

/-- `async_proc_start`, up to the worker's first test of `running_`. -/
def start (s : Sys) : Sys :=
  { s with
    proc := { s.proc with running := true }
    thread :=
      { phase := .head
        newBuffer1 := .flexBufferInit s.fresh asyncprocBufmax
        newBuffer2 := .flexBufferInit (s.fresh + 1) asyncprocBufmax
        buffersToWrite := .alignflexbufferInit (asyncprocMaxbuffer + 1) }
    fresh := s.fresh + 2 }

def swap (s : Sys) : Sys :=
  let (buffers, current) := s.proc.buffers.alignflexbufferAddTail s.proc.currentBuffer
  let (toWrite, buffers) := AlignFlexBuffer.alignflexbufferMove s.thread.buffersToWrite buffers
  let (current, new1) := current.flexBufferMove s.thread.newBuffer1
  let (next, new2) :=
    if !s.proc.nextBuffer.flexBufferUsable then
      s.proc.nextBuffer.flexBufferMove s.thread.newBuffer2
    else (s.proc.nextBuffer, s.thread.newBuffer2)
  { s with
    proc := { s.proc with buffers := buffers, currentBuffer := current, nextBuffer := next }
    thread := ⟨.swapped, new1, new2, toWrite⟩ }

def dropOverload (t : AlignFlexBuffer) : AlignFlexBuffer :=
  if t.cout > asyncprocMaxbuffer then t.alignflexbufferErase 2 (asyncprocMaxbuffer + 1) else t

def refill (b : FlexBuffer) (t : AlignFlexBuffer) : Option (FlexBuffer × AlignFlexBuffer) :=
  if !b.flexBufferUsable then
    t.takeLast.map (fun r => (r.1.flexRetrieveAll, r.2))
  else some (b, t)

def recycle (s : Sys) : Option Sys := do
  let t := s.thread.buffersToWrite
  let t := if t.cout > 2 then t.alignflexbufferErase 2 (asyncprocMaxbuffer + 1) else t
  let (new1, t) ← refill s.thread.newBuffer1 t
  let (new2, t) ← refill s.thread.newBuffer2 t
  some { s with thread := ⟨.head, new1, new2, t.alignflexbufferClear⟩ }

/-- The next step of the worker; `none` when it has none, or would index below an array. -/
def work (s : Sys) : Option Sys :=
  match s.thread.phase with
  | .idle => none
  | .head =>
    if s.proc.running then some { s with thread := { s.thread with phase := .locking } }
    else
      some { s with
        thread :=
          ⟨.exited, s.thread.newBuffer1.flexBufferClean, s.thread.newBuffer2.flexBufferClean,
            s.thread.buffersToWrite.alignflexbufferClear⟩ }
  | .locking =>
    if s.proc.buffers.cout ≤ 0 then some { s with thread := { s.thread with phase := .waiting } }
    else some s.swap
  | .waiting => some s.swap
  | .swapped =>
    some { s with
      thread :=
        { s.thread with
          phase := .writing 0
          buffersToWrite := dropOverload s.thread.buffersToWrite } }
  | .writing i =>
    if i < s.thread.buffersToWrite.cout then
      (s.thread.buffersToWrite.buffers[i]?).map (fun cur =>
        { s with
          thread := { s.thread with phase := .writing (i + 1) }
          handed := s.handed ++ [cur.content] })
    else s.recycle
  | .exited => none

/-- `async_proc_stop` up to its `pthread_join`. Waking the worker needs no trace here: a
waiting worker may wake up at any time. -/
def stop (s : Sys) : Sys :=
  { s with
    proc := { s.proc with running := false }
    stopping := .joining }

end Sys

/-- The steps: a producer's append call, the start, the worker's next step, the call of
`async_proc_stop` and its return. -/
inductive Act where
  | appendStream (stream : AsyncStream)
  | append (data : List UInt8)
  | start
  | work
  | stop
  | join
  deriving DecidableEq, Repr

def step (s : Sys) : Act → Option Sys
  | .appendStream stream => some (s.appendStream stream)
  | .append data => some (s.append data)
  | .start => if s.thread.phase = .idle then some s.start else none
  | .work => s.work
  | .stop =>
    if s.thread.phase ≠ .idle ∧ s.stopping = .notCalled then some s.stop else none
  | .join =>
    if s.stopping = .joining ∧ s.thread.phase = .exited then
      some { s with stopping := .returned }
    else none

namespace Sys

def swappedOut (s : Sys) : List (List UInt8) :=
  let blocks := (s.thread.buffersToWrite.buffers.take s.thread.buffersToWrite.cout).map
    FlexBuffer.content
  match s.thread.phase with
  | .swapped => blocks
  | .writing i => blocks.drop i
  | _ => []

/-- The blocks in `buffers_`. -/
def queued (s : Sys) : List (List UInt8) :=
  (s.proc.buffers.buffers.take s.proc.buffers.cout).map FlexBuffer.content

def pipeline (s : Sys) : List (List UInt8) :=
  s.handed ++ s.swappedOut ++ s.queued ++ [s.proc.currentBuffer.content]

/-- `buffers_` has room: `cout` is below `ASYNCPROC_MAXBUFFER`. -/
def Roomy (s : Sys) : Prop := s.proc.buffers.cout < asyncprocMaxbuffer

instance : DecidablePred Roomy := fun s =>
  inferInstanceAs (Decidable (s.proc.buffers.cout < asyncprocMaxbuffer))

end Sys

end AlgorithmLib.AsyncTask
