import AlgorithmLib.AsyncTask.AsyncProc
import AlgorithmLib.Library.Bytes
import AlgorithmLib.Library.Frames

/-!
`async_task.c`: the records `task_async` and `task_sql_async` append, and the loop of
`_async_proc` that takes a block of them apart. The loop is an instance of the cursor
walk over length-prefixed records.
-/

set_option autoImplicit false

namespace AlgorithmLib.AsyncTask

open Bytes Frames

def asyncStorageSql : UInt32 := 65535

/-- `sizeof(async_storage_hdr_t)`, packed. -/
def asyncStorageHdrSize : Nat := 12

/-- `sizeof(async_storage_sql_t)`, packed, the flexible `sql` not counted. -/
def asyncStorageSqlSize : Nat := 8

/-- `async_storage_hdr_t`; its three padding bytes are zero when built and never read. -/
structure AsyncStorageHdr where
  ver : UInt8
  dsCommand : UInt32
  len : UInt32
  deriving DecidableEq, Repr

namespace AsyncStorageHdr

def bytes (hdr : AsyncStorageHdr) : List UInt8 :=
  hdr.ver :: 0 :: 0 :: 0 :: (leBytes 4 hdr.dsCommand.toNat ++ leBytes 4 hdr.len.toNat)

def ofBytes (bs : List UInt8) : AsyncStorageHdr :=
  { ver := bs.headD 0
    dsCommand := .ofNat (leValue ((bs.drop 4).take 4))
    len := .ofNat (leValue ((bs.drop 8).take 4)) }

@[simp] theorem bytes_length (hdr : AsyncStorageHdr) :
    hdr.bytes.length = asyncStorageHdrSize := by
  simp [bytes, asyncStorageHdrSize]

theorem ofBytes_bytes (hdr : AsyncStorageHdr) (rest : List UInt8) :
    ofBytes (hdr.bytes ++ rest) = hdr := by
  have hc : leValue (leBytes 4 hdr.dsCommand.toNat) = hdr.dsCommand.toNat :=
    leValue_leBytes_of_lt hdr.dsCommand.toNat_lt
  have hl : leValue (leBytes 4 hdr.len.toNat) = hdr.len.toNat :=
    leValue_leBytes_of_lt hdr.len.toNat_lt
  simp [ofBytes, bytes, List.drop_append, hc, hl]

end AsyncStorageHdr

/-- `async_storage_sql_t` without the `sql` behind it. -/
structure AsyncStorageSql where
  dbType : UInt8
  len : UInt32
  deriving DecidableEq, Repr

def AsyncStorageSql.bytes (ps : AsyncStorageSql) : List UInt8 :=
  ps.dbType :: 0 :: 0 :: 0 :: leBytes 4 ps.len.toNat

@[simp] theorem AsyncStorageSql.bytes_length (ps : AsyncStorageSql) :
    ps.bytes.length = asyncStorageSqlSize := by
  simp [bytes, asyncStorageSqlSize]

/-- The stream `task_async` appends. -/
def taskAsync (cmd : UInt32) (param : List UInt8) : AsyncStream :=
  let hdr : AsyncStorageHdr := { ver := 1, dsCommand := cmd, len := .ofNat param.length }
  ⟨[hdr.bytes, param]⟩

/-- The stream `task_sql_async` appends; `db_type` is an `int` stored in one byte. -/
def taskSqlAsync (dbType : Int) (sql : List UInt8) : AsyncStream :=
  let hdr : AsyncStorageHdr :=
    { ver := 1, dsCommand := asyncStorageSql, len := .ofNat (sql.length + asyncStorageSqlSize) }
  let ps : AsyncStorageSql := { dbType := .ofInt dbType, len := .ofNat sql.length }
  ⟨[hdr.bytes, ps.bytes, sql]⟩

/-- One call of `do_async_proc`: the header's offset in the block and what it shows. -/
structure Dispatch where
  offset : Nat
  hdr : AsyncStorageHdr
  deriving DecidableEq, Repr

/-- `get_async_storage_payload`, as long as the header says. -/
def Dispatch.payload (block : List UInt8) (d : Dispatch) : List UInt8 :=
  (block.drop (d.offset + asyncStorageHdrSize)).take d.hdr.len.toNat

/-- The header behind a cursor; `none` when reading it would leave the block. -/
def hdrAt (block : List UInt8) (cur : Nat) : Option AsyncStorageHdr :=
  if cur + asyncStorageHdrSize ≤ block.length then some (.ofBytes (block.drop cur)) else none

/-- `while(remain >= header_len)`. `remain` is an `int` and `hdr->len` unsigned, so the
comparison and the second subtraction are made modulo 2^32. Result: the calls of
`do_async_proc` and the final `remain`, or `none` on a read outside the block or when the
fuel runs out. -/
def asyncProcLoop (block : List UInt8) : Nat → Nat → Int → Option (List Dispatch × Int)
  | 0, _, _ => none
  | fuel + 1, cur, remain =>
    if remain ≥ asyncStorageHdrSize then
      match hdrAt block cur with
      | none => none
      | some hdr =>
        let remain := remain - asyncStorageHdrSize
        if (hdr.len.toNat : Int) > remain % 2 ^ 32 then some ([], remain)
        else
          (asyncProcLoop block fuel (cur + (asyncStorageHdrSize + hdr.len.toNat) % 2 ^ 32)
            ((remain - hdr.len.toNat).bmod (2 ^ 32))).map
            (fun r => (⟨cur, hdr⟩ :: r.1, r.2))
    else some ([], remain)

/-- `_async_proc` on a whole block. -/
def asyncProc (block : List UInt8) : Option (List Dispatch × Int) :=
  asyncProcLoop block (block.length + 1) 0 block.length

def lenAt (block : List UInt8) (o : Nat) : Nat :=
  (AsyncStorageHdr.ofBytes (block.drop o)).len.toNat

def dispatchAt (block : List UInt8) (o : Nat) : Dispatch := ⟨o, .ofBytes (block.drop o)⟩

/-- Inside a block whose length fits an `int`, no read leaves the block, no wrap-around
happens, and the loop is the cursor walk. -/
theorem asyncProcLoop_eq_walk (block : List UInt8) (fuel cur remain : Nat)
    (hin : cur + remain ≤ block.length) (hint : block.length < 2 ^ 31) :
    asyncProcLoop block fuel cur remain =
      (walk asyncStorageHdrSize (lenAt block) fuel cur remain).map
        (fun r => (r.1.map (dispatchAt block), (r.2 : Int))) := by
  induction fuel generalizing cur remain with
  | zero => rfl
  | succ fuel ih =>
    simp only [asyncProcLoop, walk]
    by_cases hr : remain < asyncStorageHdrSize
    · rw [if_neg (by omega), if_pos hr]
      rfl
    · have hat : hdrAt block cur = some (.ofBytes (block.drop cur)) := if_pos (by omega)
      have hsub : (remain : Int) - asyncStorageHdrSize =
          ((remain - asyncStorageHdrSize : Nat) : Int) := by omega
      have hmod : ((remain - asyncStorageHdrSize : Nat) : Int) % 2 ^ 32 =
          ((remain - asyncStorageHdrSize : Nat) : Int) := by omega
      have hlen : (AsyncStorageHdr.ofBytes (block.drop cur)).len.toNat = lenAt block cur := rfl
      rw [if_pos (by omega), if_neg hr, hat]
      simp only [hsub, hmod, hlen]
      by_cases hl : remain - asyncStorageHdrSize < lenAt block cur
      · rw [if_pos (by omega), if_pos hl]
        rfl
      · have hcur : cur + (asyncStorageHdrSize + lenAt block cur) % 2 ^ 32 =
            cur + asyncStorageHdrSize + lenAt block cur := by
          rw [Nat.mod_eq_of_lt (by omega), Nat.add_assoc]
        have hrem : (((remain - asyncStorageHdrSize : Nat) : Int) - lenAt block cur).bmod (2 ^ 32) =
            ((remain - asyncStorageHdrSize - lenAt block cur : Nat) : Int) := by
          rw [Int.bmod_eq_of_le] <;> omega
        rw [if_neg (by omega), if_neg hl, hcur, hrem, ih _ _ (by omega), Option.map_map,
          Option.map_map]
        rfl

theorem asyncProc_eq_walk {block : List UInt8} (hint : block.length < 2 ^ 31) :
    asyncProc block =
      (walk asyncStorageHdrSize (lenAt block) (block.length + 1) 0 block.length).map
        (fun r => (r.1.map (dispatchAt block), (r.2 : Int))) :=
  asyncProcLoop_eq_walk block _ 0 _ (by omega) hint

/-- The two ways to queue a task. -/
inductive Call where
  | taskAsync (cmd : UInt32) (param : List UInt8)
  | taskSqlAsync (dbType : Int) (sql : List UInt8)
  deriving DecidableEq, Repr

namespace Call

def stream : Call → AsyncStream
  | .taskAsync cmd param => AsyncTask.taskAsync cmd param
  | .taskSqlAsync dbType sql => AsyncTask.taskSqlAsync dbType sql

def record (c : Call) : List UInt8 := c.stream.data.flatten

/-- The command the caller asked for. -/
def dsCommand : Call → UInt32
  | .taskAsync cmd _ => cmd
  | .taskSqlAsync _ _ => asyncStorageSql

/-- What the caller handed over, for a statement behind its own small header. -/
def payload : Call → List UInt8
  | .taskAsync _ param => param
  | .taskSqlAsync dbType sql =>
    AsyncStorageSql.bytes { dbType := .ofInt dbType, len := .ofNat sql.length } ++ sql

def hdr (c : Call) : AsyncStorageHdr :=
  { ver := 1, dsCommand := c.dsCommand, len := .ofNat c.payload.length }

theorem record_eq (c : Call) : c.record = c.hdr.bytes ++ c.payload := by
  cases c with
  | taskAsync cmd param => simp [record, stream, AsyncTask.taskAsync, hdr, dsCommand, payload]
  | taskSqlAsync dbType sql =>
    simp [record, stream, AsyncTask.taskSqlAsync, hdr, dsCommand, payload, Nat.add_comm]

theorem record_length (c : Call) :
    c.record.length = asyncStorageHdrSize + c.payload.length := by
  simp [record_eq]

theorem hdr_len {c : Call} (h : c.payload.length < 2 ^ 32) :
    c.hdr.len.toNat = c.payload.length := by
  simp only [hdr, UInt32.toNat_ofNat']
  exact Nat.mod_eq_of_lt h

end Call

/-- The bytes a list of calls appends. -/
def wire (calls : List Call) : List UInt8 := (calls.map Call.record).flatten

theorem shown_at (pre rest : List Call) (c : Call)
    (hfit : (wire (pre ++ c :: rest)).length < 2 ^ 31) :
    AsyncStorageHdr.ofBytes ((wire (pre ++ c :: rest)).drop (wire pre).length) = c.hdr ∧
      (dispatchAt (wire (pre ++ c :: rest)) (wire pre).length).payload
        (wire (pre ++ c :: rest)) = c.payload ∧
      c.payload.length < 2 ^ 32 := by
  have hsplit : wire (pre ++ c :: rest) = wire pre ++ (c.hdr.bytes ++ (c.payload ++ wire rest)) := by
    simp [wire, Call.record_eq]
  have hlen : c.payload.length < 2 ^ 32 := by
    rw [hsplit] at hfit
    simp only [List.length_append] at hfit
    omega
  have hhdr : AsyncStorageHdr.ofBytes ((wire (pre ++ c :: rest)).drop (wire pre).length) =
      c.hdr := by
    rw [hsplit, List.drop_left, AsyncStorageHdr.ofBytes_bytes]
  refine ⟨hhdr, ?_, hlen⟩
  have hdrop : (wire (pre ++ c :: rest)).drop ((wire pre).length + asyncStorageHdrSize) =
      c.payload ++ wire rest := by
    rw [hsplit, ← List.drop_drop, List.drop_left, ← c.hdr.bytes_length, List.drop_left]
  simp only [Dispatch.payload, dispatchAt, hhdr, hdrop, Call.hdr_len hlen, List.take_left]

theorem framed_wire (pre calls : List Call) (hfit : (wire (pre ++ calls)).length < 2 ^ 31) :
    Framed asyncStorageHdrSize (lenAt (wire (pre ++ calls))) (wire pre).length
      (calls.map Call.record) := by
  induction calls generalizing pre with
  | nil => trivial
  | cons c calls ih =>
    obtain ⟨hhdr, -, hlen⟩ := shown_at pre calls c hfit
    have hsplit : pre ++ c :: calls = (pre ++ [c]) ++ calls := by simp
    have hnext : (wire pre).length + c.record.length = (wire (pre ++ [c])).length := by
      simp [wire]
    refine ⟨?_, ?_⟩
    · rw [lenAt, hhdr, Call.hdr_len hlen, Call.record_length]
    · rw [hnext, hsplit]
      exact ih _ (by rw [← hsplit]; exact hfit)

theorem dispatches_wire (pre calls : List Call) (hfit : (wire (pre ++ calls)).length < 2 ^ 31) :
    ((starts (wire pre).length (calls.map Call.record)).map
        (dispatchAt (wire (pre ++ calls)))).map
      (fun d => (d.hdr.dsCommand, d.payload (wire (pre ++ calls)))) =
      calls.map (fun c => (c.dsCommand, c.payload)) := by
  induction calls generalizing pre with
  | nil => rfl
  | cons c calls ih =>
    obtain ⟨hhdr, hpay, -⟩ := shown_at pre calls c hfit
    have hsplit : pre ++ c :: calls = (pre ++ [c]) ++ calls := by simp
    have hnext : (wire pre).length + c.record.length = (wire (pre ++ [c])).length := by
      simp [wire]
    have hrest := ih (pre ++ [c]) (by rw [← hsplit]; exact hfit)
    rw [← hsplit] at hrest
    simp only [List.map_cons, starts, hnext, hrest, hpay]
    simp only [dispatchAt, hhdr]
    rfl

/-- Running `_async_proc` over the bytes of any list of calls dispatches each call once, in
order, with its command and payload, and leaves no byte; over any block it terminates and
dispatches only records that lie inside the block. -/
theorem async_proc_round_trip :
    (∀ calls : List Call, (wire calls).length < 2 ^ 31 →
      ∃ ds, asyncProc (wire calls) = some (ds, 0) ∧
        ds.map (fun d => (d.hdr.dsCommand, d.payload (wire calls))) =
          calls.map (fun c => (c.dsCommand, c.payload))) ∧
    ∀ block : List UInt8, block.length < 2 ^ 31 →
      ∃ r, asyncProc block = some r ∧
        ∀ d ∈ r.1, d.offset + asyncStorageHdrSize + d.hdr.len.toNat ≤ block.length := by
  constructor
  · intro calls hfit
    refine ⟨(starts 0 (calls.map Call.record)).map (dispatchAt (wire calls)), ?_,
      dispatches_wire [] calls hfit⟩
    have hframed : Framed asyncStorageHdrSize (lenAt (wire calls)) 0 (calls.map Call.record) :=
      framed_wire [] calls hfit
    have hwalk : walk asyncStorageHdrSize (lenAt (wire calls)) ((wire calls).length + 1) 0
        (wire calls).length = some (starts 0 (calls.map Call.record), 0) :=
      walk_framed (by decide) _ _ 0 hframed (Nat.lt_succ_self _)
    rw [asyncProc_eq_walk hfit, hwalk]
    rfl
  · intro block hint
    obtain ⟨r, hr⟩ := walk_some (by decide : 0 < asyncStorageHdrSize) (lenAt block)
      (block.length + 1) 0 block.length (by omega)
    refine ⟨_, by rw [asyncProc_eq_walk hint, hr]; rfl, ?_⟩
    intro d hd
    obtain ⟨o, ho, rfl⟩ := List.mem_map.mp hd
    have := (walk_inside hr o ho).2
    rw [Nat.zero_add] at this
    exact this

/-- A call without payload, a statement, and a block cut short behind its first record. -/
theorem async_proc_round_trip_two_calls :
    (∃ ds, asyncProc (wire [.taskAsync 3 [], .taskSqlAsync 1 [65, 66]]) = some (ds, 0) ∧
      ds.map (fun d => (d.hdr.dsCommand,
        d.payload (wire [.taskAsync 3 [], .taskSqlAsync 1 [65, 66]]))) =
        [(3, []), (65535, [1, 0, 0, 0, 2, 0, 0, 0, 65, 66])]) ∧
    ∃ r, asyncProc [1, 0, 0, 0, 3, 0, 0, 0, 0, 0, 0, 0, 9] = some r ∧
      ∀ d ∈ r.1, d.offset + asyncStorageHdrSize + d.hdr.len.toNat ≤ 13 :=
  ⟨async_proc_round_trip.1 [.taskAsync 3 [], .taskSqlAsync 1 [65, 66]] (by decide),
    async_proc_round_trip.2 [1, 0, 0, 0, 3, 0, 0, 0, 0, 0, 0, 0, 9] (by decide)⟩

end AlgorithmLib.AsyncTask
