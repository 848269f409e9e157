import AlgorithmLib.Library.Bytes
import AlgorithmLib.Library.Frames

/-!
`linkage_log.c`: the records a sender appends, and the loop of `do_linkageasynclog` over a
block of them. The loop keeps `remain` but leaves its cursor at the start of the block.
-/

set_option autoImplicit false

namespace AlgorithmLib.LinkageLog

open Bytes Frames

/-- `sizeof(linkage_log_header_t)`, packed. -/
def linkageLogHeaderSize : Nat := 8

/-- `linkage_log_header_t` without its padding. -/
structure LinkageLogHeader where
  ver : UInt8
  dsCommand : UInt16
  len : UInt16
  deriving DecidableEq, Repr

def LinkageLogHeader.ofBytes (bs : List UInt8) : LinkageLogHeader :=
  { ver := bs.headD 0
    dsCommand := .ofNat (leValue ((bs.drop 4).take 2))
    len := .ofNat (leValue ((bs.drop 6).take 2)) }

/-- The header behind a cursor; `none` when reading it would leave the block. -/
def hdrAt (block : List UInt8) (cur : Nat) : Option LinkageLogHeader :=
  if cur + linkageLogHeaderSize ≤ block.length then some (.ofBytes (block.drop cur)) else none

/-- `while(remain > header_len)`. Result: the offsets of the headers `do_linkagelog` was
called with, or `none` on a read outside the block or when the fuel runs out. -/
def linkageLoop (block : List UInt8) (cur : Nat) : Nat → Int → Option (List Nat)
  | 0, _ => none
  | fuel + 1, remain =>
    if remain > linkageLogHeaderSize then
      match hdrAt block cur with
      | none => none
      | some hdr =>
        let remain := remain - linkageLogHeaderSize
        if (hdr.len.toNat : Int) > remain then some []
        else (linkageLoop block cur fuel (remain - hdr.len.toNat)).map (fun calls => cur :: calls)
    else some []

def doLinkageasynclog (data : List UInt8) (len : Int) : Option (List Nat) :=
  linkageLoop data 0 (data.length + 1) len

/-- `log_header_set`: the padding keeps what the buffer held. -/
def logHeaderSet (data : List UInt8) (dsCommand len : UInt16) : List UInt8 :=
  1 :: ((data.drop 1).take 3 ++ leBytes 2 dsCommand.toNat ++ leBytes 2 len.toNat ++ data.drop 8)

/-- The bytes `linkagelog_send` appends. -/
def linkagelogSend (data : List UInt8) (len : Nat) : List UInt8 :=
  data.take (len + linkageLogHeaderSize)

/-- A record to send: a buffer with room for the header and a payload of `len` bytes. -/
structure Record where
  data : List UInt8
  dsCommand : UInt16
  len : UInt16
  room : data.length = linkageLogHeaderSize + len.toNat

namespace Record

def bytes (r : Record) : List UInt8 :=
  linkagelogSend (logHeaderSet r.data r.dsCommand r.len) r.len.toNat

theorem bytes_length (r : Record) : r.bytes.length = linkageLogHeaderSize + r.len.toNat := by
  have hr := r.room
  simp [bytes, linkagelogSend, logHeaderSet, linkageLogHeaderSize] at *
  omega

/-- The record's own header announces its payload length, whatever follows it. -/
theorem ofBytes_bytes (r : Record) (rest : List UInt8) :
    (LinkageLogHeader.ofBytes (r.bytes ++ rest)).len = r.len := by
  have hr := r.room
  obtain ⟨a, b, c, h3⟩ : ∃ a b c, (r.data.drop 1).take 3 = [a, b, c] := by
    rw [← List.length_eq_three]
    simp [linkageLogHeaderSize] at *
    omega
  have hl : leValue (leBytes 2 r.len.toNat) = r.len.toNat :=
    leValue_leBytes_of_lt r.len.toNat_lt
  have hkeep : r.bytes ++ rest = 1 :: ([a, b, c] ++ leBytes 2 r.dsCommand.toNat ++
      leBytes 2 r.len.toNat ++ (r.data.drop 8 ++ rest)) := by
    have hlen : (logHeaderSet r.data r.dsCommand r.len).length =
        r.len.toNat + linkageLogHeaderSize := by
      simp [logHeaderSet, linkageLogHeaderSize] at *
      omega
    rw [bytes, linkagelogSend, ← hlen, List.take_length, logHeaderSet, h3]
    simp
  have hdrop : ((r.bytes ++ rest).drop 6).take 2 = leBytes 2 r.len.toNat := by
    rw [hkeep]
    simp
  rw [LinkageLogHeader.ofBytes, hdrop, hl]
  exact UInt16.ofNat_toNat

end Record

/-- The block the records make. -/
def block (rs : List Record) : List UInt8 := (rs.map Record.bytes).flatten

theorem linkageLoop_calls (data : List UInt8) (fuel remain : Nat) (hin : remain ≤ data.length)
    (hf : remain < fuel) :
    ∃ calls, linkageLoop data 0 fuel remain = some calls ∧ ∀ o ∈ calls, o = 0 := by
  induction fuel generalizing remain with
  | zero => omega
  | succ fuel ih =>
    simp only [linkageLoop]
    by_cases hr : (remain : Int) > linkageLogHeaderSize
    · have hat : hdrAt data 0 = some (.ofBytes (data.drop 0)) := if_pos (by omega)
      rw [if_pos hr, hat]
      dsimp only
      split
      · exact ⟨[], rfl, by simp⟩
      · rename_i hl
        obtain ⟨calls, hc, hz⟩ := ih (remain - linkageLogHeaderSize -
          (LinkageLogHeader.ofBytes (data.drop 0)).len.toNat) (by omega)
          (by simp only [linkageLogHeaderSize] at *; omega)
        have hcast : (remain : Int) - linkageLogHeaderSize -
            (LinkageLogHeader.ofBytes (data.drop 0)).len.toNat =
            ((remain - linkageLogHeaderSize -
              (LinkageLogHeader.ofBytes (data.drop 0)).len.toNat : Nat) : Int) := by omega
        rw [hcast, hc]
        exact ⟨0 :: calls, rfl, by simpa using hz⟩
    · rw [if_neg hr]
      exact ⟨[], rfl, by simp⟩

theorem doLinkageasynclog_single (r : Record) :
    doLinkageasynclog (block [r]) (block [r]).length =
      if 0 < r.len.toNat then some [0] else some [] := by
  have hlen : (block [r]).length = linkageLogHeaderSize + r.len.toNat := by
    simp [block, r.bytes_length]
  have hhdr : (LinkageLogHeader.ofBytes ((block [r]).drop 0)).len = r.len := by
    simpa [block] using r.ofBytes_bytes []
  obtain ⟨k, hk⟩ : ∃ k, (block [r]).length = k + 1 := ⟨7 + r.len.toNat, by
    rw [hlen, linkageLogHeaderSize]; omega⟩
  by_cases hp : 0 < r.len.toNat
  · have hat : hdrAt (block [r]) 0 = some (.ofBytes ((block [r]).drop 0)) := if_pos (by omega)
    rw [if_pos hp, doLinkageasynclog, linkageLoop, if_pos (by omega), hat]
    simp only [hhdr]
    rw [if_neg (by omega), hk, linkageLoop, if_neg (by omega)]
    rfl
  · rw [if_neg hp, doLinkageasynclog, linkageLoop, if_neg (by omega)]

/-- Two records: the second one's header is never looked at, the first one's is called twice. -/
theorem do_linkageasynclog_repeats_first :
    let rs : List Record := [⟨[0, 0, 0, 0, 0, 0, 0, 0, 7], 1, 1, rfl⟩,
      ⟨[0, 0, 0, 0, 0, 0, 0, 0, 8], 1, 1, rfl⟩]
    doLinkageasynclog (block rs) (block rs).length = some [0, 0] ∧
      starts 0 (rs.map Record.bytes) = [0, 9] := by
  decide

/-- `do_linkageasynclog` calls `do_linkagelog` once for each record, at the record's own
header, if and only if the block is empty or one record with a payload. -/
theorem do_linkageasynclog_exact_iff (rs : List Record) :
    doLinkageasynclog (block rs) (block rs).length = some (starts 0 (rs.map Record.bytes)) ↔
      rs = [] ∨ ∃ r, rs = [r] ∧ 0 < r.len.toNat := by
  rcases rs with _ | ⟨r, _ | ⟨r', rs⟩⟩
  · simp [doLinkageasynclog, linkageLoop, block, starts, linkageLogHeaderSize]
  · rw [doLinkageasynclog_single]
    split <;> simp_all [starts]
  · obtain ⟨calls, hc, hz⟩ := linkageLoop_calls (block (r :: r' :: rs)) _ _ (Nat.le_refl _)
      (Nat.lt_succ_self _)
    have hne : doLinkageasynclog (block (r :: r' :: rs)) (block (r :: r' :: rs)).length ≠
        some (starts 0 ((r :: r' :: rs).map Record.bytes)) := by
      rw [doLinkageasynclog, hc]
      intro heq
      -- the second record starts behind the first header
      have hsecond := hz (0 + r.bytes.length) (by rw [Option.some.inj heq]; simp [starts])
      rw [r.bytes_length, linkageLogHeaderSize] at hsecond
      omega
    exact ⟨fun heq => absurd heq hne, by simp⟩

end AlgorithmLib.LinkageLog
