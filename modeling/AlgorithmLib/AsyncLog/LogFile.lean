import Mathlib.Algebra.Order.Ring.Nat
import Mathlib.Algebra.Order.Ring.Int
import AlgorithmLib.Library.Run

/-!
`logfile.c`: a log file is closed and a new one opened when it is full, and when a day is over. The
bytes that decide whether it is full are counted from `logfile_init` on, not from the last roll.
-/

set_option autoImplicit false

namespace AlgorithmLib.AsyncLog

/-- `logfile_t` without its name, its lock and the stream's buffer; whether `fp_` is open. -/
structure LogFile where
  rollSize : Nat
  flushInterval : Int
  checkEveryN : Nat
  count : Nat
  startOfPeriod : Nat
  lastRoll : Nat
  lastFlush : Nat
  opened : Bool
  writtenBytes : Nat
  kRollPerSeconds : Nat
  deriving DecidableEq, Repr

inductive FileEvent where
  /-- a new file is opened, because of the size of the old one or of the period -/
  | reopened (bySize : Bool)
  /-- the period and the flush interval are tested -/
  | checked
  | flushed
  deriving DecidableEq, Repr

namespace LogFile

/-- `logfile_roll` at this time, and whether it opens a file. -/
def logfileRoll (f : LogFile) (now : Nat) : LogFile × Bool :=
  let start := now / f.kRollPerSeconds * f.kRollPerSeconds
  if now > f.lastRoll then
    ({ f with lastRoll := now, lastFlush := now, startOfPeriod := start, opened := true }, true)
  else (f, false)

/-- `logfile_init` at this time. -/
def logfileInit (rollSize : Nat) (flushInterval : Int) (now : Nat) : LogFile :=
  (logfileRoll
    { rollSize := rollSize, flushInterval := flushInterval, checkEveryN := 1024, count := 0
      startOfPeriod := 0, lastRoll := 0, lastFlush := 0, opened := false, writtenBytes := 0
      kRollPerSeconds := 60 * 60 * 24 } now).1

/-- `logfile_append_unlocked`, which reads the clock twice at most. -/
def logfileAppendUnlocked (f : LogFile) (len now later : Nat) : LogFile × List FileEvent :=
  let f := { f with writtenBytes := (f.writtenBytes + len) % 2 ^ 64 }
  if f.writtenBytes > f.rollSize then
    let (f, reopened) := f.logfileRoll now
    (f, if reopened then [.reopened true] else [])
  else
    let f := { f with count := f.count + 1 }
    if f.count ≥ f.checkEveryN then
      let f := { f with count := 0 }
      let thisPeriod := now / f.kRollPerSeconds * f.kRollPerSeconds
      if thisPeriod ≠ f.startOfPeriod then
        let (f, reopened) := f.logfileRoll later
        (f, .checked :: if reopened then [.reopened false] else [])
      else if (now : Int) - f.lastFlush > f.flushInterval then
        ({ f with lastFlush := now }, [.checked, .flushed])
      else (f, [.checked])
    else (f, [])

end LogFile

/-- A log file and what was appended. -/
structure FileSys where
  file : LogFile
  clock : Nat
  /-- to the current file -/
  inFile : Nat
  /-- since `logfile_init` -/
  total : Nat
  /-- how many appends since the last check left a file with at most `rollSize_` bytes -/
  unchecked : Nat
  deriving DecidableEq, Repr

/-- A call of `logfile_append` with this length, and what the clock says. -/
structure FileAppend where
  len : Nat
  now : Nat
  later : Nat
  deriving DecidableEq, Repr

namespace FileSys

def init (rollSize : Nat) (flushInterval : Int) (start : Nat) : FileSys :=
  { file := .logfileInit rollSize flushInterval start, clock := start, inFile := 0, total := 0
    unchecked := 0 }

def events (s : FileSys) (a : FileAppend) : List FileEvent :=
  (s.file.logfileAppendUnlocked a.len a.now a.later).2

/-- A file was opened; lengths are in `int`, and the clock does not go back. -/
def append (s : FileSys) (a : FileAppend) : Option FileSys :=
  if s.file.opened ∧ a.len < 2 ^ 31 ∧ s.clock ≤ a.now ∧ a.now ≤ a.later then
    some
      { file := (s.file.logfileAppendUnlocked a.len a.now a.later).1
        clock := a.later
        inFile :=
          if .reopened true ∈ s.events a ∨ .reopened false ∈ s.events a then 0
          else s.inFile + a.len
        total := s.total + a.len
        unchecked :=
          if .checked ∈ s.events a then 0
          else if s.inFile + a.len ≤ s.file.rollSize then s.unchecked + 1
          else s.unchecked }
  else none

end FileSys

/-- A file that is closed because of its size holds more than `rollSize_` bytes; and with at most
`rollSize_` bytes in the file, every append that is the `checkEveryN_`-th since the last check makes
one. -/
def Lawful (s : FileSys) (a : FileAppend) (_ : FileSys) : Prop :=
  (.reopened true ∈ s.events a → s.file.rollSize < s.inFile + a.len) ∧
    (s.inFile + a.len ≤ s.file.rollSize → s.file.checkEveryN ≤ s.unchecked + 1 →
      .checked ∈ s.events a)

instance (s : FileSys) (a : FileAppend) (t : FileSys) : Decidable (Lawful s a t) :=
  inferInstanceAs (Decidable (_ ∧ _))

/-- The files until now hold at most `rollSize_` bytes together, or the current one alone holds
more, or the clock has not advanced since the last roll and no check is due. -/
def Counted (s : FileSys) (a : FileAppend) : Prop :=
  s.total + a.len ≤ s.file.rollSize ∨ s.file.rollSize < s.inFile + a.len ∨
    a.now ≤ s.file.lastRoll ∧ s.unchecked + 1 < s.file.checkEveryN

instance (s : FileSys) : ∀ a, Decidable (Counted s a) :=
  fun _ => inferInstanceAs (Decidable (_ ∨ _))

/-- The counters and what was appended; behind `rollSize_` bytes the appends are not counted. -/
structure FileInv (s : FileSys) : Prop where
  roll : s.file.rollSize < 2 ^ 64
  check : 0 < s.file.checkEveryN
  written : s.file.writtenBytes = s.total % 2 ^ 64
  inFile : s.inFile ≤ s.total
  count : s.total ≤ s.file.rollSize → s.file.count = s.unchecked

namespace LogFile

theorem logfileRoll_counters (f : LogFile) (now : Nat) :
    (f.logfileRoll now).1.rollSize = f.rollSize ∧
      (f.logfileRoll now).1.checkEveryN = f.checkEveryN ∧
      (f.logfileRoll now).1.writtenBytes = f.writtenBytes ∧
      (f.logfileRoll now).1.count = f.count := by
  unfold logfileRoll
  dsimp only
  split <;> exact ⟨rfl, rfl, rfl, rfl⟩

theorem append_full {f : LogFile} {len : Nat} (now later : Nat)
    (h : (f.writtenBytes + len) % 2 ^ 64 > f.rollSize) :
    (f.logfileAppendUnlocked len now later).2 = (if now > f.lastRoll then [.reopened true] else []) ∧
      (f.logfileAppendUnlocked len now later).1.count = f.count := by
  unfold logfileAppendUnlocked
  rw [if_pos h]
  constructor
  · simp only [logfileRoll]
    split <;> rfl
  · exact (logfileRoll_counters _ now).2.2.2

theorem append_counted {f : LogFile} {len : Nat} (now later : Nat)
    (h : ¬ (f.writtenBytes + len) % 2 ^ 64 > f.rollSize) :
    .reopened true ∉ (f.logfileAppendUnlocked len now later).2 ∧
      (.checked ∈ (f.logfileAppendUnlocked len now later).2 ↔ f.checkEveryN ≤ f.count + 1) ∧
      (f.logfileAppendUnlocked len now later).1.count =
        if f.checkEveryN ≤ f.count + 1 then 0 else f.count + 1 := by
  unfold logfileAppendUnlocked
  rw [if_neg h]
  dsimp only
  split
  · next hcheck =>
    split
    · refine ⟨?_, by simp [hcheck], (logfileRoll_counters _ later).2.2.2⟩
      split <;> simp
    · split
      · exact ⟨by simp, by simpa using hcheck, rfl⟩
      · exact ⟨by simp, by simpa using hcheck, rfl⟩
  · next hcheck =>
    exact ⟨by simp, by simpa using hcheck, rfl⟩

theorem append_counters (f : LogFile) (len now later : Nat) :
    (f.logfileAppendUnlocked len now later).1.rollSize = f.rollSize ∧
      (f.logfileAppendUnlocked len now later).1.checkEveryN = f.checkEveryN ∧
      (f.logfileAppendUnlocked len now later).1.writtenBytes = (f.writtenBytes + len) % 2 ^ 64 := by
  unfold logfileAppendUnlocked
  dsimp only
  split
  · obtain ⟨hroll, hcheck, hwritten, -⟩ := logfileRoll_counters
      { f with writtenBytes := (f.writtenBytes + len) % 2 ^ 64 } now
    exact ⟨hroll, hcheck, hwritten⟩
  · split
    · split
      · obtain ⟨hroll, hcheck, hwritten, -⟩ := logfileRoll_counters
          { f with writtenBytes := (f.writtenBytes + len) % 2 ^ 64, count := 0 } later
        exact ⟨hroll, hcheck, hwritten⟩
      · split <;> exact ⟨rfl, rfl, rfl⟩
    · exact ⟨rfl, rfl, rfl⟩

end LogFile

theorem file_inv_init {rollSize : Nat} (flushInterval : Int) (start : Nat)
    (hroll : rollSize < 2 ^ 64) : FileInv (FileSys.init rollSize flushInterval start) := by
  unfold FileSys.init LogFile.logfileInit
  obtain ⟨hr, hc, hw, hn⟩ := LogFile.logfileRoll_counters
    { rollSize := rollSize, flushInterval := flushInterval, checkEveryN := 1024, count := 0
      startOfPeriod := 0, lastRoll := 0, lastFlush := 0, opened := false, writtenBytes := 0
      kRollPerSeconds := 60 * 60 * 24 } start
  exact ⟨hr ▸ hroll, hc ▸ (by decide : 0 < 1024), hw, Nat.le_refl _, fun _ => hn⟩

namespace FileInv

variable {s t : FileSys} {a : FileAppend}

/-- As long as all bytes together do not exceed `rollSize_`, the file is not full. -/
theorem not_full (h : FileInv s) (hle : s.total + a.len ≤ s.file.rollSize) :
    ¬ (s.file.writtenBytes + a.len) % 2 ^ 64 > s.file.rollSize := by
  have hroll := h.roll
  rw [h.written]
  omega

theorem step (h : FileInv s) (hstep : s.append a = some t) : FileInv t := by
  obtain ⟨hroll, hcheck, hwritten⟩ := s.file.append_counters a.len a.now a.later
  unfold FileSys.append at hstep
  split at hstep
  · cases hstep
    refine ⟨?_, ?_, ?_, ?_, fun hle => ?_⟩
    · rw [hroll]
      exact h.roll
    · rw [hcheck]
      exact h.check
    · rw [hwritten, h.written]
      exact Nat.mod_add_mod s.total (2 ^ 64) a.len
    · have hin := h.inFile
      dsimp only
      split <;> omega
    · rw [hroll] at hle
      dsimp only at hle
      obtain ⟨-, hchecked, hcount⟩ := LogFile.append_counted a.now a.later (h.not_full hle)
      have hsame := h.count (by omega)
      have hin := h.inFile
      change (s.file.logfileAppendUnlocked a.len a.now a.later).1.count =
        if .checked ∈ s.events a then 0
        else if s.inFile + a.len ≤ s.file.rollSize then s.unchecked + 1 else s.unchecked
      rw [hcount, FileSys.events, if_pos (by omega : s.inFile + a.len ≤ s.file.rollSize), hsame]
      simp only [hchecked, hsame]
  · cases hstep

/-- In what is counted, a step is as the claim of the counters has it. -/
theorem lawful (h : FileInv s) (hcounted : Counted s a) : Lawful s a t := by
  rcases hcounted with htotal | hfull | ⟨hclock, hfew⟩
  · obtain ⟨hsize, hchecked, -⟩ :=
      LogFile.append_counted a.now a.later (h.not_full htotal)
    have hsame := h.count (by omega)
    refine ⟨fun hmem => absurd hmem hsize, fun _ hcheck => hchecked.mpr ?_⟩
    rwa [hsame]
  · exact ⟨fun _ => hfull, fun hle => by omega⟩
  · refine ⟨fun hmem => ?_, fun _ hcheck => by omega⟩
    by_cases hw : (s.file.writtenBytes + a.len) % 2 ^ 64 > s.file.rollSize
    · rw [FileSys.events, (LogFile.append_full a.now a.later hw).1, if_neg (by omega)] at hmem
      cases hmem
    · exact absurd hmem (LogFile.append_counted a.now a.later hw).1

/-- And in no other step, as long as all bytes together can be counted. -/
theorem counted (h : FileInv s) (hrange : s.total + a.len < 2 ^ 64) (hlawful : Lawful s a t) :
    Counted s a := by
  rcases Nat.lt_or_ge s.file.rollSize (s.inFile + a.len) with hfull | hfits
  · exact .inr (.inl hfull)
  · by_cases htotal : s.total + a.len ≤ s.file.rollSize
    · exact .inl htotal
    · have hw : (s.file.writtenBytes + a.len) % 2 ^ 64 > s.file.rollSize := by
        rw [h.written]
        omega
      have hevents := (LogFile.append_full a.now a.later hw).1
      refine .inr (.inr ⟨?_, ?_⟩)
      · by_contra hclock
        have hmem : FileEvent.reopened true ∈ s.events a := by
          rw [FileSys.events, hevents, if_pos (by omega)]
          exact List.mem_singleton.mpr rfl
        have hlt := hlawful.1 hmem
        omega
      · by_contra hcheck
        have hmem := hlawful.2 hfits (by omega)
        rw [FileSys.events, hevents] at hmem
        split at hmem <;> simp at hmem

end FileInv

/-- In every run whose appends are all counted, a file is closed because of its size only when it
holds more than `rollSize_` bytes, and the checks are made in turn; and in no other run whose
bytes together can be counted. -/
theorem logfile_rolls_when_full (rollSize : Nat) (flushInterval : Int) (start : Nat)
    (as : List FileAppend) (s : FileSys) (hroll : rollSize < 2 ^ 64)
    (hrun : Run.run FileSys.append (FileSys.init rollSize flushInterval start) as = some s) :
    (Run.Meets FileSys.append Counted (FileSys.init rollSize flushInterval start) as →
      Run.Steps FileSys.append Lawful (FileSys.init rollSize flushInterval start) as) ∧
    (Run.Meets FileSys.append (fun s a => s.total + a.len < 2 ^ 64)
        (FileSys.init rollSize flushInterval start) as →
      Run.Steps FileSys.append Lawful (FileSys.init rollSize flushInterval start) as →
      Run.Meets FileSys.append Counted (FileSys.init rollSize flushInterval start) as) := by
  have hinit := file_inv_init flushInterval start hroll
  constructor
  · exact Run.steps_of_meets (fun _ _ _ h hcounted hstep => ⟨h.step hstep, h.lawful hcounted⟩) hinit
  · intro hrange hsteps
    exact Run.meets_of_steps (fun _ _ _ h hrange hstep hlawful =>
      ⟨h.counted hrange hlawful, h.step hstep⟩) hinit hrange hrun hsteps

/-- The first file grows beyond 100 bytes and is closed; the second one takes 101 bytes at once. -/
def twoFiles : List FileAppend := [⟨60, 10, 10⟩, ⟨60, 11, 11⟩, ⟨101, 12, 12⟩]

theorem logfile_rolls_when_full_two :
    Run.Steps FileSys.append Lawful (FileSys.init 100 3 9) twoFiles := by
  have hrun : (Run.run FileSys.append (FileSys.init 100 3 9) twoFiles).isSome = true := by
    decide +kernel
  obtain ⟨s, hs⟩ := Option.isSome_iff_exists.mp hrun
  exact (logfile_rolls_when_full 100 3 9 twoFiles s (by decide) hs).1 (by decide +kernel)

/-- The bytes of the first file still count in the second one, which is closed with one byte. -/
theorem logfile_rolls_empty :
    ¬ ∀ (rollSize : Nat) (flushInterval : Int) (start : Nat) (as : List FileAppend) (s : FileSys),
      rollSize < 2 ^ 64 →
      Run.run FileSys.append (FileSys.init rollSize flushInterval start) as = some s →
      Run.Steps FileSys.append Lawful (FileSys.init rollSize flushInterval start) as := by
  intro h
  have hrun : (Run.run FileSys.append (FileSys.init 100 3 9) [⟨101, 10, 10⟩, ⟨1, 11, 11⟩]).isSome =
      true := by decide +kernel
  obtain ⟨s, hs⟩ := Option.isSome_iff_exists.mp hrun
  have hsteps := h 100 3 9 _ s (by decide) hs
  have hcounted := Run.meets_of_steps (c := fun s a => s.total + a.len < 2 ^ 64) (d := Counted)
    (fun _ _ _ h hrange hstep hlawful => ⟨FileInv.counted h hrange hlawful, h.step hstep⟩)
    (file_inv_init 3 9 (by decide)) (by decide +kernel) hs hsteps
  exact absurd hcounted (by decide +kernel)

end AlgorithmLib.AsyncLog
