import AlgorithmLib.Library.Run
import AlgorithmLib.AsyncLog.Buffers

/-!
The appends of the loggers and the bounds of their buffers. The current buffer always comes with
the full size, but nothing bounds the length of a message: only the path on which there is room
tests it, and `vsnprintf` returns the length that the message would have.
-/

set_option autoImplicit false

namespace AlgorithmLib.AsyncLog

def ArrayBuffer.Sound (b : ArrayBuffer) : Prop := b.buffer ≠ 0 ∧ b.len = bufMax

def ArrayBuffer.Inside (b : ArrayBuffer) : Prop :=
  b.buffer ≤ b.cur ∧ b.cur ≤ b.buffer + b.len

instance (b : ArrayBuffer) : Decidable b.Inside := inferInstanceAs (Decidable (_ ∧ _))

structure WriterInv (w : Writer) : Prop where
  fresh : w.swapped = false → w.newBuffer1.Sound ∧ w.newBuffer2.Sound
  taken : w.swapped = true → w.newBuffer1.buffer = 0 ∧ w.buffersToWrite ≠ [] ∧
    (w.newBuffer2.Sound ∨ w.newBuffer2.buffer = 0 ∧ 2 ≤ w.buffersToWrite.length)
  sound : ∀ b ∈ w.buffersToWrite, b.Sound

structure LogInv (l : Log) : Prop where
  current : l.currentBuffer.Sound
  inside : l.currentBuffer.Inside
  next : l.nextBuffer.Sound ∨ l.nextBuffer.buffer = 0 ∧ l.buffers ≠ []
  sound : ∀ b ∈ l.buffers, b.Sound
  writer : ∀ w, l.writer = some w → WriterInv w

namespace ArrayBuffer

variable {b : ArrayBuffer} {addr : Int}

theorem init_sound (h : addr ≠ 0) : (init addr bufMax).Sound := ⟨h, rfl⟩

theorem usable_iff : b.usable = true ↔ b.buffer ≠ 0 := by simp [usable]

theorem inside_of_cur (h : b.Sound) (hcur : b.cur = b.buffer) : b.Inside := by
  rw [Inside, h.2, hcur, bufMax]
  omega

end ArrayBuffer

open ArrayBuffer

theorem addTail_spec (t : List ArrayBuffer) (b : ArrayBuffer) :
    (addTail t b).1 ≠ [] ∧ (∀ c ∈ (addTail t b).1, c ∈ t ∨ c = b) ∧
      (t ≠ [] → 2 ≤ (addTail t b).1.length) := by
  unfold addTail
  split
  · next hfull =>
    rw [maxBuffer] at hfull
    refine ⟨fun h => ?_, fun c hc => .inl hc, fun _ => by dsimp only; omega⟩
    dsimp only at h
    simp [h] at hfull
  · refine ⟨by simp, fun c hc => by simpa using hc, fun ht => ?_⟩
    have hpos := List.length_pos_iff.mpr ht
    simp only [List.length_append, List.length_singleton]
    omega

theorem log_inv_init {addr₁ addr₂ : Int} (h₁ : addr₁ ≠ 0) (h₂ : addr₂ ≠ 0) :
    LogInv (defInit addr₁ addr₂) where
  current := init_sound h₁
  inside := inside_of_cur (init_sound h₁) rfl
  next := .inl (init_sound h₂)
  sound _ hb := absurd hb List.not_mem_nil
  writer _ hw := by cases hw

namespace LogInv

variable {l l' : Log} {fresh : Int}

theorem avail_le (h : LogInv l) : l.currentBuffer.avail ≤ bufMax := by
  have hinside := h.inside.1
  rw [avail, h.current.2]
  omega

theorem makeRoom (h : LogInv l) (hfresh : fresh ≠ 0) (len : Int) :
    LogInv (l.makeRoom fresh len) ∧
      (len < (l.makeRoom fresh len).currentBuffer.avail ∨
        (l.makeRoom fresh len).currentBuffer.avail = bufMax) := by
  obtain ⟨hne, hmem, -⟩ := addTail_spec l.buffers l.currentBuffer
  have hsound : ∀ b ∈ (addTail l.buffers l.currentBuffer).1, b.Sound := by
    intro b hb
    rcases hmem b hb with hb | rfl
    · exact h.sound b hb
    · exact h.current
  unfold Log.makeRoom
  split
  · next hroom => exact ⟨h, .inl hroom⟩
  · dsimp only
    split
    · next husable =>
      have hnext : l.nextBuffer.Sound := by
        rcases h.next with hnext | ⟨hnull, -⟩
        · exact hnext
        · exact absurd hnull (usable_iff.mp husable)
      refine ⟨⟨hnext, inside_of_cur hnext rfl, .inr ⟨rfl, hne⟩, hsound, h.writer⟩, .inr ?_⟩
      simp only [avail, moved, hnext.2]
      omega
    · next hnull =>
      have hinit := init_sound hfresh
      refine ⟨⟨hinit, inside_of_cur hinit rfl, .inr ⟨?_, hne⟩, hsound, h.writer⟩, .inr ?_⟩
      · simpa [usable_iff] using hnull
      · simp only [avail, ArrayBuffer.init]
        omega

theorem append (h : LogInv l) (hfresh : fresh ≠ 0) (len : Int) (hpos : 0 ≤ len) (hle : len ≤ bufMax) :
    LogInv (l.append fresh len) ∧ len ≤ (l.makeRoom fresh len).currentBuffer.avail := by
  obtain ⟨hroom, havail⟩ := h.makeRoom hfresh len
  have hfit : len ≤ (l.makeRoom fresh len).currentBuffer.avail := by omega
  refine ⟨⟨hroom.current, ?_, hroom.next, hroom.sound, hroom.writer⟩, hfit⟩
  have hinside := hroom.inside
  rw [avail] at hfit
  simp only [Log.append, Inside, ArrayBuffer.append] at hinside ⊢
  omega

theorem start (h : LogInv l) {addr₁ addr₂ : Int} (hstart : l.start addr₁ addr₂ = some l') :
    LogInv l' := by
  unfold Log.start at hstart
  split at hstart
  · split at hstart
    · next haddr =>
      cases hstart
      refine { h with writer := fun w hw => ?_ }
      cases hw
      exact ⟨fun _ => ⟨init_sound haddr.1, init_sound haddr.2⟩, fun hs => (by cases hs),
        fun b hb => absurd hb List.not_mem_nil⟩
    · cases hstart
  · cases hstart

theorem stop (h : LogInv l) (hstop : l.stop = some l') : LogInv l' := by
  unfold Log.stop at hstop
  split at hstop
  · cases hstop
  · split at hstop
    · cases hstop
    · cases hstop
      exact { h with writer := fun w hw => by cases hw }

theorem swap (h : LogInv l) {w : Writer} (hw : WriterInv w) (hs : w.swapped = false) :
    LogInv (l.swap w) := by
  obtain ⟨hne, hmem, htwo⟩ := addTail_spec l.buffers l.currentBuffer
  obtain ⟨hfst, hsnd⟩ := hw.fresh hs
  have hsound : ∀ b ∈ ((addTail l.buffers l.currentBuffer).1).take (maxBuffer + 1), b.Sound := by
    intro b hb
    rcases hmem b (List.mem_of_mem_take hb) with hb | rfl
    · exact h.sound b hb
    · exact h.current
  have htake : ((addTail l.buffers l.currentBuffer).1).take (maxBuffer + 1) ≠ [] := by
    simpa [List.take_eq_nil_iff] using hne
  unfold Log.swap
  dsimp only
  split
  · next husable =>
    have hnext : l.nextBuffer.Sound := by
      rcases h.next with hnext | ⟨hnull, -⟩
      · exact hnext
      · exact absurd hnull (usable_iff.mp husable)
    refine ⟨hfst, inside_of_cur hfst rfl, .inl hnext, fun b hb => absurd hb List.not_mem_nil,
      fun w' hw' => ?_⟩
    cases hw'
    exact ⟨fun hf => (by cases hf), fun _ => ⟨rfl, htake, .inl hsnd⟩, hsound⟩
  · next hnull =>
    have hbuffers : l.buffers ≠ [] := by
      rcases h.next with hnext | ⟨-, hbuffers⟩
      · exact absurd (usable_iff.mpr hnext.1) hnull
      · exact hbuffers
    refine ⟨hfst, inside_of_cur hfst rfl, .inl hsnd, fun b hb => absurd hb List.not_mem_nil,
      fun w' hw' => ?_⟩
    cases hw'
    refine ⟨fun hf => (by cases hf), fun _ => ⟨rfl, htake, .inr ⟨rfl, ?_⟩⟩, hsound⟩
    have hlen := htwo hbuffers
    simp only [List.length_take, maxBuffer]
    omega

end LogInv

theorem refill_spec {b : ArrayBuffer} {t : List ArrayBuffer}
    (hb : b.Sound ∨ b.buffer = 0 ∧ t ≠ []) (ht : ∀ c ∈ t, c.Sound) :
    ∃ b' t', Writer.refill b t = some (b', t') ∧ b'.Sound ∧ (∀ c ∈ t', c ∈ t) ∧
      t.length ≤ t'.length + if b.usable then 0 else 1 := by
  unfold Writer.refill
  rcases hb with hsound | ⟨hnull, hne⟩
  · have husable := usable_iff.mpr hsound.1
    rw [if_pos husable, if_pos husable]
    exact ⟨b, t, rfl, hsound, fun _ => id, Nat.le_refl _⟩
  · have hnot : ¬ b.usable = true := fun hu => usable_iff.mp hu hnull
    rw [if_neg hnot, if_neg hnot, List.getLast?_eq_some_getLast hne]
    have hlast : (t.getLast hne).Sound := ht _ (List.getLast_mem hne)
    refine ⟨_, _, rfl, hlast, fun c hc => (List.dropLast_sublist t).subset hc, ?_⟩
    · simp only [List.length_dropLast]
      omega

theorem kept_spec (t : List ArrayBuffer) :
    ∃ k, (if (if t.length > maxBuffer then t.take 2 else t).length > 2 then
        (if t.length > maxBuffer then t.take 2 else t).take 2
      else if t.length > maxBuffer then t.take 2 else t) = t.take k ∧ 2 ≤ k := by
  split
  · split
    · exact ⟨2, by rw [List.take_take]; rfl, Nat.le_refl _⟩
    · exact ⟨2, rfl, Nat.le_refl _⟩
  · split
    · exact ⟨2, rfl, Nat.le_refl _⟩
    · exact ⟨t.length + 2, by rw [List.take_of_length_le (by omega)], by omega⟩

theorem WriterInv.finish {w : Writer} (h : WriterInv w) (hs : w.swapped = true) :
    ∃ w', w.finish = some w' ∧ WriterInv w' := by
  obtain ⟨hnull, hne, hsnd⟩ := h.taken hs
  obtain ⟨k, hk, htwo⟩ := kept_spec w.buffersToWrite
  have hsound : ∀ b ∈ w.buffersToWrite.take k, b.Sound :=
    fun b hb => h.sound b (List.mem_of_mem_take hb)
  have hpos := List.length_pos_iff.mpr hne
  have hunusable : ¬ w.newBuffer1.usable = true := fun hu => usable_iff.mp hu hnull
  obtain ⟨b₁, t₁, hb₁, hsound₁, hmem₁, hlen₁⟩ := refill_spec (t := w.buffersToWrite.take k)
    (.inr ⟨hnull, by simp [List.take_eq_nil_iff, hne]; omega⟩) hsound
  rw [if_neg hunusable, List.length_take] at hlen₁
  obtain ⟨b₂, t₂, hb₂, hsound₂, -, -⟩ := refill_spec (b := w.newBuffer2) (t := t₁) (by
    rcases hsnd with hsnd | ⟨hnull₂, hlen⟩
    · exact .inl hsnd
    · refine .inr ⟨hnull₂, fun ht₁ => ?_⟩
      rw [ht₁, List.length_nil] at hlen₁
      omega) (fun c hc => hsound c (hmem₁ c hc))
  refine ⟨{ newBuffer1 := b₁, newBuffer2 := b₂, buffersToWrite := [], swapped := false }, ?_,
    fun _ => ⟨hsound₁, hsound₂⟩, fun hf => (by cases hf), fun b hb => absurd hb List.not_mem_nil⟩
  simp only [Writer.finish, hk, hb₁, Option.bind_eq_bind, Option.bind_some, hb₂]

theorem LogInv.finish {l l' : Log} (h : LogInv l) (hfinish : l.finish = some l') : LogInv l' := by
  unfold Log.finish at hfinish
  split at hfinish
  · cases hfinish
  · next w hw =>
    split at hfinish
    · next hs =>
      obtain ⟨w', hw', hinv⟩ := (h.writer w hw).finish hs
      rw [hw'] at hfinish
      cases hfinish
      exact { h with writer := fun _ he => by cases he; exact hinv }
    · cases hfinish

theorem LogInv.takeBuffers {l l' : Log} (h : LogInv l) (htake : l.takeBuffers = some l') :
    LogInv l' := by
  unfold Log.takeBuffers at htake
  split at htake
  · cases htake
  · next w hw =>
    split at htake
    · cases htake
    · next hs =>
      cases htake
      exact h.swap (h.writer w hw) (by simpa using hs)

structure LogsInv (s : Logs) : Prop where
  aslog : LogInv s.aslog
  linkAslog : LogInv s.linkAslog

namespace LogsInv

variable {s t : Logs}

theorem log (h : LogsInv s) (link : Bool) : LogInv (s.log link) := by
  cases link
  · exact h.aslog
  · exact h.linkAslog

theorem setLog (h : LogsInv s) {link : Bool} {l : Log} (hl : LogInv l) :
    LogsInv (s.setLog link l) := by
  cases link
  · exact ⟨hl, h.linkAslog⟩
  · exact ⟨h.aslog, hl⟩

end LogsInv

/-- The copy stays in its buffer and reads what was written into the `logline`, and the current
buffers are in order behind it. -/
def InBounds (s : Logs) (a : LogAct) (t : Logs) : Prop :=
  (∀ c ∈ s.shows a, (c.copied : Int) ≤ c.avail ∧ c.read ≤ c.written) ∧
    t.aslog.currentBuffer.Inside ∧ t.linkAslog.currentBuffer.Inside

instance (s : Logs) (a : LogAct) (t : Logs) : Decidable (InBounds s a t) :=
  inferInstanceAs (Decidable (_ ∧ _))

/-- The message is shorter than the buffer and what `vsnprintf` writes, or so long that it fails; a
length that is given is not negative, and not larger than the buffer. -/
def Fits : LogAct → Prop
  | .logAppend n _ => n ≤ 4194303 ∨ 2 ^ 31 ≤ n
  | .linkagelogAppend len _ => 0 ≤ len ∧ len ≤ 4194304
  | _ => True

instance : DecidablePred Fits
  | .logAppend n _ => inferInstanceAs (Decidable (n ≤ 4194303 ∨ 2 ^ 31 ≤ n))
  | .linkagelogAppend len _ => inferInstanceAs (Decidable (0 ≤ len ∧ len ≤ 4194304))
  | .start .. | .swap _ | .finish _ | .stop _ => .isTrue trivial

theorem vsnprintf_length {size n : Nat} (h : (vsnprintf size n).1 > -1) :
    n < 2 ^ 31 ∧ (vsnprintf size n).1 = n := by
  simp only [vsnprintf] at h ⊢
  split at h
  · next hn => exact ⟨hn, by rw [if_pos hn]⟩
  · omega

theorem vsnprintf_fails {size n : Nat} (h : ¬ (vsnprintf size n).1 > -1) : 2 ^ 31 ≤ n := by
  simp only [vsnprintf] at h
  split at h <;> omega

namespace LogsInv

variable {s t : Logs}

theorem step (h : LogsInv s) {a : LogAct} (hfits : Fits a) (hstep : logStep s a = some t) :
    LogsInv t := by
  cases a with
  | logAppend n fresh =>
    simp only [logStep] at hstep
    split at hstep
    · cases hstep
    · next hfresh =>
      split at hstep
      · next hret =>
        cases hstep
        have hn := vsnprintf_length hret
        simp only [Fits] at hfits
        rw [hn.2]
        exact h.setLog (h.aslog.append hfresh n (Int.natCast_nonneg n) (by rw [bufMax]; omega)).1
      · cases hstep
        exact h
  | linkagelogAppend len fresh =>
    simp only [logStep] at hstep
    split at hstep
    · cases hstep
    · next hguard =>
      cases hstep
      obtain ⟨hpos, hle⟩ := hfits
      exact h.setLog (h.linkAslog.append (fun h0 => hguard (.inl h0)) len hpos hle).1
  | start link addr₁ addr₂ =>
    obtain ⟨l, hl, rfl⟩ := Option.map_eq_some_iff.mp hstep
    exact h.setLog ((h.log link).start hl)
  | swap link =>
    obtain ⟨l, hl, rfl⟩ := Option.map_eq_some_iff.mp hstep
    exact h.setLog ((h.log link).takeBuffers hl)
  | finish link =>
    obtain ⟨l, hl, rfl⟩ := Option.map_eq_some_iff.mp hstep
    exact h.setLog ((h.log link).finish hl)
  | stop link =>
    obtain ⟨l, hl, rfl⟩ := Option.map_eq_some_iff.mp hstep
    exact h.setLog ((h.log link).stop hl)

theorem inBounds_iff (h : LogsInv s) {a : LogAct} (hstep : logStep s a = some t) :
    InBounds s a t ↔ Fits a := by
  constructor
  · intro hbounds
    cases a with
    | logAppend n fresh =>
      by_cases hret : (vsnprintf (bufMax - 1).toNat n).1 > -1
      · obtain ⟨hn, hlen⟩ := vsnprintf_length hret
        have hread := (hbounds.1 _ (by
          simp only [Logs.shows, if_pos hret]
          exact List.mem_singleton.mpr rfl)).2
        rw [hlen, CInt.sizeT_natCast (by omega)] at hread
        change n ≤ min n 4194302 + 1 at hread
        exact .inl (by omega)
      · exact .inr (vsnprintf_fails hret)
    | linkagelogAppend len fresh =>
      simp only [logStep] at hstep
      split at hstep
      · cases hstep
      · next hguard =>
        have hcopy := (hbounds.1 _ (List.mem_singleton.mpr rfl)).1
        have hfresh : fresh ≠ 0 := fun h0 => hguard (.inl h0)
        have hle := (h.linkAslog.makeRoom hfresh len).1.avail_le
        rw [bufMax] at hle
        dsimp only at hcopy
        rcases Int.lt_or_le len 0 with hneg | hpos
        · have hhuge := CInt.le_sizeT hneg (by omega)
          omega
        · rw [CInt.sizeT_toNat hpos (by omega)] at hcopy
          exact ⟨hpos, by omega⟩
    | _ => trivial
  · intro hfits
    have ht := h.step hfits hstep
    refine ⟨fun c hc => ?_, ht.aslog.inside, ht.linkAslog.inside⟩
    cases a with
    | logAppend n fresh =>
      simp only [Logs.shows] at hc
      split at hc
      · next hret =>
        simp only [logStep] at hstep
        split at hstep
        · cases hstep
        · next hfresh =>
          obtain ⟨hn, hlen⟩ := vsnprintf_length hret
          simp only [Fits] at hfits
          have happend := (h.aslog.append hfresh n (Int.natCast_nonneg n)
            (by rw [bufMax]; omega)).2
          rw [List.mem_singleton.mp hc, hlen, CInt.sizeT_natCast (by omega)]
          refine ⟨happend, ?_⟩
          change n ≤ min n 4194302 + 1
          omega
      · exact absurd hc List.not_mem_nil
    | linkagelogAppend len fresh =>
      simp only [logStep] at hstep
      split at hstep
      · cases hstep
      · next hguard =>
        obtain ⟨hpos, hle⟩ := hfits
        have happend := (h.linkAslog.append (fun h0 => hguard (.inl h0)) len hpos hle).2
        rw [List.mem_singleton.mp hc, CInt.sizeT_toNat hpos (by omega)]
        exact ⟨by dsimp only; omega, Nat.le_refl _⟩
    | _ => exact absurd hc List.not_mem_nil

end LogsInv

/-- In every run of the two loggers, all appends stay in their buffers and read only what was
written, and the current buffers are in order in every state, if and only if all messages fit. -/
theorem async_log_appends_in_bounds (addr : Fin 4 → Int) (as : List LogAct) (s : Logs)
    (haddr : ∀ i, addr i ≠ 0) (hrun : Run.run logStep (logsInit addr) as = some s) :
    Run.Steps logStep InBounds (logsInit addr) as ↔
      Run.Meets logStep (fun _ => Fits) (logsInit addr) as :=
  Run.steps_iff_meets (c := fun _ _ => True) (d := fun _ => Fits) (r := InBounds) (p := LogsInv)
    (fun _ _ _ h hstep => h.inBounds_iff hstep) (fun _ _ _ h _ hfits hstep => h.step hfits hstep)
    ⟨log_inv_init (haddr 0) (haddr 1), log_inv_init (haddr 2) (haddr 3)⟩
    (Run.meets_true _ _) hrun

/-- The writer thread takes a buffer between two messages of both loggers. -/
def oneTurn : List LogAct :=
  [.start true 5 6, .logAppend 4194303 9, .linkagelogAppend 4194304 10, .swap true,
    .linkagelogAppend 7 11, .finish true, .logAppend 4194303 12]

theorem async_log_appends_in_bounds_turn :
    Run.Steps logStep InBounds (logsInit (fun i => i + 1)) oneTurn := by
  have hrun : (Run.run logStep (logsInit (fun i => i + 1)) oneTurn).isSome = true := by
    decide +kernel
  obtain ⟨s, hs⟩ := Option.isSome_iff_exists.mp hrun
  exact (async_log_appends_in_bounds _ _ s (by decide) hs).mpr (by decide +kernel)

/-- A message that is longer than the buffer is copied with its full length. -/
theorem async_log_appends_overflow :
    ¬ ∀ (addr : Fin 4 → Int) (as : List LogAct) (s : Logs), (∀ i, addr i ≠ 0) →
      Run.run logStep (logsInit addr) as = some s →
      Run.Steps logStep InBounds (logsInit addr) as := by
  intro h
  have hrun : (Run.run logStep (logsInit (fun i => i + 1)) [.logAppend 5000000 9]).isSome = true := by
    decide +kernel
  obtain ⟨s, hs⟩ := Option.isSome_iff_exists.mp hrun
  have hsteps := h _ _ s (by decide) hs
  obtain ⟨t, ht, -⟩ := Run.run_cons.mp hs
  simp only [Run.Steps, ht] at hsteps
  have hinv : LogsInv (logsInit (fun i => i + 1)) :=
    ⟨log_inv_init (by decide) (by decide), log_inv_init (by decide) (by decide)⟩
  exact absurd ((hinv.inBounds_iff ht).mp hsteps.1) (by decide)

end AlgorithmLib.AsyncLog
