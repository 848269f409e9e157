import AlgorithmLib.AsyncTask.AsyncProc
import AlgorithmLib.Library.Pipeline

/-!
What the worker of `async_proc.c` hands over is what was appended: whole records, in order,
none twice, and none missing while the queue has room. The invariant has a shared part,
kept by the append calls, and a part about the worker's own buffers.
-/

set_option autoImplicit false

namespace AlgorithmLib.AsyncTask

open Pipeline Run

structure Spare (b : FlexBuffer) : Prop where
  valid : b.Valid
  empty : b.content = []

theorem spare_init (addr size : Nat) : Spare (.flexBufferInit addr size) :=
  ⟨FlexBuffer.init_valid addr size, FlexBuffer.init_content addr size⟩

theorem spare_clean (b : FlexBuffer) : Spare b.flexBufferClean :=
  ⟨FlexBuffer.clean_valid b, FlexBuffer.clean_content b⟩

theorem spare_retrieveAll {b : FlexBuffer} (h : b.Valid) : Spare b.flexRetrieveAll :=
  ⟨FlexBuffer.retrieveAll_valid h, FlexBuffer.retrieveAll_content b⟩

namespace AsyncProc

/-- The invariant of the shared structure, whose queue represents `q`. -/
structure Shared (p : AsyncProc) (q : List FlexBuffer) : Prop where
  queue : p.buffers.Filled q
  max : p.buffers.max = asyncprocMaxbuffer + 1
  usable : p.currentBuffer.flexBufferUsable
  valid : p.currentBuffer.Valid
  next : Spare p.nextBuffer
  used : p.nextBuffer.flexBufferUsable = false → q ≠ []

def blocks (p : AsyncProc) (q : List FlexBuffer) : List (List UInt8) :=
  q.map FlexBuffer.content ++ [p.currentBuffer.content]

theorem shared_init : (asyncProcDefInit).Shared [] :=
  ⟨AlignFlexBuffer.init_filled _, rfl, rfl, FlexBuffer.init_valid _ _, spare_init _ _,
    fun h => absurd h (by decide)⟩

theorem appendSegments_spec (addr : Nat) (b : FlexBuffer) (ds : List (List UInt8))
    (hu : b.flexBufferUsable) (hv : b.Valid) :
    (appendSegments addr b ds).flexBufferUsable ∧ (appendSegments addr b ds).Valid ∧
      (appendSegments addr b ds).content = b.content ++ ds.flatten := by
  induction ds generalizing addr b with
  | nil => exact ⟨hu, hv, by simp [appendSegments]⟩
  | cons d ds ih =>
    obtain ⟨hv', hc⟩ := FlexBuffer.flexAppend_spec addr d hv
    obtain ⟨hu₂, hv₂, hc₂⟩ := ih (addr + 1) _ (FlexBuffer.flexAppend_usable addr d hu) hv'
    exact ⟨hu₂, hv₂, by simp [appendSegments, hc₂, hc]⟩

/-- What the append calls do to the blocks when the current buffer has become full: it is
pushed behind the queue, or thrown away when the queue has no room. -/
def Rotated (p p' : AsyncProc) (q q' : List FlexBuffer) : Prop :=
  p'.blocks q' = p.blocks q ∨ p'.blocks q' = p.blocks q ++ [[]] ∨
    (asyncprocMaxbuffer < q.length ∧ p'.blocks q' = q.map FlexBuffer.content ++ [[]])

theorem rotate_spec (addr : Nat) {p : AsyncProc} {q : List FlexBuffer} (h : p.Shared q) :
    ∃ q', (p.rotate addr).Shared q' ∧ Rotated p (p.rotate addr) q q' := by
  unfold rotate
  split
  case isFalse => exact ⟨q, h, Or.inl rfl⟩
  case isTrue =>
    by_cases hroom : q.length < p.buffers.max
    · -- the full buffer goes to the end of the queue
      obtain ⟨hq, -⟩ := h.queue.addTail h.usable h.valid hroom
      have hmax : (p.buffers.alignflexbufferAddTail p.currentBuffer).1.max =
          asyncprocMaxbuffer + 1 := by rw [AlignFlexBuffer.addTail_max, h.max]
      have hne : q ++ [p.currentBuffer] ≠ [] := by simp
      refine ⟨q ++ [p.currentBuffer], ?_⟩
      simp only [FlexBuffer.flexBufferMove]
      split
      case isTrue hn =>
        refine ⟨⟨hq, hmax, hn, h.next.valid, spare_clean p.nextBuffer, fun _ => hne⟩,
          Or.inr (Or.inl ?_)⟩
        simp [blocks, h.next.empty]
      case isFalse hn =>
        refine ⟨⟨hq, hmax, rfl, FlexBuffer.init_valid _ _, h.next, fun _ => hne⟩,
          Or.inr (Or.inl ?_)⟩
        simp [blocks, FlexBuffer.flexBufferRecalloc]
    · -- the queue is full and the buffer is lost
      have hfull : q.length = p.buffers.max := by have := h.queue.fits; omega
      have hlong : asyncprocMaxbuffer < q.length := by rw [hfull, h.max]; omega
      have hne : q ≠ [] := List.ne_nil_of_length_pos (by omega)
      rw [h.queue.addTail_full _ hfull]
      refine ⟨q, ?_⟩
      simp only [FlexBuffer.flexBufferMove]
      split
      case isTrue hn =>
        refine ⟨⟨h.queue, h.max, hn, h.next.valid, spare_clean p.nextBuffer, fun _ => hne⟩,
          Or.inr (Or.inr ⟨hlong, ?_⟩)⟩
        simp [blocks, h.next.empty]
      case isFalse hn =>
        refine ⟨⟨h.queue, h.max, rfl, FlexBuffer.init_valid _ _, h.next, fun _ => hne⟩,
          Or.inr (Or.inr ⟨hlong, ?_⟩)⟩
        simp [blocks, FlexBuffer.flexBufferRecalloc]

theorem append_spec (addr : Nat) {p : AsyncProc} {q : List FlexBuffer} (h : p.Shared q)
    {b : FlexBuffer} {r : List UInt8} (hu : b.flexBufferUsable) (hv : b.Valid)
    (hc : b.content = p.currentBuffer.content ++ r)
    (sent records : List (List UInt8)) (p' : AsyncProc)
    (hp' : p' = ({ p with currentBuffer := b }).rotate addr) :
    ∃ q', p'.Shared q' ∧
      (Carries (sent ++ p.blocks q) records → Carries (sent ++ p'.blocks q') (records ++ [r])) ∧
      (q.length ≤ asyncprocMaxbuffer → Holds (sent ++ p.blocks q) records →
        Holds (sent ++ p'.blocks q') (records ++ [r])) := by
  subst hp'
  have hs : ({ p with currentBuffer := b } : AsyncProc).Shared q :=
    ⟨h.queue, h.max, hu, hv, h.next, h.used⟩
  obtain ⟨q', hs', hrot⟩ := rotate_spec addr hs
  have hcarry : Carries (sent ++ p.blocks q) records →
      Carries (sent ++ ({ p with currentBuffer := b } : AsyncProc).blocks q) (records ++ [r]) := by
    intro hcar
    simp only [blocks, hc, ← List.append_assoc] at hcar ⊢
    exact hcar.append r
  have hholds : Holds (sent ++ p.blocks q) records →
      Holds (sent ++ ({ p with currentBuffer := b } : AsyncProc).blocks q) (records ++ [r]) := by
    intro hhol
    simp only [blocks, hc, ← List.append_assoc] at hhol ⊢
    exact hhol.append r
  refine ⟨q', hs', ?_, ?_⟩
  · intro hcar
    rcases hrot with e | e | ⟨-, e⟩
    · rw [e]
      exact hcarry hcar
    · rw [e, ← List.append_assoc]
      exact (hcarry hcar).push
    · rw [e, ← List.append_assoc]
      have hall : Carries ((sent ++ q.map FlexBuffer.content) ++ [b.content]) (records ++ [r]) := by
        rw [List.append_assoc]
        exact hcarry hcar
      exact hall.take.push
  · intro hroom hhol
    rcases hrot with e | e | ⟨hlong, -⟩
    · rw [e]
      exact hholds hhol
    · rw [e, ← List.append_assoc]
      exact (hholds hhol).push
    · omega

end AsyncProc

/-- The invariant of the worker's local variables, whose array represents `w`. -/
structure Local (t : ThreadFunc) (w : List FlexBuffer) : Prop where
  write : t.buffersToWrite.Filled w
  max : t.buffersToWrite.max = asyncprocMaxbuffer + 1
  new1 : Spare t.newBuffer1
  new2 : Spare t.newBuffer2
  phase :
    match t.phase with
    | .idle => w = []
    | .head | .locking | .waiting =>
      w = [] ∧ t.newBuffer1.flexBufferUsable ∧ t.newBuffer2.flexBufferUsable
    | .swapped => w ≠ [] ∧ (t.newBuffer2.flexBufferUsable = false → 2 ≤ w.length)
    | .writing i =>
      w ≠ [] ∧ (t.newBuffer2.flexBufferUsable = false → 2 ≤ w.length) ∧ i ≤ w.length
    | .exited => w = []

namespace Sys

structure Inv (s : Sys) (q w : List FlexBuffer) : Prop where
  shared : s.proc.Shared q
  local_ : Local s.thread w

theorem inv_init : init.Inv [] [] :=
  ⟨AsyncProc.shared_init, AlignFlexBuffer.init_filled _, rfl, spare_clean nullBuffer,
    spare_clean nullBuffer, rfl⟩

variable {s s' : Sys} {q w : List FlexBuffer}

/-- The blocks swapped out and not yet handed over, in terms of the list represented. -/
def unsent (phase : Phase) (w : List FlexBuffer) : List (List UInt8) :=
  match phase with
  | .swapped => w.map FlexBuffer.content
  | .writing i => (w.map FlexBuffer.content).drop i
  | _ => []

theorem Inv.swappedOut (h : s.Inv q w) : s.swappedOut = unsent s.thread.phase w := by
  rw [Sys.swappedOut, h.local_.write.take]
  rfl

theorem Inv.queued (h : s.Inv q w) : s.queued = q.map FlexBuffer.content := by
  rw [Sys.queued, h.shared.queue.take]

theorem Inv.pipeline (h : s.Inv q w) :
    s.pipeline = (s.handed ++ unsent s.thread.phase w) ++ s.proc.blocks q := by
  rw [Sys.pipeline, h.swappedOut, h.queued, AsyncProc.blocks, ← List.append_assoc]

theorem swap_inv (h : s.Inv q w)
    (hw : w = [] ∧ s.thread.newBuffer1.flexBufferUsable ∧ s.thread.newBuffer2.flexBufferUsable)
    (hphase : unsent s.thread.phase w = []) :
    ∃ w', s.swap.Inv [] w' ∧ s.swap.handed = s.handed ∧
      (Carries s.pipeline s.appended → Carries s.swap.pipeline s.swap.appended) ∧
      (q.length ≤ asyncprocMaxbuffer → Holds s.pipeline s.appended →
        Holds s.swap.pipeline s.swap.appended) ∧ w'.length ≤ q.length + 1 := by
  obtain ⟨hnil, hu₁, hu₂⟩ := hw
  have hmaxw := h.local_.max
  have hmaxq := h.shared.max
  -- the queue as the swap finds it after the current buffer has been added
  obtain ⟨w', hq', hlen, hne, hcont⟩ : ∃ w',
      (s.proc.buffers.alignflexbufferAddTail s.proc.currentBuffer).1.Filled w' ∧
      w'.length ≤ q.length + 1 ∧ (w' ≠ [] ∧ (q ≠ [] → 2 ≤ w'.length)) ∧
      (w' = q ++ [s.proc.currentBuffer] ∨ (asyncprocMaxbuffer < q.length ∧ w' = q)) := by
    by_cases hroom : q.length < s.proc.buffers.max
    · obtain ⟨hq, -⟩ := h.shared.queue.addTail h.shared.usable h.shared.valid hroom
      refine ⟨_, hq, by simp, ⟨by simp, ?_⟩, Or.inl rfl⟩
      intro hqne
      have := List.length_pos_iff.mpr hqne
      simp only [List.length_append, List.length_singleton]
      omega
    · have hfull : q.length = s.proc.buffers.max := by have := h.shared.queue.fits; omega
      have hlong : asyncprocMaxbuffer < q.length := by rw [hfull, hmaxq]; omega
      have h2 : 2 ≤ q.length := by rw [asyncprocMaxbuffer] at hlong; omega
      rw [h.shared.queue.addTail_full _ hfull]
      exact ⟨q, h.shared.queue, by omega, ⟨List.ne_nil_of_length_pos (by omega), fun _ => h2⟩,
        Or.inr ⟨hlong, rfl⟩⟩
  have hmax : s.thread.buffersToWrite.max =
      (s.proc.buffers.alignflexbufferAddTail s.proc.currentBuffer).1.max := by
    rw [AlignFlexBuffer.addTail_max, hmaxw, hmaxq]
  obtain ⟨hw', hq₀, hm₁, hm₂⟩ := h.local_.write.move hq' hmax
  have hinv : s.swap.Inv [] w' := by
    unfold swap
    simp only [FlexBuffer.flexBufferMove]
    split
    case isTrue hn =>
      have hnext : s.proc.nextBuffer.flexBufferUsable = false := by simpa using hn
      exact ⟨⟨hq₀, by rw [hm₂, ← hmax, hmaxw], hu₁, h.local_.new1.valid, h.local_.new2,
          fun hf => absurd hf (by simp [hu₂])⟩,
        ⟨hw', by rw [hm₁, hmaxw], spare_clean s.thread.newBuffer1, spare_clean s.thread.newBuffer2,
          hne.1, fun _ => hne.2 (h.shared.used hnext)⟩⟩
    case isFalse hn =>
      have hnext : s.proc.nextBuffer.flexBufferUsable := by simpa using hn
      exact ⟨⟨hq₀, by rw [hm₂, ← hmax, hmaxw], hu₁, h.local_.new1.valid, h.shared.next,
          fun hf => absurd hf (by simp [hnext])⟩,
        ⟨hw', by rw [hm₁, hmaxw], spare_clean s.thread.newBuffer1, h.local_.new2,
          hne.1, fun hf => absurd hf (by simp [hu₂])⟩⟩
  have hcur : s.swap.proc.currentBuffer.content = [] := h.local_.new1.empty
  have hpipe : s.pipeline = s.handed ++ (q.map FlexBuffer.content ++
      [s.proc.currentBuffer.content]) := by
    rw [h.pipeline, hphase, List.append_nil, AsyncProc.blocks]
  have hpipe' : s.swap.pipeline = (s.handed ++ w'.map FlexBuffer.content) ++ [[]] := by
    rw [hinv.pipeline, AsyncProc.blocks, hcur]
    rfl
  refine ⟨w', hinv, rfl, ?_, ?_, hlen⟩
  · intro hcar
    rw [hpipe'] at *
    rw [hpipe] at hcar
    refine Carries.push (hcar.sublist ?_)
    rcases hcont with rfl | ⟨-, rfl⟩
    · simp
    · exact (List.sublist_append_left _ _).append_left _
  · intro hroom hhol
    rw [hpipe']
    rw [hpipe] at hhol
    rcases hcont with rfl | ⟨hlong, -⟩
    · have hmap : (q ++ [s.proc.currentBuffer]).map FlexBuffer.content =
          q.map FlexBuffer.content ++ [s.proc.currentBuffer.content] := by simp
      rw [hmap]
      exact Holds.push hhol
    · omega

theorem dropOverload_spec {t : AlignFlexBuffer} (h : t.Filled w)
    (hmax : t.max = asyncprocMaxbuffer + 1) :
    ∃ w', (dropOverload t).Filled w' ∧ (dropOverload t).max = t.max ∧
      w'.Sublist w ∧ (w.length ≤ asyncprocMaxbuffer → w' = w) ∧
      (∀ n, n ≤ 2 → n ≤ w.length → n ≤ w'.length) := by
  have hfits := h.fits
  unfold dropOverload
  split
  case isTrue hc =>
    rw [h.cout] at hc
    have h2 : 2 ≤ w.length := by rw [asyncprocMaxbuffer] at hc; omega
    refine ⟨w.take 2, h.erase h2 (by omega), rfl, List.take_sublist _ _, by omega, ?_⟩
    intro n hn _
    rw [List.length_take]
    omega
  case isFalse hc => exact ⟨w, h, rfl, List.Sublist.refl _, fun _ => rfl, fun _ _ hn => hn⟩

theorem refill_spec {b : FlexBuffer} {t : AlignFlexBuffer} (hb : Spare b) (h : t.Filled w)
    (hne : b.flexBufferUsable = false → w ≠ []) :
    ∃ b' t' w', refill b t = some (b', t') ∧ b'.flexBufferUsable ∧ Spare b' ∧ t'.Filled w' ∧
      t'.max = t.max ∧ w.length ≤ w'.length + 1 ∧ (b.flexBufferUsable → w' = w) := by
  unfold refill
  split
  case isTrue hu =>
    have hu' : b.flexBufferUsable = false := by simpa using hu
    obtain ⟨t', ht, hf, hm⟩ := h.takeLast (hne hu')
    refine ⟨_, t', w.dropLast, by rw [ht]; rfl, ?_, spare_retrieveAll ?_, hf, hm, ?_, ?_⟩
    · rw [FlexBuffer.retrieveAll_usable]
      exact h.usable _ (List.getLast_mem _)
    · exact h.valid _ (List.getLast_mem _)
    · rw [List.length_dropLast]
      omega
    · intro hc
      rw [hu'] at hc
      exact absurd hc (by decide)
  case isFalse hu =>
    exact ⟨b, t, w, rfl, by simpa using hu, hb, h, rfl, by omega, fun _ => rfl⟩

def firstTwo (t : AlignFlexBuffer) : AlignFlexBuffer :=
  if t.cout > 2 then t.alignflexbufferErase 2 (asyncprocMaxbuffer + 1) else t

theorem firstTwo_spec {t : AlignFlexBuffer} (h : t.Filled w) (hmax : t.max = asyncprocMaxbuffer + 1) :
    ∃ v, (firstTwo t).Filled v ∧ (firstTwo t).max = asyncprocMaxbuffer + 1 ∧
      ∀ n, n ≤ 2 → n ≤ w.length → n ≤ v.length := by
  have hfits := h.fits
  unfold firstTwo
  split
  case isTrue hc =>
    rw [h.cout] at hc
    refine ⟨w.take 2, h.erase (by omega) (by omega), hmax, ?_⟩
    intro n hn _
    rw [List.length_take]
    omega
  case isFalse hc => exact ⟨w, h, hmax, fun _ _ hn => hn⟩

/-- The end of the loop body never indexes below an array and leaves two usable, empty
local buffers. -/
theorem recycle_inv (h : s.Inv q w) (hw : w ≠ [])
    (h2 : s.thread.newBuffer2.flexBufferUsable = false → 2 ≤ w.length) :
    ∃ t, s.recycle = some { s with thread := t } ∧ Local t [] ∧ t.phase = .head := by
  have hpos := List.length_pos_iff.mpr hw
  obtain ⟨v, hv, hvm, hvl⟩ := firstTwo_spec h.local_.write h.local_.max
  have hvne : v ≠ [] := List.ne_nil_of_length_pos (hvl 1 (by omega) (by omega))
  obtain ⟨b₁, t₁, w₁, hr₁, hu₁, hs₁, hf₁, hm₁, hl₁, -⟩ :=
    refill_spec h.local_.new1 hv (fun _ => hvne)
  have hne₂ : s.thread.newBuffer2.flexBufferUsable = false → w₁ ≠ [] := by
    intro hu
    have := hvl 2 (by omega) (h2 hu)
    exact List.ne_nil_of_length_pos (by omega)
  obtain ⟨b₂, t₂, w₂, hr₂, hu₂, hs₂, hf₂, hm₂, -, -⟩ := refill_spec h.local_.new2 hf₁ hne₂
  unfold firstTwo at hr₁
  refine ⟨⟨.head, b₁, b₂, t₂.alignflexbufferClear⟩, ?_, ?_, rfl⟩
  · simp only [recycle, hr₁, hr₂, Option.bind_eq_bind, Option.bind_some]
  · exact ⟨hf₂.clear, by rw [AlignFlexBuffer.clear_max, hm₂, hm₁, hvm], hs₁, hs₂, rfl, hu₁, hu₂⟩

/-- Nothing is missing so far, and the next overload check will drop nothing. -/
structure Exact (s : Sys) : Prop where
  holds : Holds s.pipeline s.appended
  kept : s.thread.phase = .swapped → s.thread.buffersToWrite.cout ≤ asyncprocMaxbuffer

/-- What every step does: it keeps the invariant and what the pipeline carries, and with
room in the queue it loses nothing. -/
structure Kept (s s' : Sys) (q w : List FlexBuffer) : Prop where
  inv : s'.Inv q w
  carries : Carries s.pipeline s.appended → Carries s'.pipeline s'.appended
  exact_ : s.Roomy → s.Exact → s'.Exact

theorem kept_of_same (h' : s'.Inv q w) (hp : s'.pipeline = s.pipeline)
    (ha : s'.appended = s.appended) (hk : s'.thread.phase ≠ .swapped) : Kept s s' q w :=
  ⟨h', by rw [hp, ha]; exact id, fun _ he => ⟨by rw [hp, ha]; exact he.holds, fun hs => absurd hs hk⟩⟩

theorem append_kept (h : s.Inv q w) {b : FlexBuffer} {r : List UInt8} (addr : Nat)
    (hu : b.flexBufferUsable) (hv : b.Valid)
    (hc : b.content = s.proc.currentBuffer.content ++ r)
    (hp : s'.proc = ({ s.proc with currentBuffer := b }).rotate addr)
    (ht : s'.thread = s.thread) (hh : s'.handed = s.handed)
    (ha : s'.appended = s.appended ++ [r]) : ∃ q', Kept s s' q' w := by
  obtain ⟨q', hs', hcar, hhol⟩ := AsyncProc.append_spec addr h.shared hu hv hc
    (s.handed ++ unsent s.thread.phase w) s.appended s'.proc hp
  have hinv : s'.Inv q' w := ⟨hs', by rw [ht]; exact h.local_⟩
  refine ⟨q', hinv, ?_, ?_⟩
  · rw [h.pipeline, hinv.pipeline, hh, ht, ha]
    exact hcar
  · intro hroom he
    have hlen : q.length ≤ asyncprocMaxbuffer := by
      rw [Roomy, h.shared.queue.cout] at hroom
      omega
    refine ⟨?_, by rw [ht]; exact he.kept⟩
    have hold := he.holds
    rw [h.pipeline] at hold
    rw [hinv.pipeline, hh, ht, ha]
    exact hhol hlen hold

theorem swap_kept (h : s.Inv q w)
    (hw : w = [] ∧ s.thread.newBuffer1.flexBufferUsable ∧ s.thread.newBuffer2.flexBufferUsable)
    (hphase : unsent s.thread.phase w = []) : ∃ w', Kept s s.swap [] w' := by
  obtain ⟨w', hinv, -, hcar, hhol, hlen⟩ := swap_inv h hw hphase
  refine ⟨w', hinv, hcar, ?_⟩
  intro hroom he
  rw [Roomy, h.shared.queue.cout] at hroom
  refine ⟨hhol (by omega) he.holds, fun _ => ?_⟩
  rw [hinv.local_.write.cout]
  omega

theorem work_kept (h : s.Inv q w) (hs : s.work = some s') : ∃ q' w', Kept s s' q' w' := by
  have hp := h.local_.phase
  unfold work at hs
  split at hs
  case h_1 => cases hs
  case h_2 hphase =>
    -- the test of `running_`
    rw [hphase] at hp
    obtain ⟨rfl, hu₁, hu₂⟩ := hp
    have hun : unsent s.thread.phase [] = [] := by rw [hphase]; rfl
    split at hs
    · cases hs
      have hinv : Inv { s with thread := { s.thread with phase := .locking } } q [] :=
        ⟨h.shared, h.local_.write, h.local_.max, h.local_.new1, h.local_.new2, rfl, hu₁, hu₂⟩
      exact ⟨q, [], kept_of_same hinv (by rw [h.pipeline, hinv.pipeline, hun]; rfl) rfl
        (by simp)⟩
    · cases hs
      have hinv : Inv { s with
          thread :=
            ⟨.exited, s.thread.newBuffer1.flexBufferClean, s.thread.newBuffer2.flexBufferClean,
              s.thread.buffersToWrite.alignflexbufferClear⟩ } q [] :=
        ⟨h.shared, h.local_.write.clear, h.local_.max, spare_clean s.thread.newBuffer1,
          spare_clean s.thread.newBuffer2, rfl⟩
      exact ⟨q, [], kept_of_same hinv (by rw [h.pipeline, hinv.pipeline, hun]; rfl) rfl
        (by simp)⟩
  case h_3 hphase =>
    rw [hphase] at hp
    obtain ⟨rfl, hu₁, hu₂⟩ := hp
    have hun : unsent s.thread.phase [] = [] := by rw [hphase]; rfl
    split at hs
    · cases hs
      have hinv : Inv { s with thread := { s.thread with phase := .waiting } } q [] :=
        ⟨h.shared, h.local_.write, h.local_.max, h.local_.new1, h.local_.new2, rfl, hu₁, hu₂⟩
      exact ⟨q, [], kept_of_same hinv (by rw [h.pipeline, hinv.pipeline, hun]; rfl) rfl
        (by simp)⟩
    · cases hs
      obtain ⟨w', hk⟩ := swap_kept h ⟨rfl, hu₁, hu₂⟩ hun
      exact ⟨[], w', hk⟩
  case h_4 hphase =>
    rw [hphase] at hp
    have hun : unsent s.thread.phase w = [] := by rw [hphase]; rfl
    cases hs
    obtain ⟨w', hk⟩ := swap_kept h hp hun
    exact ⟨[], w', hk⟩
  case h_5 hphase =>
    -- the overload check
    rw [hphase] at hp
    cases hs
    obtain ⟨w', hf, hm, hsub, hsame, hlen⟩ := dropOverload_spec h.local_.write h.local_.max
    have hpos := List.length_pos_iff.mpr hp.1
    have hinv : Inv { s with
        thread :=
          { s.thread with
            phase := .writing 0
            buffersToWrite := dropOverload s.thread.buffersToWrite } } q w' :=
      ⟨h.shared, hf, by rw [hm]; exact h.local_.max, h.local_.new1, h.local_.new2,
        List.ne_nil_of_length_pos (hlen 1 (by omega) hpos),
        fun hu => hlen 2 (by omega) (hp.2 hu), Nat.zero_le _⟩
    have hpipe : s.pipeline = s.handed ++ w.map FlexBuffer.content ++ s.proc.blocks q := by
      rw [h.pipeline, hphase]
      rfl
    refine ⟨q, w', hinv, ?_, ?_⟩
    · intro hcar
      rw [hpipe] at hcar
      rw [hinv.pipeline]
      exact hcar.sublist (((hsub.map _).append_left _).append_right _)
    · intro _ he
      have hle := he.kept hphase
      rw [h.local_.write.cout] at hle
      have hold := he.holds
      rw [hpipe] at hold
      refine ⟨?_, by simp⟩
      rw [hinv.pipeline, hsame hle]
      exact hold
  case h_6 i hphase =>
    rw [hphase] at hp
    split at hs
    · rename_i hi
      have hiw : i < w.length := by rw [← h.local_.write.cout]; exact hi
      rw [h.local_.write.get hiw] at hs
      cases hs
      have hinv : Inv { s with
          thread := { s.thread with phase := .writing (i + 1) }
          handed := s.handed ++ [w[i].content] } q w :=
        ⟨h.shared, h.local_.write, h.local_.max, h.local_.new1, h.local_.new2, hp.1, hp.2.1, hiw⟩
      refine ⟨q, w, kept_of_same hinv ?_ rfl (by simp)⟩
      rw [h.pipeline, hinv.pipeline, hphase]
      have hdrop : (w.map FlexBuffer.content).drop i =
          w[i].content :: (w.map FlexBuffer.content).drop (i + 1) := by
        rw [List.drop_eq_getElem_cons (by simpa using hiw), List.getElem_map]
      simp only [unsent, hdrop]
      simp
    · rename_i hi
      rw [h.local_.write.cout] at hi
      obtain ⟨t, ht, hl, hph⟩ := recycle_inv h hp.1 hp.2.1
      rw [ht] at hs
      cases hs
      have hinv : Inv { s with thread := t } q [] := ⟨h.shared, hl⟩
      refine ⟨q, [], kept_of_same hinv ?_ rfl (by simp [hph])⟩
      rw [h.pipeline, hinv.pipeline, hphase]
      simp only [unsent, hph, List.append_nil]
      rw [List.drop_eq_nil_of_le (by simp only [List.length_map]; omega), List.append_nil]
  case h_7 => cases hs

end Sys

theorem step_kept {s s' : Sys} {q w : List FlexBuffer} {a : Act} (h : s.Inv q w)
    (hs : step s a = some s') : ∃ q' w', s.Kept s' q' w' := by
  cases a with
  | appendStream stream =>
    cases hs
    obtain ⟨hu, hv, hc⟩ := AsyncProc.appendSegments_spec s.fresh s.proc.currentBuffer stream.data
      h.shared.usable h.shared.valid
    obtain ⟨q', hk⟩ : ∃ q', Sys.Kept s (s.appendStream stream) q' w :=
      Sys.append_kept h _ hu hv hc rfl rfl rfl rfl
    exact ⟨q', w, hk⟩
  | append data =>
    cases hs
    obtain ⟨hv, hc⟩ := FlexBuffer.flexAppend_spec s.fresh data h.shared.valid
    have hu := FlexBuffer.flexAppend_usable s.fresh data h.shared.usable
    obtain ⟨q', hk⟩ : ∃ q', Sys.Kept s (s.append data) q' w :=
      Sys.append_kept h _ hu hv hc rfl rfl rfl rfl
    exact ⟨q', w, hk⟩
  | start =>
    simp only [step] at hs
    split at hs
    case isFalse => cases hs
    case isTrue hidle =>
      cases hs
      have hw := h.local_.phase
      rw [hidle] at hw
      have hinv : s.start.Inv q [] :=
        ⟨⟨h.shared.queue, h.shared.max, h.shared.usable, h.shared.valid, h.shared.next,
            h.shared.used⟩,
          AlignFlexBuffer.init_filled _, rfl, spare_init _ _, spare_init _ _, rfl, rfl, rfl⟩
      refine ⟨q, [], Sys.kept_of_same hinv ?_ rfl (by simp [Sys.start])⟩
      rw [h.pipeline, hinv.pipeline, hidle]
      rfl
  | work => exact Sys.work_kept h hs
  | stop =>
    simp only [step] at hs
    split at hs
    case isFalse => cases hs
    case isTrue =>
      cases hs
      exact ⟨q, w, ⟨⟨h.shared.queue, h.shared.max, h.shared.usable, h.shared.valid, h.shared.next,
          h.shared.used⟩, h.local_⟩, id, fun _ he => ⟨he.holds, he.kept⟩⟩
  | join =>
    simp only [step] at hs
    split at hs
    case isFalse => cases hs
    case isTrue =>
      cases hs
      exact ⟨q, w, ⟨h.shared, h.local_⟩, id, fun _ he => ⟨he.holds, he.kept⟩⟩

theorem run_inv {acts : List Act} {s : Sys} (h : run step Sys.init acts = some s) :
    (∃ q w, s.Inv q w) ∧ Carries s.pipeline s.appended := by
  refine run_invariant (p := fun s => (∃ q w, s.Inv q w) ∧ Carries s.pipeline s.appended)
    ?_ ⟨⟨[], [], Sys.inv_init⟩, ?_⟩ h
  · rintro s a t ⟨⟨q, w, hi⟩, hc⟩ ht
    obtain ⟨q', w', hk⟩ := step_kept hi ht
    exact ⟨⟨q', w', hk.inv⟩, hk.carries hc⟩
  · rw [Sys.inv_init.pipeline]
    exact carries_nil

theorem run_exact {acts : List Act} {s : Sys} (h : run step Sys.init acts = some s)
    (hroom : Throughout step Sys.Roomy Sys.init acts) : s.Exact := by
  have hinit : Sys.init.Exact := ⟨by rw [Sys.inv_init.pipeline]; rfl, by simp [Sys.init]⟩
  refine (run_invariant_of_throughout (q := Sys.Roomy)
    (p := fun s => (∃ q w, s.Inv q w) ∧ s.Exact) ?_ ⟨⟨[], [], Sys.inv_init⟩, hinit⟩ hroom h).2
  rintro s a t ⟨⟨q, w, hi⟩, he⟩ hr - ht
  obtain ⟨q', w', hk⟩ := step_kept hi ht
  exact ⟨⟨q', w', hk.inv⟩, hk.exact_ hr he⟩

/-- The worker never indexes outside its arrays: it always has a next step, except before
it is started and after it has left its loop. -/
theorem work_enabled {acts : List Act} {s : Sys} (h : run step Sys.init acts = some s)
    (hi : s.thread.phase ≠ .idle) (he : s.thread.phase ≠ .exited) : ∃ s', step s .work = some s' := by
  obtain ⟨⟨q, w, hinv⟩, -⟩ := run_inv h
  have hp := hinv.local_.phase
  cases hph : s.thread.phase with
  | idle => exact absurd hph hi
  | exited => exact absurd hph he
  | head =>
    simp only [step, Sys.work, hph]
    split <;> exact ⟨_, rfl⟩
  | locking =>
    simp only [step, Sys.work, hph]
    split <;> exact ⟨_, rfl⟩
  | waiting => exact ⟨s.swap, by simp only [step, Sys.work, hph]⟩
  | swapped => exact ⟨_, by simp only [step, Sys.work, hph]; rfl⟩
  | writing i =>
    rw [hph] at hp
    simp only [step, Sys.work, hph]
    split
    · rename_i hlt
      rw [hinv.local_.write.get (by rw [← hinv.local_.write.cout]; exact hlt)]
      exact ⟨_, rfl⟩
    · obtain ⟨t, ht, -⟩ := Sys.recycle_inv hinv hp.1 hp.2.1
      exact ⟨_, ht⟩

/-- In every interleaving the blocks handed to `proc` are concatenations of whole records
that form, in order, a subsequence of the records appended; and if `buffers_` has had
room throughout, what was handed over, the blocks swapped out, the queue and the current
buffer together are exactly what was appended. -/
theorem async_proc_conserves_records (acts : List Act) {s : Sys}
    (h : run step Sys.init acts = some s) :
    (∃ gs : List (List (List UInt8)),
      s.handed = gs.map List.flatten ∧ gs.flatten.Sublist s.appended) ∧
    (Throughout step Sys.Roomy Sys.init acts →
      s.handed.flatten ++ s.swappedOut.flatten ++ s.queued.flatten ++
        s.proc.currentBuffer.content = s.appended.flatten) := by
  obtain ⟨-, hc⟩ := run_inv h
  constructor
  · rw [Sys.pipeline, List.append_assoc, List.append_assoc] at hc
    obtain ⟨gs, hg, hs⟩ := hc.take
    exact ⟨gs, hg.symm, hs⟩
  · intro hroom
    have he := (run_exact h hroom).holds
    simpa [Holds, Sys.pipeline] using he

/-- A stream of two segments and a record appended while the worker waits reach `proc`. -/
theorem async_proc_conserves_two_records :
    ∃ s, run step Sys.init [.start, .appendStream ⟨[[1], [2, 3]]⟩, .work, .work, .append [4],
        .work, .work, .work] = some s ∧
      (∃ gs : List (List (List UInt8)),
        s.handed = gs.map List.flatten ∧ gs.flatten.Sublist s.appended) ∧
      s.handed.flatten ++ s.swappedOut.flatten ++ s.queued.flatten ++
        s.proc.currentBuffer.content = [1, 2, 3, 4] := by
  have hroom : Throughout step Sys.Roomy Sys.init [.start, .appendStream ⟨[[1], [2, 3]]⟩, .work,
      .work, .append [4], .work, .work, .work] := by decide
  have h := async_proc_conserves_records [.start, .appendStream ⟨[[1], [2, 3]]⟩, .work, .work,
    .append [4], .work, .work, .work] rfl
  exact ⟨_, rfl, h.1, h.2 hroom⟩

end AlgorithmLib.AsyncTask
