import AlgorithmLib.AsyncTask.Conservation

/-!
`async_proc_stop` clears `running_` and joins the worker. The worker tests `running_` only
before a swap, so what lies in the queue and in the current buffer is still handed over
exactly when the call finds the worker between that test and its swap.
-/

set_option autoImplicit false

namespace AlgorithmLib.AsyncTask

open Pipeline Run

namespace Sys

/-- The worker has tested `running_` and has not swapped the buffers yet. -/
def BeforeSwap (s : Sys) : Prop := s.thread.phase = .locking ∨ s.thread.phase = .waiting

/-- The states in which `async_proc_stop` may be called without losing a record. -/
def StopSafe (s : Sys) : Prop :=
  s.BeforeSwap ∨ (s.queued.flatten = [] ∧ s.proc.currentBuffer.content = [])

def out (s : Sys) : List UInt8 := s.handed.flatten ++ s.swappedOut.flatten

variable {s s' : Sys} {q w : List FlexBuffer}

theorem Exact.out (h : s.Exact) :
    s.out ++ (s.queued.flatten ++ s.proc.currentBuffer.content) = s.appended.flatten := by
  have hh := h.holds
  simpa [Holds, pipeline, Sys.out] using hh

/-- Steps that leave the shared buffers and the record of appends alone leave `out` alone. -/
theorem out_eq_of_proc_eq (h : s.Exact) (h' : s'.Exact) (hb : s'.proc.buffers = s.proc.buffers)
    (hc : s'.proc.currentBuffer = s.proc.currentBuffer) (ha : s'.appended = s.appended) :
    s'.out = s.out := by
  have hq : s'.queued = s.queued := by simp only [queued, hb]
  have e := h.out
  have e' := h'.out
  rw [hq, hc, ha, ← e] at e'
  exact List.append_cancel_right e'

/-- A step in which the worker does not touch the shared structure; with `running_` cleared
it does not lead to a swap. -/
structure Aside (s s' : Sys) : Prop where
  proc : s'.proc = s.proc
  appended : s'.appended = s.appended
  stopping : s'.stopping = s.stopping
  started : s'.thread.phase ≠ .idle
  away : s.proc.running = false → ¬ s'.BeforeSwap

theorem work_of_not_beforeSwap (hs : s.work = some s') (hb : ¬ s.BeforeSwap) : s.Aside s' := by
  unfold work at hs
  split at hs
  case h_1 => cases hs
  case h_2 =>
    split at hs
    · rename_i hrun
      cases hs
      exact ⟨rfl, rfl, rfl, by simp, fun hf => absurd hrun (by simp [hf])⟩
    · cases hs
      exact ⟨rfl, rfl, rfl, by simp, fun _ => by simp [BeforeSwap]⟩
  case h_3 hp => exact absurd (Or.inl hp) hb
  case h_4 hp => exact absurd (Or.inr hp) hb
  case h_5 =>
    cases hs
    exact ⟨rfl, rfl, rfl, by simp, fun _ => by simp [BeforeSwap]⟩
  case h_6 i _ =>
    split at hs
    · obtain ⟨cur, -, rfl⟩ := Option.map_eq_some_iff.mp hs
      exact ⟨rfl, rfl, rfl, by simp, fun _ => by simp [BeforeSwap]⟩
    · simp only [recycle, Option.bind_eq_bind, Option.bind_eq_some_iff] at hs
      obtain ⟨⟨n₁, t₁⟩, -, ⟨n₂, t₂⟩, -, hs⟩ := hs
      cases hs
      exact ⟨rfl, rfl, rfl, by simp, fun _ => by simp [BeforeSwap]⟩
  case h_7 => cases hs

theorem work_of_beforeSwap (hs : s.work = some s') (hb : s.BeforeSwap) :
    s' = { s with thread := { s.thread with phase := .waiting } } ∨ s' = s.swap := by
  unfold work at hs
  rcases hb with hp | hp <;> simp only [hp] at hs
  · split at hs <;> cases hs
    · exact Or.inl rfl
    · exact Or.inr rfl
  · cases hs
    exact Or.inr rfl

theorem swap_out (h : s.Inv q w) (hb : s.BeforeSwap) (he : s.swap.Exact) :
    s.swap.out = s.appended.flatten := by
  have hp := h.local_.phase
  have hw : w = [] ∧ s.thread.newBuffer1.flexBufferUsable ∧ s.thread.newBuffer2.flexBufferUsable := by
    rcases hb with hb | hb <;> (rw [hb] at hp; exact hp)
  have hun : unsent s.thread.phase w = [] := by
    rcases hb with hb | hb <;> (rw [hb]; rfl)
  obtain ⟨w', hinv, -⟩ := swap_inv h hw hun
  have hcur : s.swap.proc.currentBuffer.content = [] := h.local_.new1.empty
  have ho := he.out
  rw [hinv.queued, hcur, List.map_nil, List.flatten_nil, List.nil_append, List.append_nil] at ho
  exact ho

theorem swap_not_beforeSwap : ¬ s.swap.BeforeSwap := by simp [BeforeSwap, swap]

end Sys

/-- How the steps behind the call of `async_proc_stop` treat what has left the buffers: it
grows only when the worker swaps, which it can do only from before a swap. -/
structure Closing (s s' : Sys) : Prop where
  running : s'.proc.running = false
  started : s'.thread.phase ≠ .idle
  appended : s.appended.flatten <+: s'.appended.flatten
  before : s.BeforeSwap → s'.BeforeSwap ∨ (¬ s'.BeforeSwap ∧ s'.out = s.appended.flatten)
  after : ¬ s.BeforeSwap → ¬ s'.BeforeSwap ∧ s'.out = s.out

theorem closing_of_thread_eq {s s' : Sys} (hr : s'.proc.running = false)
    (hidle : s.thread.phase ≠ .idle) (hd : s'.thread = s.thread) (hh : s'.handed = s.handed)
    (ha : s.appended.flatten <+: s'.appended.flatten) : Closing s s' := by
  have hout : s'.out = s.out := by simp only [Sys.out, Sys.swappedOut, hd, hh]
  refine ⟨hr, by rw [hd]; exact hidle, ha, fun hb => Or.inl ?_, fun hb => ⟨?_, hout⟩⟩
  · simpa only [Sys.BeforeSwap, hd] using hb
  · simpa only [Sys.BeforeSwap, hd] using hb

theorem rotate_running (addr : Nat) (p : AsyncProc) : (p.rotate addr).running = p.running := by
  unfold AsyncProc.rotate
  split
  · simp only [FlexBuffer.flexBufferMove]
    split <;> rfl
  · rfl

theorem step_closing {s s' : Sys} {a : Act} {q w : List FlexBuffer} (h : s.Inv q w)
    (he : s.Exact) (he' : s'.Exact) (hrun : s.proc.running = false)
    (hidle : s.thread.phase ≠ .idle) (hs : step s a = some s') : Closing s s' := by
  cases a with
  | appendStream stream =>
    cases hs
    exact closing_of_thread_eq ((rotate_running _ _).trans hrun) hidle rfl rfl
      (by simp [Sys.appendStream])
  | append data =>
    cases hs
    exact closing_of_thread_eq ((rotate_running _ _).trans hrun) hidle rfl rfl
      (by simp [Sys.append])
  | start =>
    simp only [step, if_neg hidle] at hs
    cases hs
  | stop =>
    simp only [step] at hs
    split at hs
    · cases hs
      exact closing_of_thread_eq rfl hidle rfl rfl (List.prefix_refl _)
    · cases hs
  | join =>
    simp only [step] at hs
    split at hs
    · cases hs
      exact closing_of_thread_eq hrun hidle rfl rfl (List.prefix_refl _)
    · cases hs
  | work =>
    by_cases hb : s.BeforeSwap
    · rcases Sys.work_of_beforeSwap hs hb with rfl | rfl
      · exact ⟨hrun, by simp, List.prefix_refl _, fun _ => Or.inl (Or.inr rfl),
          fun hn => absurd hb hn⟩
      · exact ⟨hrun, by simp [Sys.swap], List.prefix_refl _,
          fun _ => Or.inr ⟨Sys.swap_not_beforeSwap, Sys.swap_out h hb he'⟩,
          fun hn => absurd hb hn⟩
    · have ha := Sys.work_of_not_beforeSwap hs hb
      refine ⟨by rw [ha.proc]; exact hrun, ha.started, by simp only [ha.appended, List.prefix_refl],
        fun hb' => absurd hb' hb, fun _ => ⟨ha.away hrun, ?_⟩⟩
      exact Sys.out_eq_of_proc_eq he he' (by rw [ha.proc]) (by rw [ha.proc]) ha.appended

/-- The invariant behind the call of `async_proc_stop`, taken in state `s₁`. -/
structure Stopped (s₁ s : Sys) : Prop where
  inv : ∃ q w, s.Inv q w
  exact_ : s.Exact
  running : s.proc.running = false
  started : s.thread.phase ≠ .idle
  appended : s₁.appended.flatten <+: s.appended.flatten
  before : s₁.BeforeSwap →
    s.BeforeSwap ∨ (¬ s.BeforeSwap ∧ s₁.appended.flatten <+: s.out)
  after : ¬ s₁.BeforeSwap → ¬ s.BeforeSwap ∧ s.out = s₁.out

theorem Stopped.step {s₁ s s' : Sys} {a : Act} (h : Stopped s₁ s) (hr : s.Roomy)
    (hs : step s a = some s') : Stopped s₁ s' := by
  obtain ⟨q, w, hi⟩ := h.inv
  obtain ⟨q', w', hk⟩ := step_kept hi hs
  have he' := hk.exact_ hr h.exact_
  have hc := step_closing hi h.exact_ he' h.running h.started hs
  refine ⟨⟨q', w', hk.inv⟩, he', hc.running, hc.started, h.appended.trans hc.appended, ?_, ?_⟩
  · intro hb₁
    rcases h.before hb₁ with hb | ⟨hb, ho⟩
    · rcases hc.before hb with hb' | ⟨hb', ho'⟩
      · exact Or.inl hb'
      · exact Or.inr ⟨hb', by rw [ho']; exact h.appended⟩
    · obtain ⟨hb', ho'⟩ := hc.after hb
      exact Or.inr ⟨hb', by rw [ho']; exact ho⟩
  · intro hb₁
    obtain ⟨hb, ho⟩ := h.after hb₁
    obtain ⟨hb', ho'⟩ := hc.after hb
    exact ⟨hb', ho'.trans ho⟩

/-- The call of `async_proc_stop` returns only behind the worker's exit, and then nothing
that was swapped out is left to hand over. -/
theorem out_of_returned {acts : List Act} {s : Sys} (h : run step Sys.init acts = some s)
    (hret : s.stopping = .returned) : s.thread.phase = .exited ∧ s.out = s.handed.flatten := by
  have hexit : s.stopping = .returned → s.thread.phase = .exited := by
    refine run_invariant (p := fun s : Sys => s.stopping = .returned → s.thread.phase = .exited)
      ?_ (by simp [Sys.init]) h
    intro s a t hp ht
    cases a with
    | appendStream stream => cases ht; exact hp
    | append data => cases ht; exact hp
    | start =>
      simp only [step] at ht
      split at ht
      · rename_i hidle
        cases ht
        intro hr
        exact absurd (hp hr) (by rw [hidle]; decide)
      · cases ht
    | stop =>
      simp only [step] at ht
      split at ht
      · cases ht
        intro hr
        cases hr
      · cases ht
    | join =>
      simp only [step] at ht
      split at ht
      · rename_i hj
        cases ht
        exact fun _ => hj.2
      · cases ht
    | work =>
      intro hr
      have hst : t.stopping = s.stopping := by
        by_cases hb : s.BeforeSwap
        · rcases Sys.work_of_beforeSwap ht hb with rfl | rfl <;> rfl
        · exact (Sys.work_of_not_beforeSwap ht hb).stopping
      have hph := hp (by rw [← hst, hr])
      simp [step, Sys.work, hph] at ht
  have hph := hexit hret
  refine ⟨hph, ?_⟩
  simp [Sys.out, Sys.swappedOut, hph]

/-- A record appended before the call of `async_proc_stop`, while the worker was handing over
earlier ones, is never handed over: behind the loop over its buffers the worker finds
`running_` cleared and leaves. -/
theorem async_proc_stop_loses_record :
    ∃ s₁ s₂, run step Sys.init [.start, .work, .work, .append [1], .work, .append [7]] = some s₁ ∧
      run step s₁ [.stop, .work, .work, .work, .work, .join] = some s₂ ∧
      Throughout step Sys.Roomy Sys.init [.start, .work, .work, .append [1], .work, .append [7],
        .stop, .work, .work, .work, .work, .join] ∧
      s₂.stopping = .returned ∧ s₁.appended = [[1], [7]] ∧ s₂.handed = [[1]] ∧
      ¬ s₁.appended.flatten <+: s₂.handed.flatten := by
  refine ⟨_, _, rfl, rfl, by decide, rfl, rfl, ?_, ?_⟩
  · rfl
  · decide

/-- In a run in which `buffers_` has room throughout and in which the call of
`async_proc_stop` has returned, everything appended before the call has been handed over
if and only if the call was made in a safe state. -/
theorem async_proc_stop_flushes_iff (before after : List Act) {s₁ s₂ : Sys}
    (h₁ : run step Sys.init before = some s₁) (h₂ : run step s₁ (.stop :: after) = some s₂)
    (hroom : Throughout step Sys.Roomy Sys.init (before ++ .stop :: after))
    (hret : s₂.stopping = .returned) :
    s₁.appended.flatten <+: s₂.handed.flatten ↔ s₁.StopSafe := by
  obtain ⟨hroom₁, hroom₂⟩ := (throughout_append h₁).mp hroom
  have he₁ := run_exact h₁ hroom₁
  obtain ⟨⟨q, w, hi₁⟩, -⟩ := run_inv h₁
  obtain ⟨m, hm, hrest⟩ := run_cons.mp h₂
  -- the state behind the call
  have hstop := hm
  simp only [step] at hstop
  split at hstop
  case isFalse => cases hstop
  case isTrue hcall =>
    cases hstop
    obtain ⟨q', w', hk⟩ := step_kept hi₁ hm
    have hm₀ : Stopped s₁ s₁.stop :=
      ⟨⟨q', w', hk.inv⟩, hk.exact_ hroom₂.head he₁, rfl, hcall.1, List.prefix_refl _,
        fun hb => Or.inl hb, fun hb => ⟨hb, rfl⟩⟩
    have hfin : Stopped s₁ s₂ :=
      run_invariant_of_throughout (fun _ _ _ hp hr _ ht => hp.step hr ht) hm₀
        (hroom₂.tail hm) hrest
    have hrun : run step Sys.init (before ++ .stop :: after) = some s₂ :=
      run_append.mpr ⟨s₁, h₁, h₂⟩
    obtain ⟨hexit, hout⟩ := out_of_returned hrun hret
    have hgone : ¬ s₂.BeforeSwap := by simp [Sys.BeforeSwap, hexit]
    have hsplit := he₁.out
    rw [← hout]
    constructor
    · intro hpre
      by_cases hb : s₁.BeforeSwap
      · exact Or.inl hb
      · rw [(hfin.after hb).2] at hpre
        have hlen := hpre.length_le
        rw [← hsplit, List.length_append] at hlen
        have hnil : s₁.queued.flatten ++ s₁.proc.currentBuffer.content = [] :=
          List.eq_nil_of_length_eq_zero (by omega)
        exact Or.inr (List.append_eq_nil_iff.mp hnil)
    · intro hsafe
      by_cases hb : s₁.BeforeSwap
      · exact ((hfin.before hb).resolve_left hgone).2
      · obtain ⟨hq, hc⟩ := hsafe.resolve_left hb
        simp only [(hfin.after hb).2, ← hsplit, hq, hc, List.append_nil, List.prefix_refl]

/-- Called while the worker waits, `async_proc_stop` loses nothing. -/
theorem async_proc_stop_flushes_waiting :
    ∃ s₁ s₂, run step Sys.init [.start, .work, .work, .append [7]] = some s₁ ∧
      run step s₁ [.stop, .work, .work, .work, .work, .work, .join] = some s₂ ∧
      s₁.appended.flatten <+: s₂.handed.flatten := by
  have hroom : Throughout step Sys.Roomy Sys.init [.start, .work, .work, .append [7], .stop,
      .work, .work, .work, .work, .work, .join] := by decide
  have h := async_proc_stop_flushes_iff [.start, .work, .work, .append [7]]
    [.work, .work, .work, .work, .work, .join] rfl rfl hroom rfl
  exact ⟨_, _, rfl, rfl, h.mpr (Or.inl (Or.inr rfl))⟩

end AlgorithmLib.AsyncTask
