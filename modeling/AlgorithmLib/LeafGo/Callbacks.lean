import AlgorithmLib.LeafGo.Order

set_option autoImplicit false

namespace AlgorithmLib.LeafGo

open Run

/-- The calls for which the moment has come. -/
def callsOf (m : GoMoment) (trace : List GoEvent) : List Call :=
  (trace.filter (fun e => e.moment = m)).map GoEvent.call

/-- The call that the goroutine has taken and whose callback it has not sent. -/
def GoPc.calls : GoPc → List Call
  | running call => [call]
  | sending call => [call]
  | linearRunning _ e => [e]
  | linearSending _ e => [e]
  | _ => []

def GoPc.ended : GoPc → List Call
  | sending call => [call]
  | linearSending _ e => [e]
  | _ => []

namespace GoSys

def held (s : GoSys) : List Call :=
  Shares.all (fun _ => GoPc.calls) s.goroutines ++
    (Shares.all (fun _ => LinearContext.linearGo) s.contexts ++ s.chanCb.map Prod.snd)

def ended (s : GoSys) : List Call :=
  Shares.all (fun _ => GoPc.ended) s.goroutines ++ s.chanCb.map Prod.snd

structure Kept (s : GoSys) (trace : List GoEvent) : Prop where
  asked : callsOf .asked trace = List.range s.made
  called : (callsOf .calledBack trace ++ s.held).Perm (List.range s.made)
  ended : (callsOf .calledBack trace ++ s.ended).Perm (callsOf .finished trace)
  returned : (callsOf .returned trace ++ s.callbacks.map Prod.snd).Perm (callsOf .calledBack trace)
  pending : s.pendingGo + (callsOf .returned trace).length = s.made

variable {s t : GoSys} {trace evs : List GoEvent} {j n : Nat} {c : LinearContext} {pc pc' : GoPc}
  {a : GoAct}

theorem callsOf_append (m : GoMoment) (trace evs : List GoEvent) :
    callsOf m (trace ++ evs) = callsOf m trace ++ callsOf m evs := by
  simp [callsOf]

structure Moved (s : GoSys) (evs : List GoEvent) (t : GoSys) : Prop where
  asked : List.range t.made = List.range s.made ++ callsOf .asked evs
  held : ∀ x, (callsOf .calledBack evs).count x + t.held.count x =
    s.held.count x + (callsOf .asked evs).count x
  ended : ∀ x, (callsOf .calledBack evs).count x + t.ended.count x =
    s.ended.count x + (callsOf .finished evs).count x
  returned : ∀ x, (callsOf .returned evs).count x + (t.callbacks.map Prod.snd).count x =
    (s.callbacks.map Prod.snd).count x + (callsOf .calledBack evs).count x
  pending : t.pendingGo + (callsOf .returned evs).length =
    s.pendingGo + (callsOf .asked evs).length

theorem Moved.kept (hm : s.Moved evs t) (h : s.Kept trace) : t.Kept (trace ++ evs) := by
  constructor
  · rw [callsOf_append, h.asked, hm.asked]
  · refine List.perm_iff_count.mpr fun x => ?_
    have hcalled := h.called.count_eq x
    have hheld := hm.held x
    simp only [callsOf_append, hm.asked, List.count_append] at hcalled ⊢
    omega
  · refine List.perm_iff_count.mpr fun x => ?_
    have hcalled := h.ended.count_eq x
    have hended := hm.ended x
    simp only [callsOf_append, List.count_append] at hcalled ⊢
    omega
  · refine List.perm_iff_count.mpr fun x => ?_
    have hcalled := h.returned.count_eq x
    have hreturned := hm.returned x
    simp only [callsOf_append, List.count_append] at hcalled ⊢
    omega
  · have hmade : t.made = s.made + (callsOf .asked evs).length := by
      simpa using congrArg List.length hm.asked
    have hpending := h.pending
    have hmoved := hm.pending
    rw [callsOf_append, List.length_append]
    omega

theorem held_goto (h : s.goroutines[n]? = some pc) (pc' : GoPc) (x : Call) :
    pc.calls.count x + (s.goto n pc').held.count x = pc'.calls.count x + s.held.count x := by
  have hset := (Shares.all_set (fun _ => GoPc.calls) h pc').count_eq x
  simp only [held, goto, List.count_append] at hset ⊢
  omega

theorem ended_goto (h : s.goroutines[n]? = some pc) (pc' : GoPc) (x : Call) :
    pc.ended.count x + (s.goto n pc').ended.count x = pc'.ended.count x + s.ended.count x := by
  have hset := (Shares.all_set (fun _ => GoPc.ended) h pc').count_eq x
  simp only [GoSys.ended, goto, List.count_append] at hset ⊢
  omega

theorem held_setContext (h : s.contexts[j]? = some c) (c' : LinearContext) (x : Call) :
    c.linearGo.count x + (s.setContext j c').held.count x =
      c'.linearGo.count x + s.held.count x := by
  have hset := (Shares.all_set (fun _ => LinearContext.linearGo) h c').count_eq x
  simp only [held, setContext, List.count_append] at hset ⊢
  omega

@[simp] theorem ended_setContext (s : GoSys) (j : Nat) (c : LinearContext) :
    (s.setContext j c).ended = s.ended := rfl

theorem held_setMutex (h : s.contexts[j]? = some c) (m : Option Nat) (x : Call) :
    (s.setContext j { c with mutexExecution := m }).held.count x = s.held.count x :=
  Nat.add_left_cancel (held_setContext h { c with mutexExecution := m } x)

@[simp] theorem callsOf_nil (m : GoMoment) : callsOf m [] = [] := rfl

@[simp] theorem callsOf_single (m m' : GoMoment) (ctx : Option Nat) (e : Call) :
    callsOf m [⟨m', ctx, e⟩] = if m' = m then [e] else [] := by
  by_cases h : m' = m <;> simp [callsOf, h]

theorem Moved.quiet (hmade : t.made = s.made) (hpending : t.pendingGo = s.pendingGo)
    (hcallbacks : t.callbacks = s.callbacks) (hheld : ∀ x, t.held.count x = s.held.count x)
    (hended : ∀ x, t.ended.count x = s.ended.count x) : s.Moved [] t := by
  constructor
  · simp [hmade]
  · simpa using hheld
  · simpa using hended
  · simp [hcallbacks]
  · simp [hpending]

theorem moved_ran (hs : goStep' s (.ran n) = some (t, evs)) : s.Moved evs t := by
  simp only [goStep'] at hs
  split at hs
  next call hn =>
    cases hs
    refine ⟨by simp [goto], fun x => ?_, fun x => ?_, fun x => by simp [goto], by simp [goto]⟩
    · have hheld := held_goto hn (.sending call) x
      simpa [GoPc.calls] using hheld
    · have hended := ended_goto hn (.sending call) x
      simp [GoPc.ended] at hended
      simp
      omega
  next k e hn =>
    cases hs
    refine ⟨by simp [goto], fun x => ?_, fun x => ?_, fun x => by simp [goto], by simp [goto]⟩
    · have hheld := held_goto hn (.linearSending k e) x
      simpa [GoPc.calls] using hheld
    · have hended := ended_goto hn (.linearSending k e) x
      simp [GoPc.ended] at hended
      simp
      omega
  next => cases hs

theorem held_callback {x : (Option Nat × Call) × GoPc} (hn : s.goroutines[n]? = some pc)
    (h : pc.callback = some x) (e : Call) :
    [x.1.2].count e + (s.goto n x.2).held.count e = s.held.count e := by
  have hheld := held_goto hn x.2 e
  rcases callback_cases h with ⟨call, rfl, rfl⟩ | ⟨k, e', rfl, rfl⟩ <;>
    simpa [GoPc.calls] using hheld

theorem ended_callback {x : (Option Nat × Call) × GoPc} (hn : s.goroutines[n]? = some pc)
    (h : pc.callback = some x) (e : Call) :
    [x.1.2].count e + (s.goto n x.2).ended.count e = s.ended.count e := by
  have hended := ended_goto hn x.2 e
  rcases callback_cases h with ⟨call, rfl, rfl⟩ | ⟨k, e', rfl, rfl⟩ <;>
    simpa [GoPc.ended] using hended

theorem moved_send (hs : goStep' s (.send n) = some (t, evs)) : s.Moved evs t := by
  simp only [goStep'] at hs
  split at hs
  next cb pc' hcb =>
    split at hs
    next =>
      cases hs
      obtain ⟨pc, hn, hpc⟩ := Option.bind_eq_some_iff.mp hcb
      refine Moved.quiet rfl rfl rfl (fun x => ?_) (fun x => ?_)
      · have hheld := held_callback hn hpc x
        simp only [held, goto, List.map_append, List.map_cons, List.map_nil, List.count_append]
          at hheld ⊢
        omega
      · have hended := ended_callback hn hpc x
        simp only [GoSys.ended, goto, List.map_append, List.map_cons, List.map_nil,
          List.count_append] at hended ⊢
        omega
    next => cases hs
  next => cases hs

theorem moved_handoff (hs : goStep' s (.handoff n) = some (t, evs)) : s.Moved evs t := by
  simp only [goStep'] at hs
  split at hs
  next cb pc' hcb =>
    split at hs
    next =>
      cases hs
      obtain ⟨pc, hn, hpc⟩ := Option.bind_eq_some_iff.mp hcb
      refine ⟨by simp [goto], fun x => ?_, fun x => ?_, fun x => ?_, by simp [goto]⟩
      · exact held_callback hn hpc x
      · exact ended_callback hn hpc x
      · simp [List.count_cons, List.count_nil, Nat.add_comm]
    next => cases hs
  next => cases hs

theorem moved_lock (hs : goStep' s (.lock n) = some (t, evs)) : s.Moved evs t := by
  simp only [goStep'] at hs
  split at hs
  next k hn =>
    split at hs
    next c hc =>
      split at hs
      next =>
        cases hs
        refine Moved.quiet rfl rfl rfl (fun x => ?_) (fun x => ?_)
        · have hheld := held_goto (s := s.setContext k { c with mutexExecution := some n }) hn
            (.locked k) x
          simpa [GoPc.calls, held_setMutex hc] using hheld
        · have hended := ended_goto (s := s.setContext k { c with mutexExecution := some n }) hn
            (.locked k) x
          simpa [GoPc.ended] using hended
      next => cases hs
    next => cases hs
  next => cases hs

theorem moved_remove (hs : goStep' s (.remove n) = some (t, evs)) : s.Moved evs t := by
  simp only [goStep'] at hs
  split at hs
  next k hn =>
    split at hs
    next c hc =>
      split at hs
      next e rest hrest =>
        cases hs
        refine ⟨by simp [goto, setContext], fun x => ?_, fun x => ?_,
          fun x => by simp [goto, setContext], by simp [goto, setContext]⟩
        · have hcontext := held_setContext hc { c with linearGo := rest } x
          have hheld := held_goto (s := s.setContext k { c with linearGo := rest }) hn
            (.linearRunning k e) x
          simp only [GoPc.calls, hrest, List.count_cons, List.count_nil] at hheld hcontext
          simp
          omega
        · have hended := ended_goto (s := s.setContext k { c with linearGo := rest }) hn
            (.linearRunning k e) x
          simpa [GoPc.ended] using hended
      next => cases hs
    next => cases hs
  next => cases hs

theorem moved_unlock (hs : goStep' s (.unlock n) = some (t, evs)) : s.Moved evs t := by
  simp only [goStep'] at hs
  split at hs
  next k hn =>
    obtain ⟨c, hc, hx⟩ := Option.map_eq_some_iff.mp hs
    cases hx
    refine Moved.quiet rfl rfl rfl (fun x => ?_) (fun x => ?_)
    · have hheld := held_goto (s := s.setContext k { c with mutexExecution := none }) hn .done x
      simpa [GoPc.calls, held_setMutex hc] using hheld
    · have hended := ended_goto (s := s.setContext k { c with mutexExecution := none }) hn .done x
      simpa [GoPc.ended] using hended
  next => cases hs

theorem step_moved (hs : goStep' s a = some (t, evs)) : s.Moved evs t := by
  cases a with
  | newLinearContext =>
    cases hs
    exact Moved.quiet rfl rfl rfl (fun x => by simp [held, LinearContext.new])
      (fun x => by simp [GoSys.ended])
  | go =>
    simp only [goStep'] at hs
    split at hs
    next =>
      cases hs
      constructor
      · simp [callsOf, List.range_succ]
      · intro x
        simp only [callsOf, held, GoPc.calls, Shares.all_concat, List.count_append]
        simp
        omega
      · intro x
        simp [callsOf, GoSys.ended, GoPc.ended]
      · simp [callsOf]
      · simp [callsOf]
    next => cases hs
  | linearGo k =>
    simp only [goStep'] at hs
    split at hs
    next =>
      obtain ⟨c, hc, hx⟩ := Option.map_eq_some_iff.mp hs
      cases hx
      constructor
      · simp [List.range_succ]
      · intro x
        have hcontext := held_setContext hc { c with linearGo := c.linearGo ++ [s.made] } x
        simp only [held, setContext, List.count_append] at hcontext ⊢
        simp
        omega
      · intro x
        simp [GoSys.ended, setContext]
      · simp [setContext]
      · simp
    next => cases hs
  | spawn =>
    obtain ⟨k, hk, hx⟩ := Option.map_eq_some_iff.mp hs
    cases hx
    exact Moved.quiet rfl rfl rfl (fun x => by simp [held, GoPc.calls])
      (fun x => by simp [GoSys.ended, GoPc.ended])
  | ran n => exact moved_ran hs
  | send n => exact moved_send hs
  | handoff n => exact moved_handoff hs
  | lock n => exact moved_lock hs
  | remove n => exact moved_remove hs
  | unlock n => exact moved_unlock hs
  | cb =>
    simp only [goStep'] at hs
    split at hs
    next cb rest hcb =>
      split at hs
      next =>
        cases hs
        constructor
        · simp
        · intro x
          simp only [held, hcb, List.map_cons, List.count_append, List.count_cons]
          simp [List.count_cons]
          omega
        · intro x
          simp only [GoSys.ended, hcb, List.map_cons, List.count_append, List.count_cons]
          simp [List.count_cons]
          omega
        · intro x
          simp [List.count_cons, Nat.add_comm]
        · simp
      next => cases hs
    next => cases hs
  | cbReturn =>
    simp only [goStep'] at hs
    split at hs
    next cb rest hcb =>
      split at hs
      next =>
        cases hs
        constructor
        · simp
        · intro x
          simp [held]
        · intro x
          simp [GoSys.ended]
        · intro x
          simp [hcb, List.count_cons, Nat.add_comm]
        · simp
      next => cases hs
    next => cases hs

theorem new_kept (len : Nat) : (new len).Kept [] :=
  ⟨rfl, List.Perm.refl _, List.Perm.refl _, List.Perm.refl _, rfl⟩

theorem run_kept {len : Nat} {as : List GoAct} (h : run goStep (new len) as = some s) :
    s.Kept (collect goStep goEvents (new len) as) := by
  have hinv : s.Kept ([] ++ collect goStep goEvents (new len) as) :=
    collect_invariant (p := fun s trace => s.Kept trace)
      (fun _ _ _ _ hk _ hs => (step_moved (goStep_eq_some hs)).kept hk) (new_kept len)
      (meets_true _ _) h
  exact hinv

theorem Kept.perm_range (h : s.Kept trace) :
    (callsOf .returned trace ++ (s.callbacks.map Prod.snd ++ s.held)).Perm (List.range s.made) := by
  rw [← List.append_assoc]
  exact (h.returned.append_right s.held).trans h.called

theorem Kept.pendingGo_eq (h : s.Kept trace) :
    s.pendingGo = (s.callbacks.map Prod.snd ++ s.held).length := by
  have hlength := h.perm_range.length_eq
  have hpending := h.pending
  rw [List.length_append, List.length_range] at hlength
  omega

end GoSys

variable {len : Nat} {as : List GoAct} {s : GoSys}

/-- In every run the callback of a call begins once at most, after the function of the call has
ended, and returns once at most. -/
theorem callbacks_come_once (h : run goStep (GoSys.new len) as = some s) :
    let trace := collect goStep goEvents (GoSys.new len) as
    (callsOf .calledBack trace).Nodup ∧
    callsOf .calledBack trace ⊆ callsOf .asked trace ∧
    callsOf .calledBack trace ⊆ callsOf .finished trace ∧
    (callsOf .returned trace).Nodup ∧
    callsOf .returned trace ⊆ callsOf .calledBack trace := by
  have hk := GoSys.run_kept h
  have hcalled := hk.called.nodup_iff.mpr List.nodup_range
  have hnodup := (List.nodup_append.mp hcalled).1
  have hreturned := hk.returned.nodup_iff.mpr hnodup
  refine ⟨hnodup, fun call hcall => ?_, fun call hcall => ?_, (List.nodup_append.mp hreturned).1,
    fun call hcall => ?_⟩
  · rw [hk.asked]
    exact hk.called.subset (List.mem_append_left _ hcall)
  · exact hk.ended.subset (List.mem_append_left _ hcall)
  · exact hk.returned.subset (List.mem_append_left _ hcall)

/-- `Idle` tells whether the callback of every call has returned; the counter is never negative. -/
theorem idle_iff_returned (h : run goStep (GoSys.new len) as = some s) :
    let trace := collect goStep goEvents (GoSys.new len) as
    0 ≤ s.pendingGo ∧
      (s.pendingGo = 0 ↔ ∀ call ∈ callsOf .asked trace, call ∈ callsOf .returned trace) := by
  intro trace
  have hk : s.Kept trace := GoSys.run_kept h
  have hperm := hk.perm_range
  rw [hk.asked, hk.pendingGo_eq, Int.natCast_eq_zero, List.length_eq_zero_iff]
  refine ⟨Int.natCast_nonneg _, ?_⟩
  constructor
  · intro hnil call hcall
    rw [hnil, List.append_nil] at hperm
    exact hperm.mem_iff.mpr hcall
  · intro hall
    have hnodup := hperm.nodup_iff.mpr List.nodup_range
    refine List.eq_nil_iff_forall_not_mem.mpr fun call hcall => ?_
    have hrange := hperm.subset (List.mem_append_right _ hcall)
    exact (List.nodup_append.mp hnodup).2.2 call (hall call hrange) call hcall rfl

/-- A callback that has not returned. -/
theorem callbacks_come_once_nested :
    ∃ s, run goStep (GoSys.new 0) [.go, .ran 0, .handoff 0, .go] = some s ∧
    (callsOf .calledBack
      (collect goStep goEvents (GoSys.new 0) [.go, .ran 0, .handoff 0, .go])).Nodup :=
  ⟨_, rfl, (callbacks_come_once rfl).1⟩

theorem idle_iff_returned_nested :
    ∃ s, run goStep (GoSys.new 0) [.go, .ran 0, .handoff 0, .go] = some s ∧ 0 ≤ s.pendingGo ∧
      (s.pendingGo = 0 ↔
      ∀ call ∈ callsOf .asked
        (collect goStep goEvents (GoSys.new 0) [.go, .ran 0, .handoff 0, .go]),
      call ∈ callsOf .returned
        (collect goStep goEvents (GoSys.new 0) [.go, .ran 0, .handoff 0, .go])) :=
  ⟨_, rfl, idle_iff_returned rfl⟩

end AlgorithmLib.LeafGo
