import AlgorithmLib.LeafGo.Callbacks

/-!
`Close` gets through: as long as a callback is due somebody can go on, whatever the goroutines wait
for, and when nobody makes calls any more there are only so many steps. Called inside a callback it
never does, as the callback counts until it has returned.
-/

set_option autoImplicit false

namespace AlgorithmLib.LeafGo

open Run

/-- How many steps the goroutine and its callback have yet to take. -/
def GoPc.weight : GoPc → Nat
  | running _ => 4
  | sending _ => 3
  | starting _ => 7
  | locked _ => 6
  | linearRunning _ _ => 5
  | linearSending _ _ => 4
  | unlocking _ => 1
  | done => 0

def GoAct.Asks : GoAct → Bool
  | newLinearContext => true
  | go => true
  | linearGo _ => true
  | _ => false

/-- What is possible while `Close`, called inside this many callbacks, has not returned. These
callbacks wait for it. Its loop takes a callback only if `pendingGo > 0`; a callback that it executes
may call `Cb` as well. Nobody calls `Go` any more. -/
def GoSys.closeAllows (outer : Nat) (s : GoSys) : GoAct → Bool
  | .cbReturn => outer < s.callbacks.length
  | .cb => s.callbacks.length = outer → 0 < s.pendingGo
  | .handoff _ => s.callbacks.length = outer → 0 < s.pendingGo
  | a => !a.Asks

def closeStep (outer : Nat) (s : GoSys) (a : GoAct) : Option GoSys :=
  if s.closeAllows outer a = true then goStep s a else none

/-- The loop of `Close` ends. -/
def GoSys.CloseReturns (outer : Nat) (s : GoSys) : Prop :=
  s.callbacks.length = outer ∧ ¬ 0 < s.pendingGo

theorem closeStep_eq_some {outer : Nat} {s t : GoSys} {a : GoAct}
    (h : closeStep outer s a = some t) :
    goStep s a = some t ∧ a.Asks = false ∧ (a = .cbReturn → outer < s.callbacks.length) := by
  obtain ⟨hallows, hgo⟩ := Option.ite_none_right_eq_some.mp h
  refine ⟨hgo, ?_, fun ha => ?_⟩
  · cases a with
    | cbReturn => rfl
    | cb => rfl
    | handoff n => rfl
    | _ => simpa [GoSys.closeAllows] using hallows
  · subst ha
    simpa [GoSys.closeAllows] using hallows

theorem run_of_closeStep {outer : Nat} {s t : GoSys} {bs : List GoAct}
    (h : run (closeStep outer) s bs = some t) :
    run goStep s bs = some t ∧ ∀ b ∈ bs, b.Asks = false := by
  induction bs generalizing s with
  | nil => exact ⟨h, by simp⟩
  | cons b bs ih =>
    obtain ⟨u, hu, ht⟩ := run_cons.mp h
    obtain ⟨hgo, hasks, -⟩ := closeStep_eq_some hu
    obtain ⟨hrun, hall⟩ := ih ht
    exact ⟨run_cons.mpr ⟨u, hgo, hrun⟩, List.forall_mem_cons.mpr ⟨hasks, hall⟩⟩

namespace GoSys

variable {s t : GoSys} {trace evs : List GoEvent} {j n : Nat} {pc : GoPc} {a : GoAct}

/-- How many steps there are until all is quiet, if nobody calls `Go` any more. -/
def weight (s : GoSys) : Nat :=
  (Shares.all (fun _ (pc : GoPc) => List.replicate pc.weight ()) s.goroutines).length +
    (2 * s.chanCb.length + s.callbacks.length + s.spawning.elim 0 fun _ => 8)

theorem weight_goto (h : s.goroutines[n]? = some pc) (pc' : GoPc) :
    pc.weight + (s.goto n pc').weight = pc'.weight + s.weight := by
  have hset := (Shares.all_set (fun _ (pc : GoPc) => List.replicate pc.weight ()) h pc').length_eq
  simp only [List.length_append, List.length_replicate] at hset
  simp only [weight, goto]
  omega

theorem callback_weight {x : (Option Nat × Call) × GoPc} (h : pc.callback = some x) :
    x.2.weight + 3 ≤ pc.weight := by
  rcases callback_cases h with ⟨call, rfl, rfl⟩ | ⟨j, e, rfl, rfl⟩ <;> simp [GoPc.weight]

@[simp] theorem weight_setContext (s : GoSys) (j : Nat) (c : LinearContext) :
    (s.setContext j c).weight = s.weight := rfl

theorem step_weight (ha : a.Asks = false) (hs : goStep' s a = some (t, evs)) :
    1 + t.weight ≤ s.weight := by
  cases a with
  | newLinearContext => cases ha
  | go => cases ha
  | linearGo k => cases ha
  | spawn =>
    obtain ⟨k, hk, hx⟩ := Option.map_eq_some_iff.mp hs
    cases hx
    have hweight : (GoPc.starting k).weight = 7 := rfl
    simp [weight, hk, hweight]
    omega
  | ran n =>
    simp only [goStep'] at hs
    split at hs
    next call hn =>
      cases hs
      have hgoto := weight_goto hn (.sending call)
      simp only [GoPc.weight] at hgoto
      omega
    next k e hn =>
      cases hs
      have hgoto := weight_goto hn (.linearSending k e)
      simp only [GoPc.weight] at hgoto
      omega
    next => cases hs
  | send n =>
    simp only [goStep'] at hs
    split at hs
    next cb pc' hcb =>
      split at hs
      next =>
        cases hs
        obtain ⟨pc, hn, hpc⟩ := Option.bind_eq_some_iff.mp hcb
        have hgoto := weight_goto hn pc'
        have hcallback : pc'.weight + 3 ≤ pc.weight := callback_weight hpc
        simp only [weight, goto, List.length_append, List.length_singleton] at hgoto ⊢
        omega
      next => cases hs
    next => cases hs
  | handoff n =>
    simp only [goStep'] at hs
    split at hs
    next cb pc' hcb =>
      split at hs
      next =>
        cases hs
        obtain ⟨pc, hn, hpc⟩ := Option.bind_eq_some_iff.mp hcb
        have hgoto := weight_goto hn pc'
        have hcallback : pc'.weight + 3 ≤ pc.weight := callback_weight hpc
        simp only [weight, goto, List.length_cons] at hgoto ⊢
        omega
      next => cases hs
    next => cases hs
  | lock n =>
    simp only [goStep'] at hs
    split at hs
    next k hn =>
      split at hs
      next c hc =>
        split at hs
        next =>
          cases hs
          have hgoto := weight_goto (s := s.setContext k { c with mutexExecution := some n }) hn
            (.locked k)
          simp only [GoPc.weight, weight_setContext] at hgoto
          omega
        next => cases hs
      next => cases hs
    next => cases hs
  | remove n =>
    simp only [goStep'] at hs
    split at hs
    next k hn =>
      split at hs
      next c hc =>
        split at hs
        next e rest hrest =>
          cases hs
          have hgoto := weight_goto (s := s.setContext k { c with linearGo := rest }) hn
            (.linearRunning k e)
          simp only [GoPc.weight, weight_setContext] at hgoto
          omega
        next => cases hs
      next => cases hs
    next => cases hs
  | unlock n =>
    simp only [goStep'] at hs
    split at hs
    next k hn =>
      obtain ⟨c, hc, hx⟩ := Option.map_eq_some_iff.mp hs
      cases hx
      have hgoto := weight_goto (s := s.setContext k { c with mutexExecution := none }) hn .done
      simp only [GoPc.weight, weight_setContext] at hgoto
      omega
    next => cases hs
  | cb =>
    simp only [goStep'] at hs
    split at hs
    next cb rest hcb =>
      split at hs
      next =>
        cases hs
        simp only [weight, hcb, List.length_cons]
        omega
      next => cases hs
    next => cases hs
  | cbReturn =>
    simp only [goStep'] at hs
    split at hs
    next cb rest hcb =>
      split at hs
      next =>
        cases hs
        simp only [weight, hcb, List.length_cons]
        omega
      next => cases hs
    next => cases hs

/-- `Remove` finds a call: the goroutine is one of those that the context has calls for. -/
theorem LinearOk.linearGo_of_locked (hok : s.LinearOk trace j (s.context j))
    (hn : s.goroutines[n]? = some (.locked j)) :
    ∃ e rest, (s.context j).linearGo = e :: rest := by
  have hwaits : 0 < s.goroutines.countP (GoPc.Waits j) :=
    List.countP_pos_iff.mpr ⟨_, List.mem_of_getElem? hn, by simp [GoPc.Waits]⟩
  have htakes := hok.takes
  rw [GoSys.takes] at htakes
  cases hl : (s.context j).linearGo with
  | nil =>
    rw [hl, List.length_nil] at htakes
    omega
  | cons e rest => exact ⟨e, rest, rfl⟩

theorem enabled_of_holds (hok : s.LinearOk trace j (s.context j))
    (hn : s.goroutines[n]? = some pc) (hchan : s.chanCb = []) (hspawning : s.spawning = none)
    (hpc : pc.Holds j = true) : ∃ a, a.Asks = false ∧ (goStep s a).isSome = true := by
  have hmutex : (s.context j).mutexExecution = some n := by
    rw [hok.mutex, pcOf_of_get hn]
    exact hpc
  obtain ⟨c, hc⟩ : ∃ c, s.contexts[j]? = some c := by
    cases hc : s.contexts[j]? with
    | none => simp [context, hc, LinearContext.new] at hmutex
    | some c => exact ⟨c, rfl⟩
  cases pc with
  | locked k =>
    obtain rfl : k = j := by simpa [GoPc.Holds] using hpc
    obtain ⟨e, rest, hl⟩ := hok.linearGo_of_locked hn
    rw [context_of_get hc] at hl
    exact ⟨.remove n, rfl, by simp [goStep, goStep', hn, hc, hl]⟩
  | linearRunning k e => exact ⟨.ran n, rfl, by simp [goStep, goStep', hn]⟩
  | linearSending k e =>
    exact ⟨.handoff n, rfl, by simp [goStep, goStep', hn, GoPc.callback, hchan, hspawning]⟩
  | unlocking k =>
    obtain rfl : k = j := by simpa [GoPc.Holds] using hpc
    exact ⟨.unlock n, rfl, by simp [goStep, goStep', hn, hc]⟩
  | _ => cases hpc

theorem enabled_of_linearGo {c : LinearContext} (hok : s.LinearOk trace j (s.context j))
    (hc : s.contexts[j]? = some c) (hchan : s.chanCb = []) (hspawning : s.spawning = none)
    (hpos : 0 < c.linearGo.length) : ∃ a, a.Asks = false ∧ (goStep s a).isSome = true := by
  have htakes := hok.takes
  rw [context_of_get hc, GoSys.takes, hspawning] at htakes
  have hwaits : 0 < s.goroutines.countP (GoPc.Waits j) := by
    simp only [reduceCtorEq, if_false, Nat.add_zero] at htakes
    omega
  obtain ⟨pc, hmem, hpc⟩ := List.countP_pos_iff.mp hwaits
  obtain ⟨n, hn⟩ := List.mem_iff_getElem?.mp hmem
  cases hmutex : c.mutexExecution with
  | some m =>
    have hholds := (hok.mutex m).mp (by rw [context_of_get hc]; exact hmutex)
    cases hm : s.goroutines[m]? with
    | none => simp [pcOf, hm, GoPc.Holds] at hholds
    | some pc' =>
      rw [pcOf_of_get hm] at hholds
      exact enabled_of_holds hok hm hchan hspawning hholds
  | none =>
    cases pc with
    | starting k =>
      obtain rfl : k = j := by simpa [GoPc.Waits] using hpc
      exact ⟨.lock n, rfl, by simp [goStep, goStep', hn, hc, hmutex]⟩
    | locked k =>
      obtain rfl : k = j := by simpa [GoPc.Waits] using hpc
      exact enabled_of_holds hok hn hchan hspawning (by simp [GoPc.Holds])
    | _ => cases hpc

theorem enabled_of_pending (hok : ∀ j, s.LinearOk trace j (s.context j))
    (hk : s.Kept trace) (hpending : s.pendingGo ≠ 0) :
    ∃ a, a.Asks = false ∧ (goStep s a).isSome = true := by
  cases hspawning : s.spawning with
  | some j => exact ⟨.spawn, rfl, by simp [goStep, goStep', hspawning]⟩
  | none =>
    cases hcallbacks : s.callbacks with
    | cons cb rest => exact ⟨.cbReturn, rfl, by simp [goStep, goStep', hcallbacks, hspawning]⟩
    | nil =>
      cases hchan : s.chanCb with
      | cons cb rest => exact ⟨.cb, rfl, by simp [goStep, goStep', hchan, hspawning]⟩
      | nil =>
        have hheld : s.held ≠ [] := by
          intro hnil
          have hzero := hk.pendingGo_eq
          rw [hcallbacks, hnil] at hzero
          exact hpending hzero
        obtain ⟨e, he⟩ := List.exists_mem_of_ne_nil _ hheld
        simp only [held, hchan, List.map_nil, List.append_nil, List.mem_append] at he
        rcases he with he | he
        · obtain ⟨n, pc, hn, hcall⟩ := Shares.exists_of_mem_all _ he
          cases pc with
          | running call => exact ⟨.ran n, rfl, by simp [goStep, goStep', hn]⟩
          | linearRunning k e' => exact ⟨.ran n, rfl, by simp [goStep, goStep', hn]⟩
          | sending call =>
            exact ⟨.handoff n, rfl, by simp [goStep, goStep', hn, GoPc.callback, hchan, hspawning]⟩
          | linearSending k e' =>
            exact ⟨.handoff n, rfl, by simp [goStep, goStep', hn, GoPc.callback, hchan, hspawning]⟩
          | _ => cases hcall
        · obtain ⟨j, c, hc, hcall⟩ := Shares.exists_of_mem_all _ he
          exact enabled_of_linearGo (hok j) hc hchan hspawning (List.length_pos_of_mem hcall)

theorem run_weight {bs : List GoAct} (hbs : ∀ b ∈ bs, b.Asks = false)
    (h : run goStep s bs = some t) : bs.length + t.weight ≤ s.weight := by
  have hcount := countP_le_of_measure (q := fun _ : GoAct => true) (fun _ => True) weight
    (fun _ _ _ _ ha hs => ⟨trivial, step_weight ha (goStep_eq_some hs)⟩) trivial
    (meets_of_forall (c := fun a : GoAct => a.Asks = false) hbs s) h
  rwa [List.countP_true] at hcount

theorem step_callbacks (ha : a ≠ .cbReturn) (hs : goStep' s a = some (t, evs)) :
    s.callbacks.length ≤ t.callbacks.length := by
  cases a with
  | cbReturn => exact absurd rfl ha
  | linearGo k =>
    simp only [goStep'] at hs
    split at hs
    next =>
      obtain ⟨c, hc, hx⟩ := Option.map_eq_some_iff.mp hs
      cases hx
      exact le_rfl
    next => cases hs
  | spawn =>
    obtain ⟨k, hk, hx⟩ := Option.map_eq_some_iff.mp hs
    cases hx
    exact le_rfl
  | unlock n =>
    simp only [goStep'] at hs
    split at hs
    next k hn =>
      obtain ⟨c, hc, hx⟩ := Option.map_eq_some_iff.mp hs
      cases hx
      exact le_rfl
    next => cases hs
  | _ =>
    simp only [goStep'] at hs
    repeat' split at hs
    all_goals first
      | cases hs
        simp [goto, setContext]
      | cases hs

/-- The callbacks around `Close` do not return before it does. -/
theorem closeStep_outer {outer : Nat} (h : outer ≤ s.callbacks.length)
    (hs : closeStep outer s a = some t) : outer ≤ t.callbacks.length := by
  obtain ⟨hgo, -, houter⟩ := closeStep_eq_some hs
  obtain ⟨evs, hstep⟩ : ∃ evs, goStep' s a = some (t, evs) := ⟨_, goStep_eq_some hgo⟩
  by_cases ha : a = .cbReturn
  · subst ha
    have hlt := houter rfl
    simp only [goStep'] at hstep
    split at hstep
    next cb rest hcb =>
      split at hstep
      next =>
        cases hstep
        rw [hcb, List.length_cons] at hlt
        exact Nat.le_of_lt_succ hlt
      next => cases hstep
    next => cases hstep
  · exact h.trans (step_callbacks ha hstep)

/-- The loop of `Close` stands in nobody's way. -/
theorem closeStep_of_pending (ha : a.Asks = false) (hpending : 0 < s.pendingGo)
    (hs : (goStep s a).isSome = true) : (closeStep 0 s a).isSome = true := by
  have hallows : s.closeAllows 0 a = true := by
    cases a with
    | cbReturn =>
      cases hcallbacks : s.callbacks with
      | nil => simp [goStep, goStep', hcallbacks] at hs
      | cons cb rest => simp [closeAllows, hcallbacks]
    | cb => simp [closeAllows, hpending]
    | handoff n => simp [closeAllows, hpending]
    | _ => simp [closeAllows, ha]
  rwa [closeStep, if_pos hallows]

end GoSys

variable {len : Nat} {as : List GoAct} {s : GoSys}

/-- Nobody makes calls any more. Then every schedule comes to an end; as long as `Close` has not
returned somebody can go on, if it was called outside the callbacks, and it never returns if it was
called inside one. -/
theorem close_gets_through (h : run goStep (GoSys.new len) as = some s) {bs : List GoAct}
    {t : GoSys} (ht : run (closeStep s.callbacks.length) s bs = some t) :
    bs.length ≤ s.weight ∧
    (s.callbacks = [] → t.CloseReturns 0 ∨ ∃ a, (closeStep 0 t a).isSome = true) ∧
    (s.callbacks ≠ [] → ¬ t.CloseReturns s.callbacks.length) := by
  obtain ⟨hgo, hasks⟩ := run_of_closeStep ht
  have hrun : run goStep (GoSys.new len) (as ++ bs) = some t := run_append.mpr ⟨s, h, hgo⟩
  have hkept := GoSys.run_kept hrun
  have hpending := hkept.pendingGo_eq
  rw [List.length_append, List.length_map] at hpending
  refine ⟨(Nat.le_add_right _ _).trans (GoSys.run_weight hasks hgo), fun _ => ?_, fun hne => ?_⟩
  · by_cases hzero : t.pendingGo = 0
    · exact .inl ⟨by omega, by omega⟩
    · obtain ⟨a, ha, hs⟩ := GoSys.enabled_of_pending (GoSys.run_linearOk hrun) hkept hzero
      exact .inr ⟨a, GoSys.closeStep_of_pending ha (by omega) hs⟩
  · have houter : s.callbacks.length ≤ t.callbacks.length :=
      run_invariant (p := fun u : GoSys => s.callbacks.length ≤ u.callbacks.length)
        (fun _ _ _ hu hs => GoSys.closeStep_outer hu hs) le_rfl ht
    have hpos := List.length_pos_iff.mpr hne
    exact fun hreturns => hreturns.2 (by omega)

/-- The second call waits for the first one, whose callback nobody has taken; and a callback that
calls `Close`. -/
theorem close_gets_through_waiting :
    (∃ s t, run goStep (GoSys.new 0) [.newLinearContext, .linearGo 0, .spawn, .linearGo 0, .spawn,
      .lock 0] = some s ∧ run (closeStep 0) s [.remove 0, .ran 0] = some t ∧
      (t.CloseReturns 0 ∨ ∃ a, (closeStep 0 t a).isSome = true)) ∧
    ∃ s, run goStep (GoSys.new 0) [.go, .ran 0, .handoff 0] = some s ∧ ¬ s.CloseReturns 1 := by
  have hrun : ∃ s t, run goStep (GoSys.new 0) [.newLinearContext, .linearGo 0, .spawn, .linearGo 0,
      .spawn, .lock 0] = some s ∧ s.callbacks = [] ∧
        run (closeStep s.callbacks.length) s [.remove 0, .ran 0] = some t := ⟨_, _, rfl, rfl, rfl⟩
  obtain ⟨s, t, hs, hnil, ht⟩ := hrun
  refine ⟨⟨s, t, hs, ?_, (close_gets_through hs ht).2.1 hnil⟩, _, rfl, ?_⟩
  · rwa [hnil] at ht
  · exact (@close_gets_through 0 [.go, .ran 0, .handoff 0] _ rfl [] _ rfl).2.2 (by simp)

end AlgorithmLib.LeafGo
