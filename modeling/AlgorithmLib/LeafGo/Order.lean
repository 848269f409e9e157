import AlgorithmLib.LeafGo.Model
import AlgorithmLib.Library.Shares

set_option autoImplicit false

namespace AlgorithmLib.LeafGo

open Run

def ofContext (j : Nat) (l : List (Option Nat × Call)) : List Call :=
  (l.filter (fun x => x.1 = some j)).map Prod.snd

/-- The calls of a context for which the moment has come. -/
def seen (m : GoMoment) (j : Nat) (trace : List GoEvent) : List Call :=
  (trace.filter (fun e => e.moment = m ∧ e.ctx = some j)).map GoEvent.call

/-- The goroutine has the mutex of the context. -/
def GoPc.Holds (j : Nat) : GoPc → Bool
  | locked k => k = j
  | linearRunning k _ => k = j
  | linearSending k _ => k = j
  | unlocking k => k = j
  | _ => false

def GoPc.Waits (j : Nat) : GoPc → Bool
  | starting k => k = j
  | locked k => k = j
  | _ => false

def GoPc.runs : GoPc → List Call
  | linearRunning _ e => [e]
  | _ => []

def GoPc.sends : GoPc → List Call
  | linearSending _ e => [e]
  | _ => []

/-- The moments of the calls of a context, when the goroutine with its mutex is at `pc`. -/
structure Ordered (trace : List GoEvent) (chanCb : List (Option Nat × Call)) (j : Nat)
    (linearGo : List Call) (pc : GoPc) : Prop where
  asked : seen .asked j trace = seen .started j trace ++ linearGo
  started : seen .started j trace = seen .finished j trace ++ pc.runs
  finished : seen .finished j trace =
    seen .calledBack j trace ++ (ofContext j chanCb ++ pc.sends)

section Ordered

variable {trace evs : List GoEvent} {chanCb : List (Option Nat × Call)} {j : Nat}
  {linearGo : List Call} {pc pc' : GoPc} {e : Call}

theorem seen_append (m : GoMoment) (j : Nat) (trace evs : List GoEvent) :
    seen m j (trace ++ evs) = seen m j trace ++ seen m j evs := by
  simp [seen]

theorem ofContext_append (j : Nat) (l r : List (Option Nat × Call)) :
    ofContext j (l ++ r) = ofContext j l ++ ofContext j r := by
  simp [ofContext]

theorem seen_single (m m' : GoMoment) (j : Nat) (ctx : Option Nat) (e : Call) :
    seen m j [⟨m', ctx, e⟩] = if m' = m ∧ ctx = some j then [e] else [] := by
  by_cases h : m' = m ∧ ctx = some j <;> simp [seen, h]

theorem ofContext_single (j : Nat) (cb : Option Nat × Call) :
    ofContext j [cb] = if cb.1 = some j then [cb.2] else [] := by
  by_cases h : cb.1 = some j <;> simp [ofContext, h]

theorem Ordered.other (h : Ordered trace chanCb j linearGo pc)
    (hevs : ∀ m, m ≠ .returned → seen m j evs = []) :
    Ordered (trace ++ evs) chanCb j linearGo pc := by
  constructor
  · simpa [seen_append, hevs] using h.asked
  · simpa [seen_append, hevs] using h.started
  · simpa [seen_append, hevs] using h.finished

theorem Ordered.ask (h : Ordered trace chanCb j linearGo pc) (e : Call) :
    Ordered (trace ++ [⟨.asked, some j, e⟩]) chanCb j (linearGo ++ [e]) pc := by
  constructor
  · simp [seen_append, seen_single, h.asked]
  · simpa [seen_append, seen_single] using h.started
  · simpa [seen_append, seen_single] using h.finished

theorem Ordered.take (h : Ordered trace chanCb j (e :: linearGo) (.locked j)) :
    Ordered (trace ++ [⟨.started, some j, e⟩]) chanCb j linearGo (.linearRunning j e) := by
  constructor
  · simpa [seen_append, seen_single] using h.asked
  · simpa [seen_append, seen_single, GoPc.runs] using h.started
  · simpa [seen_append, seen_single, GoPc.sends] using h.finished

theorem Ordered.ran (h : Ordered trace chanCb j linearGo (.linearRunning j e)) :
    Ordered (trace ++ [⟨.finished, some j, e⟩]) chanCb j linearGo (.linearSending j e) := by
  constructor
  · simpa [seen_append, seen_single] using h.asked
  · simpa [seen_append, seen_single, GoPc.runs] using h.started
  · simp [seen_append, seen_single, h.finished, GoPc.sends]

theorem Ordered.send (h : Ordered trace chanCb j linearGo (.linearSending j e)) :
    Ordered trace (chanCb ++ [(some j, e)]) j linearGo (.unlocking j) := by
  constructor
  · exact h.asked
  · simpa [GoPc.runs] using h.started
  · simpa [ofContext_append, ofContext_single, GoPc.sends] using h.finished

theorem Ordered.handoff (h : Ordered trace [] j linearGo (.linearSending j e)) :
    Ordered (trace ++ [⟨.calledBack, some j, e⟩]) [] j linearGo (.unlocking j) := by
  constructor
  · simpa [seen_append, seen_single] using h.asked
  · simpa [seen_append, seen_single, GoPc.runs] using h.started
  · simpa [seen_append, seen_single, ofContext, GoPc.sends] using h.finished

theorem Ordered.cb {cb : Option Nat × Call} (h : Ordered trace (cb :: chanCb) j linearGo pc) :
    Ordered (trace ++ [⟨.calledBack, cb.1, cb.2⟩]) chanCb j linearGo pc := by
  have hcons : ofContext j (cb :: chanCb) = ofContext j [cb] ++ ofContext j chanCb :=
    ofContext_append j [cb] chanCb
  constructor
  · simpa [seen_append, seen_single] using h.asked
  · simpa [seen_append, seen_single] using h.started
  · simpa [seen_append, seen_single, hcons, ofContext_single] using h.finished

theorem Ordered.sendOther {cb : Option Nat × Call} (h : Ordered trace chanCb j linearGo pc)
    (hne : cb.1 ≠ some j) : Ordered trace (chanCb ++ [cb]) j linearGo pc := by
  constructor
  · exact h.asked
  · exact h.started
  · simpa [ofContext_append, ofContext_single, hne] using h.finished

theorem Ordered.goto (h : Ordered trace chanCb j linearGo pc) (hruns : pc'.runs = pc.runs)
    (hsends : pc'.sends = pc.sends) : Ordered trace chanCb j linearGo pc' := by
  constructor
  · exact h.asked
  · rw [hruns]
    exact h.started
  · rw [hsends]
    exact h.finished

end Ordered

namespace GoSys

def context (s : GoSys) (j : Nat) : LinearContext :=
  (s.contexts[j]?).getD .new

def pcOf (s : GoSys) (n : Nat) : GoPc := (s.goroutines[n]?).getD .done

def holder (s : GoSys) (c : LinearContext) : GoPc := (c.mutexExecution.map s.pcOf).getD .done

def takes (s : GoSys) (j : Nat) : Nat :=
  s.goroutines.countP (GoPc.Waits j) + if s.spawning = some j then 1 else 0

structure LinearOk (s : GoSys) (trace : List GoEvent) (j : Nat) (c : LinearContext) : Prop where
  mutex : ∀ n, c.mutexExecution = some n ↔ (s.pcOf n).Holds j = true
  ordered : Ordered trace s.chanCb j c.linearGo (s.holder c)
  takes : s.takes j = c.linearGo.length

variable {s t : GoSys} {trace evs : List GoEvent} {j k n : Nat} {c : LinearContext} {pc pc' : GoPc}
  {a : GoAct}

theorem context_of_get (h : s.contexts[j]? = some c) : s.context j = c := by
  simp [context, h]

theorem pcOf_of_get (h : s.goroutines[n]? = some pc) : s.pcOf n = pc := by
  simp [pcOf, h]

theorem context_setContext (h : s.contexts[k]? = some c) (c' : LinearContext) (j : Nat) :
    (s.setContext k c').context j = if j = k then c' else s.context j := by
  have hlt := (List.getElem?_eq_some_iff.mp h).1
  by_cases hj : j = k
  · subst hj
    simp [context, setContext, hlt]
  · simp [context, setContext, List.getElem?_set_ne (Ne.symm hj), hj]

theorem pcOf_goto (h : s.goroutines[n]? = some pc) (pc' : GoPc) (i : Nat) :
    (s.goto n pc').pcOf i = if i = n then pc' else s.pcOf i := by
  have hlt := (List.getElem?_eq_some_iff.mp h).1
  by_cases hi : i = n
  · subst hi
    simp [pcOf, goto, hlt]
  · simp [pcOf, goto, List.getElem?_set_ne (Ne.symm hi), hi]

theorem takes_goto (h : s.goroutines[n]? = some pc) (pc' : GoPc) (j : Nat) :
    (s.goto n pc').takes j + (if pc.Waits j = true then 1 else 0) =
      s.takes j + if pc'.Waits j = true then 1 else 0 := by
  obtain ⟨hlt, rfl⟩ := List.getElem?_eq_some_iff.mp h
  have hpos : s.goroutines[n].Waits j = true → 0 < s.goroutines.countP (GoPc.Waits j) :=
    fun hw => List.countP_pos_iff.mpr ⟨_, List.getElem_mem hlt, hw⟩
  have hset : (s.goto n pc').takes j =
      (s.goroutines.countP (GoPc.Waits j) - if s.goroutines[n].Waits j = true then 1 else 0) +
      (if pc'.Waits j = true then 1 else 0) + if s.spawning = some j then 1 else 0 := by
    rw [takes, goto, List.countP_set hlt]
  rw [hset, takes]
  cases hw : s.goroutines[n].Waits j with
  | false => simp only [Bool.false_eq_true, if_false]; omega
  | true =>
    have hpos := hpos hw
    simp only [if_true]
    omega

theorem LinearOk.goto (h : s.LinearOk trace j c) (hn : s.goroutines[n]? = some pc) (pc' : GoPc)
    (hold : pc.Holds j = false) (hnew : pc'.Holds j = false) (hwaits : pc'.Waits j = pc.Waits j) :
    (s.goto n pc').LinearOk trace j c := by
  have hmutex : c.mutexExecution ≠ some n := by
    rw [Ne, h.mutex n, pcOf_of_get hn, hold]
    exact Bool.false_ne_true
  have hholder : (s.goto n pc').holder c = s.holder c := by
    cases hm : c.mutexExecution with
    | none => simp [holder, hm]
    | some i =>
      have hi : i ≠ n := fun heq => hmutex (heq ▸ hm)
      simp [holder, hm, pcOf_goto hn, hi]
  constructor
  · intro i
    rw [pcOf_goto hn]
    split
    next hi =>
      subst hi
      simp [hmutex, hnew]
    next => exact h.mutex i
  · rw [hholder]
    exact h.ordered
  · have htakes := takes_goto hn pc' j
    rw [hwaits] at htakes
    exact (Nat.add_right_cancel htakes).trans h.takes

theorem LinearOk.holder_eq (h : s.LinearOk trace j c) (hn : s.goroutines[n]? = some pc)
    (hold : pc.Holds j = true) : s.holder c = pc := by
  have hm : c.mutexExecution = some n := by
    rw [h.mutex, pcOf_of_get hn]
    exact hold
  simp [holder, hm, pcOf_of_get hn]

theorem LinearOk.gotoHeld {chanCb : List (Option Nat × Call)} (h : s.LinearOk trace j c)
    (hn : s.goroutines[n]? = some pc) (c' : LinearContext) (hold : pc.Holds j = true)
    (hnew : pc'.Holds j = true)
    (hm : c'.mutexExecution = c.mutexExecution)
    (hordered : Ordered (trace ++ evs) chanCb j c'.linearGo pc')
    (htakes : (if pc'.Waits j = true then 1 else 0) + c.linearGo.length =
      (if pc.Waits j = true then 1 else 0) + c'.linearGo.length) :
    { s.goto n pc' with chanCb := chanCb }.LinearOk (trace ++ evs) j c' := by
  have hmutex : c.mutexExecution = some n := by
    rw [h.mutex, pcOf_of_get hn]
    exact hold
  constructor
  · intro i
    change c'.mutexExecution = some i ↔ ((s.goto n pc').pcOf i).Holds j = true
    rw [hm, pcOf_goto hn]
    split
    next hi =>
      subst hi
      simp [hmutex, hnew]
    next => exact h.mutex i
  · have hholder : (s.goto n pc').holder c' = pc' := by
      simp [holder, hm, hmutex, pcOf_goto hn]
    change Ordered (trace ++ evs) chanCb j c'.linearGo ((s.goto n pc').holder c')
    rw [hholder]
    exact hordered
  · have hgoto := takes_goto hn pc' j
    rw [h.takes] at hgoto
    change (s.goto n pc').takes j = c'.linearGo.length
    omega

theorem LinearOk.unlock (h : s.LinearOk trace j c) (hn : s.goroutines[n]? = some (.unlocking j)) :
    (s.goto n .done).LinearOk trace j { c with mutexExecution := none } := by
  constructor
  · intro i
    rw [pcOf_goto hn]
    split
    next => simp [GoPc.Holds]
    next hi =>
      have hfree : ¬ (s.pcOf i).Holds j = true := by
        rw [← h.mutex, (h.mutex n).mpr (by rw [pcOf_of_get hn]; simp [GoPc.Holds])]
        exact fun heq => hi (Option.some.inj heq).symm
      simpa using hfree
  · have hordered := h.ordered
    rw [h.holder_eq hn (by simp [GoPc.Holds])] at hordered
    exact hordered.goto rfl rfl
  · have hgoto := takes_goto hn .done j
    rw [h.takes] at hgoto
    exact hgoto

theorem LinearOk.lock (h : s.LinearOk trace j c) (hn : s.goroutines[n]? = some (.starting j))
    (hfree : c.mutexExecution = none) :
    (s.goto n (.locked j)).LinearOk trace j { c with mutexExecution := some n } := by
  constructor
  · intro i
    rw [pcOf_goto hn]
    split
    next hi => simp [hi, GoPc.Holds]
    next hi =>
      have hnot : ¬ (s.pcOf i).Holds j = true := by
        simp [← h.mutex, hfree]
      have hne : ¬ n = i := fun heq => hi heq.symm
      simp [hnot, hne]
  · have hordered := h.ordered
    rw [holder, hfree] at hordered
    have hholder :
        (s.goto n (.locked j)).holder { c with mutexExecution := some n } = .locked j := by
      simp [holder, pcOf_goto hn]
    rw [hholder]
    exact hordered.goto rfl rfl
  · have hgoto := takes_goto hn (.locked j) j
    rw [h.takes] at hgoto
    simp only [GoPc.Waits, decide_true, if_true] at hgoto
    exact Nat.add_right_cancel hgoto

theorem LinearOk.concat (h : s.LinearOk trace j c) (pc : GoPc) (hnew : pc.Holds j = false)
    (sp : Option Nat)
    (hsp : (if pc.Waits j = true then 1 else 0) + (if sp = some j then 1 else 0) =
      if s.spawning = some j then 1 else 0) :
    { s with goroutines := s.goroutines ++ [pc], spawning := sp }.LinearOk trace j c := by
  have hpcOf : ∀ i, i ≠ s.goroutines.length →
      { s with goroutines := s.goroutines ++ [pc], spawning := sp }.pcOf i = s.pcOf i := by
    intro i hi
    rcases Nat.lt_or_gt_of_ne hi with hlt | hgt
    · simp [pcOf, List.getElem?_append_left hlt]
    · have hout : (s.goroutines ++ [pc]).length ≤ i := by
        rw [List.length_append]
        exact hgt
      simp [pcOf, List.getElem?_eq_none hgt.le, List.getElem?_eq_none hout]
  have hlast : { s with goroutines := s.goroutines ++ [pc], spawning := sp }.pcOf
      s.goroutines.length = pc := by simp [pcOf]
  have hmutex : c.mutexExecution ≠ some s.goroutines.length := by
    rw [Ne, h.mutex]
    simp [pcOf, GoPc.Holds]
  constructor
  · intro i
    by_cases hi : i = s.goroutines.length
    · rw [hi, hlast, hnew]
      simp [hmutex]
    · rw [hpcOf i hi]
      exact h.mutex i
  · have hholder : { s with goroutines := s.goroutines ++ [pc], spawning := sp }.holder c =
        s.holder c := by
      cases hm : c.mutexExecution with
      | none => simp [holder, hm]
      | some i =>
        have hi : i ≠ s.goroutines.length := fun heq => hmutex (heq ▸ hm)
        simp [holder, hm, hpcOf i hi]
    rw [hholder]
    exact h.ordered
  · rw [← h.takes, GoSys.takes, GoSys.takes, List.countP_append, List.countP_singleton, ← hsp,
      Nat.add_assoc]

theorem LinearOk.other (h : s.LinearOk trace j c) (evs : List GoEvent)
    (hevs : ∀ m, m ≠ .returned → seen m j evs = []) :
    s.LinearOk (trace ++ evs) j c :=
  ⟨h.mutex, h.ordered.other hevs, h.takes⟩

theorem context_concat (s : GoSys) (j : Nat) :
    { s with contexts := s.contexts ++ [LinearContext.new] }.context j = s.context j := by
  rcases Nat.lt_trichotomy j s.contexts.length with hlt | rfl | hgt
  · simp [context, List.getElem?_append_left hlt]
  · simp [context]
  · have hout : (s.contexts ++ [LinearContext.new]).length ≤ j := by
      rw [List.length_append]
      exact hgt
    simp [context, List.getElem?_eq_none hgt.le, List.getElem?_eq_none hout]

theorem callback_cases {x : (Option Nat × Call) × GoPc} (h : pc.callback = some x) :
    (∃ call, pc = .sending call ∧ x = ((none, call), .done)) ∨
      ∃ j e, pc = .linearSending j e ∧ x = ((some j, e), .unlocking j) := by
  cases pc with
  | sending call => exact .inl ⟨call, rfl, (Option.some.inj h).symm⟩
  | linearSending j e => exact .inr ⟨j, e, rfl, (Option.some.inj h).symm⟩
  | _ => cases h

theorem LinearOk.gotoOther (h : s.LinearOk trace j c) (hn : s.goroutines[n]? = some pc)
    (pc' : GoPc) (evs : List GoEvent) (hold : pc.Holds j = false) (hnew : pc'.Holds j = false)
    (hwaits : pc'.Waits j = pc.Waits j) (hevs : ∀ m, m ≠ .returned → seen m j evs = []) :
    (s.goto n pc').LinearOk (trace ++ evs) j c :=
  (h.goto hn pc' hold hnew hwaits).other evs hevs

theorem step_ran (h : ∀ j, s.LinearOk trace j (s.context j))
    (hs : goStep' s (.ran n) = some (t, evs)) (j : Nat) :
    t.LinearOk (trace ++ evs) j (t.context j) := by
  simp only [goStep'] at hs
  split at hs
  next call hn =>
    cases hs
    exact (h j).gotoOther hn _ _ rfl rfl rfl (fun m _ => by simp [seen_single])
  next k e hn =>
    cases hs
    by_cases hj : k = j
    · subst hj
      have hordered := (h k).ordered
      rw [(h k).holder_eq hn (by simp [GoPc.Holds])] at hordered
      exact (h k).gotoHeld hn _ (by simp [GoPc.Holds]) (by simp [GoPc.Holds]) rfl hordered.ran rfl
    · exact (h j).gotoOther hn _ _ (by simp [GoPc.Holds, hj]) (by simp [GoPc.Holds, hj]) rfl
        (fun m _ => by simp [seen_single, hj])
  next => cases hs

theorem step_send (h : ∀ j, s.LinearOk trace j (s.context j))
    (hs : goStep' s (.send n) = some (t, evs)) (j : Nat) :
    t.LinearOk (trace ++ evs) j (t.context j) := by
  simp only [goStep'] at hs
  split at hs
  next cb pc' hcb =>
    split at hs
    next =>
      cases hs
      obtain ⟨pc, hn, hpc⟩ := Option.bind_eq_some_iff.mp hcb
      rcases callback_cases hpc with ⟨call, rfl, hx⟩ | ⟨k, e, rfl, hx⟩
      · cases hx
        have hgoto := (h j).gotoOther hn .done [] rfl rfl rfl (fun _ _ => rfl)
        exact ⟨hgoto.mutex, hgoto.ordered.sendOther (by simp), hgoto.takes⟩
      · cases hx
        by_cases hj : k = j
        · subst hj
          have hordered := (h k).ordered
          rw [(h k).holder_eq hn (by simp [GoPc.Holds])] at hordered
          exact (h k).gotoHeld hn _ (by simp [GoPc.Holds]) (by simp [GoPc.Holds]) rfl
            (hordered.send.other (fun _ _ => rfl)) rfl
        · have hgoto := (h j).gotoOther hn (.unlocking k) []
            (by simp [GoPc.Holds, hj]) (by simp [GoPc.Holds, hj]) rfl (fun _ _ => rfl)
          exact ⟨hgoto.mutex, hgoto.ordered.sendOther (by simp [hj]), hgoto.takes⟩
    next => cases hs
  next => cases hs

theorem step_handoff (h : ∀ j, s.LinearOk trace j (s.context j))
    (hs : goStep' s (.handoff n) = some (t, evs)) (j : Nat) :
    t.LinearOk (trace ++ evs) j (t.context j) := by
  simp only [goStep'] at hs
  split at hs
  next cb pc' hcb =>
    split at hs
    next hguard =>
      cases hs
      obtain ⟨pc, hn, hpc⟩ := Option.bind_eq_some_iff.mp hcb
      rcases callback_cases hpc with ⟨call, rfl, hx⟩ | ⟨k, e, rfl, hx⟩
      · cases hx
        have hgoto := (h j).gotoOther hn .done [⟨.calledBack, none, call⟩]
          rfl rfl rfl (fun m _ => by simp [seen_single])
        exact ⟨hgoto.mutex, hgoto.ordered, hgoto.takes⟩
      · cases hx
        by_cases hj : k = j
        · subst hj
          have hordered := (h k).ordered
          rw [(h k).holder_eq hn (by simp [GoPc.Holds]), hguard.1] at hordered
          have hgoto := (h k).gotoHeld hn _ (by simp [GoPc.Holds]) (by simp [GoPc.Holds]) rfl
            hordered.handoff rfl
          exact ⟨hgoto.mutex, hguard.1.symm ▸ hgoto.ordered, hgoto.takes⟩
        · have hgoto := (h j).gotoOther hn (.unlocking k)
            [⟨.calledBack, some k, e⟩] (by simp [GoPc.Holds, hj])
            (by simp [GoPc.Holds, hj]) rfl (fun m _ => by simp [seen_single, hj])
          exact ⟨hgoto.mutex, hgoto.ordered, hgoto.takes⟩
    next => cases hs
  next => cases hs

theorem step_lock (h : ∀ j, s.LinearOk trace j (s.context j))
    (hs : goStep' s (.lock n) = some (t, evs)) (j : Nat) :
    t.LinearOk (trace ++ evs) j (t.context j) := by
  simp only [goStep'] at hs
  split at hs
  next k hn =>
    split at hs
    next c hc =>
      split at hs
      next hfree =>
        cases hs
        have hcontext := context_setContext hc { c with mutexExecution := some n } j
        change GoSys.LinearOk _ _ j ((s.setContext k { c with mutexExecution := some n }).context j)
        rw [hcontext, List.append_nil]
        split
        next hj =>
          subst hj
          have hlock := (h j).lock hn (by rw [context_of_get hc]; exact hfree)
          rw [context_of_get hc] at hlock
          exact ⟨hlock.mutex, hlock.ordered, hlock.takes⟩
        next hj =>
          have hj : k ≠ j := fun heq => hj heq.symm
          have hgoto := (h j).goto hn (.locked k) rfl (by simp [GoPc.Holds, hj]) rfl
          exact ⟨hgoto.mutex, hgoto.ordered, hgoto.takes⟩
      next => cases hs
    next => cases hs
  next => cases hs

theorem step_remove (h : ∀ j, s.LinearOk trace j (s.context j))
    (hs : goStep' s (.remove n) = some (t, evs)) (j : Nat) :
    t.LinearOk (trace ++ evs) j (t.context j) := by
  simp only [goStep'] at hs
  split at hs
  next k hn =>
    split at hs
    next c hc =>
      split at hs
      next e rest hrest =>
        cases hs
        have hcontext := context_setContext hc { c with linearGo := rest } j
        change GoSys.LinearOk _ _ j ((s.setContext k { c with linearGo := rest }).context j)
        rw [hcontext]
        split
        next hj =>
          subst hj
          have hk := h j
          rw [context_of_get hc] at hk
          have hordered := hk.ordered
          rw [hk.holder_eq hn (by simp [GoPc.Holds]), hrest] at hordered
          have hgoto := hk.gotoHeld hn { c with linearGo := rest } (by simp [GoPc.Holds])
            (by simp [GoPc.Holds]) rfl hordered.take (by simp [GoPc.Waits, hrest, Nat.add_comm])
          exact ⟨hgoto.mutex, hgoto.ordered, hgoto.takes⟩
        next hj =>
          have hj : k ≠ j := fun heq => hj heq.symm
          have hgoto := (h j).gotoOther hn (.linearRunning k e)
            [⟨.started, some k, e⟩] (by simp [GoPc.Holds, hj])
            (by simp [GoPc.Holds, hj]) (by simp [GoPc.Waits, hj])
            (fun m _ => by simp [seen_single, hj])
          exact ⟨hgoto.mutex, hgoto.ordered, hgoto.takes⟩
      next => cases hs
    next => cases hs
  next => cases hs

theorem step_unlock (h : ∀ j, s.LinearOk trace j (s.context j))
    (hs : goStep' s (.unlock n) = some (t, evs)) (j : Nat) :
    t.LinearOk (trace ++ evs) j (t.context j) := by
  simp only [goStep'] at hs
  split at hs
  next k hn =>
    obtain ⟨c, hc, hx⟩ := Option.map_eq_some_iff.mp hs
    cases hx
    have hcontext := context_setContext hc { c with mutexExecution := none } j
    change GoSys.LinearOk _ _ j ((s.setContext k { c with mutexExecution := none }).context j)
    rw [hcontext, List.append_nil]
    split
    next hj =>
      subst hj
      have hunlock := (h j).unlock hn
      rw [context_of_get hc] at hunlock
      exact ⟨hunlock.mutex, hunlock.ordered, hunlock.takes⟩
    next hj =>
      have hj : k ≠ j := fun heq => hj heq.symm
      have hgoto := (h j).goto hn .done (by simp [GoPc.Holds, hj]) rfl rfl
      exact ⟨hgoto.mutex, hgoto.ordered, hgoto.takes⟩
  next => cases hs

theorem step_linearGo (h : ∀ j, s.LinearOk trace j (s.context j))
    (hs : goStep' s (.linearGo k) = some (t, evs)) (j : Nat) :
    t.LinearOk (trace ++ evs) j (t.context j) := by
  simp only [goStep'] at hs
  split at hs
  next hspawning =>
    obtain ⟨c, hc, hx⟩ := Option.map_eq_some_iff.mp hs
    cases hx
    have hcontext := context_setContext hc { c with linearGo := c.linearGo ++ [s.made] } j
    change GoSys.LinearOk _ _ j
      ((s.setContext k { c with linearGo := c.linearGo ++ [s.made] }).context j)
    have htakes := (h j).takes
    rw [GoSys.takes, hspawning] at htakes
    rw [hcontext]
    split
    next hj =>
      subst hj
      have hj := h j
      rw [context_of_get hc] at hj htakes
      refine ⟨hj.mutex, hj.ordered.ask s.made, ?_⟩
      simpa [GoSys.takes, setContext] using htakes
    next hj =>
      have hj : ¬ k = j := fun heq => hj heq.symm
      have hother := (h j).other [⟨.asked, some k, s.made⟩]
        (fun m _ => by simp [seen_single, hj])
      refine ⟨hother.mutex, hother.ordered, ?_⟩
      simpa [GoSys.takes, setContext, hj] using htakes
  next => cases hs

theorem step_linearOk (h : ∀ j, s.LinearOk trace j (s.context j))
    (hs : goStep' s a = some (t, evs)) (j : Nat) : t.LinearOk (trace ++ evs) j (t.context j) := by
  cases a with
  | newLinearContext =>
    cases hs
    rw [context_concat, List.append_nil]
    exact ⟨(h j).mutex, (h j).ordered, (h j).takes⟩
  | go =>
    simp only [goStep'] at hs
    split at hs
    next hspawning =>
      cases hs
      have hconcat := ((h j).concat (.running s.made) rfl none
        (by simp [GoPc.Waits, hspawning])).other
        [⟨.asked, none, s.made⟩, ⟨.started, none, s.made⟩] (fun m _ => by simp [seen])
      exact ⟨hconcat.mutex, hconcat.ordered, hspawning ▸ hconcat.takes⟩
    next => cases hs
  | linearGo k => exact step_linearGo h hs j
  | spawn =>
    obtain ⟨k, hk, hx⟩ := Option.map_eq_some_iff.mp hs
    cases hx
    rw [List.append_nil]
    exact (h j).concat _ rfl none (by simp [GoPc.Waits, hk])
  | ran n => exact step_ran h hs j
  | send n => exact step_send h hs j
  | handoff n => exact step_handoff h hs j
  | lock n => exact step_lock h hs j
  | remove n => exact step_remove h hs j
  | unlock n => exact step_unlock h hs j
  | cb =>
    simp only [goStep'] at hs
    split at hs
    next cb rest hcb =>
      split at hs
      next =>
        cases hs
        have hordered := (h j).ordered
        rw [hcb] at hordered
        exact ⟨(h j).mutex, hordered.cb, (h j).takes⟩
      next => cases hs
    next => cases hs
  | cbReturn =>
    simp only [goStep'] at hs
    split at hs
    next cb rest hcb =>
      split at hs
      next =>
        cases hs
        have hother := (h j).other [⟨.returned, cb.1, cb.2⟩]
          (fun m hm => by simp [seen_single, hm.symm])
        exact ⟨hother.mutex, hother.ordered, hother.takes⟩
      next => cases hs
    next => cases hs

theorem new_linearOk (len j : Nat) : (new len).LinearOk [] j ((new len).context j) := by
  constructor
  · intro n
    simp [context, new, LinearContext.new, pcOf, GoPc.Holds]
  · constructor <;> rfl
  · rfl

theorem run_linearOk {len : Nat} {as : List GoAct} (h : run goStep (new len) as = some s)
    (j : Nat) : s.LinearOk (collect goStep goEvents (new len) as) j (s.context j) := by
  have hinv : ∀ j, s.LinearOk ([] ++ collect goStep goEvents (new len) as) j (s.context j) :=
    collect_invariant (p := fun s trace => ∀ j, s.LinearOk trace j (s.context j))
      (fun _ _ _ _ hok _ hs => step_linearOk hok (goStep_eq_some hs)) (new_linearOk len)
      (meets_true _ _) h
  exact hinv j

end GoSys

/-- In every run the functions of a context begin in the order of its calls, each one after the end
of the one before, and so do their callbacks. -/
theorem linear_calls_in_order {len : Nat} {as : List GoAct} {s : GoSys}
    (h : run goStep (GoSys.new len) as = some s) (j : Nat) :
    let trace := collect goStep goEvents (GoSys.new len) as
    seen .started j trace <+: seen .asked j trace ∧
    seen .finished j trace <+: seen .started j trace ∧
    (seen .started j trace).length ≤ (seen .finished j trace).length + 1 ∧
    seen .calledBack j trace <+: seen .finished j trace := by
  have hordered := (GoSys.run_linearOk h j).ordered
  refine ⟨⟨_, hordered.asked.symm⟩, ⟨_, hordered.started.symm⟩, ?_, ⟨_, hordered.finished.symm⟩⟩
  have hruns : ∀ pc : GoPc, pc.runs.length ≤ 1 := by
    intro pc
    cases pc <;> simp [GoPc.runs]
  rw [hordered.started, List.length_append]
  exact Nat.add_le_add_left (hruns _) _

/-- The goroutine of the second call is the first one to get the mutex. -/
theorem linear_calls_in_order_overtaken :
    ∃ s, run goStep (GoSys.new 1) [.newLinearContext, .linearGo 0, .spawn, .linearGo 0, .spawn,
      .lock 1, .remove 1, .ran 1] = some s ∧
    seen .finished 0 (collect goStep goEvents (GoSys.new 1) [.newLinearContext, .linearGo 0, .spawn,
      .linearGo 0, .spawn, .lock 1, .remove 1, .ran 1]) <+: [0] :=
  ⟨_, rfl, (linear_calls_in_order rfl 0).2.1⟩

end AlgorithmLib.LeafGo
