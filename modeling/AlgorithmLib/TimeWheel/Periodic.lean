import AlgorithmLib.TimeWheel.Clock

set_option autoImplicit false

namespace AlgorithmLib.TimeWheel

structure Started where
  event : NodeId
  period : BitVec 32
  repeat_ : Int
  /-- `current` then, and the tick of which it is that of -/
  time : Nat
  tick : Nat
  runs : Nat

namespace Started

/-- Every due time up to the one after this many ticks lies below 2^32, with the interval added. -/
def Below (p : Started) (interval : BitVec 32) (ticks : Nat) : Prop :=
  ∀ i : Nat, i ≤ ticks * interval.toNat / p.period.toNat + 1 →
    (0 < p.repeat_ → (i : Int) ≤ p.repeat_) →
    p.time + i * p.period.toNat + interval.toNat < 2 ^ 32

theorem Below.mono {p : Started} {interval : BitVec 32} {ticks more : Nat}
    (h : p.Below interval more) (hle : ticks ≤ more) : p.Below interval ticks := fun i hi hr =>
  h i (Nat.le_trans hi (Nat.add_le_add_right
    (Nat.div_le_div_right (Nat.mul_le_mul_right _ hle)) 1)) hr

/-- The event waits for its run number `j + 1`, and no tick before the one of which it is due
reaches that. -/
structure Waits (p : Started) (interval : BitVec 32) (evt : ItimerEvt) (due : Option Nat)
    (j : Nat) : Prop where
  mgr : evt.mgr = true
  period_eq : evt.period = p.period
  slap : evt.slap = BitVec.ofNat 32 (p.time + (j + 1) * p.period.toNat)
  repeat_eq : evt.repeat_ = if p.repeat_ ≤ 0 then p.repeat_ else p.repeat_ - j
  more : p.repeat_ ≤ 0 ∨ (j : Int) < p.repeat_
  due_eq : ∃ d, due = some d ∧ p.tick ≤ d ∧
    (d - p.tick) * interval.toNat < (j + 1) * p.period.toNat + interval.toNat

structure Ended (p : Started) (evt : ItimerEvt) (due : Option Nat) (j : Nat) : Prop where
  mgr : evt.mgr = false
  due_eq : due = none
  repeat_eq : 0 < p.repeat_ ∧ p.repeat_ = j

/-- So far `j` runs were due, and those that are not left have been made. -/
structure Tracked (p : Started) (interval : BitVec 32) (s : EvtSys) (due : Option Nat) (j : Nat) :
    Prop where
  callback : (s.evt p.event).callback.isSome = true
  count : s.runs p.event + s.ctrl.left p.event = p.runs + j
  running : s.ctrl.left p.event ≠ 0 → (s.evt p.event).running = true
  past : j = 0 ∨ p.tick < s.begun ∧
    j * p.period.toNat ≤ (s.begun - 1 - p.tick) * interval.toNat
  next : p.Waits interval (s.evt p.event) due j ∨ p.Ended (s.evt p.event) due j

variable {p : Started} {interval : BitVec 32} {s t : EvtSys} {due : Option Nat} {j ticks : Nat}

theorem Tracked.frame (h : p.Tracked interval s due j) (hframe : Runs s t p.event)
    (hbegun : s.begun ≤ t.begun) : p.Tracked interval t due j := by
  obtain ⟨b, hb⟩ := hframe.evt
  refine ⟨by simpa [hb] using h.callback,
    (hframe.count fun hleft => ⟨h.callback, h.running hleft⟩).trans h.count,
    fun hleft => ?_, ?_, ?_⟩
  · obtain ⟨hleft', hsame⟩ := hframe.running hleft
    rw [hsame]
    exact h.running hleft'
  · refine h.past.imp_right fun ⟨htick, hle⟩ => ⟨by omega, Nat.le_trans hle ?_⟩
    exact Nat.mul_le_mul_right _ (by omega)
  · rw [hb]
    exact h.next.imp (fun hw => ⟨hw.mgr, hw.period_eq, hw.slap, hw.repeat_eq, hw.more, hw.due_eq⟩)
      (fun he => ⟨he.mgr, he.due_eq, he.repeat_eq⟩)

theorem Below.at_ (h : p.Below interval ticks) (hperiod : p.period ≠ 0#32) {i : Nat}
    (hi : i * p.period.toNat ≤ ticks * interval.toNat)
    (hr : p.repeat_ ≤ 0 ∨ (i : Int) < p.repeat_) :
    p.time + (i + 1) * p.period.toNat + interval.toNat < 2 ^ 32 := by
  have hpos : 0 < p.period.toNat := BitVec.toNat_pos_of_ne_zero hperiod
  refine h (i + 1) (Nat.succ_le_succ ((Nat.le_div_iff_mul_le hpos).mpr hi)) (fun hpos => ?_)
  omega

/-- `current` at a later tick. -/
theorem currentAt_of_le {first tick : Nat}
    (htime : currentAt first interval p.tick = BitVec.ofNat 32 p.time) (hle : p.tick ≤ tick) :
    currentAt first interval tick =
      BitVec.ofNat 32 (p.time + (tick - p.tick) * interval.toNat) := by
  obtain ⟨d, rfl⟩ := Nat.exists_eq_add_of_le hle
  rw [Nat.add_sub_cancel_left, BitVec.ofNat_add, ← htime, currentAt, currentAt, ← BitVec.ofNat_add,
    Nat.add_mul, Nat.add_assoc]

theorem Waits.slapAt_eq {evt : ItimerEvt} (h : p.Waits interval evt due j)
    (hfits : p.time + (j + 1) * p.period.toNat < 2 ^ 32) (i : Nat) :
    slapAt evt.slap evt.period i = p.time + (j + i + 1) * p.period.toNat := by
  rw [slapAt, h.slap, h.period_eq, BitVec.toNat_ofNat, Nat.mod_eq_of_lt hfits]
  ring

/-- What the loop of `itimer_evt_cb` does at this tick with an event that waits: `m` more runs are
due, and it waits for the next one, or those were its last. -/
theorem Waits.catchUp {evt : ItimerEvt} (h : p.Waits interval evt due j) {current : BitVec 32}
    {r : CatchUp} (hperiod : p.period ≠ 0#32) (hbelow : p.Below interval ticks)
    (hpast : j * p.period.toNat ≤ ticks * interval.toNat)
    (hticks : ticks * interval.toNat < (j + 1) * p.period.toNat + interval.toNat)
    (hcurrent : current = BitVec.ofNat 32 (p.time + ticks * interval.toNat))
    (hr : catchUp current evt.period catchUpTurns evt.slap evt.repeat_ 0 = some r) :
    (j + r.count) * p.period.toNat ≤ ticks * interval.toNat ∧
      ((r.stop = true ∧ 0 < p.repeat_ ∧ p.repeat_ = (j + r.count : Nat)) ∨
        (r.stop = false ∧
          r.slap = BitVec.ofNat 32 (p.time + (j + r.count + 1) * p.period.toNat) ∧
          ticks * interval.toNat < (j + r.count + 1) * p.period.toNat ∧
          r.repeat_ = (if p.repeat_ ≤ 0 then p.repeat_ else p.repeat_ - (j + r.count : Nat)) ∧
          (p.repeat_ ≤ 0 ∨ ((j + r.count : Nat) : Int) < p.repeat_) ∧
          p.time + (j + r.count + 1) * p.period.toNat + interval.toNat < 2 ^ 32)) := by
  have hlow := hbelow.at_ hperiod hpast h.more
  have hslapAt := h.slapAt_eq (by omega)
  have hx : current.toNat = p.time + ticks * interval.toNat := by
    rw [hcurrent, BitVec.toNat_ofNat, Nat.mod_eq_of_lt (by omega)]
  obtain ⟨m, hdue, hnext, hres⟩ := catchUp_eq current evt.slap evt.repeat_
    (h.period_eq ▸ hperiod : evt.period ≠ 0#32)
  simp only [hslapAt, hx, Nat.add_le_add_iff_left, Nat.add_lt_add_iff_left] at hdue hnext hres
  have hrepeat := h.repeat_eq
  have hmore := h.more
  obtain ⟨hrep, hval⟩ | ⟨k, hk, hkm, hval⟩ := hres
  · have hpast' : (j + m) * p.period.toNat ≤ ticks * interval.toNat := by
      cases m with
      | zero => exact hpast
      | succ m => exact hdue m (Nat.lt_succ_self m)
    have hmore' : p.repeat_ ≤ 0 ∨ ((j + m : Nat) : Int) < p.repeat_ := by
      split at hrepeat <;> omega
    have hlow' := hbelow.at_ hperiod hpast' hmore'
    rw [hval (by omega)] at hr
    cases hr
    refine ⟨hpast', .inr ⟨rfl, rfl, hnext, ?_, hmore', hlow'⟩⟩
    dsimp only
    split at hrepeat <;> split <;> omega
  · rw [hval] at hr
    cases hr
    have hR : 0 < p.repeat_ := by split at hrepeat <;> omega
    refine ⟨hdue k hkm, .inl ⟨rfl, hR, ?_⟩⟩
    dsimp only
    split at hrepeat <;> omega

theorem Tracked.fire {first : Nat} {due : NodeId → Option Nat}
    (h : Clocked first interval s due) (ht : p.Tracked interval s (due p.event) j)
    (hinterval : interval ≠ 0#32) (hperiod : p.period ≠ 0#32)
    (htime : currentAt first interval p.tick = BitVec.ofNat 32 p.time)
    (hbelow : p.Below interval (s.begun - 1 - p.tick)) {millisec jiffies : BitVec 32}
    (hctrl : s.ctrl = .draining millisec jiffies) {ns : List NodeId}
    (hlist : s.mgr.core.links.list .queued = p.event :: ns)
    (hcb : EvtSys.evtCb { s with mgr := { s.mgr with
      core := { s.mgr.core with links := s.mgr.core.links.unlink p.event } } } millisec jiffies
        p.event = some t) :
    ∃ due' j', Clocked first interval t due' ∧ p.Tracked interval t (due' p.event) j' := by
  obtain ⟨hdue, htake⟩ := h.take hctrl hlist
  obtain ⟨r, hmgr, hr, hclocked, hevt, hctrl', hruns, hprocessed⟩ := htake.evtCb hctrl hcb
  have hbegun : s.begun = s.processed.length + 1 := by
    simp [EvtSys.begun, hctrl, EvtCtrl.inTick]
  have hbegun' : t.begun = s.processed.length + 1 := by
    simp [EvtSys.begun, hctrl', hprocessed, EvtCtrl.inTick]
  have hpast : j * p.period.toNat ≤ (s.processed.length - p.tick) * interval.toNat := by
    obtain rfl | ⟨-, hle⟩ := ht.past
    · simp
    · rwa [hbegun, Nat.add_sub_cancel] at hle
  rw [hbegun, Nat.add_sub_cancel] at hbelow
  obtain hw | he := ht.next
  · obtain ⟨d, hd, htick, hd'⟩ := hw.due_eq
    obtain rfl : s.processed.length = d := Option.some.inj (hdue.symm.trans hd)
    obtain ⟨hjiffies, hcurrent⟩ := h.now (by rw [hctrl]; rfl)
    rw [currentAt_of_le htime htick] at hcurrent
    obtain ⟨hpast', hout⟩ := hw.catchUp hperiod hbelow hpast hd' hcurrent hr
    refine ⟨_, j + r.count, hclocked, ?_, ?_, fun _ => by simp [hevt], .inr ⟨by omega, ?_⟩, ?_⟩
    · simpa [hevt] using ht.callback
    · have hcount := ht.count
      simp only [hctrl, EvtCtrl.left] at hcount
      simp only [hruns, hctrl', EvtCtrl.left, if_true]
      omega
    · rw [hbegun', Nat.add_sub_cancel]
      exact hpast'
    · rw [hevt, Function.update_self, Function.update_self]
      obtain ⟨hstop, hR⟩ | ⟨hstop, hslap, hnext, hrepeat, hmore, hlow⟩ := hout
      · exact .inr ⟨by simp [hstop], by simp [hstop], hR⟩
      · refine .inl ⟨by simp [hstop], hw.period_eq, hslap, hrepeat, hmore, ?_⟩
        obtain ⟨q, hq, hq1, hqle, hqlt⟩ := ItimerMgr.expires_eq (m := s.mgr)
          (p.time + (j + r.count + 1) * p.period.toNat) (by rwa [h.interval_eq]) hcurrent
          (by omega) (by rwa [h.interval_eq])
        rw [h.interval_eq] at hqlt
        refine ⟨s.processed.length + q, ?_, by omega, ?_⟩
        · have hahead := delay_ahead (.inr hbegun) hq1 hqle
          rw [hstop, if_neg (by simp), ← hahead, ← hq, ← hslap, ← hjiffies]
          rfl
        · rw [show s.processed.length + q - p.tick = s.processed.length - p.tick + q by omega,
            Nat.add_mul]
          omega
  · rw [he.mgr] at hmgr
    cases hmgr

def Follows (p : Started) (first : Nat) (interval : BitVec 32) (s : EvtSys) : Prop :=
  p.tick ≤ s.processed.length ∧ ∃ due, Clocked first interval s due ∧
    (p.Below interval (s.begun - 1 - p.tick) → ∃ j, p.Tracked interval s (due p.event) j)

theorem Follows.step {first : Nat} (h : p.Follows first interval s)
    (hinterval : interval ≠ 0#32) (hperiod : p.period ≠ 0#32)
    (htime : currentAt first interval p.tick = BitVec.ofNat 32 p.time) {a : EvtAct}
    (ha : a.touches p.event = false) (hstep : evtStep s a = some t) :
    p.Follows first interval t := by
  obtain ⟨htick, due, hdue, htracked⟩ := h
  obtain ⟨hbegun, hprocessed, due', hdue', hevents⟩ := hdue.step hstep
  refine ⟨by omega, ?_⟩
  obtain ⟨heq, hframe⟩ | ⟨millisec, jiffies, ns, hctrl, hlist, hcb⟩ := hevents p.event ha
  · refine ⟨due', hdue', fun hbelow => ?_⟩
    obtain ⟨j, hj⟩ := htracked (hbelow.mono (by omega))
    exact ⟨j, heq ▸ hj.frame hframe hbegun⟩
  · by_cases hbelow : p.Below interval (s.begun - 1 - p.tick)
    · obtain ⟨j, hj⟩ := htracked hbelow
      obtain ⟨due', j', hclocked, hj'⟩ :=
        hj.fire hdue hinterval hperiod htime hbelow hctrl hlist hcb
      exact ⟨due', hclocked, fun _ => ⟨j', hj'⟩⟩
    · exact ⟨due', hdue', fun hlow => absurd (hlow.mono (by omega)) hbelow⟩

theorem follows_start {first : Nat} {due : NodeId → Option Nat}
    (h : Clocked first interval s due) (hinterval : interval ≠ 0#32)
    (hupdated : s.ctrl.updated = false) {n : NodeId} {period : BitVec 32} (hperiod : period ≠ 0#32)
    (repeat_ : Int) (hcallback : (s.evt n).callback.isSome = true) (hleft : s.ctrl.left n = 0) :
    Follows ⟨n, period, repeat_, s.mgr.current.toNat, s.processed.length, s.runs n⟩ first interval
      (s.start n period repeat_) := by
  obtain ⟨hjiffies, -⟩ := h.now hupdated
  have hcurrent : s.mgr.current = BitVec.ofNat 32 s.mgr.current.toNat := by simp
  have hslap : s.mgr.current + period =
      BitVec.ofNat 32 (s.mgr.current.toNat + (0 + 1) * period.toNat) := by
    simp [BitVec.ofNat_add]
  have hevt : (s.start n period repeat_).evt n =
      { s.evt n with
        period := period, repeat_ := repeat_, slap := s.mgr.current + period, mgr := true
        running := false } := by
    simp [EvtSys.start, ItimerMgr.itimerEvtStart_eq]
  have hbegun : s.begun = s.processed.length ∨ s.begun = s.processed.length + 1 := by
    unfold EvtSys.begun
    split
    · exact .inr rfl
    · exact .inl rfl
  have hpos : 0 < period.toNat := BitVec.toNat_pos_of_ne_zero hperiod
  refine ⟨Nat.le_refl _, _, h.start n period repeat_, fun hbelow => ⟨0, ?_, ?_, fun hne => ?_,
    .inl rfl, .inl ⟨?_, ?_, ?_, ?_, ?_, ?_⟩⟩⟩
  · simpa [hevt] using hcallback
  · change s.runs n + s.ctrl.left n = _
    rw [hleft]
  · exact absurd hleft hne
  · simp [hevt]
  · simp [hevt]
  · rw [hevt, ← hslap]
  · simp [hevt]
  · omega
  · have hlow := hbelow.at_ (i := 0) hperiod (by simp) (by dsimp only; omega)
    dsimp only at hlow ⊢
    obtain ⟨q, hq, hq1, hqle, hqlt⟩ := ItimerMgr.expires_eq (m := s.mgr)
      (s.mgr.current.toNat + (0 + 1) * period.toNat) (by rwa [h.interval_eq]) hcurrent (by omega)
      (by rwa [h.interval_eq])
    have hahead := delay_ahead hbegun hq1 hqle
    rw [h.interval_eq] at hqlt
    rw [Function.update_self, hslap, hq, hjiffies]
    refine ⟨_, rfl, by omega, ?_⟩
    rw [hahead, Nat.add_sub_cancel_left]
    omega

theorem Tracked.runs_eq {first : Nat} {due : NodeId → Option Nat}
    (h : Clocked first interval s due) (ht : p.Tracked interval s (due p.event) j)
    (hperiod : p.period ≠ 0#32) (hout : s.ctrl.inTick = false)
    (hticks : s.processed.length = p.tick + ticks + 1) :
    s.runs p.event = p.runs +
      if 0 < p.repeat_ then min p.repeat_.toNat (ticks * interval.toNat / p.period.toNat)
      else ticks * interval.toNat / p.period.toNat := by
  have hpos : 0 < p.period.toNat := BitVec.toNat_pos_of_ne_zero hperiod
  have hbegun : s.begun = p.tick + ticks + 1 := by simp [EvtSys.begun, hout, hticks]
  have hleft : s.ctrl.left p.event = 0 := by
    cases hctrl : s.ctrl <;> simp [hctrl, EvtCtrl.inTick, EvtCtrl.left] at hout ⊢
  have hcount := ht.count
  rw [hleft, Nat.add_zero] at hcount
  rw [hcount, Nat.add_left_cancel_iff]
  have hpast : j * p.period.toNat ≤ ticks * interval.toNat := by
    obtain rfl | ⟨-, hle⟩ := ht.past
    · simp
    · rwa [hbegun, show p.tick + ticks + 1 - 1 - p.tick = ticks by omega] at hle
  have hle : j ≤ ticks * interval.toNat / p.period.toNat := (Nat.le_div_iff_mul_le hpos).mpr hpast
  obtain hw | he := ht.next
  · obtain ⟨d, hd, -, hlt⟩ := hw.due_eq
    -- the tick of which the event is due lies ahead
    have hd' : s.begun ≤ d := by
      cases hn : s.mgr.core.links.head p.event with
      | none =>
        rw [h.timed.idle _ hn] at hd
        cases hd
      | some place =>
        obtain ⟨e, he, hfit⟩ := h.timed.placed _ _ hn
        obtain rfl : d = e := Option.some.inj (hd.symm.trans he)
        cases place with
        | tv1 i => exact hfit.1
        | tvn k i => exact Nat.le_trans hfit.1 (Nat.mul_div_le d k.block)
        | queued => exact absurd hn (h.queued hout _)
    have hmul : (ticks + 1) * interval.toNat ≤ (d - p.tick) * interval.toNat :=
      Nat.mul_le_mul_right _ (by omega)
    have hdiv : ticks * interval.toNat / p.period.toNat < j + 1 := by
      rw [Nat.div_lt_iff_lt_mul hpos]
      rw [Nat.succ_mul] at hmul
      omega
    have hmore := hw.more
    split <;> omega
  · obtain ⟨hR, hj⟩ := he.repeat_eq
    rw [if_pos hR]
    omega

end Started

/-- An event that is started when `current` is `c₀`, and neither started again nor stopped, has run
once for each period from then to the last tick that was processed, or as often as it should. -/
theorem itimer_evt_count {millisec interval period : BitVec 32} {callback : NodeId → Option Nat}
    {data user : NodeId → Nat} {as bs : List EvtAct} {s s' t : EvtSys} {n : NodeId} {repeat_ : Int}
    (c₀ c ticks : Nat) (hinterval : interval ≠ 0#32) (hperiod : period ≠ 0#32)
    (hrun : Run.run evtStep (EvtSys.init millisec interval callback data user) as = some s)
    (hcallback : (s.evt n).callback.isSome = true)
    (hother : ∀ millisec jiffies count, s.ctrl ≠ .calling millisec jiffies n count)
    (hc₀ : s.mgr.current = BitVec.ofNat 32 c₀) (hc₀' : c₀ < 2 ^ 32)
    (hstart : evtStep s (.start n period repeat_) = some s')
    (huntouched : ∀ a ∈ bs, a.touches n = false) (hrun' : Run.run evtStep s' bs = some t)
    (hout : t.ctrl.inTick = false) (hticks : t.processed.length = s.processed.length + ticks + 1)
    (hc : c = c₀ + ticks * interval.toNat)
    (hbelow : ∀ k : Nat, k ≤ (c - c₀) / period.toNat + 1 → (0 < repeat_ → (k : Int) ≤ repeat_) →
      c₀ + k * period.toNat + interval.toNat ≤ 2 ^ 32 - 1) :
    t.processed.head? = some (BitVec.ofNat 32 c) ∧
      t.runs n = s.runs n +
        if 0 < repeat_ then min repeat_.toNat ((c - c₀) / period.toNat)
        else (c - c₀) / period.toNat := by
  subst hc
  rw [Nat.add_sub_cancel_left] at hbelow ⊢
  obtain ⟨due, hdue⟩ := clocked_of_run hinterval hrun
  simp only [evtStep, Option.ite_none_right_eq_some, Option.some.injEq] at hstart
  obtain ⟨hopen, rfl⟩ := hstart
  have hctrl : s.ctrl.updated = false ∧ s.ctrl.left n = 0 := by
    cases hctrl : s.ctrl with
    | calling millisec jiffies m count =>
      have hm : m ≠ n := by
        rintro rfl
        exact hother _ _ _ hctrl
      simp [EvtCtrl.updated, EvtCtrl.left, hm]
    | _ => simp [EvtSys.open_, hctrl, EvtCtrl.updated, EvtCtrl.left] at hopen ⊢
  have htime : s.mgr.current.toNat = c₀ := by
    rw [hc₀, BitVec.toNat_ofNat, Nat.mod_eq_of_lt hc₀']
  have hfollows := Started.follows_start hdue hinterval hctrl.1 hperiod repeat_ hcallback hctrl.2
  rw [htime] at hfollows
  have hnow : currentAt millisec.toNat interval s.processed.length = BitVec.ofNat 32 c₀ :=
    (hdue.now hctrl.1).2.symm.trans hc₀
  obtain ⟨-, due', hdue', htracked⟩ := Run.run_invariant_of_meets
    (fun u a v hu ha hstep => Started.Follows.step hu hinterval hperiod hnow ha hstep) hfollows
    (Run.meets_of_forall huntouched _) hrun'
  have hbegun : t.begun - 1 - s.processed.length = ticks := by
    simp only [EvtSys.begun, hout, hticks]
    simp only [Bool.false_eq_true, if_false]
    omega
  obtain ⟨j, hj⟩ := htracked (by
    rw [hbegun]
    intro k hk hr
    have hlow := hbelow k hk hr
    dsimp only
    omega)
  refine ⟨?_, hj.runs_eq hdue' hperiod hout hticks⟩
  rw [hdue'.processed, hticks, List.range_succ, List.reverse_append]
  simp only [List.reverse_singleton, List.singleton_append, List.map_cons, List.head?_cons]
  rw [Started.currentAt_of_le (p := ⟨n, period, repeat_, c₀, s.processed.length, 0⟩) hnow
    (Nat.le_add_right _ _), Nat.add_sub_cancel_left]

/-- Up to the callback of event 2 in the tick of 110. -/
def startInside : List EvtAct :=
  [.start 2 10#32 1, .run 35#32] ++ List.replicate 8 .advance

/-- Event 1, started in the callback of event 2 with a period of 3, has run 6 times when the tick of
130 is processed. -/
theorem itimer_evt_count_inside : ∃ s s' t,
    Run.run evtStep (EvtSys.init 100#32 10#32 (fun n => some n) (fun _ => 0) (fun _ => 0))
      startInside = some s ∧ s.ctrl = .calling 35#32 1#32 2 0 ∧
    evtStep s (.start 1 3#32 0) = some s' ∧
    Run.run evtStep s' (List.replicate 27 .advance) = some t ∧
    t.processed.head? = some 130#32 ∧ t.runs 1 = 6 := by
  have hstarted : (Run.run evtStep (EvtSys.init 100#32 10#32 (fun n => some n) (fun _ => 0)
      (fun _ => 0)) startInside).map (fun s => (s.ctrl, s.mgr.current, s.processed.length,
        (s.evt 1).callback.isSome, s.runs 1)) =
      some (.calling 35#32 1#32 2 0, 110#32, 1, true, 0) := by
    decide +kernel
  have hdone : (Run.run evtStep (EvtSys.init 100#32 10#32 (fun n => some n) (fun _ => 0)
      (fun _ => 0)) (startInside ++ .start 1 3#32 0 :: List.replicate 27 .advance)).map
        (fun t => (t.ctrl.inTick, t.processed.length)) = some (false, 4) := by
    decide +kernel
  obtain ⟨t, ht, hout⟩ := Option.map_eq_some_iff.mp hdone
  obtain ⟨s, hs, ht⟩ := Run.run_append.mp ht
  obtain ⟨s', hstart, ht⟩ := Run.run_cons.mp ht
  rw [hs] at hstarted
  simp only [Option.map_some, Option.some.injEq, Prod.mk.injEq] at hstarted hout
  obtain ⟨hctrl, hcurrent, hlength, hcallback, hruns⟩ := hstarted
  obtain ⟨hhead, hcount⟩ := itimer_evt_count 110 130 2 (by decide) (by decide) hs hcallback
    (by simp [hctrl]) hcurrent (by decide) hstart (by decide) ht hout.1
    (by rw [hout.2, hlength]) rfl (by
      intro k hk _
      simp at hk ⊢
      omega)
  exact ⟨s, s', t, hs, hctrl, hstart, ht, hhead, by rw [hcount, hruns]; rfl⟩

end AlgorithmLib.TimeWheel
