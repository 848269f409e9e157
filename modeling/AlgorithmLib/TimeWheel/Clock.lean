import AlgorithmLib.TimeWheel.Events
import AlgorithmLib.TimeWheel.Exact

set_option autoImplicit false

namespace AlgorithmLib.TimeWheel

namespace ItimerMgr

variable {m : ItimerMgr}

/-- The number of ticks to a due time that lies ahead, as long as that is not cut off. -/
theorem expires_eq {x : Nat} (slap : Nat) (hinterval : m.interval ≠ 0)
    (hcurrent : m.current = BitVec.ofNat 32 x) (hx : x < slap)
    (hslap : slap + m.interval.toNat < 2 ^ 32) :
    ∃ q, m.expires (BitVec.ofNat 32 slap) = BitVec.ofNat 32 q ∧ 1 ≤ q ∧ q ≤ 0x70000000 ∧
      q * m.interval.toNat < slap - x + m.interval.toNat := by
  have hpos : 0 < m.interval.toNat := BitVec.toNat_pos_of_ne_zero hinterval
  have hsum : (BitVec.ofNat 32 slap - m.current + m.interval - 1#32).toNat =
      slap - x + m.interval.toNat - 1 := by
    have hsub := ofNat_sub_ofNat (N := x) (d := slap) (by omega) (by omega)
    rw [BitVec.toNat_sub, BitVec.toNat_add, hcurrent, hsub]
    simp only [BitVec.toNat_ofNat]
    omega
  have hmul := Nat.div_mul_le_self (slap - x + m.interval.toNat - 1) m.interval.toNat
  have hone : 1 ≤ (slap - x + m.interval.toNat - 1) / m.interval.toNat :=
    (Nat.one_le_div_iff hpos).mpr (by omega)
  have hdiv : ((BitVec.ofNat 32 slap - m.current + m.interval - 1#32) / m.interval).toNat =
      (slap - x + m.interval.toNat - 1) / m.interval.toNat := by
    rw [BitVec.toNat_udiv, hsum]
  unfold expires
  dsimp only
  split
  · rename_i hge
    have hcut := BitVec.le_def.mp hge
    rw [hdiv, BitVec.toNat_ofNat] at hcut
    have hle := Nat.mul_le_mul_right m.interval.toNat hcut
    exact ⟨0x70000000, rfl, by omega, by omega, by omega⟩
  · rename_i hlt
    rw [ge_iff_le, BitVec.le_def, hdiv, BitVec.toNat_ofNat] at hlt
    refine ⟨(slap - x + m.interval.toNat - 1) / m.interval.toNat, ?_, hone, by omega, by omega⟩
    apply BitVec.eq_of_toNat_eq
    rw [hdiv, BitVec.toNat_ofNat, Nat.mod_eq_of_lt (by omega)]

end ItimerMgr

theorem delay_ahead {k q N : Nat} (hN : N = k ∨ N = k + 1) (hq : 1 ≤ q) (hle : q ≤ 0x70000000) :
    N + delay (BitVec.ofNat 32 k + BitVec.ofNat 32 q) (BitVec.ofNat 32 N) = k + q := by
  have hsub := ofNat_sub_ofNat (N := N) (d := k + q) (by omega) (by omega)
  rw [← BitVec.ofNat_add, delay, hsub, if_pos (by omega)]
  omega

namespace EvtCtrl

/-- The tick that `itimer_core_run` was called for. -/
def jiffies : EvtCtrl → Option (BitVec 32)
  | .idle => none
  | .running _ => none
  | .updating _ jiffies => some jiffies
  | .draining _ jiffies => some jiffies
  | .firing _ jiffies _ _ => some jiffies
  | .calling _ jiffies _ _ => some jiffies

/-- `itimer_core_run` may be about to return. -/
def updated : EvtCtrl → Bool
  | .updating .. => true
  | _ => false

/-- How many runs of the event are still due. -/
def left : EvtCtrl → NodeId → Nat
  | .firing _ _ n count, e => if n = e then count else 0
  | .calling _ _ n count, e => if n = e then count else 0
  | _, _ => 0

end EvtCtrl

namespace EvtSys

def begun (s : EvtSys) : Nat := s.processed.length + if s.ctrl.inTick then 1 else 0

end EvtSys

/-- `current` at the tick of this number. -/
def currentAt (first : Nat) (interval : BitVec 32) (tick : Nat) : BitVec 32 :=
  BitVec.ofNat 32 (first + tick * interval.toNat)

/-- The manager, the wheel and the clock agree on the tick; between the end of a tick in the core
and its end in the manager the core is one ahead. -/
structure Clocked (first : Nat) (interval : BitVec 32) (s : EvtSys) (due : NodeId → Option Nat) :
    Prop where
  interval_eq : s.mgr.interval = interval
  timed : Timed s.mgr.core s.begun due
  queued : s.ctrl.inTick = false → ∀ n, s.mgr.core.links.head n ≠ some .queued
  node : ∀ n, (s.mgr.core.node n).callback = some itimerEvtCb ∧ (s.mgr.core.node n).data = n
  clock : ∃ k, s.mgr.jiffies = BitVec.ofNat 32 k ∧ s.mgr.current = currentAt first interval k ∧
    (s.processed.length = k ∨ s.ctrl.updated = true ∧ s.processed.length = k + 1) ∧
    ∀ jiffies, s.ctrl.jiffies = some jiffies → jiffies = BitVec.ofNat 32 k
  processed : s.processed =
    (List.range s.processed.length).reverse.map (currentAt first interval)

theorem clocked_init (millisec interval : BitVec 32) (callback : NodeId → Option Nat)
    (data user : NodeId → Nat) :
    Clocked millisec.toNat (if interval < 1#32 then 1#32 else interval)
      (EvtSys.init millisec interval callback data user) (fun _ => none) := by
  refine ⟨rfl, timed_init 0#32 (fun _ => some itimerEvtCb), fun _ n h => ?_, fun n => ⟨rfl, rfl⟩,
    ⟨0, rfl, ?_, .inl rfl, fun _ h => ?_⟩, rfl⟩
  · cases h
  · simp [EvtSys.init, itimerMgrInit, currentAt]
  · cases h

structure Runs (s t : EvtSys) (n : NodeId) : Prop where
  evt : ∃ b, t.evt n = { s.evt n with running := b }
  count : (s.ctrl.left n ≠ 0 → (s.evt n).callback.isSome = true ∧ (s.evt n).running = true) →
    t.runs n + t.ctrl.left n = s.runs n + s.ctrl.left n
  running : t.ctrl.left n ≠ 0 → s.ctrl.left n ≠ 0 ∧ t.evt n = s.evt n

theorem runs_goto (s : EvtSys) (mgr : ItimerMgr) {ctrl : EvtCtrl} (processed : List (BitVec 32))
    {n : NodeId} (hleft : ctrl.left n = s.ctrl.left n) :
    Runs s { s with mgr := mgr, ctrl := ctrl, processed := processed } n :=
  ⟨⟨_, rfl⟩, fun _ => by rw [hleft], fun hne => ⟨hleft ▸ hne, rfl⟩⟩

namespace Clocked

variable {first : Nat} {interval : BitVec 32} {s : EvtSys} {due due' : NodeId → Option Nat}

theorem now (h : Clocked first interval s due) (hctrl : s.ctrl.updated = false) :
    s.mgr.jiffies = BitVec.ofNat 32 s.processed.length ∧
      s.mgr.current = currentAt first interval s.processed.length := by
  obtain ⟨k, hjiffies, hcurrent, hk | ⟨hupdated, -⟩, -⟩ := h.clock
  · exact hk ▸ ⟨hjiffies, hcurrent⟩
  · rw [hctrl] at hupdated
    cases hupdated

theorem relink (h : Clocked first interval s due) {core : ItimerCore}
    (htimed : Timed core s.begun due')
    (hqueued : ∀ n, core.links.head n = some .queued → s.mgr.core.links.head n = some .queued)
    (hnode : ∀ n, (core.node n).callback = (s.mgr.core.node n).callback ∧
      (core.node n).data = (s.mgr.core.node n).data) (evt : NodeId → ItimerEvt) :
    Clocked first interval { s with mgr := { s.mgr with core := core }, evt := evt } due' where
  interval_eq := h.interval_eq
  timed := htimed
  queued hc n hn := h.queued hc n (hqueued n hn)
  node n := by
    obtain ⟨hcallback, hdata⟩ := hnode n
    exact ⟨hcallback.trans (h.node n).1, hdata.trans (h.node n).2⟩
  clock := h.clock
  processed := h.processed

theorem goto (h : Clocked first interval s due) {ctrl : EvtCtrl} (runs : NodeId → Nat)
    (evt : NodeId → ItimerEvt) (htick : ctrl.inTick = s.ctrl.inTick)
    (hjiffies : ctrl.jiffies = s.ctrl.jiffies ∨ ctrl.jiffies = none ∨
      ctrl.jiffies = some s.mgr.jiffies)
    (hupdated : s.ctrl.updated = false) :
    Clocked first interval { s with ctrl := ctrl, runs := runs, evt := evt } due where
  interval_eq := h.interval_eq
  timed := by
    have hbegun : EvtSys.begun { s with ctrl := ctrl, runs := runs, evt := evt } = s.begun := by
      simp [EvtSys.begun, htick]
    rw [hbegun]
    exact h.timed
  queued hc := h.queued (htick ▸ hc)
  node := h.node
  clock := by
    obtain ⟨k, hk, hcurrent, hlen | ⟨hu, -⟩, hj⟩ := h.clock
    · refine ⟨k, hk, hcurrent, .inl hlen, fun jiffies hjs => ?_⟩
      obtain hsame | hnone | hmgr := hjiffies
      · exact hj jiffies (hsame ▸ hjs)
      · rw [show ctrl.jiffies = some jiffies from hjs] at hnone
        cases hnone
      · rw [show ctrl.jiffies = some jiffies from hjs, Option.some.injEq] at hmgr
        exact hmgr.trans hk
    · rw [hupdated] at hu
      cases hu
  processed := h.processed

theorem stop (h : Clocked first interval s due) (n : NodeId) :
    Clocked first interval (s.stop n)
      (if (s.evt n).mgr then Function.update due n none else due) := by
  rw [EvtSys.stop, ItimerMgr.itimerEvtStop_eq]
  cases (s.evt n).mgr with
  | false => exact h.relink h.timed (fun _ => id) (fun _ => ⟨rfl, rfl⟩) _
  | true =>
    exact h.relink (h.timed.itimerNodeDel n).1 (fun _ => itimerNodeDel_queued)
      (fun _ => by simp [s.mgr.core.itimerNodeDel_node n]) _

theorem start (h : Clocked first interval s due) (n : NodeId) (period : BitVec 32)
    (repeat_ : Int) :
    Clocked first interval (s.start n period repeat_)
      (Function.update due n (some (s.begun + delay
        (s.mgr.jiffies + s.mgr.expires (s.mgr.current + period)) (BitVec.ofNat 32 s.begun)))) := by
  have hstop := h.stop n
  rw [EvtSys.stop, ItimerMgr.itimerEvtStop_eq] at hstop
  have hadd := hstop.timed.itimerNodeAdd n
    (s.mgr.jiffies + s.mgr.expires (s.mgr.current + period))
  rw [hstop.timed.now] at hadd
  have hdue : Function.update (if (s.evt n).mgr then Function.update due n none else due) n =
      Function.update due n := by
    funext d
    split
    · rw [Function.update_idem]
    · rfl
  rw [EvtSys.start, ItimerMgr.itimerEvtStart_eq, ItimerMgr.itimerEvtStop_eq]
  rw [hdue] at hadd
  exact hstop.relink hadd (fun _ => itimerNodeAdd_queued) (fun m =>
    ⟨ItimerCore.itimerNodeAdd_callback _ n m _, ItimerCore.itimerNodeAdd_data _ n m _⟩) _

theorem run (h : Clocked first interval s due) (hidle : s.ctrl = .idle) (millisec : BitVec 32) :
    Clocked first interval
      { s with mgr := s.mgr.resync millisec, ctrl := .running millisec } due := by
  have hresync : ∃ m, s.mgr.resync millisec = { s.mgr with millisec := m } := by
    unfold ItimerMgr.resync
    dsimp only
    split
    · exact ⟨_, rfl⟩
    · split
      · exact ⟨_, rfl⟩
      · exact ⟨_, rfl⟩
  obtain ⟨m, hm⟩ := hresync
  rw [hm]
  have hgoto : Clocked first interval { s with ctrl := .running millisec } due :=
    h.goto s.runs s.evt (by rw [hidle]; rfl) (.inr (.inl rfl)) (by rw [hidle]; rfl)
  exact ⟨hgoto.interval_eq, hgoto.timed, hgoto.queued, hgoto.node, hgoto.clock, hgoto.processed⟩

/-- Whether `itimer_core_run` has processed its tick. -/
theorem slt_iff (h : Clocked first interval s due) {millisec jiffies : BitVec 32}
    (hctrl : s.ctrl = .updating millisec jiffies) :
    ∃ k, s.mgr.jiffies = BitVec.ofNat 32 k ∧ s.mgr.current = currentAt first interval k ∧
      jiffies = BitVec.ofNat 32 k ∧
      ((jiffies - s.mgr.core.timerJiffies).slt 0#32 = true ∧ s.processed.length = k + 1 ∨
        (jiffies - s.mgr.core.timerJiffies).slt 0#32 = false ∧ s.processed.length = k) := by
  obtain ⟨k, hk, hcurrent, hlen, hj⟩ := h.clock
  obtain rfl := hj jiffies (by rw [hctrl]; rfl)
  refine ⟨k, hk, hcurrent, rfl, ?_⟩
  have hbegun : s.begun = s.processed.length := by simp [EvtSys.begun, hctrl, EvtCtrl.inTick]
  rw [h.timed.now, hbegun]
  obtain hlen | ⟨-, hlen⟩ := hlen
  · refine .inr ⟨?_, hlen⟩
    rw [hlen, BitVec.sub_self]
    rfl
  · refine .inl ⟨?_, hlen⟩
    rw [slt_zero_iff, hlen, BitVec.toNat_sub, BitVec.toNat_ofNat, BitVec.toNat_ofNat]
    omega

theorem currentAt_succ (first : Nat) (interval : BitVec 32) (k : Nat) :
    currentAt first interval k + interval = currentAt first interval (k + 1) := by
  apply BitVec.eq_of_toNat_eq
  simp only [currentAt, BitVec.toNat_add, BitVec.toNat_ofNat, Nat.succ_mul]
  omega

theorem endTick (h : Clocked first interval s due) {millisec jiffies : BitVec 32}
    (hctrl : s.ctrl = .updating millisec jiffies)
    (hslt : (jiffies - s.mgr.core.timerJiffies).slt 0#32 = true) :
    Clocked first interval { s with mgr := s.mgr.endTick, ctrl := .running millisec } due := by
  obtain ⟨k, hk, hcurrent, -, ⟨-, hlen⟩ | ⟨hfalse, -⟩⟩ := h.slt_iff hctrl
  · have htimed := h.timed
    simp only [EvtSys.begun, hctrl, EvtCtrl.inTick] at htimed
    refine ⟨h.interval_eq, htimed, fun _ => h.queued (by rw [hctrl]; rfl), h.node,
      ⟨k + 1, ?_, ?_, .inl hlen, fun _ hj => (by cases hj)⟩, h.processed⟩
    · simp only [ItimerMgr.endTick, hk]
      exact (BitVec.ofNat_add k 1).symm
    · simp only [ItimerMgr.endTick, hcurrent, h.interval_eq]
      exact currentAt_succ first interval k
  · rw [hslt] at hfalse
    cases hfalse

theorem beginTick (h : Clocked first interval s due) {millisec jiffies : BitVec 32}
    (hctrl : s.ctrl = .updating millisec jiffies)
    (hslt : ¬ (jiffies - s.mgr.core.timerJiffies).slt 0#32 = true) :
    Clocked first interval
      { s with
        mgr := { s.mgr with core := s.mgr.core.beginTick }
        ctrl := .draining millisec jiffies } due := by
  obtain ⟨k, hk, hcurrent, hj, ⟨htrue, -⟩ | ⟨-, hlen⟩⟩ := h.slt_iff hctrl
  · exact (hslt htrue).elim
  · have htimed := h.timed.beginTick (h.queued (by rw [hctrl]; rfl))
    simp only [EvtSys.begun, hctrl, EvtCtrl.inTick] at htimed
    refine ⟨h.interval_eq, htimed, fun hc => (by cases hc), fun n => ?_,
      ⟨k, hk, hcurrent, .inl hlen, fun j hjs => ?_⟩, h.processed⟩
    · simp only [s.mgr.core.beginTick_node]
      exact h.node n
    · exact (Option.some.inj hjs).symm.trans hj

theorem endDrain (h : Clocked first interval s due) {millisec jiffies : BitVec 32}
    (hctrl : s.ctrl = .draining millisec jiffies) (hlist : s.mgr.core.links.list .queued = []) :
    Clocked first interval
      { s with
        ctrl := .updating millisec jiffies
        processed := s.mgr.current :: s.processed } due := by
  have hnow := h.now (by rw [hctrl]; rfl)
  have htimed := h.timed
  simp only [EvtSys.begun, hctrl, EvtCtrl.inTick, if_true] at htimed
  refine ⟨h.interval_eq, htimed, fun _ n hn => ?_, h.node,
    ⟨s.processed.length, hnow.1, hnow.2, .inr ⟨rfl, rfl⟩, fun j hj => ?_⟩, ?_⟩
  · have hmem := (h.timed.wf.mem_iff _ n).mpr hn
    rw [hlist] at hmem
    cases hmem
  · obtain ⟨k, hk, -, -, hjs⟩ := h.clock
    have hjk := hjs j (by rw [hctrl]; exact hj)
    rw [hjk, ← hk, hnow.1]
  · rw [List.length_cons, List.range_succ, List.reverse_append, List.map_append, ← h.processed,
      hnow.2]
    rfl

theorem take (h : Clocked first interval s due) {millisec jiffies : BitVec 32} {n : NodeId}
    {ns : List NodeId} (hctrl : s.ctrl = .draining millisec jiffies)
    (hlist : s.mgr.core.links.list .queued = n :: ns) :
    due n = some s.processed.length ∧
      Clocked first interval
        { s with
          mgr := { s.mgr with
            core := { s.mgr.core with links := s.mgr.core.links.unlink n } } }
        (Function.update due n none) := by
  have hn : s.mgr.core.links.head n = some .queued :=
    (h.timed.wf.mem_iff _ n).mp (by rw [hlist]; exact List.mem_cons_self)
  obtain ⟨d, hd, hfit⟩ := h.timed.placed n _ hn
  refine ⟨?_, h.relink (h.timed.unlink n) (fun m hm => ?_) (fun _ => ⟨rfl, rfl⟩) s.evt⟩
  · simp only [Fits, EvtSys.begun, hctrl, EvtCtrl.inTick, if_true] at hfit
    rw [hd, Nat.succ.inj hfit]
  · rw [Links.unlink_head] at hm
    split at hm
    · cases hm
    · exact hm

theorem evtCb (h : Clocked first interval s due) {t : EvtSys} {millisec jiffies : BitVec 32}
    {n : NodeId} (hctrl : s.ctrl = .draining millisec jiffies)
    (hcb : s.evtCb millisec jiffies n = some t) :
    ∃ r, (s.evt n).mgr = true ∧
      catchUp s.mgr.current (s.evt n).period catchUpTurns (s.evt n).slap (s.evt n).repeat_ 0 =
        some r ∧
      Clocked first interval t (Function.update due n (if r.stop then none else
        some (s.begun + delay (s.mgr.jiffies + s.mgr.expires r.slap)
          (BitVec.ofNat 32 s.begun)))) ∧
      t.evt = Function.update s.evt n
        { s.evt n with slap := r.slap, repeat_ := r.repeat_, mgr := !r.stop, running := true } ∧
      t.ctrl = .firing millisec jiffies n r.count ∧ t.runs = s.runs ∧
      t.processed = s.processed := by
  rw [EvtSys.evtCb] at hcb
  split at hcb
  · cases hcb
  · rename_i m' evt' r hexpire
    cases hcb
    obtain ⟨hmgr, hr, ⟨hstop, rfl, rfl⟩ | ⟨hstop, rfl, rfl⟩⟩ :=
      ItimerMgr.itimerEvtExpire_cases hexpire
    · refine ⟨r, hmgr, hr, ?_, by simp [hstop], rfl, rfl, rfl⟩
      rw [hstop, if_pos rfl]
      exact (h.relink (h.timed.itimerNodeDel n).1 (fun _ => itimerNodeDel_queued)
        (fun _ => by simp [s.mgr.core.itimerNodeDel_node n]) s.evt).goto s.runs _
          (by simp [hctrl, EvtCtrl.inTick]) (.inl (by simp [hctrl, EvtCtrl.jiffies]))
          (by simp [hctrl, EvtCtrl.updated])
    · refine ⟨r, hmgr, hr, ?_, by simp [hstop, hmgr], rfl, rfl, rfl⟩
      have hadd := h.timed.itimerNodeAdd n (s.mgr.jiffies + s.mgr.expires r.slap)
      rw [h.timed.now] at hadd
      rw [hstop, if_neg (by simp)]
      exact (h.relink hadd (fun _ => itimerNodeAdd_queued) (fun m =>
        ⟨ItimerCore.itimerNodeAdd_callback _ n m _, ItimerCore.itimerNodeAdd_data _ n m _⟩)
          s.evt).goto s.runs _ (by simp [hctrl, EvtCtrl.inTick])
          (.inl (by simp [hctrl, EvtCtrl.jiffies])) (by simp [hctrl, EvtCtrl.updated])

/-- What `itimer_mgr_run` does next: it takes an event off the due nodes, or leaves all as they are
but for one that runs. -/
theorem advance (h : Clocked first interval s due) {t : EvtSys} (hstep : s.advance = some t) :
    s.begun ≤ t.begun ∧ s.processed.length ≤ t.processed.length ∧
      ((Clocked first interval t due ∧ ∀ n, Runs s t n) ∨
        ∃ millisec jiffies n ns, s.ctrl = .draining millisec jiffies ∧
          s.mgr.core.links.list .queued = n :: ns ∧
          EvtSys.evtCb { s with mgr := { s.mgr with
            core := { s.mgr.core with links := s.mgr.core.links.unlink n } } } millisec jiffies n =
              some t) := by
  rw [EvtSys.advance] at hstep
  split at hstep
  · cases hstep
  · rename_i millisec hctrl
    split at hstep
    · cases hstep
      exact ⟨by simp [EvtSys.begun, hctrl, EvtCtrl.inTick], Nat.le_refl _,
        .inl ⟨h.goto s.runs s.evt (by rw [hctrl]; rfl) (.inr (.inr rfl)) (by rw [hctrl]; rfl),
          fun n => runs_goto s _ _ (by simp [hctrl, EvtCtrl.left])⟩⟩
    · cases hstep
      exact ⟨by simp [EvtSys.begun, hctrl, EvtCtrl.inTick], Nat.le_refl _,
        .inl ⟨h.goto s.runs s.evt (by rw [hctrl]; rfl) (.inr (.inl rfl)) (by rw [hctrl]; rfl),
          fun n => runs_goto s _ _ (by simp [hctrl, EvtCtrl.left])⟩⟩
  · rename_i millisec jiffies hctrl
    split at hstep
    · rename_i hslt
      cases hstep
      exact ⟨by simp [EvtSys.begun, hctrl, EvtCtrl.inTick], Nat.le_refl _,
        .inl ⟨h.endTick hctrl hslt, fun n => runs_goto s _ _ (by simp [hctrl, EvtCtrl.left])⟩⟩
    · rename_i hslt
      cases hstep
      exact ⟨by simp [EvtSys.begun, hctrl, EvtCtrl.inTick], Nat.le_refl _,
        .inl ⟨h.beginTick hctrl hslt, fun n => runs_goto s _ _ (by simp [hctrl, EvtCtrl.left])⟩⟩
  · rename_i millisec jiffies hctrl
    split at hstep
    · rename_i hlist
      cases hstep
      exact ⟨by simp [EvtSys.begun, hctrl, EvtCtrl.inTick], by simp,
        .inl ⟨h.endDrain hctrl hlist, fun n => runs_goto s _ _ (by simp [hctrl, EvtCtrl.left])⟩⟩
    · rename_i n ns hlist
      obtain ⟨hcallback, hdata⟩ := h.node n
      simp only [hcallback, hdata, Option.isSome_some, if_true] at hstep
      obtain ⟨r, -, -, -, -, hctrl', -, hprocessed⟩ := (h.take hctrl hlist).2.evtCb hctrl hstep
      exact ⟨by simp [EvtSys.begun, hctrl, hctrl', hprocessed, EvtCtrl.inTick],
        by rw [hprocessed], .inr ⟨millisec, jiffies, n, ns, hctrl, hlist, hstep⟩⟩
  · rename_i millisec jiffies n hctrl
    cases hstep
    refine ⟨by simp [EvtSys.begun, hctrl, EvtCtrl.inTick], Nat.le_refl _, .inl
      ⟨h.goto s.runs _ (by rw [hctrl]; rfl) (.inl (by rw [hctrl]; rfl)) (by rw [hctrl]; rfl),
        fun m => ⟨?_, fun _ => by simp [hctrl, EvtCtrl.left], fun hne => absurd rfl hne⟩⟩⟩
    by_cases hm : m = n
    · exact ⟨false, by simp [hm]⟩
    · exact ⟨(s.evt m).running, by simp [hm]⟩
  · rename_i millisec jiffies n count hctrl
    split at hstep
    · cases hstep
      refine ⟨by simp [EvtSys.begun, hctrl, EvtCtrl.inTick], Nat.le_refl _, .inl
        ⟨h.goto _ s.evt (by rw [hctrl]; rfl) (.inl (by rw [hctrl]; rfl)) (by rw [hctrl]; rfl),
          fun m => ⟨⟨_, rfl⟩, fun _ => ?_, fun hne => ⟨?_, rfl⟩⟩⟩⟩
      · by_cases hm : n = m
        · subst hm
          simp only [hctrl, EvtCtrl.left, if_true, Function.update_self]
          omega
        · simp [hctrl, EvtCtrl.left, hm, Ne.symm hm]
      · simp only [EvtCtrl.left, ne_eq, ite_eq_right_iff, Classical.not_imp] at hne
        simp [hctrl, EvtCtrl.left, hne.1]
    · rename_i hoff
      cases hstep
      refine ⟨by simp [EvtSys.begun, hctrl, EvtCtrl.inTick], Nat.le_refl _, .inl
        ⟨h.goto s.runs s.evt (by rw [hctrl]; rfl) (.inl (by rw [hctrl]; rfl)) (by rw [hctrl]; rfl),
          fun m => ⟨⟨_, rfl⟩, fun hcan => ?_, fun hne => ?_⟩⟩⟩
      · by_cases hm : n = m
        · -- a run that is left has a callback, and the event is still running
          subst hm
          obtain ⟨hcallback, hrunning⟩ := hcan (by simp [hctrl, EvtCtrl.left])
          simp [hcallback, hrunning] at hoff
        · simp [hctrl, EvtCtrl.left, hm]
      · simp [EvtCtrl.left] at hne
  · rename_i millisec jiffies n count hctrl
    cases hstep
    exact ⟨by simp [EvtSys.begun, hctrl, EvtCtrl.inTick], Nat.le_refl _, .inl
      ⟨h.goto s.runs s.evt (by rw [hctrl]; rfl) (.inl (by rw [hctrl]; rfl)) (by rw [hctrl]; rfl),
        fun m => runs_goto s _ _ (by simp [hctrl, EvtCtrl.left])⟩⟩

theorem step (h : Clocked first interval s due) {t : EvtSys} {a : EvtAct}
    (hstep : evtStep s a = some t) :
    s.begun ≤ t.begun ∧ s.processed.length ≤ t.processed.length ∧
      ∃ due', Clocked first interval t due' ∧ ∀ n, a.touches n = false →
        (due' n = due n ∧ Runs s t n) ∨
          ∃ millisec jiffies ns, s.ctrl = .draining millisec jiffies ∧
            s.mgr.core.links.list .queued = n :: ns ∧
            EvtSys.evtCb { s with mgr := { s.mgr with
              core := { s.mgr.core with links := s.mgr.core.links.unlink n } } } millisec jiffies
                n = some t := by
  cases a with
  | start n period repeat_ =>
    simp only [evtStep, Option.ite_none_right_eq_some, Option.some.injEq] at hstep
    obtain ⟨-, rfl⟩ := hstep
    refine ⟨Nat.le_refl _, Nat.le_refl _, _, h.start n period repeat_, fun m hm => .inl ?_⟩
    have hmn : m ≠ n := by simpa [EvtAct.touches, eq_comm] using hm
    exact ⟨Function.update_of_ne hmn _ _, ⟨_, Function.update_of_ne hmn _ _⟩, fun _ => rfl,
      fun hne => ⟨hne, Function.update_of_ne hmn _ _⟩⟩
  | stop n =>
    simp only [evtStep, Option.ite_none_right_eq_some, Option.some.injEq] at hstep
    obtain ⟨-, rfl⟩ := hstep
    refine ⟨Nat.le_refl _, Nat.le_refl _, _, h.stop n, fun m hm => .inl ⟨?_, ?_⟩⟩
    · have hmn : m ≠ n := by simpa [EvtAct.touches, eq_comm] using hm
      split
      · exact Function.update_of_ne hmn _ _
      · rfl
    · have hmn : m ≠ n := by simpa [EvtAct.touches, eq_comm] using hm
      exact ⟨⟨_, Function.update_of_ne hmn _ _⟩, fun _ => rfl,
        fun hne => ⟨hne, Function.update_of_ne hmn _ _⟩⟩
  | run millisec =>
    simp only [evtStep, Option.ite_none_right_eq_some, Option.some.injEq] at hstep
    obtain ⟨hidle, rfl⟩ := hstep
    exact ⟨by simp [EvtSys.begun, hidle, EvtCtrl.inTick], Nat.le_refl _, due, h.run hidle millisec,
      fun m _ => .inl ⟨rfl, runs_goto s _ _ (by simp [hidle, EvtCtrl.left])⟩⟩
  | advance =>
    obtain ⟨hbegun, hprocessed, ⟨hclocked, hruns⟩ | ⟨millisec, jiffies, n, ns, hctrl, hlist, hcb⟩⟩ :=
      h.advance hstep
    · exact ⟨hbegun, hprocessed, due, hclocked, fun n _ => .inl ⟨rfl, hruns n⟩⟩
    · obtain ⟨r, -, -, hclocked, hevt, hctrl', hruns, -⟩ :=
        (h.take hctrl hlist).2.evtCb hctrl hcb
      refine ⟨hbegun, hprocessed, _, hclocked, fun m _ => ?_⟩
      by_cases hm : m = n
      · exact .inr ⟨millisec, jiffies, ns, hctrl, hm ▸ hlist, hm ▸ hcb⟩
      · have hevt' : t.evt m = s.evt m := by rw [hevt, Function.update_of_ne hm]
        refine .inl ⟨?_, ⟨_, hevt'⟩, fun _ => ?_, fun hne => ?_⟩
        · rw [Function.update_of_ne hm, Function.update_of_ne hm]
        · simp [hruns, hctrl, hctrl', EvtCtrl.left, Ne.symm hm]
        · simp [hctrl', EvtCtrl.left, Ne.symm hm] at hne

end Clocked

theorem clocked_of_run {millisec interval : BitVec 32} (hinterval : interval ≠ 0#32)
    {callback : NodeId → Option Nat} {data user : NodeId → Nat} {as : List EvtAct} {s : EvtSys}
    (h : Run.run evtStep (EvtSys.init millisec interval callback data user) as = some s) :
    ∃ due, Clocked millisec.toNat interval s due := by
  have hone : ¬ interval < 1#32 := by
    intro hlt
    have hlt' := BitVec.lt_def.mp hlt
    exact hinterval (BitVec.eq_of_toNat_eq (by simpa using hlt'))
  have hinit := clocked_init millisec interval callback data user
  rw [if_neg hone] at hinit
  refine Run.run_invariant (p := fun s => ∃ due, Clocked millisec.toNat interval s due)
    (fun s a t hs hstep => ?_) ⟨_, hinit⟩ h
  obtain ⟨due, hdue⟩ := hs
  obtain ⟨-, -, due', hdue', -⟩ := hdue.step hstep
  exact ⟨due', hdue'⟩

end AlgorithmLib.TimeWheel
