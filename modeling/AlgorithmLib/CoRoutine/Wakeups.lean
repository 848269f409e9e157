import AlgorithmLib.CoRoutine.Waits

set_option autoImplicit false

namespace AlgorithmLib.CoRoutine

open LoopSys Run

inductive WaitEvent where
  | began (co : CoId) (n : Item)
  | woke (co : CoId) (n : Item)
  deriving DecidableEq, Repr

/-- What a step does to the waits. -/
def waitEvents (s : LoopSys) (a : LoopAct) : List WaitEvent :=
  match loopStep s a, a with
  | some s', .poll .. | some s', .timedwait .. =>
    match s.pCallStack with
    | self :: _ => if s'.waits self = some s.made then [.began self s.made] else []
    | [] => []
  | some _, .resume co =>
    match s.waits co with
    | some n => [.woke co n]
    | none => []
  | some s', .process =>
    match s.lists.list .active with
    | lp :: _ => if s'.waits (s.item lp).pArg = none then [.woke (s.item lp).pArg lp] else []
    | [] => []
  | _, _ => []

inductive WaitStep (s s' : LoopSys) : List WaitEvent → Prop where
  | same (hw : s'.waits = s.waits) (hm : s.made ≤ s'.made) : WaitStep s s' []
  | began (co : CoId) (hco : s.waits co = none)
      (hw : s'.waits = Function.update s.waits co (some s.made)) (hm : s'.made = s.made + 1) :
      WaitStep s s' [.began co s.made]
  | woke (co : CoId) (n : Item) (hco : s.waits co = some n)
      (hw : s'.waits = Function.update s.waits co none) (hm : s'.made = s.made) :
      WaitStep s s' [.woke co n]

variable {s s' : LoopSys} {a : LoopAct}

theorem coCondSignal_waits (s : LoopSys) (link : Nat) :
    (s.coCondSignal link).waits = s.waits ∧ (s.coCondSignal link).made = s.made := by
  rw [LoopSys.coCondSignal]
  split <;> exact ⟨rfl, rfl⟩

theorem coCondBroadcast_waits (s : LoopSys) (waiters link : Nat) :
    (LoopSys.coCondBroadcast waiters s link).waits = s.waits ∧
      (LoopSys.coCondBroadcast waiters s link).made = s.made := by
  induction waiters generalizing s with
  | zero => exact ⟨rfl, rfl⟩
  | succ waiters ih =>
    rw [LoopSys.coCondBroadcast]
    split
    · exact ⟨rfl, rfl⟩
    · obtain ⟨hw, hm⟩ := ih (s.coCondSignal link)
      obtain ⟨hw', hm'⟩ := coCondSignal_waits s link
      exact ⟨hw.trans hw', hm.trans hm'⟩

theorem turn_waits (s : LoopSys) (events : List EpollEvent) (now : Nat) :
    (s.turn events now).waits = s.waits ∧ (s.turn events now).made = s.made := by
  have hprep : ∀ s : LoopSys, (events.foldl LoopSys.onPollPreparePfn s).waits = s.waits ∧
      (events.foldl LoopSys.onPollPreparePfn s).made = s.made := by
    induction events with
    | nil => exact fun s => ⟨rfl, rfl⟩
    | cons e events ih =>
      intro s
      obtain ⟨hw, hm⟩ := ih (s.onPollPreparePfn e)
      rw [List.foldl_cons, hw, hm, LoopSys.onPollPreparePfn]
      dsimp only
      split <;> exact ⟨rfl, rfl⟩
  exact hprep s

theorem newItem_waitStep (h : s.Inv) (i : TimeoutItem)
    (hstack : ∃ rest, s.pCallStack = i.pArg :: rest) :
    WaitStep s (s.newItem i) (if (s.newItem i).waits i.pArg = some s.made
      then [.began i.pArg s.made] else []) := by
  obtain ⟨rest, hstack⟩ := hstack
  have hnone : s.waits i.pArg = none := (h.awake i.pArg (by simp [hstack])).1
  have hne : (s.newItem i).waits i.pArg ≠ some s.made := by
    have he : (s.newItem i).waits i.pArg = s.waits i.pArg := rfl
    simp [he, hnone]
  rw [if_neg hne]
  exact .same rfl (Nat.le_succ _)

theorem started_waitStep (h : s.Inv) {i : TimeoutItem} {l : ItemLists} {c : Links Item Nat}
    {rest : List CoId} (hstack : s.pCallStack = i.pArg :: rest) :
    WaitStep s (s.started i l c rest) (if (s.started i l c rest).waits i.pArg = some s.made
      then [.began i.pArg s.made] else []) := by
  have hnone : s.waits i.pArg = none := (h.awake i.pArg (by simp [hstack])).1
  have hw : (s.started i l c rest).waits = Function.update s.waits i.pArg (some s.made) := rfl
  rw [if_pos (by simp [hw])]
  exact .began i.pArg hnone hw rfl

theorem resumeWait_waits (s : LoopSys) (co : CoId) (n : Item) :
    (s.resumeWait co n).waits = Function.update s.waits co none ∧
      (s.resumeWait co n).made = s.made ∧ (s.resumeWait co n).pTimeout = s.pTimeout := by
  rw [resumeWait]
  dsimp only
  split <;> exact ⟨rfl, rfl, rfl⟩

theorem loopStep_waitStep (h : s.Inv) (hs : loopStep s a = some s') :
    WaitStep s s' (waitEvents s a) := by
  unfold waitEvents
  rw [hs]
  cases a with
  | resume co =>
    obtain ⟨-, -, ⟨hw, rfl⟩ | ⟨n, hw, rfl⟩⟩ := LoopSys.resume_cases hs
    · simp only [hw]
      exact .same rfl (le_refl _)
    · simp only [hw]
      obtain ⟨hwaits, hmade, _⟩ := resumeWait_waits s co n
      exact .woke co n hw hwaits hmade
  | yield =>
    obtain ⟨co, last, rest, _, rfl⟩ := LoopSys.coYieldEnv_eq hs
    exact .same rfl (le_refl _)
  | finish =>
    obtain ⟨co, rest, -, rfl⟩ := LoopSys.finish_cases hs
    exact .same rfl (le_refl _)
  | poll nfds timeout now =>
    rw [loopStep, Option.ite_none_right_eq_some] at hs
    obtain ⟨rest, i, hstack, _, _, _, rfl | ⟨l, _, rfl⟩⟩ := h.coPoll_cases hs.2
    · simp only [hstack]
      exact newItem_waitStep h i ⟨rest, hstack⟩
    · simp only [hstack]
      exact started_waitStep h hstack
  | timedwait link ms now =>
    rw [loopStep, Option.ite_none_right_eq_some] at hs
    obtain ⟨rest, i, hstack, _, _, rfl | ⟨l, _, rfl⟩⟩ := h.coCondTimedwait_cases hs.2
    · simp only [hstack]
      exact newItem_waitStep h i ⟨rest, hstack⟩
    · simp only [hstack]
      exact started_waitStep h hstack
  | signal link =>
    rw [loopStep, Option.ite_none_right_eq_some, Option.some.injEq] at hs
    obtain ⟨hw, hm⟩ := coCondSignal_waits s link
    rw [hs.2] at hw hm
    exact .same hw hm.ge
  | broadcast link =>
    rw [loopStep, Option.ite_none_right_eq_some, Option.some.injEq] at hs
    obtain ⟨hw, hm⟩ := coCondBroadcast_waits s (s.conds.list link).length link
    rw [hs.2] at hw hm
    exact .same hw hm.ge
  | turn events now =>
    rw [loopStep, Option.ite_none_right_eq_some, Option.some.injEq] at hs
    obtain ⟨hw, hm⟩ := turn_waits s events now
    rw [hs.2] at hw hm
    exact .same hw hm.ge
  | process =>
    obtain ⟨now, -, -, ⟨hl, rfl⟩ | ⟨n, ns, hl, ⟨-, d, -, -, rfl⟩ | ⟨-, hw, rfl⟩⟩⟩ := h.loop_cases hs
    · simp only [hl]
      exact .same rfl (le_refl _)
    · simp only [hl]
      have hn : s.Linked n := .inl (by simp [(h.lists_wf.mem_iff .active n).mp (by simp [hl])])
      have hsame : (s.readded n d).waits = s.waits := rfl
      rw [hsame, if_neg (by simp [h.linked n hn])]
      exact .same rfl (le_refl _)
    · simp only [hl]
      rw [if_pos (by simp [LoopSys.woken])]
      exact .woke _ n hw rfl rfl

/-- What the waits that have begun and ended say about the ones that are going on. -/
structure Told (s : LoopSys) (trace : List WaitEvent) : Prop where
  nodup : trace.Nodup
  order : Traced (fun pre e => ∀ co n, e = .woke co n → .began co n ∈ pre) trace
  old : ∀ co n, .began co n ∈ trace → n < s.made
  began : ∀ co n, .woke co n ∈ trace → .began co n ∈ trace
  waits : ∀ co n, s.waits co = some n ↔ .began co n ∈ trace ∧ .woke co n ∉ trace

theorem Told.step {trace es : List WaitEvent} (h : Told s trace) (hs : WaitStep s s' es) :
    Told s' (trace ++ es) := by
  cases hs with
  | same hw hm =>
    rw [List.append_nil]
    exact ⟨h.nodup, h.order, fun co n hb => Nat.lt_of_lt_of_le (h.old co n hb) hm, h.began,
      fun co n => by rw [hw]; exact h.waits co n⟩
  | began co hco hw hm =>
    have hfresh : ∀ c, WaitEvent.began c s.made ∉ trace := fun c hc =>
      absurd (h.old c s.made hc) (Nat.lt_irrefl _)
    have hunwoken : ∀ c, WaitEvent.woke c s.made ∉ trace := fun c hc =>
      hfresh c (h.began c s.made hc)
    refine ⟨List.nodup_append.mpr ⟨h.nodup, by simp, fun e he e' he' heq => ?_⟩,
      traced_concat h.order (fun c n he => by cases he), fun c n hb => ?_, fun c n hb => ?_,
      fun c n => ?_⟩
    · rw [List.mem_singleton] at he'
      exact hfresh co (he' ▸ heq ▸ he)
    · rw [List.mem_append, List.mem_singleton] at hb
      rcases hb with hb | hb
      · have := h.old c n hb
        omega
      · cases hb
        omega
    · rw [List.mem_append, List.mem_singleton] at hb ⊢
      rcases hb with hb | hb
      · exact .inl (h.began c n hb)
      · cases hb
    · rw [hw]
      simp only [List.mem_append, List.mem_singleton, reduceCtorEq, or_false,
        WaitEvent.began.injEq]
      by_cases hcc : c = co
      · subst hcc
        rw [Function.update_self, Option.some.injEq]
        constructor
        · rintro rfl
          exact ⟨.inr ⟨rfl, rfl⟩, hunwoken c⟩
        · rintro ⟨hb | ⟨_, rfl⟩, hwk⟩
          · have hwait := (h.waits c n).mpr ⟨hb, hwk⟩
            simp [hco] at hwait
          · rfl
      · rw [Function.update_of_ne hcc, h.waits]
        simp [hcc]
  | woke co n hco hw hm =>
    obtain ⟨hbegan, hnot⟩ := (h.waits co n).mp hco
    refine ⟨List.nodup_append.mpr ⟨h.nodup, by simp, fun e he e' he' heq => ?_⟩,
      traced_concat h.order (fun c m he => ?_), fun c m hb => ?_, fun c m hb => ?_,
      fun c m => ?_⟩
    · rw [List.mem_singleton] at he'
      exact hnot (he' ▸ heq ▸ he)
    · cases he
      exact hbegan
    · rw [hm]
      exact h.old c m (by simpa using hb)
    · rw [List.mem_append, List.mem_singleton] at hb ⊢
      rcases hb with hb | hb
      · exact .inl (h.began c m hb)
      · cases hb
        exact .inl hbegan
    · rw [hw]
      simp only [List.mem_append, List.mem_singleton, reduceCtorEq, or_false, not_or,
        WaitEvent.woke.injEq, not_and]
      by_cases hcc : c = co
      · subst hcc
        rw [Function.update_self]
        refine ⟨fun hf => absurd hf (by simp), fun hm => ?_⟩
        have hwait := (h.waits c m).mpr ⟨hm.1, hm.2.1⟩
        rw [hco, Option.some.injEq] at hwait
        exact absurd hwait.symm (hm.2.2 rfl)
      · rw [Function.update_of_ne hcc, h.waits]
        simp [hcc]

/-- A coroutine polls for 5 milliseconds, another one waits for a condition and is signalled; both
go on. -/
def polled : List LoopAct :=
  [.resume 1, .poll 1 5 10, .resume 2, .timedwait 7 3 10, .signal 7, .turn [] 12, .process, .yield,
    .process]

/-- Every wait ends at most once and after it has begun, and the coroutines that wait are the ones
whose wait has begun and not ended. -/
theorem waits_end_once {main : CoId} {iItemSize start : Nat} (hsize : 1 < iItemSize)
    (hint : iItemSize ≤ INT_MAX) (hstart : 0 < start) (hclock : start < 2 ^ 63) {as : List LoopAct}
    (hc : Meets loopStep Allowed (init main iItemSize start) as)
    (hrun : run loopStep (init main iItemSize start) as = some s) :
    Told s (collect loopStep waitEvents (init main iItemSize start) as) := by
  have h₀ : (init main iItemSize start).Inv ∧ Told (init main iItemSize start) [] :=
    ⟨inv_init main hsize hint hstart hclock, List.nodup_nil, traced_nil _, fun _ _ h => by simp at h,
      fun _ _ h => by simp at h, fun co n => by simp [init]⟩
  have htold := collect_invariant (p := fun s trace => s.Inv ∧ Told s trace)
    (fun s a t trace hp hgap ht =>
      ⟨loopStep_inv hp.1 hgap ht, hp.2.step (loopStep_waitStep hp.1 ht)⟩) h₀ hc hrun
  exact htold.2

theorem waits_end_once_polled :
    ∃ s, run loopStep (init 0 60000 10) (polled ++ [.turn [] 15, .process]) = some s ∧
      Told s (collect loopStep waitEvents (init 0 60000 10) (polled ++ [.turn [] 15, .process])) := by
  obtain ⟨s, hs⟩ := Option.isSome_iff_exists.mp
    (by decide : (run loopStep (init 0 60000 10) (polled ++ [.turn [] 15, .process])).isSome = true)
  exact ⟨s, hs, waits_end_once (by decide) (by decide) (by decide) (by decide) (by decide) hs⟩

theorem coCondSignal_pTimeout (s : LoopSys) (link : Nat) :
    (s.coCondSignal link).pTimeout = s.pTimeout := by
  rw [LoopSys.coCondSignal]
  split <;> rfl

theorem coCondBroadcast_pTimeout (s : LoopSys) (waiters link : Nat) :
    (LoopSys.coCondBroadcast waiters s link).pTimeout = s.pTimeout := by
  induction waiters generalizing s with
  | zero => rfl
  | succ waiters ih =>
    rw [LoopSys.coCondBroadcast]
    split
    · rfl
    · exact (ih (s.coCondSignal link)).trans (coCondSignal_pTimeout s link)

theorem loopStep_pTimeout (h : s.Inv) (hs : loopStep s a = some s')
    (ha : ∀ events now, a ≠ .turn events now) : s'.pTimeout = s.pTimeout := by
  cases a with
  | resume co =>
    obtain ⟨-, -, ⟨-, rfl⟩ | ⟨n, -, rfl⟩⟩ := LoopSys.resume_cases hs
    · rfl
    · exact (resumeWait_waits s co n).2.2
  | yield =>
    obtain ⟨co, last, rest, _, rfl⟩ := LoopSys.coYieldEnv_eq hs
    rfl
  | finish =>
    obtain ⟨co, rest, -, rfl⟩ := LoopSys.finish_cases hs
    rfl
  | poll nfds timeout now =>
    rw [loopStep, Option.ite_none_right_eq_some] at hs
    obtain ⟨rest, i, _, _, _, _, rfl | ⟨l, _, rfl⟩⟩ := h.coPoll_cases hs.2 <;> rfl
  | timedwait link ms now =>
    rw [loopStep, Option.ite_none_right_eq_some] at hs
    obtain ⟨rest, i, _, _, _, rfl | ⟨l, _, rfl⟩⟩ := h.coCondTimedwait_cases hs.2 <;> rfl
  | signal link =>
    rw [loopStep, Option.ite_none_right_eq_some, Option.some.injEq] at hs
    exact hs.2 ▸ coCondSignal_pTimeout s link
  | broadcast link =>
    rw [loopStep, Option.ite_none_right_eq_some, Option.some.injEq] at hs
    exact hs.2 ▸ coCondBroadcast_pTimeout s _ link
  | turn events now => exact absurd rfl (ha events now)
  | process =>
    obtain ⟨now, -, -, ⟨-, rfl⟩ | ⟨n, ns, -, ⟨-, d, -, -, rfl⟩ | ⟨-, -, rfl⟩⟩⟩ := h.loop_cases hs
    · rfl
    · rfl
    · rfl

theorem loopStep_mono (h : s.Inv) (ha : Allowed s a) (hs : loopStep s a = some s') :
    s.pTimeout.ullStart ≤ s'.pTimeout.ullStart := by
  by_cases hturn : ∃ events now, a = .turn events now
  · obtain ⟨events, now, rfl⟩ := hturn
    rw [loopStep, Option.ite_none_right_eq_some, Option.some.injEq] at hs
    obtain ⟨⟨_, _, he⟩, rfl⟩ := hs
    have hprep := h.prepareAll he
    rw [← LoopSys.prepareAll_pTimeout s events] at *
    have htook := Timeout.takeAllTimeout_took hprep.wheel hprep.lists_wf hprep.due
      (by rw [LoopSys.prepareAll_pTimeout]; exact ha.1) ha.2
    exact htook.mono
  · rw [loopStep_pTimeout h hs (fun events now he => hturn ⟨events, now, he⟩)]

/-- Once the clock of the loop has said `now`, a wait that has expired by then is not on the wheel
any more: its item is on the active list, unless it has no timeout. -/
theorem expired_off_wheel {main : CoId} {iItemSize start : Nat} (hsize : 1 < iItemSize)
    (hint : iItemSize ≤ INT_MAX) (hstart : 0 < start) (hclock : start < 2 ^ 63) {as bs : List LoopAct}
    {events : List EpollEvent} {now : Nat}
    (hc : Meets loopStep Allowed (init main iItemSize start) (as ++ .turn events now :: bs))
    (hrun : run loopStep (init main iItemSize start) (as ++ .turn events now :: bs) = some s)
    {co : CoId} {n : Item} (hw : s.waits co = some n) :
    now < (s.item n).ullExpireTime ∨ s.lists.head n = some .active ∨
      s.lists.head n = none ∧ (s.item n).ullExpireTime = 0 ∧
        ∃ link, (s.item n).waitFor = .cond link ∧ n ∈ s.conds.list link := by
  have hstep : ∀ s a t, s.Inv → Allowed s a → loopStep s a = some t → t.Inv :=
    fun s a t h hgap hs => loopStep_inv h hgap hs
  obtain ⟨m, hm, hrest⟩ := run_append.mp hrun
  obtain ⟨m', hm', hbs⟩ := run_cons.mp hrest
  obtain ⟨hcas, hcrest⟩ := (meets_append hm).mp hc
  have hinv := run_invariant_of_meets hstep (inv_init main hsize hint hstart hclock) hcas hm
  have hinv' := hstep _ _ _ hinv hcrest.1 hm'
  -- from the turn on, the wheel starts behind `now`
  have hseen : now ≤ m'.pTimeout.ullStart := by
    refine hinv'.seen now ?_
    rw [loopStep, Option.ite_none_right_eq_some, Option.some.injEq] at hm'
    rw [← hm'.2]
    rfl
  have hlater := run_invariant_of_meets (p := fun s => s.Inv ∧ now ≤ s.pTimeout.ullStart)
    (fun s a t h hgap hs => ⟨hstep s a t h.1 hgap hs, h.2.trans (loopStep_mono h.1 hgap hs)⟩)
    ⟨hinv', hseen⟩ (hcrest.tail hm') hbs
  obtain ⟨h, hnow⟩ := hlater
  obtain ⟨_, hlinked⟩ := h.waiting co n hw
  cases hhead : s.lists.head n with
  | none =>
    have hcond : s.conds.head n ≠ none := hlinked.resolve_left (by simp [hhead])
    obtain ⟨link, hlink⟩ := Option.ne_none_iff_exists'.mp hcond
    exact .inr (.inr ⟨rfl, h.untimed n link hlink hhead, link, h.cond n link hlink,
      (h.conds_wf.mem_iff link n).mpr hlink⟩)
  | some p =>
    cases p with
    | slot i => exact .inl (Nat.lt_of_le_of_lt hnow (h.due n i hhead))
    | timeout => exact absurd hhead (h.taken n)
    | active => exact .inr (.inl rfl)

theorem expired_off_wheel_polled :
    ∃ s, run loopStep (init 0 60000 10) (polled ++ .turn [] 15 :: []) = some s ∧
      s.waits 1 = some 0 ∧
      (15 < (s.item 0).ullExpireTime ∨ s.lists.head 0 = some .active ∨
        s.lists.head 0 = none ∧ (s.item 0).ullExpireTime = 0 ∧
          ∃ link, (s.item 0).waitFor = .cond link ∧ 0 ∈ s.conds.list link) := by
  have hwaits : (run loopStep (init 0 60000 10) (polled ++ .turn [] 15 :: [])).map
      (fun s => s.waits 1) = some (some 0) := by decide
  obtain ⟨s, hs, hw⟩ := Option.map_eq_some_iff.mp hwaits
  exact ⟨s, hs, hw, expired_off_wheel (by decide) (by decide) (by decide) (by decide) (by decide) hs
    hw⟩

/-- Epoll has reported something, or a signal has taken the waiter off its condition. -/
def Roused (s : LoopSys) (n : Item) : Prop :=
  0 < (s.item n).iRaiseCnt ∨ (∃ link, (s.item n).waitFor = .cond link) ∧ s.conds.head n = none

def Reasons (s : LoopSys) : Prop :=
  ∀ n, s.lists.head n = some .active → (s.item n).bTimeout = true ∨ Roused s n

inductive ItemStep (s s' : LoopSys) (a : LoopAct) (n : Item) : Prop where
  /-- nothing -/
  | kept (hl : s'.lists.head n = s.lists.head n) (hc : s'.conds.head n = s.conds.head n)
      (hi : s'.item n = s.item n)
  /-- it is put on a slot, or only on a condition -/
  | fresh (hl : s'.lists.head n ≠ some .active)
      (hc : ∀ link, (s'.item n).waitFor = .cond link →
        s'.conds.head n = some link ∨ ¬s'.Linked n)
  /-- `OnPollPreparePfn` -/
  | reported (hi : 0 < (s'.item n).iRaiseCnt) (hw : (s'.item n).waitFor = .poll)
  /-- `co_cond_signal` -/
  | signalled (link : Nat) (hc : s.conds.head n = some link)
      (ha : a = .signal link ∧ (s.conds.list link).head? = some n ∨ a = .broadcast link)
      (hl : s'.lists.head n = some .active) (hc' : s'.conds.head n = none)
      (hi : s'.item n = s.item n)
  /-- `TakeAllTimeout` -/
  | taken (i : Int) (hl : s.lists.head n = some (.slot i)) (hl' : s'.lists.head n = some .active)
      (hc : s'.conds.head n = s.conds.head n)
      (hi : s'.item n = { s.item n with bTimeout := true })
  /-- it has come up too early -/
  | readded (he : s.Early n) (hn : s.Linked n) (hl : s'.lists.head n ≠ some .active)
      (hc : s'.conds.head n = s.conds.head n)
      (hi : s'.item n = { s.item n with bTimeout := false })
  /-- the wait ends -/
  | ended (hl : ¬s'.Linked n)

theorem coCondSignal_itemStep (s : LoopSys) (link : Nat) (n : Item) (h : s.Inv) :
    (s.coCondSignal link).item = s.item ∧
    ((s.conds.list link).head? = some n ∧ s.conds.head n = some link ∧
        (s.coCondSignal link).lists.head n = some .active ∧
        (s.coCondSignal link).conds.head n = none ∨
      (s.conds.list link).head? ≠ some n ∧
        (s.coCondSignal link).lists.head n = s.lists.head n ∧
        (s.coCondSignal link).conds.head n = s.conds.head n) := by
  rw [LoopSys.coCondSignal]
  cases hl : s.conds.list link with
  | nil => exact ⟨rfl, .inr ⟨by simp, rfl, rfl⟩⟩
  | cons sp ns =>
    refine ⟨rfl, ?_⟩
    by_cases hn : n = sp
    · subst hn
      exact .inl ⟨rfl, (h.conds_wf.mem_iff link n).mp (by simp [hl]), by simp [LoopSys.activate],
        by simp [LoopSys.activate]⟩
    · exact .inr ⟨by simpa using Ne.symm hn, by simp [LoopSys.activate, hn],
        by simp [LoopSys.activate, hn]⟩

theorem coCondBroadcast_itemStep (h : s.Inv) (waiters link : Nat) (n : Item) :
    (LoopSys.coCondBroadcast waiters s link).item = s.item ∧
    (s.conds.head n = some link ∧
        (LoopSys.coCondBroadcast waiters s link).lists.head n = some .active ∧
        (LoopSys.coCondBroadcast waiters s link).conds.head n = none ∨
      (LoopSys.coCondBroadcast waiters s link).lists.head n = s.lists.head n ∧
        (LoopSys.coCondBroadcast waiters s link).conds.head n = s.conds.head n) := by
  induction waiters generalizing s with
  | zero => exact ⟨rfl, .inr ⟨rfl, rfl⟩⟩
  | succ waiters ih =>
    rw [LoopSys.coCondBroadcast]
    split
    · exact ⟨rfl, .inr ⟨rfl, rfl⟩⟩
    · obtain ⟨hi, hcases⟩ := ih (h.coCondSignal link)
      obtain ⟨hi', hcases'⟩ := coCondSignal_itemStep s link n h
      refine ⟨hi.trans hi', ?_⟩
      rcases hcases with ⟨hc, hl, hn⟩ | ⟨hl, hc⟩
      · rcases hcases' with ⟨_, hc', _, hn'⟩ | ⟨_, _, hc'⟩
        · exact .inl ⟨hc', hl, hn⟩
        · exact .inl ⟨hc'.symm.trans hc, hl, hn⟩
      · rcases hcases' with ⟨_, hc', hl', hn'⟩ | ⟨_, hl', hc'⟩
        · exact .inl ⟨hc', hl.trans hl', hc.trans hn'⟩
        · exact .inr ⟨hl.trans hl', hc.trans hc'⟩

theorem prepareAll_itemStep {events : List EpollEvent} (he : ∀ e ∈ events, s.Registered e)
    (n : Item) :
    (events.foldl LoopSys.onPollPreparePfn s).conds = s.conds ∧
    ((events.foldl LoopSys.onPollPreparePfn s).lists.head n = s.lists.head n ∧
        (events.foldl LoopSys.onPollPreparePfn s).item n = s.item n ∨
      0 < ((events.foldl LoopSys.onPollPreparePfn s).item n).iRaiseCnt ∧
        ((events.foldl LoopSys.onPollPreparePfn s).item n).waitFor = .poll) := by
  induction events generalizing s with
  | nil => exact ⟨rfl, .inl ⟨rfl, rfl⟩⟩
  | cons e events ih =>
    have hreg := he e List.mem_cons_self
    obtain ⟨hc, hcases⟩ := ih (s := s.onPollPreparePfn e) (fun e' he' => by
      rw [onPollPreparePfn_registered]
      exact he e' (List.mem_cons_of_mem e he'))
    have hc₁ : (s.onPollPreparePfn e).conds = s.conds := by
      rw [LoopSys.onPollPreparePfn]
      dsimp only
      split <;> rfl
    rw [List.foldl_cons]
    refine ⟨hc.trans hc₁, ?_⟩
    rcases hcases with ⟨hl, hi⟩ | hcases
    · rw [hl, hi, LoopSys.onPollPreparePfn]
      dsimp only
      by_cases hn : n = e.pPoll
      · subst hn
        right
        split <;> simp [setItem, LoopSys.activate, hreg.2]
      · left
        split <;> simp [setItem, LoopSys.activate, hn]
    · exact .inr hcases

theorem started_itemStep (h : s.Inv) {i : TimeoutItem} {l : ItemLists} {c : Links Item Nat}
    {rest : List CoId} (hl : l = s.lists ∨ s.OnWheel i l)
    (hc : i.waitFor = .poll ∧ c = s.conds ∨
      ∃ k, i.waitFor = .cond k ∧ c = s.conds.addTail s.made k) (n : Item) :
    ItemStep s (s.started i l c rest) a n := by
  obtain ⟨hnl, hnc⟩ := h.head_made
  by_cases hn : n = s.made
  · subst hn
    refine .fresh ?_ (fun link hlink => .inl ?_)
    · rcases hl with rfl | ⟨d, _, _, _, rfl⟩
      · simp [LoopSys.started, hnl]
      · simp [LoopSys.started, Timeout.slotAt]
    · have hfor : i.waitFor = .cond link := by
        simpa [LoopSys.started, LoopSys.newItem, setItem] using hlink
      rcases hc with ⟨hp, _⟩ | ⟨k, hk, rfl⟩
      · simp [hp] at hfor
      · rw [hfor, WaitFor.cond.injEq] at hk
        simp [LoopSys.started, hk]
  · refine .kept ?_ ?_ ?_
    · rcases hl with rfl | ⟨d, _, _, _, rfl⟩
      · rfl
      · simp [LoopSys.started, hn]
    · rcases hc with ⟨_, rfl⟩ | ⟨k, _, rfl⟩
      · rfl
      · simp [LoopSys.started, hn]
    · simp [LoopSys.started, LoopSys.newItem, setItem, hn]

theorem newItem_itemStep (h : s.Inv) (i : TimeoutItem) (n : Item) :
    ItemStep s (s.newItem i) a n := by
  by_cases hn : n = s.made
  · subst hn
    exact .ended h.not_linked_made
  · exact .kept rfl rfl (by simp [LoopSys.newItem, setItem, hn])

theorem woken_itemStep {co : CoId} {m : Item} (n : Item) : ItemStep s (s.woken co m) a n := by
  by_cases hn : n = m
  · subst hn
    exact .ended (by simp [Linked, LoopSys.woken])
  · exact .kept (by simp [LoopSys.woken, hn]) (by simp [LoopSys.woken, hn]) rfl

theorem loopStep_itemStep (h : s.Inv) (ha : Allowed s a) (hs : loopStep s a = some s')
    (n : Item) : ItemStep s s' a n := by
  cases a with
  | resume co =>
    obtain ⟨-, -, ⟨-, rfl⟩ | ⟨m, hw, rfl⟩⟩ := LoopSys.resume_cases hs
    · exact .kept rfl rfl rfl
    · rw [h.resumeWait_eq co (ha.2 m hw)]
      exact woken_itemStep n
  | yield =>
    obtain ⟨co, last, rest, _, rfl⟩ := LoopSys.coYieldEnv_eq hs
    exact .kept rfl rfl rfl
  | finish =>
    obtain ⟨co, rest, -, rfl⟩ := LoopSys.finish_cases hs
    exact .kept rfl rfl rfl
  | poll nfds timeout now =>
    rw [loopStep, Option.ite_none_right_eq_some] at hs
    obtain ⟨rest, i, _, _, hfor, _, rfl | ⟨l, hl, rfl⟩⟩ := h.coPoll_cases hs.2
    · exact newItem_itemStep h i n
    · exact started_itemStep h (.inr hl) (.inl ⟨hfor, rfl⟩) n
  | timedwait link ms now =>
    rw [loopStep, Option.ite_none_right_eq_some] at hs
    obtain ⟨rest, i, _, _, hfor, rfl | ⟨l, hl, rfl⟩⟩ := h.coCondTimedwait_cases hs.2
    · exact newItem_itemStep h i n
    · exact started_itemStep h (hl.imp And.left And.right) (.inr ⟨link, hfor, rfl⟩) n
  | signal link =>
    rw [loopStep, Option.ite_none_right_eq_some, Option.some.injEq] at hs
    obtain ⟨hi, ⟨hhead, hc, hl, hn⟩ | ⟨_, hl, hc⟩⟩ := coCondSignal_itemStep s link n h
    · rw [hs.2] at hi hl hn
      exact .signalled link hc (.inl ⟨rfl, hhead⟩) hl hn (by rw [hi])
    · rw [hs.2] at hi hl hc
      exact .kept hl hc (by rw [hi])
  | broadcast link =>
    rw [loopStep, Option.ite_none_right_eq_some, Option.some.injEq] at hs
    obtain ⟨hi, ⟨hc, hl, hn⟩ | ⟨hl, hc⟩⟩ := coCondBroadcast_itemStep h _ link n
    · rw [hs.2] at hi hl hn
      exact .signalled link hc (.inr rfl) hl hn (by rw [hi])
    · rw [hs.2] at hi hl hc
      exact .kept hl hc (by rw [hi])
  | turn events now =>
    rw [loopStep, Option.ite_none_right_eq_some, Option.some.injEq] at hs
    obtain ⟨⟨_, _, he⟩, rfl⟩ := hs
    obtain ⟨hc, hcases⟩ := prepareAll_itemStep he n
    have htake := (h.prepareAll he).takeTimeouts_cases now
      (by rw [LoopSys.prepareAll_pTimeout]; exact ha.1) ha.2 n
    have hconds : (s.turn events now).conds.head n = s.conds.head n := by
      have he : (s.turn events now).conds = (events.foldl LoopSys.onPollPreparePfn s).conds := rfl
      rw [he, hc]
    rw [← LoopSys.turn] at htake
    rcases hcases with ⟨hl, hi⟩ | ⟨hr, hw⟩
    · rw [hl, hi] at htake
      rcases htake with ⟨hl', hi'⟩ | ⟨⟨i, hslot⟩, hl', hi'⟩
      · exact .kept hl' hconds hi'
      · exact .taken i hslot hl' hconds hi'
    · rcases htake with ⟨_, hi'⟩ | ⟨_, _, hi'⟩
      · exact .reported (by rw [hi']; exact hr) (by rw [hi']; exact hw)
      · exact .reported (by rw [hi']; exact hr) (by rw [hi']; exact hw)
  | process =>
    obtain ⟨now, -, -, ⟨-, rfl⟩ | ⟨m, ns, hl, ⟨hearly, d, -, -, rfl⟩ | ⟨-, -, rfl⟩⟩⟩ :=
      h.loop_cases hs
    · exact .kept rfl rfl rfl
    · by_cases hn : n = m
      · subst hn
        have hm : s.Linked n := .inl (by simp [(h.lists_wf.mem_iff .active n).mp (by simp [hl])])
        exact .readded hearly hm (by simp [LoopSys.readded, Timeout.slotAt]) rfl
          (by simp [LoopSys.readded])
      · exact .kept (by simp [LoopSys.readded, hn]) rfl (by simp [LoopSys.readded, hn])
    · exact woken_itemStep n

theorem loopStep_reasons (h : s.Inv) (hr : Reasons s) (ha : Allowed s a)
    (hs : loopStep s a = some s') : Reasons s' := by
  intro n hn
  cases loopStep_itemStep h ha hs n with
  | kept hl hc hi =>
    have hold := hr n (hl ▸ hn)
    rwa [Roused, hi, hc]
  | fresh hl _ => exact absurd hn hl
  | reported hi _ => exact .inr (.inl hi)
  | signalled link hc _ _ hc' hi =>
    exact .inr (.inr ⟨⟨link, by rw [hi, h.cond n link hc]⟩, hc'⟩)
  | taken _ _ _ _ hi => exact .inl (by rw [hi])
  | readded _ _ hl _ _ => exact absurd hn hl
  | ended hl => exact absurd (.inl (by simp [hn])) hl

/-- No coroutine is woken by the loop but for an event that epoll has reported, for a signal, or
because its timeout has expired. -/
theorem woken_for_a_reason {main : CoId} {iItemSize start : Nat} (hsize : 1 < iItemSize)
    (hint : iItemSize ≤ INT_MAX) (hstart : 0 < start) (hclock : start < 2 ^ 63) {as : List LoopAct}
    (hc : Meets loopStep Allowed (init main iItemSize start) as) :
    Steps loopStep (fun s a _ => ∀ co n, a = .process → .woke co n ∈ waitEvents s a →
      Roused s n ∨ ∃ now, s.pc = .processing now ∧ (s.item n).ullExpireTime ≤ now)
      (init main iItemSize start) as := by
  have h₀ : (init main iItemSize start).Inv ∧ Reasons (init main iItemSize start) :=
    ⟨inv_init main hsize hint hstart hclock, fun n hn => by simp [init, Links.empty] at hn⟩
  refine steps_of_meets (p := fun s => s.Inv ∧ Reasons s) (fun s a s' hp hgap hs =>
    ⟨⟨loopStep_inv hp.1 hgap hs, loopStep_reasons hp.1 hp.2 hgap hs⟩, ?_⟩) h₀ hc
  rintro co n rfl hwoke
  obtain ⟨h, hr⟩ := hp
  unfold waitEvents at hwoke
  rw [hs] at hwoke
  obtain ⟨now, hpc, -, ⟨hl, rfl⟩ | ⟨m, ns, hl, hm⟩⟩ := h.loop_cases hs
  · simp [hl] at hwoke
  · simp only [hl] at hwoke
    have hactive : s.lists.head m = some .active :=
      (h.lists_wf.mem_iff .active m).mp (by simp [hl])
    have hlinked : s.Linked m := .inl (by simp [hactive])
    obtain ⟨-, d, -, -, rfl⟩ | ⟨hearly, -, rfl⟩ := hm
    · have hsame : (s.readded m d).waits = s.waits := rfl
      rw [hsame, if_neg (by simp [h.linked m hlinked])] at hwoke
      cases hwoke
    · split at hwoke
      · rw [List.mem_singleton] at hwoke
        cases hwoke
        rcases hr n hactive with hb | hroused
        · have hstart := (h.raised n hlinked hb).2
          rw [hpc, LoopPc.processing.injEq] at hstart
          refine .inr ⟨now, hpc, ?_⟩
          rw [hstart]
          exact Nat.le_of_not_lt fun hlt => hearly ⟨hb, hlt⟩
        · exact .inl hroused
      · cases hwoke

theorem woken_for_a_reason_polled :
    Steps loopStep (fun s a _ => ∀ co n, a = .process → .woke co n ∈ waitEvents s a →
      Roused s n ∨ ∃ now, s.pc = .processing now ∧ (s.item n).ullExpireTime ≤ now)
      (init 0 60000 10) (polled ++ [.turn [] 15, .process]) :=
  woken_for_a_reason (by decide) (by decide) (by decide) (by decide) (by decide)

/-- No waiter is signalled whose timeout, too long for the wheel, has just come up there and not been
put back yet. -/
def SparesEarly (s : LoopSys) : LoopAct → Prop
  | .signal link => ∀ n ∈ (s.conds.list link).head?, ¬s.Early n
  | .broadcast link => ∀ n ∈ s.conds.list link, ¬s.Early n
  | _ => True

instance (s : LoopSys) : DecidablePred (SparesEarly s)
  | .signal link => inferInstanceAs (Decidable (∀ n ∈ (s.conds.list link).head?, ¬s.Early n))
  | .broadcast link => inferInstanceAs (Decidable (∀ n ∈ s.conds.list link, ¬s.Early n))
  | .resume _ | .yield | .finish | .poll .. | .timedwait .. | .turn .. | .process => .isTrue trivial

/-- A waiter that a signal has taken off its condition is on the active list to be woken. -/
def Heard (s : LoopSys) : Prop :=
  ∀ n link, s.Linked n → (s.item n).waitFor = .cond link → s.conds.head n = none →
    s.lists.head n = some .active ∧ ¬s.Early n

theorem loopStep_heard (h : s.Inv) (hh : Heard s) (ha : Allowed s a) (hspare : SparesEarly s a)
    (hs : loopStep s a = some s') : Heard s' := by
  have hmono := loopStep_mono h ha hs
  -- the wheel only goes on, so an item that is not early does not become so
  have hlate : ∀ n, s'.item n = s.item n → ¬s.Early n → ¬s'.Early n := by
    rintro n hi hn ⟨hb, hlt⟩
    rw [hi] at hb hlt
    exact hn ⟨hb, by omega⟩
  intro n link hn hfor hnone
  cases loopStep_itemStep h ha hs n with
  | kept hl hc hi =>
    have hold : s.Linked n := by rwa [Linked, hl, hc] at hn
    obtain ⟨hactive, hearly⟩ := hh n link hold (hi ▸ hfor) (hc ▸ hnone)
    exact ⟨hl.trans hactive, hlate n hi hearly⟩
  | fresh _ hc =>
    rcases hc link hfor with hc | hc
    · simp [hnone] at hc
    · exact absurd hn hc
  | reported _ hw => simp [hw] at hfor
  | signalled k hc ha hl _ hi =>
    refine ⟨hl, hlate n hi ?_⟩
    rcases ha with ⟨rfl, hhead⟩ | rfl
    · exact hspare n hhead
    · exact hspare n ((h.conds_wf.mem_iff k n).mpr hc)
  | taken i hl _ hc hi =>
    rw [hi] at hfor
    have hactive := (hh n link (.inl (by simp [hl])) hfor (hc ▸ hnone)).1
    simp [hl] at hactive
  | readded he hold _ hc hi =>
    rw [hi] at hfor
    exact absurd he (hh n link hold hfor (hc ▸ hnone)).2
  | ended hl => exact absurd hn hl

/-- A condition wakes its waiters in the order in which they came, and a waiter that it has woken
is on the active list until it goes on. -/
theorem signalled_waits_active {main : CoId} {iItemSize start : Nat} (hsize : 1 < iItemSize)
    (hint : iItemSize ≤ INT_MAX) (hstart : 0 < start) (hclock : start < 2 ^ 63) {as : List LoopAct}
    (hc : Meets loopStep Allowed (init main iItemSize start) as)
    (hd : Meets loopStep SparesEarly (init main iItemSize start) as)
    (hrun : run loopStep (init main iItemSize start) as = some s) :
    (∀ link, (s.conds.list link).Pairwise (· < ·)) ∧
      ∀ co n link, s.waits co = some n → (s.item n).waitFor = .cond link →
        n ∈ s.conds.list link ∨ s.lists.head n = some .active ∧ ¬s.Early n := by
  have h₀ : (init main iItemSize start).Inv ∧ Heard (init main iItemSize start) :=
    ⟨inv_init main hsize hint hstart hclock, fun n _ hn => by simp [Linked, init, Links.empty] at hn⟩
  obtain ⟨h, hh⟩ := run_invariant_of_meets (p := fun s => s.Inv ∧ Heard s)
    (fun s a t hp hcond hs =>
      ⟨loopStep_inv hp.1 hcond.1 hs, loopStep_heard hp.1 hp.2 hcond.1 hcond.2 hs⟩)
    h₀ (meets_and hc hd) hrun
  refine ⟨h.sorted, fun co n link hw hfor => ?_⟩
  have hn := (h.waiting co n hw).2
  cases hcond : s.conds.head n with
  | none => exact .inr (hh n link hn hfor hcond)
  | some k =>
    have hk := h.cond n k hcond
    rw [hfor, WaitFor.cond.injEq] at hk
    exact .inl ((h.conds_wf.mem_iff link n).mpr (hk ▸ hcond))

theorem signalled_waits_active_polled :
    ∃ s, run loopStep (init 0 60000 10) (polled.take 5) = some s ∧
      (∀ link, (s.conds.list link).Pairwise (· < ·)) ∧
      ∀ co n link, s.waits co = some n → (s.item n).waitFor = .cond link →
        n ∈ s.conds.list link ∨ s.lists.head n = some .active ∧ ¬s.Early n := by
  obtain ⟨s, hs⟩ := Option.isSome_iff_exists.mp
    (by decide : (run loopStep (init 0 60000 10) (polled.take 5)).isSome = true)
  exact ⟨s, hs, signalled_waits_active (by decide) (by decide) (by decide) (by decide) (by decide)
    (by decide) hs⟩

/-- What is on a list is what is waited for: the loop resumes no freed item, and no coroutine that
runs or has ended, and the call stack stays inside its array. -/
theorem waits_iff_linked {main : CoId} {iItemSize start : Nat} (hsize : 1 < iItemSize)
    (hint : iItemSize ≤ INT_MAX) (hstart : 0 < start) (hclock : start < 2 ^ 63) {as : List LoopAct}
    (hc : Meets loopStep Allowed (init main iItemSize start) as)
    (hrun : run loopStep (init main iItemSize start) as = some s) :
    (∀ n, s.Linked n ↔ s.waits (s.item n).pArg = some n) ∧
      (∀ co n, s.waits co = some n →
        (s.item n).pArg = co ∧ co ∉ s.pCallStack ∧ s.cEnd co = false) ∧
      s.pCallStack.Nodup ∧ s.pCallStack.length ≤ MAX_CALLSTACK := by
  have h := run_invariant_of_meets (fun s a t h hgap hs => loopStep_inv h hgap hs)
    (inv_init main hsize hint hstart hclock) hc hrun
  refine ⟨fun n => ⟨h.linked n, fun hw => (h.waiting _ n hw).2⟩, fun co n hw => ?_, h.stack,
    h.room⟩
  refine ⟨(h.waiting co n hw).1, fun hco => ?_, ?_⟩
  · simp [(h.awake co hco).1] at hw
  · cases he : s.cEnd co with
    | false => rfl
    | true => simp [h.ended co he] at hw

theorem waits_iff_linked_polled :
    ∃ s, run loopStep (init 0 60000 10) polled = some s ∧
      (∀ n, s.Linked n ↔ s.waits (s.item n).pArg = some n) ∧
      (∀ co n, s.waits co = some n →
        (s.item n).pArg = co ∧ co ∉ s.pCallStack ∧ s.cEnd co = false) ∧
      s.pCallStack.Nodup ∧ s.pCallStack.length ≤ MAX_CALLSTACK := by
  obtain ⟨s, hs⟩ := Option.isSome_iff_exists.mp
    (by decide : (run loopStep (init 0 60000 10) polled).isSome = true)
  exact ⟨s, hs, waits_iff_linked (by decide) (by decide) (by decide) (by decide) (by decide) hs⟩

end AlgorithmLib.CoRoutine
