import AlgorithmLib.CoRoutine.EventLoop

set_option autoImplicit false

namespace AlgorithmLib.CoRoutine

namespace LoopSys

/-- The item is on the wheel, on the active list or on a condition. -/
def Linked (s : LoopSys) (n : Item) : Prop := s.lists.head n ≠ none ∨ s.conds.head n ≠ none

structure Inv (s : LoopSys) : Prop where
  lists_wf : s.lists.WF
  conds_wf : s.conds.WF
  wheel : s.pTimeout.Holds s.lists fun n => (s.item n).ullExpireTime
  size : 1 < s.pTimeout.iItemSize
  due : ∀ n i, s.lists.head n = some (.slot i) → s.pTimeout.ullStart < (s.item n).ullExpireTime
  taken : ∀ n, s.lists.head n ≠ some .timeout
  raised : ∀ n, s.Linked n → (s.item n).bTimeout = true →
    s.lists.head n = some .active ∧ s.pc = .processing s.pTimeout.ullStart
  seen : ∀ now, s.pc = .processing now → now ≤ s.pTimeout.ullStart
  waiting : ∀ co n, s.waits co = some n → (s.item n).pArg = co ∧ s.Linked n
  linked : ∀ n, s.Linked n → s.waits (s.item n).pArg = some n
  fresh : ∀ n, s.Linked n → n < s.made
  cond : ∀ n c, s.conds.head n = some c → (s.item n).waitFor = .cond c
  untimed : ∀ n c, s.conds.head n = some c → s.lists.head n = none →
    (s.item n).ullExpireTime = 0
  sorted : ∀ c, (s.conds.list c).Pairwise (· < ·)
  stack : s.pCallStack.Nodup
  room : s.pCallStack.length ≤ MAX_CALLSTACK
  awake : ∀ co ∈ s.pCallStack, s.waits co = none ∧ s.cEnd co = false
  ended : ∀ co, s.cEnd co = true → s.waits co = none

theorem inv_init (main : CoId) {iItemSize now : Nat} (hsize : 1 < iItemSize)
    (hint : iItemSize ≤ INT_MAX) (hnow : 0 < now) (hclock : now < 2 ^ 63) :
    (init main iItemSize now).Inv where
  lists_wf := Links.wf_empty
  conds_wf := Links.wf_empty
  wheel := ⟨Nat.lt_of_succ_lt hsize, Nat.lt_succ_of_le hint, hnow, hclock, le_refl _,
    Int.natCast_nonneg _, fun n i h => by simp [init, Links.empty] at h⟩
  size := hsize
  due n i h := by simp [init, Links.empty] at h
  taken n := by simp [init, Links.empty]
  raised n h := by simp [Linked, init, Links.empty] at h
  seen now h := by simp [init] at h
  waiting co n h := by simp [init] at h
  linked n h := by simp [Linked, init, Links.empty] at h
  fresh n h := by simp [Linked, init, Links.empty] at h
  cond n c h := by simp [init, Links.empty] at h
  untimed n c h := by simp [init, Links.empty] at h
  sorted c := by simp [init, Links.empty]
  stack := by simp [init]
  room := by simp [init, MAX_CALLSTACK]
  awake co _ := by simp [init]
  ended co h := by simp [init] at h

variable {s s' : LoopSys} {n : Item} {co : CoId}

theorem coYieldEnv_eq (h : s.coYieldEnv = some s') :
    ∃ co last rest, s.pCallStack = co :: last :: rest ∧
      s' = { s with pCallStack := last :: rest } := by
  rw [coYieldEnv] at h
  split at h
  · rename_i co last rest hstack
    exact ⟨co, last, rest, hstack, (Option.some.inj h).symm⟩
  · cases h

theorem Inv.room_of_cons (h : s.Inv) {rest : List CoId} (hstack : s.pCallStack = co :: rest) :
    rest.length ≤ MAX_CALLSTACK := by
  have hroom := h.room
  rw [hstack, List.length_cons] at hroom
  exact Nat.le_of_succ_le hroom

theorem Inv.pop (h : s.Inv) {rest : List CoId} (hstack : s.pCallStack = co :: rest) :
    ({ s with pCallStack := rest } : LoopSys).Inv :=
  { h with
    stack := (List.nodup_cons.mp (hstack ▸ h.stack)).2
    room := h.room_of_cons hstack
    awake := fun c hc => h.awake c (hstack ▸ List.mem_cons_of_mem co hc) }

theorem Inv.push (h : s.Inv) (hco : co ∉ s.pCallStack) (hwait : s.waits co = none)
    (hend : s.cEnd co = false) (hroom : s.pCallStack.length < MAX_CALLSTACK) :
    ({ s with pCallStack := co :: s.pCallStack } : LoopSys).Inv :=
  { h with
    stack := List.nodup_cons.mpr ⟨hco, h.stack⟩
    room := hroom
    awake := fun c hc => by
      rcases List.mem_cons.mp hc with rfl | hc
      · exact ⟨hwait, hend⟩
      · exact h.awake c hc }

theorem Inv.finish (h : s.Inv) {rest : List CoId} (hstack : s.pCallStack = co :: rest) :
    ({ s with cEnd := Function.update s.cEnd co true, pCallStack := rest } : LoopSys).Inv := by
  have hnd := List.nodup_cons.mp (hstack ▸ h.stack)
  refine { h.pop hstack with awake := fun c hc => ?_, ended := fun c hc => ?_ }
  · have hne : c ≠ co := fun he => hnd.1 (he ▸ hc)
    obtain ⟨hw, he⟩ := h.awake c (hstack ▸ List.mem_cons_of_mem co hc)
    exact ⟨hw, by simpa [hne] using he⟩
  · by_cases hco : c = co
    · rw [hco]
      exact (h.awake co (by simp [hstack])).1
    · exact h.ended c (by simpa [hco] using hc)

/-- What is read of an item is not changed, as long as it is on a list. -/
theorem Inv.setItem_of_not_linked (h : s.Inv) (hn : ¬s.Linked n) (i : TimeoutItem) :
    (s.setItem n i).Inv := by
  have hitem : ∀ m, s.Linked m → (s.setItem n i).item m = s.item m := fun m hm => by
    have hne : m ≠ n := fun he => hn (he ▸ hm)
    simp [setItem, hne]
  have hlist : ∀ m p, s.lists.head m = some p → s.Linked m := fun m p hm => .inl (by simp [hm])
  have hcond : ∀ m c, s.conds.head m = some c → s.Linked m := fun m p hm => .inr (by simp [hm])
  refine { h with wheel := { h.wheel with slot := fun m j hm => ?_ }
                  due := fun m j hm => ?_, raised := fun m hm => ?_, waiting := fun c m hm => ?_
                  linked := fun m hm => ?_, cond := fun m c hm => ?_
                  untimed := fun m c hm hl => ?_ }
  · rw [hitem m (hlist m _ hm)]
    exact h.wheel.slot m j hm
  · rw [hitem m (hlist m _ hm)]
    exact h.due m j hm
  · rw [hitem m hm]
    exact h.raised m hm
  · obtain ⟨hc, hl⟩ := h.waiting c m hm
    rw [hitem m hl]
    exact ⟨hc, hl⟩
  · rw [hitem m hm]
    exact h.linked m hm
  · rw [hitem m (hcond m c hm)]
    exact h.cond m c hm
  · rw [hitem m (hcond m c hm)]
    exact h.untimed m c hm hl

theorem Inv.not_linked_made (h : s.Inv) : ¬s.Linked s.made :=
  fun hl => absurd (h.fresh s.made hl) (Nat.lt_irrefl _)

theorem Inv.newItem (h : s.Inv) (i : TimeoutItem) : (s.newItem i).Inv :=
  { h.setItem_of_not_linked h.not_linked_made i with
    fresh := fun m hm => Nat.lt_succ_of_lt (h.fresh m hm) }

/-- The innermost coroutine waits in the item `n`, which has been put on lists. -/
theorem Inv.wait (h : s.Inv) {rest : List CoId} (hstack : s.pCallStack = co :: rest)
    (hn : ¬s.Linked n) (hlt : n < s.made) (harg : (s.item n).pArg = co)
    (hb : (s.item n).bTimeout = false) {l : ItemLists} {c : Links Item Nat} (hlwf : l.WF)
    (hcwf : c.WF) (hlists : ∀ m, m ≠ n → l.head m = s.lists.head m)
    (hconds : ∀ m, m ≠ n → c.head m = s.conds.head m)
    (hslot : ∀ p, l.head n = some p → ∃ d < s.pTimeout.iItemSize, p = s.pTimeout.slotAt d ∧
      s.pTimeout.ullStart + d ≤ (s.item n).ullExpireTime ∧
        s.pTimeout.ullStart < (s.item n).ullExpireTime)
    (hcond : ∀ k, c.head n = some k → (s.item n).waitFor = .cond k)
    (hsorted : ∀ k, (c.list k).Pairwise (· < ·)) (hlinked : l.head n ≠ none ∨ c.head n ≠ none)
    (huntimed : l.head n = none → (s.item n).ullExpireTime = 0) :
    ({ s with lists := l, conds := c, waits := Function.update s.waits co (some n)
              pCallStack := rest } : LoopSys).Inv := by
  have hold : ∀ m, m ≠ n → (l.head m ≠ none ∨ c.head m ≠ none ↔ s.Linked m) := by
    intro m hm
    rw [hlists m hm, hconds m hm]
    exact Iff.rfl
  have hco : s.waits co = none := (h.awake co (by simp [hstack])).1
  have hcend : s.cEnd co = false := (h.awake co (by simp [hstack])).2
  have hnd := List.nodup_cons.mp (hstack ▸ h.stack)
  refine { lists_wf := hlwf, conds_wf := hcwf, size := h.size, seen := h.seen
           wheel := { h.wheel with slot := fun m i hm => ?_ }
           due := fun m i hm => ?_, taken := fun m hm => ?_, raised := fun m hm hbt => ?_
           waiting := fun c' m hw => ?_, linked := fun m hm => ?_, fresh := fun m hm => ?_
           cond := fun m k hk => ?_, untimed := fun m k hk hm => ?_, sorted := hsorted
           stack := hnd.2, room := h.room_of_cons hstack, awake := fun c' hc' => ?_,
           ended := fun c' hc' => ?_ }
  · by_cases hmn : m = n
    · subst hmn
      obtain ⟨d, hd, he, hexp, _⟩ := hslot _ hm
      exact ⟨d, hd, he, hexp⟩
    · exact h.wheel.slot m i ((hlists m hmn).symm.trans hm)
  · by_cases hmn : m = n
    · subst hmn
      obtain ⟨_, _, _, _, hdue⟩ := hslot _ hm
      exact hdue
    · exact h.due m i ((hlists m hmn).symm.trans hm)
  · by_cases hmn : m = n
    · subst hmn
      obtain ⟨d, _, he, _⟩ := hslot _ hm
      simp [Timeout.slotAt] at he
    · exact h.taken m ((hlists m hmn).symm.trans hm)
  · by_cases hmn : m = n
    · subst hmn
      simp [hb] at hbt
    · have hr := h.raised m ((hold m hmn).mp hm) hbt
      exact ⟨(hlists m hmn).trans hr.1, hr.2⟩
  · by_cases hcc : c' = co
    · subst hcc
      simp only [Function.update_self, Option.some.injEq] at hw
      subst hw
      exact ⟨harg, hlinked⟩
    · simp only [Function.update_of_ne hcc] at hw
      obtain ⟨ha, hl⟩ := h.waiting c' m hw
      have hmn : m ≠ n := fun he => hn (he ▸ hl)
      exact ⟨ha, (hold m hmn).mpr hl⟩
  · by_cases hmn : m = n
    · subst hmn
      simp [harg]
    · have hw := h.linked m ((hold m hmn).mp hm)
      have hne : (s.item m).pArg ≠ co := fun he => by simp [he, hco] at hw
      simpa [hne] using hw
  · by_cases hmn : m = n
    · exact hmn ▸ hlt
    · exact h.fresh m ((hold m hmn).mp hm)
  · by_cases hmn : m = n
    · subst hmn
      exact hcond k hk
    · exact h.cond m k ((hconds m hmn).symm.trans hk)
  · by_cases hmn : m = n
    · subst hmn
      exact huntimed hm
    · exact h.untimed m k ((hconds m hmn).symm.trans hk) ((hlists m hmn).symm.trans hm)
  · have hne : c' ≠ co := fun he => hnd.1 (he ▸ hc')
    simp only [Function.update_of_ne hne]
    exact h.awake c' (hstack ▸ List.mem_cons_of_mem co hc')
  · have hne : c' ≠ co := fun he => by
      subst he
      exact absurd hc' (by simp [hcend])
    simp only [Function.update_of_ne hne]
    exact h.ended c' hc'

theorem Inv.activate (h : s.Inv) (hn : s.Linked n) {c : Links Item Nat} (hcwf : c.WF)
    (hconds : ∀ m, m ≠ n → c.head m = s.conds.head m)
    (hcond : ∀ k, c.head n = some k → s.conds.head n = some k)
    (hsorted : ∀ k, (c.list k).Pairwise (· < ·)) :
    (({ s with conds := c } : LoopSys).activate n).Inv := by
  have hhead : ∀ m, ((s.lists.unlink n).addTail n .active).head m =
      if m = n then some .active else s.lists.head m := by
    intro m
    rw [Links.addTail_head, Links.unlink_head]
    by_cases hmn : m = n <;> simp [hmn]
  have hold : ∀ m, (({ s with conds := c } : LoopSys).activate n).Linked m ↔ s.Linked m := by
    intro m
    by_cases hmn : m = n
    · subst hmn
      exact ⟨fun _ => hn, fun _ => .inl (by simp [LoopSys.activate])⟩
    · simp [Linked, LoopSys.activate, hmn, hconds m hmn]
  have hslot : ∀ m i, ((s.lists.unlink n).addTail n .active).head m = some (.slot i) →
      s.lists.head m = some (.slot i) := by
    intro m i hm
    rw [hhead] at hm
    by_cases hmn : m = n
    · simp [hmn] at hm
    · simpa [hmn] using hm
  refine { h with
    lists_wf := (h.lists_wf.unlink n).addTail (by simp) .active
    conds_wf := hcwf
    wheel := { h.wheel with slot := fun m i hm => h.wheel.slot m i (hslot m i hm) }
    due := fun m i hm => h.due m i (hslot m i hm)
    taken := fun m hm => ?_
    raised := fun m hm hb => ?_
    waiting := fun c' m hw => ⟨(h.waiting c' m hw).1, (hold m).mpr (h.waiting c' m hw).2⟩
    linked := fun m hm => h.linked m ((hold m).mp hm)
    fresh := fun m hm => h.fresh m ((hold m).mp hm)
    cond := fun m k hk => ?_
    untimed := fun m k hk hm => ?_
    sorted := hsorted }
  · simp only [LoopSys.activate, hhead] at hm
    by_cases hmn : m = n
    · simp [hmn] at hm
    · exact h.taken m (by simpa [hmn] using hm)
  · have hr := h.raised m ((hold m).mp hm) hb
    refine ⟨?_, hr.2⟩
    simp only [LoopSys.activate, hhead]
    by_cases hmn : m = n
    · simp [hmn]
    · simpa [hmn] using hr.1
  · by_cases hmn : m = n
    · subst hmn
      exact h.cond m k (hcond k hk)
    · exact h.cond m k ((hconds m hmn).symm.trans hk)
  · simp only [LoopSys.activate, hhead] at hm
    by_cases hmn : m = n
    · simp [hmn] at hm
    · exact h.untimed m k ((hconds m hmn).symm.trans hk) (by simpa [hmn] using hm)

theorem Inv.coCondSignal (h : s.Inv) (link : Nat) : (s.coCondSignal link).Inv := by
  rw [LoopSys.coCondSignal]
  cases hl : s.conds.list link with
  | nil => exact h
  | cons sp ns =>
    have hsp : s.conds.head sp = some link := (h.conds_wf.mem_iff link sp).mp (by simp [hl])
    refine h.activate (.inr (by simp [hsp])) (h.conds_wf.unlink sp) (fun m hm => by simp [hm])
      (fun k hk => by simp at hk) (fun k => ?_)
    exact (h.sorted k).sublist (Links.unlink_sublist _ _ _)

theorem Inv.coCondBroadcast (h : s.Inv) (waiters link : Nat) :
    (LoopSys.coCondBroadcast waiters s link).Inv := by
  induction waiters generalizing s with
  | zero => exact h
  | succ waiters ih =>
    rw [LoopSys.coCondBroadcast]
    split
    · exact h
    · exact ih (h.coCondSignal link)

theorem Inv.report (h : s.Inv) (n : Item) {i : TimeoutItem}
    (hexp : i.ullExpireTime = (s.item n).ullExpireTime) (hb : i.bTimeout = (s.item n).bTimeout)
    (harg : i.pArg = (s.item n).pArg) (hfor : i.waitFor = (s.item n).waitFor) :
    (s.setItem n i).Inv := by
  have hitem : ∀ m, ((s.setItem n i).item m).ullExpireTime = (s.item m).ullExpireTime ∧
      ((s.setItem n i).item m).bTimeout = (s.item m).bTimeout ∧
      ((s.setItem n i).item m).pArg = (s.item m).pArg ∧
      ((s.setItem n i).item m).waitFor = (s.item m).waitFor := by
    intro m
    by_cases hm : m = n
    · subst hm
      simp [setItem, hexp, hb, harg, hfor]
    · simp [setItem, hm]
  refine { h with wheel := { h.wheel with slot := fun m j hm => ?_ }
                  due := fun m j hm => ?_, raised := fun m hm hbt => ?_
                  waiting := fun c m hm => ?_, linked := fun m hm => ?_
                  cond := fun m c hm => ?_, untimed := fun m c hm hl => ?_ }
  · rw [(hitem m).1]
    exact h.wheel.slot m j hm
  · rw [(hitem m).1]
    exact h.due m j hm
  · exact h.raised m hm ((hitem m).2.1 ▸ hbt)
  · rw [(hitem m).2.2.1]
    exact h.waiting c m hm
  · rw [(hitem m).2.2.1]
    exact h.linked m hm
  · rw [(hitem m).2.2.2]
    exact h.cond m c hm
  · rw [(hitem m).1]
    exact h.untimed m c hm hl

theorem Inv.linked_of_registered (h : s.Inv) {e : EpollEvent} (he : s.Registered e) :
    s.Linked e.pPoll := (h.waiting _ _ he.1).2

theorem Inv.onPollPreparePfn (h : s.Inv) {e : EpollEvent} (he : s.Registered e) :
    (s.onPollPreparePfn e).Inv := by
  have hl := h.linked_of_registered he
  rw [LoopSys.onPollPreparePfn]
  dsimp only
  split
  · exact h.report e.pPoll rfl rfl rfl rfl
  · have hr := h.report e.pPoll (i := { s.item e.pPoll with
      revents := (s.item e.pPoll).revents.set e.fd (epollEvent2Poll e.events)
      iRaiseCnt := (s.item e.pPoll).iRaiseCnt + 1, iAllEventDetach := true }) rfl rfl rfl rfl
    exact hr.activate hl hr.conds_wf (fun _ _ => rfl) (fun _ hk => hk) hr.sorted

theorem onPollPreparePfn_registered (s : LoopSys) (e e' : EpollEvent) :
    (s.onPollPreparePfn e).Registered e' ↔ s.Registered e' := by
  have hitem : ∀ m, ((s.onPollPreparePfn e).item m).pArg = (s.item m).pArg ∧
      ((s.onPollPreparePfn e).item m).waitFor = (s.item m).waitFor := by
    intro m
    rw [LoopSys.onPollPreparePfn]
    dsimp only
    by_cases hm : m = e.pPoll
    · subst hm
      split <;> simp [setItem, LoopSys.activate]
    · split <;> simp [setItem, LoopSys.activate, hm]
  have hwaits : (s.onPollPreparePfn e).waits = s.waits := by
    rw [LoopSys.onPollPreparePfn]
    dsimp only
    split <;> rfl
  rw [Registered, Registered, (hitem _).1, (hitem _).2, hwaits]

theorem Inv.prepareAll (h : s.Inv) {events : List EpollEvent}
    (he : ∀ e ∈ events, s.Registered e) : (events.foldl LoopSys.onPollPreparePfn s).Inv := by
  induction events generalizing s with
  | nil => exact h
  | cons e events ih =>
    refine ih (h.onPollPreparePfn (he e List.mem_cons_self)) (fun e' he' => ?_)
    rw [onPollPreparePfn_registered]
    exact he e' (List.mem_cons_of_mem e he')

theorem prepareAll_pc (s : LoopSys) (events : List EpollEvent) :
    (events.foldl LoopSys.onPollPreparePfn s).pc = s.pc := by
  induction events generalizing s with
  | nil => rfl
  | cons e events ih =>
    rw [List.foldl_cons, ih, LoopSys.onPollPreparePfn]
    dsimp only
    split <;> rfl

theorem prepareAll_pTimeout (s : LoopSys) (events : List EpollEvent) :
    (events.foldl LoopSys.onPollPreparePfn s).pTimeout = s.pTimeout := by
  induction events generalizing s with
  | nil => rfl
  | cons e events ih =>
    rw [List.foldl_cons, ih, LoopSys.onPollPreparePfn]
    dsimp only
    split <;> rfl

theorem Inv.not_raised (h : s.Inv) (hpc : s.pc = .idle) (hn : s.Linked n) :
    (s.item n).bTimeout = false := by
  cases hb : (s.item n).bTimeout with
  | false => rfl
  | true => exact absurd (h.raised n hn hb).2 (by simp [hpc])

/-- What `takeTimeouts` does to one item: it stays where it is, or it is taken off the wheel. -/
theorem Inv.takeTimeouts_cases (h : s.Inv) (now : Nat)
    (hgap : now + 1 < s.pTimeout.ullStart + 2 ^ 31) (hclock : now < 2 ^ 63) (n : Item) :
    (s.takeTimeouts now).lists.head n = s.lists.head n ∧
      (s.takeTimeouts now).item n = s.item n ∨
    (∃ i, s.lists.head n = some (.slot i)) ∧
      (s.takeTimeouts now).lists.head n = some .active ∧
      (s.takeTimeouts now).item n = { s.item n with bTimeout := true } := by
  have htook := Timeout.takeAllTimeout_took h.wheel h.lists_wf h.due hgap hclock
  simp only [LoopSys.takeTimeouts, raiseTimeout, htook.wf.join_head, htook.wf.mem_iff]
  rcases htook.moved n with hm | ⟨hslot, hm, _⟩
  · have hne : s.lists.head n ≠ some .timeout := h.taken n
    exact .inl (by simp [hm, hne])
  · exact .inr ⟨hslot, by simp [hm]⟩

theorem Inv.takeTimeouts (h : s.Inv) (hpc : s.pc = .idle) {now : Nat}
    (hgap : now + 1 < s.pTimeout.ullStart + 2 ^ 31) (hclock : now < 2 ^ 63) :
    (s.takeTimeouts now).Inv := by
  have htook := Timeout.takeAllTimeout_took h.wheel h.lists_wf h.due hgap hclock
  generalize ht : s.pTimeout.takeAllTimeout s.lists now = took at htook
  obtain ⟨t, l⟩ := took
  dsimp only at htook
  have hs : s.takeTimeouts now =
      { s with
        pTimeout := t, lists := l.join .active .timeout, pc := .processing now
        item := fun n =>
          if n ∈ l.list .timeout then { s.item n with bTimeout := true } else s.item n } := by
    simp only [LoopSys.takeTimeouts, ht, raiseTimeout]
  have hmem : ∀ n, n ∈ l.list .timeout ↔ l.head n = some .timeout := htook.wf.mem_iff .timeout
  have hhead : ∀ m, (l.join .active .timeout).head m =
      if l.head m = some .timeout then some .active else l.head m := htook.wf.join_head _ _
  have hslot : ∀ m i, (l.join .active .timeout).head m = some (.slot i) →
      l.head m = some (.slot i) := by
    intro m i hm
    rw [hhead] at hm
    by_cases ht : l.head m = some .timeout
    · simp [ht] at hm
    · simpa [ht] using hm
  have hnone : ∀ m, (l.join .active .timeout).head m = none ↔ s.lists.head m = none := by
    intro m
    rw [hhead]
    rcases htook.moved m with hm | ⟨⟨i, hi⟩, hm, _⟩
    · have hne := h.taken m
      rw [← hm] at hne ⊢
      simp [hne]
    · simp [hm, hi]
  have hlinked : ∀ m, (s.takeTimeouts now).Linked m ↔ s.Linked m := by
    intro m
    rw [hs, Linked, Linked]
    exact or_congr_left (not_congr (hnone m))
  have hitem : ∀ m, ((s.takeTimeouts now).item m).ullExpireTime = (s.item m).ullExpireTime ∧
      ((s.takeTimeouts now).item m).pArg = (s.item m).pArg ∧
      ((s.takeTimeouts now).item m).waitFor = (s.item m).waitFor := by
    intro m
    rw [hs]
    by_cases hm : m ∈ l.list .timeout <;> simp [hm]
  refine { lists_wf := ?_, conds_wf := ?_, wheel := ?_, size := ?_, due := fun m i hm => ?_
           taken := fun m => ?_, raised := fun m hm hb => ?_, seen := fun n hn => ?_
           waiting := fun c m hm => ?_, linked := fun m hm => ?_, fresh := fun m hm => ?_
           cond := fun m c hm => ?_, untimed := fun m c hm hl => ?_, sorted := ?_, stack := ?_
           room := ?_, awake := ?_, ended := ?_ }
  · rw [hs]
    exact htook.wf.join (by simp)
  · rw [hs]
    exact h.conds_wf
  · have hwheel : (s.takeTimeouts now).pTimeout = t := by rw [hs]
    rw [hwheel]
    refine { htook.holds with slot := fun m i hm => ?_ }
    · rw [(hitem m).1]
      rw [hs] at hm
      exact htook.holds.slot m i (hslot m i hm)
  · rw [hs]
    exact htook.size ▸ h.size
  · rw [(hitem m).1]
    rw [hs] at hm ⊢
    exact htook.due m i (hslot m i hm)
  · rw [hs]
    simp only [hhead]
    by_cases hm : l.head m = some .timeout <;> simp [hm]
  · have hold := h.not_raised hpc ((hlinked m).mp hm)
    rw [hs] at hb ⊢
    simp only [hmem] at hb
    by_cases hup : l.head m = some .timeout
    · refine ⟨by simp only [hhead, if_pos hup], ?_⟩
      rcases htook.moved m with hmv | ⟨_, _, hstart⟩
      · exact absurd (hmv.symm.trans hup) (h.taken m)
      · simp only [hstart]
    · rw [if_neg hup, hold] at hb
      cases hb
  · rw [hs] at hn ⊢
    cases hn
    exact htook.seen
  · rw [hs] at hm
    rw [(hitem m).2.1, hlinked]
    exact h.waiting c m hm
  · have hw := h.linked m ((hlinked m).mp hm)
    rw [(hitem m).2.1]
    rw [hs]
    exact hw
  · have hlt := h.fresh m ((hlinked m).mp hm)
    rw [hs]
    exact hlt
  · rw [(hitem m).2.2]
    rw [hs] at hm
    exact h.cond m c hm
  · rw [(hitem m).1]
    rw [hs] at hm hl
    exact h.untimed m c hm ((hnone m).mp hl)
  · rw [hs]
    exact h.sorted
  · rw [hs]
    exact h.stack
  · rw [hs]
    exact h.room
  · rw [hs]
    exact h.awake
  · rw [hs]
    exact h.ended

def woken (s : LoopSys) (co : CoId) (n : Item) : LoopSys :=
  { s with lists := s.lists.unlink n, conds := s.conds.unlink n
           pCallStack := co :: s.pCallStack, waits := Function.update s.waits co none }

theorem Inv.unlink_conds (h : s.Inv) (hn : (s.item n).waitFor = .poll) :
    s.conds.unlink n = s.conds := by
  refine Links.unlink_of_none ?_
  cases hc : s.conds.head n with
  | none => rfl
  | some c => simp [h.cond n c hc] at hn

theorem Inv.woken (h : s.Inv) (hw : s.waits co = some n)
    (hroom : s.pCallStack.length < MAX_CALLSTACK) : (s.woken co n).Inv := by
  obtain ⟨harg, hn⟩ := h.waiting co n hw
  have hco : co ∉ s.pCallStack := fun hm => by simp [(h.awake co hm).1] at hw
  have hend : s.cEnd co = false := by
    cases he : s.cEnd co with
    | false => rfl
    | true => simp [h.ended co he] at hw
  have hlinked : ∀ m, (s.woken co n).Linked m ↔ m ≠ n ∧ s.Linked m := by
    intro m
    simp only [Linked, LoopSys.woken, Links.unlink_head]
    by_cases hm : m = n <;> simp [hm]
  have hhead : ∀ m p, (s.lists.unlink n).head m = some p → s.lists.head m = some p := by
    intro m p hm
    rw [Links.unlink_head] at hm
    by_cases hmn : m = n
    · simp [hmn] at hm
    · simpa [hmn] using hm
  refine { lists_wf := h.lists_wf.unlink n, conds_wf := h.conds_wf.unlink n, size := h.size
           wheel := { h.wheel with slot := fun m i hm => ?_ }
           due := fun m i hm => h.due m i (hhead m _ hm), taken := fun m hm => ?_
           raised := fun m hm hb => ?_, seen := h.seen, waiting := fun c m hm => ?_
           linked := fun m hm => ?_, fresh := fun m hm => h.fresh m ((hlinked m).mp hm).2
           cond := fun m k hk => ?_, untimed := fun m k hk hm => ?_, sorted := fun k => ?_
           stack := List.nodup_cons.mpr ⟨hco, h.stack⟩, room := hroom, awake := fun c hc => ?_
           ended := fun c hc => ?_ }
  · exact h.wheel.slot m i (hhead m _ hm)
  · exact h.taken m (hhead m _ hm)
  · obtain ⟨hne, hl⟩ := (hlinked m).mp hm
    have hr := h.raised m hl hb
    exact ⟨by simpa [LoopSys.woken, hne] using hr.1, hr.2⟩
  · by_cases hcc : c = co
    · simp [LoopSys.woken, hcc] at hm
    · simp only [LoopSys.woken, Function.update_of_ne hcc] at hm
      obtain ⟨ha, hl⟩ := h.waiting c m hm
      have hne : m ≠ n := by
        rintro rfl
        exact hcc (ha.symm.trans harg)
      exact ⟨ha, (hlinked m).mpr ⟨hne, hl⟩⟩
  · obtain ⟨hne, hl⟩ := (hlinked m).mp hm
    have hwm := h.linked m hl
    have hcc : (s.item m).pArg ≠ co := by
      intro he
      rw [he, hw, Option.some.injEq] at hwm
      exact hne hwm.symm
    simpa [LoopSys.woken, hcc] using hwm
  · simp only [LoopSys.woken, Links.unlink_head] at hk
    by_cases hmn : m = n
    · simp [hmn] at hk
    · exact h.cond m k (by simpa [hmn] using hk)
  · simp only [LoopSys.woken, Links.unlink_head] at hk hm
    by_cases hmn : m = n
    · simp [hmn] at hk
    · exact h.untimed m k (by simpa [hmn] using hk) (by simpa [hmn] using hm)
  · exact (h.sorted k).sublist (Links.unlink_sublist _ _ _)
  · by_cases hcc : c = co
    · subst hcc
      simp [LoopSys.woken, hend]
    · have hc' : c ∈ s.pCallStack := by simpa [LoopSys.woken, hcc] using hc
      simpa [LoopSys.woken, hcc] using h.awake c hc'
  · by_cases hcc : c = co
    · simp [LoopSys.woken, hcc]
    · simpa [LoopSys.woken, hcc] using h.ended c hc

def readded (s : LoopSys) (n : Item) (d : Nat) : LoopSys :=
  { s with lists := (s.lists.unlink n).addTail n (s.pTimeout.slotAt d)
           item := Function.update s.item n { s.item n with bTimeout := false } }

/-- It has come up too early: not later than the clock of this turn. -/
def Early (s : LoopSys) (n : Item) : Prop :=
  (s.item n).bTimeout = true ∧ s.pTimeout.ullStart < (s.item n).ullExpireTime

instance (s : LoopSys) : DecidablePred s.Early :=
  fun _ => inferInstanceAs (Decidable (_ ∧ _))

theorem Inv.readded (h : s.Inv) (hn : s.lists.head n = some .active) (hearly : s.Early n)
    {d : Nat} (hd : d < s.pTimeout.iItemSize)
    (hexp : s.pTimeout.ullStart + d ≤ (s.item n).ullExpireTime) : (s.readded n d).Inv := by
  have hhead : ∀ m, ((s.lists.unlink n).addTail n (s.pTimeout.slotAt d)).head m =
      if m = n then some (s.pTimeout.slotAt d) else s.lists.head m := by
    intro m
    rw [Links.addTail_head, Links.unlink_head]
    by_cases hmn : m = n <;> simp [hmn]
  have hitem : ∀ m, ((s.readded n d).item m).ullExpireTime = (s.item m).ullExpireTime ∧
      ((s.readded n d).item m).pArg = (s.item m).pArg ∧
      ((s.readded n d).item m).waitFor = (s.item m).waitFor := by
    intro m
    by_cases hm : m = n <;> simp [LoopSys.readded, hm]
  have hlinked : ∀ m, (s.readded n d).Linked m ↔ s.Linked m := by
    intro m
    simp only [Linked, LoopSys.readded, hhead]
    by_cases hm : m = n
    · subst hm
      simp [hn]
    · simp [hm]
  refine { h with
    lists_wf := (h.lists_wf.unlink n).addTail (by simp) _
    wheel := { h.wheel with slot := fun m i hm => ?_ }
    due := fun m i hm => ?_, taken := fun m hm => ?_, raised := fun m hm hb => ?_
    waiting := fun c m hm => ?_, linked := fun m hm => ?_
    fresh := fun m hm => h.fresh m ((hlinked m).mp hm), cond := fun m c hm => ?_
    untimed := fun m c hm hl => ?_ }
  · rw [(hitem m).1]
    simp only [LoopSys.readded, hhead] at hm
    by_cases hmn : m = n
    · subst hmn
      rw [if_pos rfl, Option.some.injEq] at hm
      exact ⟨d, hd, hm.symm, hexp⟩
    · exact h.wheel.slot m i (by simpa [hmn] using hm)
  · rw [(hitem m).1]
    simp only [LoopSys.readded, hhead] at hm
    by_cases hmn : m = n
    · subst hmn
      exact hearly.2
    · exact h.due m i (by simpa [hmn] using hm)
  · simp only [LoopSys.readded, hhead] at hm
    by_cases hmn : m = n
    · simp [hmn, Timeout.slotAt] at hm
    · exact h.taken m (by simpa [hmn] using hm)
  · by_cases hmn : m = n
    · subst hmn
      simp [LoopSys.readded] at hb
    · have hr := h.raised m ((hlinked m).mp hm) (by simpa [LoopSys.readded, hmn] using hb)
      exact ⟨by simpa [LoopSys.readded, hhead, hmn] using hr.1, hr.2⟩
  · rw [(hitem m).2.1, hlinked]
    exact h.waiting c m hm
  · rw [(hitem m).2.1]
    exact h.linked m ((hlinked m).mp hm)
  · rw [(hitem m).2.2]
    exact h.cond m c hm
  · rw [(hitem m).1]
    simp only [LoopSys.readded, hhead] at hl
    by_cases hmn : m = n
    · simp [hmn] at hl
    · exact h.untimed m c hm (by simpa [hmn] using hl)

theorem Inv.process_cases (h : s.Inv) {now : Nat} (hpc : s.pc = .processing now)
    {ns : List Item} (hl : s.lists.list .active = n :: ns) :
    (s.Early n ∧ ∃ d < s.pTimeout.iItemSize,
      s.pTimeout.ullStart + d ≤ (s.item n).ullExpireTime ∧
      ({ s with lists := s.lists.unlink n } : LoopSys).process n now = s.readded n d) ∨
    ¬s.Early n ∧ s.waits (s.item n).pArg = some n ∧
      ({ s with lists := s.lists.unlink n } : LoopSys).process n now =
        s.woken (s.item n).pArg n := by
  have hactive : s.lists.head n = some .active :=
    (h.lists_wf.mem_iff .active n).mp (by simp [hl])
  have hn : s.Linked n := .inl (by simp [hactive])
  have hwake : ({ s with lists := s.lists.unlink n } : LoopSys).resumeWait (s.item n).pArg n =
      s.woken (s.item n).pArg n := by
    have hnone : (s.lists.unlink n).unlink n = s.lists.unlink n := Links.unlink_of_none (by simp)
    rw [resumeWait]
    dsimp only
    cases hfor : (s.item n).waitFor with
    | poll => simp [LoopSys.woken, hnone, h.unlink_conds hfor]
    | cond c => simp [LoopSys.woken]
  rw [LoopSys.process]
  dsimp only
  rw [hwake]
  by_cases hb : (s.item n).bTimeout = true
  · have hstart := (h.raised n hn hb).2
    rw [hpc, LoopPc.processing.injEq] at hstart
    subst hstart
    by_cases hlt : s.pTimeout.ullStart < (s.item n).ullExpireTime
    · have hholds : s.pTimeout.Holds (s.lists.unlink n) fun n => (s.item n).ullExpireTime := by
        refine { h.wheel with slot := fun m i hm => ?_ }
        rw [Links.unlink_head] at hm
        by_cases hmn : m = n
        · simp [hmn] at hm
        · exact h.wheel.slot m i (by simpa [hmn] using hm)
      rcases Timeout.addTimeout_cases hholds (n := n) (by simp) (s.item n).ullExpireTime
        s.pTimeout.ullStart with ⟨d, hd, hexp, _, _, hadd⟩ | ⟨ret, _, hlate, _⟩
      · refine .inl ⟨⟨hb, hlt⟩, d, hd, hexp, ?_⟩
        simp [hb, hlt, LoopSys.addTimeout, hadd, LoopSys.readded, setItem]
      · omega
    · exact .inr ⟨fun he => hlt he.2, h.linked n hn, by rw [if_neg (fun he => hlt he.2)]⟩
  · exact .inr ⟨fun he => hb he.1, h.linked n hn, by rw [if_neg (fun he => hb he.1)]⟩

/-- What `addTimeout` does for the item that has just been made. -/
theorem Inv.addTimeout_new (h : s.Inv) {i : TimeoutItem} (allNow : Nat)
    (hdue : allNow < i.ullExpireTime) :
    (∃ d < s.pTimeout.iItemSize, s.pTimeout.ullStart + d ≤ i.ullExpireTime ∧
      s.pTimeout.ullStart < i.ullExpireTime ∧
      (s.newItem i).addTimeout s.made allNow = (.ok, { s.newItem i with
        lists := s.lists.addTail s.made (s.pTimeout.slotAt d) })) ∨
    ∃ ret, ret ≠ .ok ∧ (s.newItem i).addTimeout s.made allNow = (ret, s.newItem i) := by
  have hnew : s.lists.head s.made = none := by
    by_contra hne
    exact h.not_linked_made (.inl hne)
  have hitem : (s.newItem i).item s.made = i := by simp [LoopSys.newItem, setItem]
  rw [LoopSys.addTimeout, hitem]
  rcases Timeout.addTimeout_cases h.wheel hnew i.ullExpireTime allNow with
    ⟨d, hd, hexp, hle, _, hadd⟩ | ⟨ret, hret, _, hadd⟩
  · refine .inl ⟨d, hd, hexp, by omega, ?_⟩
    simp only [LoopSys.newItem, setItem, hadd]
  · refine .inr ⟨ret, hret, ?_⟩
    simp only [LoopSys.newItem, setItem, hadd]

/-- The running coroutine waits in the item that has just been made. -/
def started (s : LoopSys) (i : TimeoutItem) (l : ItemLists) (c : Links Item Nat)
    (rest : List CoId) : LoopSys :=
  { s.newItem i with
    lists := l, conds := c, waits := Function.update s.waits i.pArg (some s.made)
    pCallStack := rest }

def OnWheel (s : LoopSys) (i : TimeoutItem) (l : ItemLists) : Prop :=
  ∃ d < s.pTimeout.iItemSize, s.pTimeout.ullStart + d ≤ i.ullExpireTime ∧
    s.pTimeout.ullStart < i.ullExpireTime ∧ l = s.lists.addTail s.made (s.pTimeout.slotAt d)

theorem coYieldEnv_of_cons (h : s.coYieldEnv = some s') {rest : List CoId}
    (hstack : s.pCallStack = co :: rest) : s' = { s with pCallStack := rest } := by
  obtain ⟨_, last, rest', hst, rfl⟩ := coYieldEnv_eq h
  rw [hstack, List.cons.injEq] at hst
  rw [hst.2]

/-- `co_poll` fails, or the coroutine waits on the wheel. -/
theorem Inv.coPoll_cases (h : s.Inv) {nfds now : Nat} {timeout : Int}
    (hs : s.coPoll nfds timeout now = some s') :
    ∃ rest i, s.pCallStack = i.pArg :: rest ∧ i.bTimeout = false ∧ i.waitFor = .poll ∧
      now < i.ullExpireTime ∧
      (s' = s.newItem i ∨ ∃ l, s.OnWheel i l ∧ s' = s.started i l s.conds rest) := by
  rw [LoopSys.coPoll] at hs
  cases hstack : s.pCallStack with
  | nil => simp [hstack] at hs
  | cons self rest =>
    simp only [hstack] at hs
    by_cases hzero : timeout = 0
    · simp [hzero] at hs
    · rw [if_neg hzero] at hs
      generalize hms : (if timeout < 0 then INT_MAX else timeout.toNat) = ms at hs
      have hpos : 0 < ms := by
        rw [← hms]
        split
        · decide
        · omega
      generalize hi : TimeoutItem.mk (now + ms) false self .poll (List.replicate nfds 0) 0 false =
        i at hs
      have hself : i.pArg = self := by rw [← hi]
      have hdue : now < i.ullExpireTime := by rw [← hi]; dsimp only; omega
      refine ⟨rest, i, by rw [hself], by rw [← hi], by rw [← hi], hdue, ?_⟩
      rcases h.addTimeout_new (i := i) now hdue with ⟨d, hd, hexp, hlt, hadd⟩ | ⟨ret, hret, hadd⟩
      · rw [hadd] at hs
        dsimp only at hs
        rw [if_pos rfl] at hs
        refine .inr ⟨_, ⟨d, hd, hexp, hlt, rfl⟩, ?_⟩
        rw [coYieldEnv_of_cons hs hstack, started, hself]
        rfl
      · rw [hadd] at hs
        dsimp only at hs
        rw [if_neg hret, Option.some.injEq] at hs
        exact .inl hs.symm

/-- `co_cond_timedwait` fails, or the coroutine waits on the condition, and on the wheel if it has a
timeout. -/
theorem Inv.coCondTimedwait_cases (h : s.Inv) {link now : Nat} {ms : Int}
    (hs : s.coCondTimedwait link ms now = some s') :
    ∃ rest i, s.pCallStack = i.pArg :: rest ∧ i.bTimeout = false ∧ i.waitFor = .cond link ∧
      (s' = s.newItem i ∨
        ∃ l, (l = s.lists ∧ i.ullExpireTime = 0 ∨ now < i.ullExpireTime ∧ s.OnWheel i l) ∧
        s' = s.started i l (s.conds.addTail s.made link) rest) := by
  rw [LoopSys.coCondTimedwait] at hs
  cases hstack : s.pCallStack with
  | nil => simp [hstack] at hs
  | cons self rest =>
    simp only [hstack] at hs
    generalize hi : TimeoutItem.mk (if 0 < ms then now + ms.toNat else 0) false self (.cond link)
      [] 0 false = i at hs
    have hself : i.pArg = self := by rw [← hi]
    refine ⟨rest, i, by rw [hself], by rw [← hi], by rw [← hi], ?_⟩
    by_cases hms : 0 < ms
    · have hdue : now < i.ullExpireTime := by rw [← hi, if_pos hms]; dsimp only; omega
      rw [if_pos hms] at hs
      rcases h.addTimeout_new (i := i) now hdue with ⟨d, hd, hexp, hlt, hadd⟩ | ⟨ret, hret, hadd⟩
      · rw [hadd] at hs
        dsimp only at hs
        rw [if_pos rfl] at hs
        refine .inr ⟨_, .inr ⟨hdue, d, hd, hexp, hlt, rfl⟩, ?_⟩
        rw [coYieldEnv_of_cons hs hstack, started, hself]
        rfl
      · rw [hadd] at hs
        dsimp only at hs
        rw [if_neg hret, Option.some.injEq] at hs
        exact .inl hs.symm
    · rw [if_neg hms] at hs
      dsimp only at hs
      rw [if_pos rfl] at hs
      refine .inr ⟨s.lists, .inl ⟨rfl, by rw [← hi, if_neg hms]⟩, ?_⟩
      rw [coYieldEnv_of_cons hs hstack, started, hself]
      rfl

theorem Inv.head_made (h : s.Inv) : s.lists.head s.made = none ∧ s.conds.head s.made = none :=
  ⟨by by_contra hne; exact h.not_linked_made (.inl hne),
    by by_contra hne; exact h.not_linked_made (.inr hne)⟩

theorem Inv.started (h : s.Inv) {rest : List CoId} {i : TimeoutItem}
    (hstack : s.pCallStack = i.pArg :: rest) (hb : i.bTimeout = false) {l : ItemLists}
    {c : Links Item Nat} (hl : l = s.lists ∧ i.ullExpireTime = 0 ∨ s.OnWheel i l)
    (hc : c = s.conds ∨ ∃ k, i.waitFor = .cond k ∧ c = s.conds.addTail s.made k)
    (hsome : s.OnWheel i l ∨ ∃ k, i.waitFor = .cond k ∧ c = s.conds.addTail s.made k) :
    (s.started i l c rest).Inv := by
  have hnew := h.newItem i
  have hitem : (s.newItem i).item s.made = i := by simp [LoopSys.newItem, setItem]
  obtain ⟨hnl, hnc⟩ := h.head_made
  refine hnew.wait (n := s.made) hstack h.not_linked_made (Nat.lt_succ_self _)
    (by rw [hitem]) (by rw [hitem]; exact hb) ?_ ?_ (fun m hm => ?_) (fun m hm => ?_)
    (fun p hp => ?_) (fun k hk => ?_) (fun k => ?_) ?_ (fun hp => ?_)
  · rcases hl with ⟨rfl, _⟩ | ⟨d, _, _, _, rfl⟩
    · exact h.lists_wf
    · exact h.lists_wf.addTail hnl _
  · rcases hc with rfl | ⟨k, _, rfl⟩
    · exact h.conds_wf
    · exact h.conds_wf.addTail hnc k
  · rcases hl with ⟨rfl, _⟩ | ⟨d, _, _, _, rfl⟩
    · rfl
    · rw [Links.addTail_head, if_neg hm]
      rfl
  · rcases hc with rfl | ⟨k, _, rfl⟩
    · rfl
    · rw [Links.addTail_head, if_neg hm]
      rfl
  · rw [hitem]
    rcases hl with ⟨rfl, _⟩ | ⟨d, hd, hexp, hlt, rfl⟩
    · rw [hnl] at hp
      cases hp
    · rw [Links.addTail_head, if_pos rfl, Option.some.injEq] at hp
      exact ⟨d, hd, hp.symm, hexp, hlt⟩
  · rw [hitem]
    rcases hc with rfl | ⟨k', hfor, rfl⟩
    · rw [hnc] at hk
      cases hk
    · rw [Links.addTail_head, if_pos rfl, Option.some.injEq] at hk
      exact hk ▸ hfor
  · rcases hc with rfl | ⟨k', _, rfl⟩
    · exact h.sorted k
    · rw [Links.addTail_list]
      split
      · refine List.pairwise_append.mpr ⟨h.sorted k', List.pairwise_singleton _ _, fun m hm n hn => ?_⟩
        rw [List.mem_singleton.mp hn]
        exact h.fresh m (.inr (by simp [(h.conds_wf.mem_iff k' m).mp hm]))
      · exact h.sorted k
  · rcases hsome with ⟨d, _, _, _, rfl⟩ | ⟨k, _, rfl⟩
    · exact .inl (by simp)
    · exact .inr (by simp)
  · rw [hitem]
    rcases hl with ⟨_, hzero⟩ | ⟨d, _, _, _, rfl⟩
    · exact hzero
    · simp at hp

theorem resume_cases (hs : loopStep s (.resume co) = some s') :
    co ∉ s.pCallStack ∧ s.cEnd co = false ∧
      (s.waits co = none ∧ s' = { s with pCallStack := co :: s.pCallStack } ∨
        ∃ n, s.waits co = some n ∧ s' = s.resumeWait co n) := by
  rw [loopStep] at hs
  by_cases hguard : ¬s.Runs ∨ co ∈ s.pCallStack ∨ s.cEnd co = true
  · simp [hguard] at hs
  · rw [if_neg hguard] at hs
    simp only [not_or, Bool.not_eq_true] at hguard
    refine ⟨hguard.2.1, hguard.2.2, ?_⟩
    cases hw : s.waits co with
    | none =>
      rw [hw] at hs
      exact .inl ⟨rfl, (Option.some.inj hs).symm⟩
    | some n =>
      rw [hw] at hs
      exact .inr ⟨n, rfl, (Option.some.inj hs).symm⟩

/-- A coroutine that is resumed out of `co_poll` is on no condition. -/
theorem Inv.resumeWait_eq (h : s.Inv) (co : CoId) (hfor : (s.item n).waitFor = .poll) :
    s.resumeWait co n = s.woken co n := by
  rw [LoopSys.woken, h.unlink_conds hfor]
  simp only [LoopSys.resumeWait, hfor]

theorem finish_cases (hs : loopStep s .finish = some s') :
    ∃ co rest, s.pCallStack = co :: rest ∧
      s' = { s with cEnd := Function.update s.cEnd co true, pCallStack := rest } := by
  rw [loopStep] at hs
  cases hstack : s.pCallStack with
  | nil => simp [hstack] at hs
  | cons co rest =>
    simp only [hstack] at hs
    exact ⟨co, rest, rfl, LoopSys.coYieldEnv_of_cons hs rfl⟩

/-- The active list is empty, or its first item goes back to the wheel or is woken. -/
theorem Inv.loop_cases (h : s.Inv) (hs : loopStep s .process = some s') :
    ∃ now, s.pc = .processing now ∧ s.pCallStack.length = 1 ∧
      (s.lists.list .active = [] ∧ s' = { s with pc := .idle } ∨
        ∃ n ns, s.lists.list .active = n :: ns ∧
          ((s.Early n ∧ ∃ d < s.pTimeout.iItemSize,
              s.pTimeout.ullStart + d ≤ (s.item n).ullExpireTime ∧ s' = s.readded n d) ∨
            ¬s.Early n ∧ s.waits (s.item n).pArg = some n ∧ s' = s.woken (s.item n).pArg n)) := by
  rw [loopStep] at hs
  cases hpc : s.pc with
  | idle => simp [hpc] at hs
  | processing now =>
    simp only [hpc, Option.ite_none_right_eq_some] at hs
    refine ⟨now, rfl, hs.1, ?_⟩
    cases hl : s.lists.list .active with
    | nil =>
      simp only [hl, Option.some.injEq] at hs
      exact .inl ⟨rfl, hs.2.symm⟩
    | cons n ns =>
      simp only [hl, Option.some.injEq] at hs
      refine .inr ⟨n, ns, rfl, ?_⟩
      rw [← hs.2, ← hpc]
      exact h.process_cases hpc hl

theorem Inv.idle (h : s.Inv) (hl : s.lists.list .active = []) :
    ({ s with pc := .idle } : LoopSys).Inv := by
  refine { h with raised := fun m hm hb => ?_, seen := fun now hn => by simp at hn }
  have hr := (h.raised m hm hb).1
  rw [← h.lists_wf.mem_iff, hl] at hr
  cases hr

end LoopSys

/-- What `co_resume` and the clock are trusted with. The call stack has room, and nobody resumes a
coroutine out of `co_cond_timedwait`, which would free an item that is on a list. The clock of the
loop does not stand still for 2^31 milliseconds, nor does it pass 2^63. -/
def Allowed (s : LoopSys) : LoopAct → Prop
  | .resume co =>
    s.pCallStack.length < MAX_CALLSTACK ∧ ∀ n ∈ s.waits co, (s.item n).waitFor = .poll
  | .turn _ now => now + 1 < s.pTimeout.ullStart + 2 ^ 31 ∧ now < 2 ^ 63
  | _ => True

instance (s : LoopSys) : DecidablePred (Allowed s)
  | .resume co => inferInstanceAs (Decidable (s.pCallStack.length < MAX_CALLSTACK ∧
      ∀ n ∈ s.waits co, (s.item n).waitFor = .poll))
  | .turn _ now =>
    inferInstanceAs (Decidable (now + 1 < s.pTimeout.ullStart + 2 ^ 31 ∧ now < 2 ^ 63))
  | .yield | .finish | .poll .. | .timedwait .. | .signal _ | .broadcast _ | .process =>
    .isTrue trivial

theorem loopStep_inv {s s' : LoopSys} {a : LoopAct} (h : s.Inv) (ha : Allowed s a)
    (hs : loopStep s a = some s') : s'.Inv := by
  cases a with
  | resume co =>
    obtain ⟨hco, hend, ⟨hw, rfl⟩ | ⟨n, hw, rfl⟩⟩ := LoopSys.resume_cases hs
    · exact h.push hco hw hend ha.1
    · rw [h.resumeWait_eq co (ha.2 n hw)]
      exact h.woken hw ha.1
  | yield =>
    obtain ⟨co, last, rest, hstack, rfl⟩ := LoopSys.coYieldEnv_eq hs
    exact h.pop hstack
  | finish =>
    obtain ⟨co, rest, hstack, rfl⟩ := LoopSys.finish_cases hs
    exact h.finish hstack
  | poll nfds timeout now =>
    rw [loopStep, Option.ite_none_right_eq_some] at hs
    obtain ⟨rest, i, hstack, hb, hfor, _, rfl | ⟨l, hl, rfl⟩⟩ := h.coPoll_cases hs.2
    · exact h.newItem i
    · exact h.started hstack hb (.inr hl) (.inl rfl) (.inl hl)
  | timedwait link ms now =>
    rw [loopStep, Option.ite_none_right_eq_some] at hs
    obtain ⟨rest, i, hstack, hb, hfor, rfl | ⟨l, hl, rfl⟩⟩ := h.coCondTimedwait_cases hs.2
    · exact h.newItem i
    · exact h.started hstack hb (hl.imp_right And.right) (.inr ⟨link, hfor, rfl⟩)
        (.inr ⟨link, hfor, rfl⟩)
  | signal link =>
    rw [loopStep, Option.ite_none_right_eq_some, Option.some.injEq] at hs
    exact hs.2 ▸ h.coCondSignal link
  | broadcast link =>
    rw [loopStep, Option.ite_none_right_eq_some, Option.some.injEq] at hs
    exact hs.2 ▸ h.coCondBroadcast _ link
  | turn events now =>
    rw [loopStep, Option.ite_none_right_eq_some, Option.some.injEq] at hs
    obtain ⟨⟨hpc, _, he⟩, rfl⟩ := hs
    have hprep := h.prepareAll he
    refine hprep.takeTimeouts ?_ ?_ ha.2
    · rw [LoopSys.prepareAll_pc, hpc]
    · rw [LoopSys.prepareAll_pTimeout]
      exact ha.1
  | process =>
    obtain ⟨now, -, hone, ⟨hl, rfl⟩ | ⟨n, ns, hl, ⟨hearly, d, hd, hexp, rfl⟩ | ⟨-, hw, rfl⟩⟩⟩ :=
      h.loop_cases hs
    · exact h.idle hl
    · exact h.readded ((h.lists_wf.mem_iff _ n).mp (by simp [hl])) hearly hd hexp
    · exact h.woken hw (by rw [hone]; decide)

end AlgorithmLib.CoRoutine
