import AlgorithmLib.Epoll.Operations

/-!
What `cl_thread_cancel` does to the other registrations. A waiting thread, a timer and an event
leave nothing behind; for a ready thread the call does not return, since its case runs on into the
default one.
-/

set_option autoImplicit false

namespace AlgorithmLib.Epoll

/-- The side of the socket after the cancellation of a thread: free if it was the thread's. -/
def SideLeft (t : Nat) (s s' : ClSocket) (d : Side) : Prop :=
  if s.slot d = some t then
    s'.slot d = none ∧ has s'.type d.flag = false ∧ has s'.type d.persist = false
  else
    s'.slot d = s.slot d ∧ has s'.type d.flag = has s.type d.flag ∧
      has s'.type d.persist = has s.type d.persist

/-- The thread is no longer registered, and it alone. -/
structure Cancelled (m m' : Master) (t : Nat) : Prop where
  unused : (m'.thread t).type = .unused
  unuse : m'.links.list .unused = t :: m.links.list .unused
  once : (m'.links.list .unused).count t = 1
  lists : ∀ p, p ≠ .unused → t ∉ m'.links.list p ∧ m'.links.list p = (m.links.list p).erase t
  others : ∀ i, i ≠ t → m'.thread i = m.thread i
  fds : m'.sockets.map ClSocket.fd = m.sockets.map ClSocket.fd
  sockets : ∀ s ∈ m.sockets, ∃ s' ∈ m'.sockets, s'.fd = s.fd ∧ (∀ d, SideLeft t s s' d) ∧
    ((∀ d, s.slot d ≠ some t) → s' = s)
  timers : ∀ n i, m'.heap.Armed n i ↔ m.heap.Armed n i ∧ i ≠ t

namespace Inv

variable {m : Master} {t : Nat}

theorem toUnused (h : Inv m) (ht : (m.thread t).type ≠ .unused) :
    ((m.links.unlink t).addFront t .unused).list .unused = t :: m.links.list .unused ∧
      t ∉ m.links.list .unused ∧
      ∀ p, p ≠ .unused → t ∉ ((m.links.unlink t).addFront t .unused).list p ∧
        ((m.links.unlink t).addFront t .unused).list p = (m.links.list p).erase t := by
  have hnot : t ∉ m.links.list .unused := by
    rw [h.links.wf.mem_iff, h.links.placed t (h.lt_of_type ht)]
    simpa using ht
  have herase := h.links.wf.unlink_list t .unused
  rw [List.erase_of_not_mem hnot] at herase
  refine ⟨?_, hnot, fun p hp => ?_⟩
  · rw [Links.addFront_list, if_pos rfl, herase]
  · rw [Links.addFront_list, if_neg hp, h.links.wf.unlink_list]
    exact ⟨fun hmem => (h.links.wf.nodup p).not_mem_erase hmem, rfl⟩

theorem cancelled (h : Inv m) (ht : (m.thread t).type ≠ .unused) {m' : Master} {r : ClThread}
    (hr : r.type = .unused) (hthread : m'.thread = Function.update m.thread t r)
    (hlinks : m'.links = (m.links.unlink t).addFront t .unused)
    (hfds : m'.sockets.map ClSocket.fd = m.sockets.map ClSocket.fd)
    (hsockets : ∀ s ∈ m.sockets, ∃ s' ∈ m'.sockets, s'.fd = s.fd ∧ (∀ d, SideLeft t s s' d) ∧
      ((∀ d, s.slot d ≠ some t) → s' = s))
    (htimers : ∀ n i, m'.heap.Armed n i ↔ m.heap.Armed n i ∧ i ≠ t) : Cancelled m m' t := by
  obtain ⟨hunuse, hnot, hlists⟩ := h.toUnused ht
  rw [← hlinks] at hunuse
  refine ⟨by rw [hthread, Function.update_self, hr], hunuse, ?_, by rwa [hlinks], fun i hi => ?_,
    hfds, hsockets, htimers⟩
  · rw [hunuse, List.count_cons_self, List.count_eq_zero_of_not_mem hnot]
  · rw [hthread, Function.update_of_ne hi]

theorem sockets_kept (h : Inv m) (ht : (m.thread t).type.onSocket = false) :
    ∀ s ∈ m.sockets, ∃ s' ∈ m.sockets, s'.fd = s.fd ∧ (∀ d, SideLeft t s s' d) ∧
      ((∀ d, s.slot d ≠ some t) → s' = s) := by
  intro s hs
  have hfree : ∀ d, s.slot d ≠ some t := fun d hd => h.sockets.ne_of_slot hs hd ht rfl
  refine ⟨s, hs, rfl, fun d => ?_, fun _ => rfl⟩
  rw [SideLeft, if_neg (hfree d)]
  exact ⟨rfl, rfl, rfl⟩

theorem timers_kept (h : Inv m) (ht : (m.thread t).type ≠ .timer) (n i : Nat) :
    m.heap.Armed n i ↔ m.heap.Armed n i ∧ i ≠ t := by
  refine ⟨fun hn => ⟨hn, ?_⟩, fun hn => hn.1⟩
  rintro rfl
  exact ht (h.heap.armed n i hn).1

theorem cancelled_side (h : Inv m) {d : Side} (ht : (m.thread t).type = d.type) :
    ∃ m', (m.cancelSide d t).map (·.clThreadAddUnuse t) = some m' ∧ Cancelled m m' t := by
  have hne : (m.thread t).type ≠ .unused := by rw [ht]; cases d <;> simp [Side.type]
  have htimer : (m.thread t).type ≠ .timer := by rw [ht]; cases d <;> simp [Side.type]
  obtain ⟨s, hs, hd, op, events, ctl, hcancel, -⟩ := h.cancelSide_cases ht
  refine ⟨_, hcancel, ?_⟩
  generalize hs' : ({ s.setSlot d none with
    type := typeCancelled s.type d, op := op } : ClSocket) = s'
  have hfd : s'.fd = s.fd := by rw [← hs']; exact fd_setSlot ..
  refine h.cancelled hne rfl rfl rfl ?_ (fun x hx => ?_) (h.timers_kept htimer)
  · simp only [Master.setSocket, Master.unlink, Master.clThreadAddUnuse, Master.setThread, hfd]
    exact Keyed.update_keys (fun _ _ => hfd)
  · simp only [Master.setSocket, Master.unlink, Master.clThreadAddUnuse, Master.setThread, hfd]
    by_cases hx' : x.fd = s.fd
    · obtain rfl := h.sockets.eq_of_fd hx hs hx'
      refine ⟨s', (h.sockets.mem_update hs).mpr (Or.inl rfl), hfd, fun e => ?_,
        fun hfree => absurd hd (hfree d)⟩
      have hslot : s'.slot e = if e = d then none else x.slot e := by
        rw [← hs']
        cases d <;> cases e <;> rfl
      have htype : s'.type = typeCancelled x.type d := by rw [← hs']
      rw [SideLeft, hslot, htype, (has_typeCancelled ..).1, (has_typeCancelled ..).2]
      by_cases hed : e = d
      · simp [hed, hd]
      · have hother : x.slot e ≠ some t := fun he => hed (h.sockets.side x hx e d t he hd)
        simp [hed, hother]
    · refine ⟨x, (h.sockets.mem_update hs).mpr (Or.inr ⟨hx, hx'⟩), rfl, fun e => ?_, fun _ => rfl⟩
      have hother : x.slot e ≠ some t := by
        intro he
        obtain ⟨rfl, -⟩ := h.sockets.slot_unique hx hs he hd
        exact hx' rfl
      rw [SideLeft, if_neg hother]
      exact ⟨rfl, rfl, rfl⟩

theorem cancelled_timer (h : Inv m) (ht : (m.thread t).type = .timer) :
    ∃ m', (m.clThreadCancelTimer t).map (·.clThreadAddUnuse t) = some m' ∧ Cancelled m m' t := by
  obtain ⟨n, hn⟩ := h.heap.timer t ht
  obtain ⟨-, harmed⟩ := h.heap.ok.delTimer n
  have hu := (h.heap.armed n t hn).2
  simp only [Master.clThreadCancelTimer, hu, Option.map_some, Master.clThreadAddUnuse,
    Master.setThread, Master.unlink, Function.update_idem]
  refine ⟨_, rfl, h.cancelled (by rw [ht]; simp) rfl rfl rfl rfl
    (h.sockets_kept (by rw [ht]; rfl)) (fun k i => ?_)⟩
  rw [harmed]
  -- a timer thread has one node, which its union names
  have hone : m.heap.Armed k i → (k ≠ n ↔ i ≠ t) := by
    intro hk
    refine not_congr ⟨fun hkn => ?_, fun hit => ?_⟩
    · subst hkn
      exact Option.some.inj (hk.2.symm.trans hn.2)
    · subst hit
      have hu' := (h.heap.armed k i hk).2
      rw [hu, ThreadU.timer.injEq, Option.some.injEq] at hu'
      exact hu'.symm
  constructor
  · rintro ⟨hkn, hk⟩
    exact ⟨hk, (hone hk).mp hkn⟩
  · rintro ⟨hk, hit⟩
    exact ⟨(hone hk).mpr hit, hk⟩

theorem cancelled_event (h : Inv m) (ht : (m.thread t).type = .event) :
    Cancelled m ((m.unlink t).clThreadAddUnuse t) t :=
  h.cancelled (by rw [ht]; simp) rfl rfl rfl rfl (h.sockets_kept (by rw [ht]; rfl))
    (h.timers_kept (by rw [ht]; simp))

end Inv

/-- In every reachable state, a thread that is registered is cancelled and nothing else changes,
exactly when it is not ready. -/
theorem cl_thread_cancel_total (as : List Act) (m : Master) (t : Nat)
    (hrun : Run.run step clThreadInit as = some m) (ht : (m.thread t).type ≠ .unused) :
    (∃ m', m.clThreadCancel t = some m' ∧ Cancelled m m' t) ↔ (m.thread t).type ≠ .ready := by
  have h : Inv m := Run.run_invariant (fun _ _ _ hs hstep => hs.step hstep) inv_init hrun
  rw [Master.clThreadCancel]
  cases htype : (m.thread t).type with
  | unused => exact absurd htype ht
  | read => exact iff_of_true (h.cancelled_side htype) (by simp)
  | write => exact iff_of_true (h.cancelled_side htype) (by simp)
  | timer => exact iff_of_true (h.cancelled_timer htype) (by simp)
  | event => exact iff_of_true ⟨_, rfl, h.cancelled_event htype⟩ (by simp)
  | ready => simp

/-- Both directions of a connection fire in one batch, and one of them is fetched. -/
def bothFired : List Act :=
  [.addRead 1 0 5 false, .addWrite 2 0 5 false,
    .fetch { tickNow := 0, waitNow := 0, batch := [(5, 1#32 ||| 4#32)] }]

/-- A timer is cancelled while a connection waits. -/
theorem cl_thread_cancel_total_timer :
    ∃ m, Run.run step clThreadInit [.addRead 1 0 5 true, .addTimer 7 3 0 10#32] = some m ∧
      ((∃ m', m.clThreadCancel 1 = some m' ∧ Cancelled m m' 1) ↔ (m.thread 1).type ≠ .ready) :=
  ⟨_, rfl, cl_thread_cancel_total [.addRead 1 0 5 true, .addTimer 7 3 0 10#32] _ 1 rfl
    (by decide +kernel)⟩

/-- The direction that was not fetched is registered, and cannot be cancelled. -/
theorem cl_thread_cancel_ready_crashes :
    ∃ m, Run.run step clThreadInit bothFired = some m ∧ (m.thread 0).type = .ready ∧
      ¬ ∃ m', m.clThreadCancel 0 = some m' ∧ Cancelled m m' 0 := by
  have hrun : (Run.run step clThreadInit bothFired).map
      (fun m => ((m.thread 0).type, (m.clThreadCancel 0).isNone)) = some (.ready, true) := by
    decide +kernel
  obtain ⟨m, hm, heq⟩ := Option.map_eq_some_iff.mp hrun
  obtain ⟨htype, hnone⟩ := Prod.mk.inj heq
  refine ⟨m, hm, htype, fun ⟨m', hcancel, _⟩ => ?_⟩
  simp [hcancel] at hnone

end AlgorithmLib.Epoll
