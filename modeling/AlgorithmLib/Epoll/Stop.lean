import AlgorithmLib.Epoll.Cancel
import AlgorithmLib.Epoll.Representation
import Mathlib.Data.List.Sort

/-!
`cl_thread_stop`: it frees the threads of four of the lists, the heap, and each socket with the
threads of its slots. A waiting thread is freed through its slot; so is a ready one, which is on
one of the four lists too.
-/

set_option autoImplicit false

namespace AlgorithmLib.Epoll

def ClSocket.slots (s : ClSocket) : List Nat := s.tRead.toList ++ s.tWrite.toList

theorem ClSocket.mem_slots (s : ClSocket) {t : Nat} : t ∈ s.slots ↔ ∃ d, s.slot d = some t := by
  simp only [slots, List.mem_append, Option.mem_toList]
  constructor
  · rintro (ht | ht)
    · exact ⟨.read, ht⟩
    · exact ⟨.write, ht⟩
  · intro ⟨d, ht⟩
    cases d with
    | read => exact Or.inl ht
    | write => exact Or.inr ht

/-- A scheduler that is stopped, and what was freed so far; a call that reaches a record that was
freed is `none`. -/
structure Stopping where
  master : Master
  freed : List Nat
  freedNodes : List Nat
  freedSockets : List Int

namespace Stopping

def clThreadFree (p : Stopping) (t : Nat) : Option Stopping :=
  if t ∈ p.freed then none
  else some { p with master := p.master.unlink t, freed := p.freed ++ [t] }

def clThreadFreeAllThread (p : Stopping) (list : ThreadType) : Option Stopping :=
  (p.master.links.list list).foldlM clThreadFree p

def timeHeadFree (p : Stopping) : Stopping :=
  { p with
    master := { p.master with heap := { p.master.heap with nodes := [] } }
    freedNodes := p.master.heap.nodes }

/-- `cl_thread_socket_free` on a socket that was taken out of the tree. -/
def clThreadSocketFree (p : Stopping) (s : ClSocket) : Option Stopping :=
  (s.slots.foldlM clThreadFree p).bind fun p =>
    if s.fd ∈ p.freedSockets then none
    else
      let m := if s.op = .added then p.master.call (.epollCtl .del s.fd none) else p.master
      some
        { p with
          master := { m with sockets := m.sockets.erase s }
          freedSockets := p.freedSockets ++ [s.fd] }

/-- `cl_thread_rb_free`, which takes the first socket of the tree as long as there is one. -/
def clThreadRbFree (p : Stopping) : Option Stopping :=
  (p.master.sockets.insertionSort (fun s s' => s.fd ≤ s'.fd)).foldlM clThreadSocketFree p

end Stopping

def Master.clThreadStop (m : Master) : Option Stopping := do
  let p : Stopping := { master := m, freed := [], freedNodes := [], freedSockets := [] }
  let p ← p.clThreadFreeAllThread .event
  let p ← p.clThreadFreeAllThread .timer
  let p ← p.clThreadFreeAllThread .ready
  let p ← p.clThreadFreeAllThread .unused
  p.timeHeadFree.clThreadRbFree

namespace Stopping

variable {p q : Stopping}

/-- Threads are freed one after the other as long as none is freed a second time. -/
theorem freeThreads (hp : p.freed.Nodup) (ts : List Nat) :
    ts.foldlM clThreadFree p =
      if (p.freed ++ ts).Nodup then
        some
          { p with
            master := { p.master with links := ts.foldl Links.unlink p.master.links }
            freed := p.freed ++ ts }
      else none := by
  induction ts generalizing p with
  | nil => simp [hp]
  | cons t ts ih =>
    rw [List.foldlM_cons, clThreadFree]
    by_cases ht : t ∈ p.freed
    · have hnot : ¬ (p.freed ++ t :: ts).Nodup := by
        intro hn
        exact (List.disjoint_of_nodup_append hn) ht List.mem_cons_self
      simp [ht, hnot]
    · have hnext : (p.freed ++ [t]).Nodup :=
        hp.append (List.nodup_singleton t) (by simpa using ht)
      rw [if_neg ht, Option.bind_eq_bind, Option.bind_some, ih hnext]
      simp [Master.unlink]

theorem unlink_other {links : Links Nat ThreadType} (hwf : links.WF) {ts : List Nat}
    {p : ThreadType} (hts : ∀ t ∈ ts, t ∉ links.list p) :
    (ts.foldl Links.unlink links).WF ∧ (ts.foldl Links.unlink links).list p = links.list p := by
  induction ts generalizing links with
  | nil => exact ⟨hwf, rfl⟩
  | cons t ts ih =>
    have hlist : (links.unlink t).list p = links.list p := by
      rw [hwf.unlink_list, List.erase_of_not_mem (hts t List.mem_cons_self)]
    obtain ⟨hwf', hsame⟩ := ih (hwf.unlink t) (fun i hi => by
      rw [hlist]
      exact hts i (List.mem_cons_of_mem _ hi))
    exact ⟨hwf', hsame.trans hlist⟩

theorem freeSocket (hp : p.freed.Nodup) (s : ClSocket) :
    (∃ q, p.clThreadSocketFree s = some q) ↔
      (p.freed ++ s.slots).Nodup ∧ s.fd ∉ p.freedSockets := by
  rw [clThreadSocketFree, freeThreads hp]
  by_cases hn : (p.freed ++ s.slots).Nodup
  · by_cases hs : s.fd ∈ p.freedSockets <;> simp [hn, hs]
  · simp [hn]

theorem freed_of_freeSocket (hp : p.freed.Nodup) {s : ClSocket}
    (hq : p.clThreadSocketFree s = some q) :
    q.freed = p.freed ++ s.slots ∧ q.freedSockets = p.freedSockets ++ [s.fd] := by
  obtain ⟨hn, hs⟩ := (freeSocket hp s).mp ⟨q, hq⟩
  rw [clThreadSocketFree, freeThreads hp, if_pos hn, Option.bind_some, if_neg hs] at hq
  cases hq
  exact ⟨rfl, rfl⟩

theorem freeSockets (hp : p.freed.Nodup) (hs : p.freedSockets.Nodup) (ss : List ClSocket) :
    (∃ q, ss.foldlM clThreadSocketFree p = some q) ↔
      (p.freed ++ ss.flatMap ClSocket.slots).Nodup ∧
        (p.freedSockets ++ ss.map ClSocket.fd).Nodup := by
  induction ss generalizing p with
  | nil => simp [hp, hs]
  | cons s ss ih =>
    simp only [List.foldlM_cons, List.flatMap_cons, List.map_cons]
    cases hfirst : p.clThreadSocketFree s with
    | none =>
      have hnot := (freeSocket hp s).not.mp (by simp [hfirst])
      constructor
      · rintro ⟨q, hq⟩
        cases hq
      · rintro ⟨hfreed, hsockets⟩
        rw [← List.append_assoc] at hfreed
        refine absurd ⟨hfreed.of_append_left, fun hin => ?_⟩ hnot
        exact (List.disjoint_of_nodup_append hsockets) hin List.mem_cons_self
    | some q =>
      obtain ⟨hn, hfd⟩ := (freeSocket hp s).mp ⟨q, hfirst⟩
      obtain ⟨hfreed, hsockets⟩ := freed_of_freeSocket hp hfirst
      have hfds : (p.freedSockets ++ [s.fd]).Nodup :=
        hs.append (List.nodup_singleton _) (by simpa using hfd)
      rw [← hfreed] at hn
      rw [← hsockets] at hfds
      rw [Option.bind_eq_bind, Option.bind_some, ih hn hfds, hfreed, hsockets]
      simp

theorem freed_of_freeSockets (hp : p.freed.Nodup) {ss : List ClSocket}
    (hq : ss.foldlM clThreadSocketFree p = some q) :
    q.freed = p.freed ++ ss.flatMap ClSocket.slots ∧
      q.freedSockets = p.freedSockets ++ ss.map ClSocket.fd := by
  induction ss generalizing p with
  | nil =>
    cases hq
    simp
  | cons s ss ih =>
    rw [List.foldlM_cons, Option.bind_eq_bind, Option.bind_eq_some_iff] at hq
    obtain ⟨r, hr, hq⟩ := hq
    obtain ⟨hn, -⟩ := (freeSocket hp s).mp ⟨r, hr⟩
    obtain ⟨hfreed, hsockets⟩ := freed_of_freeSocket hp hr
    obtain ⟨hfreed', hsockets'⟩ := ih (hfreed ▸ hn) hq
    rw [hfreed', hsockets', hfreed, hsockets]
    simp

end Stopping

structure Emptied (m : Master) (types : List ThreadType) (p : Stopping) : Prop where
  wf : p.master.links.WF
  freed : p.freed = types.flatMap m.links.list
  lists : ∀ k, k ∉ types → p.master.links.list k = m.links.list k
  sockets : p.master.sockets = m.sockets
  freedSockets : p.freedSockets = []

namespace Inv

variable {m : Master}

theorem nodup_lists (h : Inv m) {types : List ThreadType} (htypes : types.Nodup) :
    (types.flatMap m.links.list).Nodup := by
  rw [List.nodup_flatMap]
  refine ⟨fun k _ => h.links.wf.nodup k, htypes.imp fun hne t ht ht' => hne ?_⟩
  exact (h.mem_list.mp ht).2.symm.trans (h.mem_list.mp ht').2

theorem freeList (h : Inv m) {types : List ThreadType} {p : Stopping} {k : ThreadType}
    (hp : Emptied m types p) (htypes : (types ++ [k]).Nodup) :
    ∃ q, p.clThreadFreeAllThread k = some q ∧ Emptied m (types ++ [k]) q := by
  have hk : k ∉ types := fun hin =>
    (List.disjoint_of_nodup_append htypes) hin (List.mem_singleton_self k)
  have hall := h.nodup_lists htypes
  rw [List.flatMap_append, ← hp.freed, List.flatMap_singleton] at hall
  rw [Stopping.clThreadFreeAllThread, hp.lists k hk, Stopping.freeThreads hall.of_append_left,
    if_pos hall]
  have hother : ∀ k', k' ≠ k → ∀ t ∈ m.links.list k, t ∉ p.master.links.list k' := by
    intro k' hk' t ht ht'
    rw [← hp.lists k hk, hp.wf.mem_iff] at ht
    rw [hp.wf.mem_iff, ht, Option.some.injEq] at ht'
    exact hk' ht'.symm
  refine ⟨_, rfl, ?_, ?_, fun k' hk' => ?_, hp.sockets, hp.freedSockets⟩
  · cases k with
    | unused => exact (Stopping.unlink_other hp.wf (hother .ready (by simp))).1
    | _ => exact (Stopping.unlink_other hp.wf (hother .unused (by simp))).1
  · rw [List.flatMap_append, List.flatMap_singleton, hp.freed]
  · rw [List.mem_append, List.mem_singleton, not_or] at hk'
    exact (Stopping.unlink_other hp.wf (hother k' hk'.2)).2.trans (hp.lists k' hk'.1)

theorem emptied (h : Inv m) : ∃ p : Stopping, m.clThreadStop = p.clThreadRbFree ∧
    p.freed = [ThreadType.event, .timer, .ready, .unused].flatMap m.links.list ∧
    p.freedSockets = [] ∧ p.master.sockets = m.sockets := by
  have hnone : Emptied m []
      { master := m, freed := [], freedNodes := [], freedSockets := [] } :=
    ⟨h.links.wf, rfl, fun _ _ => rfl, rfl, rfl⟩
  obtain ⟨p₁, hevent, h₁⟩ := h.freeList hnone (k := .event) (by decide)
  obtain ⟨p₂, htimer, h₂⟩ := h.freeList h₁ (k := .timer) (by decide)
  obtain ⟨p₃, hready, h₃⟩ := h.freeList h₂ (k := .ready) (by decide)
  obtain ⟨p₄, hunused, h₄⟩ := h.freeList h₃ (k := .unused) (by decide)
  refine ⟨p₄.timeHeadFree, ?_, h₄.freed, h₄.freedSockets, h₄.sockets⟩
  simp [Master.clThreadStop, hevent, htimer, hready, hunused]

theorem mem_slots (h : Inv m) {t : Nat} :
    t ∈ m.sockets.flatMap ClSocket.slots ↔
      t < m.made ∧ (m.thread t).type.onSocket = true := by
  simp only [List.mem_flatMap, ClSocket.mem_slots]
  constructor
  · rintro ⟨s, hs, d, ht⟩
    exact ⟨h.lt_of_slot hs ht, h.sockets.slot_onSocket hs ht⟩
  · rintro ⟨-, ht⟩
    cases htype : (m.thread t).type with
    | read => exact (h.sockets.waiting .read t htype).imp fun s hs => ⟨hs.1, .read, hs.2⟩
    | write => exact (h.sockets.waiting .write t htype).imp fun s hs => ⟨hs.1, .write, hs.2⟩
    | ready => exact h.sockets.ready t htype
    | _ => simp [htype, ThreadType.onSocket] at ht

theorem nodup_slots (h : Inv m) : (m.sockets.flatMap ClSocket.slots).Nodup := by
  rw [List.nodup_flatMap]
  refine ⟨fun s hs => ?_, ?_⟩
  · cases hread : s.tRead with
    | none => simp [ClSocket.slots, hread]; cases s.tWrite <;> simp
    | some t =>
      cases hwrite : s.tWrite with
      | none => simp [ClSocket.slots, hread, hwrite]
      | some t' =>
        have hne : t ≠ t' := by
          rintro rfl
          cases h.sockets.side s hs .read .write t hread hwrite
        simp [ClSocket.slots, hread, hwrite, hne]
  · have hnd : m.sockets.Nodup := h.sockets.keys.of_map
    refine hnd.pairwise_of_forall_ne fun s hs s' hs' hne t ht ht' => hne ?_
    obtain ⟨d, hd⟩ := s.mem_slots.mp ht
    obtain ⟨e, he⟩ := s'.mem_slots.mp ht'
    exact (h.sockets.slot_unique hs hs' hd he).1

theorem perm_threads (h : Inv m) (hready : m.links.list .ready = []) :
    ([ThreadType.event, .timer, .ready, .unused].flatMap m.links.list ++
      m.sockets.flatMap ClSocket.slots).Perm (List.range m.made) := by
  have hmem : ∀ t, t ∈ [ThreadType.event, .timer, .ready, .unused].flatMap m.links.list ↔
      t < m.made ∧ (m.thread t).type ∈ [ThreadType.event, .timer, .ready, .unused] := by
    intro t
    simp only [List.mem_flatMap, h.mem_list]
    exact ⟨fun ⟨k, hk, hlt, ht⟩ => ⟨hlt, ht ▸ hk⟩, fun ⟨hlt, hk⟩ => ⟨_, hk, hlt, rfl⟩⟩
  have hnone : ∀ t, t < m.made → (m.thread t).type ≠ .ready := by
    intro t hlt ht
    have hin := h.mem_list.mpr ⟨hlt, ht⟩
    rw [hready] at hin
    cases hin
  refine (List.perm_ext_iff_of_nodup ?_ List.nodup_range).mpr fun t => ?_
  · refine (h.nodup_lists (by decide)).append h.nodup_slots fun t ht ht' => ?_
    obtain ⟨hlt, htype⟩ := (hmem t).mp ht
    have honSocket := (h.mem_slots.mp ht').2
    have hnot := hnone t hlt
    revert htype honSocket hnot
    cases (m.thread t).type <;> simp [ThreadType.onSocket]
  · rw [List.mem_append, hmem, h.mem_slots, List.mem_range]
    constructor
    · rintro (⟨hlt, -⟩ | ⟨hlt, -⟩)
      · exact hlt
      · exact hlt
    · intro hlt
      cases (m.thread t).type <;> simp [hlt, ThreadType.onSocket]

end Inv

/-- Every thread and every socket was freed once. -/
def Stopping.Released (p : Stopping) (m : Master) : Prop :=
  p.freed.Perm (List.range m.made) ∧ p.freedSockets.Perm (m.sockets.map ClSocket.fd)

/-- In every reachable state, stopping frees every thread and every socket once and reaches nothing
that was freed, exactly when no thread is ready. -/
theorem cl_thread_stop_releases (as : List Act) (m : Master)
    (hrun : Run.run step clThreadInit as = some m) :
    (∃ p, m.clThreadStop = some p ∧ p.Released m) ↔ m.links.list .ready = [] := by
  have h : Inv m := Run.run_invariant (fun _ _ _ hs hstep => hs.step hstep) inv_init hrun
  obtain ⟨p, hstop, hfreed, hfreedSockets, hsockets⟩ := h.emptied
  have hsorted := List.perm_insertionSort (fun s s' : ClSocket => s.fd ≤ s'.fd) m.sockets
  have hnodup : p.freed.Nodup := by
    rw [hfreed]
    exact h.nodup_lists (by decide)
  have hslots := hsorted.flatMap_right ClSocket.slots
  rw [hstop, Stopping.clThreadRbFree, hsockets]
  constructor
  · rintro ⟨q, hq, -⟩
    obtain ⟨hn, -⟩ := (Stopping.freeSockets hnodup (by rw [hfreedSockets]; simp) _).mp ⟨q, hq⟩
    rw [List.eq_nil_iff_forall_not_mem]
    intro t ht
    refine List.disjoint_of_nodup_append hn (a := t) ?_ ?_
    · rw [hfreed]
      simp [ht]
    · rw [hslots.mem_iff, h.mem_slots]
      obtain ⟨hlt, htype⟩ := h.mem_list.mp ht
      exact ⟨hlt, by rw [htype]; rfl⟩
  · intro hready
    have hall : (p.freed ++ m.sockets.flatMap ClSocket.slots).Perm (List.range m.made) := by
      rw [hfreed]
      exact h.perm_threads hready
    have hfreedAll := hslots.append_left p.freed
    have hfds := hsorted.map ClSocket.fd
    obtain ⟨q, hq⟩ := (Stopping.freeSockets hnodup (by rw [hfreedSockets]; simp) _).mpr
      ⟨(hfreedAll.trans hall).nodup_iff.mpr List.nodup_range, by
        rw [hfreedSockets]
        exact hfds.nodup_iff.mpr h.sockets.keys⟩
    obtain ⟨hqfreed, hqsockets⟩ := Stopping.freed_of_freeSockets hnodup hq
    refine ⟨q, hq, ?_, ?_⟩
    · rw [hqfreed]
      exact hfreedAll.trans hall
    · rw [hqsockets, hfreedSockets]
      exact hfds

/-- A connection, a timer and an event, and the record of an event that was fetched. -/
theorem cl_thread_stop_releases_four :
    ∃ m, Run.run step clThreadInit
        [.addRead 1 0 5 true, .addEvent 2 0 0, .fetch { tickNow := 0, waitNow := 0, batch := [] },
          .addTimer 7 3 0 10#32, .addEvent 2 0 0] = some m ∧
      ((∃ p, m.clThreadStop = some p ∧ p.Released m) ↔ m.links.list .ready = []) :=
  ⟨_, rfl, cl_thread_stop_releases
    [.addRead 1 0 5 true, .addEvent 2 0 0, .fetch { tickNow := 0, waitNow := 0, batch := [] },
      .addTimer 7 3 0 10#32, .addEvent 2 0 0] _ rfl⟩

/-- The direction that was not fetched is freed with the ready list, and reached again through its
slot. -/
theorem cl_thread_stop_frees_twice :
    ∃ m, Run.run step clThreadInit bothFired = some m ∧ ¬ ∃ p, m.clThreadStop = some p ∧
      p.Released m := by
  have hrun : (Run.run step clThreadInit bothFired).map (fun m => m.clThreadStop.isNone) =
      some true := by
    decide +kernel
  obtain ⟨m, hm, hnone⟩ := Option.map_eq_some_iff.mp hrun
  refine ⟨m, hm, fun ⟨p, hp, _⟩ => ?_⟩
  simp [hp] at hnone

end AlgorithmLib.Epoll
