import Mathlib.Data.Set.Function
import AlgorithmLib.Epoll.Operations

set_option autoImplicit false

namespace AlgorithmLib.Epoll

structure Rep (m : Master) : Prop where
  /-- Every thread that was ever made is on the list its type names and on no other. -/
  lists : ∀ t < m.made, ∀ p, t ∈ m.links.list p ↔ p = (m.thread t).type
  once : ∀ p, (m.links.list p).Nodup
  made : ∀ p, ∀ t ∈ m.links.list p, t < m.made
  fds : (m.sockets.map ClSocket.fd).Nodup
  flag : ∀ s ∈ m.sockets, ∀ d, has s.type (Side.flag d) = (s.slot d).isSome
  persist : ∀ s ∈ m.sockets, ∀ d, has s.type (Side.persist d) = true → has s.type d.flag = true
  slot : ∀ s ∈ m.sockets, ∀ d t, s.slot d = some t →
    (m.thread t).u = .fd s.fd ∧ (t ∈ m.links.list d.type ∨ t ∈ m.links.list .ready)
  unique : ∀ s ∈ m.sockets, ∀ s' ∈ m.sockets, ∀ d d' t, s.slot d = some t →
    s'.slot d' = some t → s = s' ∧ d = d'
  nodes : m.heap.nodes.Nodup
  /-- The nodes with arguments and the timer threads correspond. -/
  timers : Set.BijOn (fun n => (m.heap.node n).args)
    {n | n ∈ m.heap.nodes ∧ (m.heap.node n).args ≠ none} {a | ∃ t ∈ m.links.list .timer, a = some t}

namespace Inv

variable {m : Master}

theorem mem_list (h : Inv m) {t : Nat} {p : ThreadType} :
    t ∈ m.links.list p ↔ t < m.made ∧ (m.thread t).type = p := by
  rw [h.links.wf.mem_iff]
  constructor
  · exact h.links.lt_made
  · rintro ⟨hlt, rfl⟩
    exact h.links.placed t hlt

theorem bijOn_timers (h : Inv m) :
    Set.BijOn (fun n => (m.heap.node n).args)
      {n | n ∈ m.heap.nodes ∧ (m.heap.node n).args ≠ none}
      {a | ∃ t ∈ m.links.list .timer, a = some t} := by
  refine ⟨?_, ?_, ?_⟩
  · rintro n ⟨hn, hargs⟩
    obtain ⟨t, ht⟩ := Option.ne_none_iff_exists'.mp hargs
    have htype := (h.heap.armed n t ⟨hn, ht⟩).1
    exact ⟨t, h.mem_list.mpr ⟨h.lt_of_type (by rw [htype]; simp), htype⟩, ht⟩
  · rintro n ⟨hn, hargs⟩ n' ⟨hn', -⟩ heq
    obtain ⟨t, ht⟩ := Option.ne_none_iff_exists'.mp hargs
    -- the union of the thread names its node
    have hu := (h.heap.armed n t ⟨hn, ht⟩).2
    rw [(h.heap.armed n' t ⟨hn', heq.symm.trans ht⟩).2, ThreadU.timer.injEq,
      Option.some.injEq] at hu
    exact hu.symm
  · rintro _ ⟨t, ht, rfl⟩
    obtain ⟨n, hn, hargs⟩ := h.heap.timer t (h.mem_list.mp ht).2
    exact ⟨n, ⟨hn, by rw [hargs]; simp⟩, hargs⟩

theorem rep (h : Inv m) : Rep m where
  lists t hlt p := by
    rw [h.mem_list, eq_comm (a := p)]
    exact and_iff_right hlt
  once := h.links.wf.nodup
  made _ _ ht := (h.mem_list.mp ht).1
  fds := h.sockets.keys
  flag := h.sockets.flag
  persist := h.sockets.persist
  slot s hs d t hd := by
    have hlt := h.lt_of_slot hs hd
    obtain ⟨hu, htype⟩ := h.sockets.slot s hs d t hd
    exact ⟨hu, htype.imp (fun ht => h.mem_list.mpr ⟨hlt, ht⟩) (fun ht => h.mem_list.mpr ⟨hlt, ht⟩)⟩
  unique _ hs _ hs' _ _ _ hd hd' := h.sockets.slot_unique hs hs' hd hd'
  nodes := h.heap.ok.nodup
  timers := h.bijOn_timers

end Inv

/-- In every state that calls lead to, the lists, the sockets and the heap agree, and no
permitted call fails an assertion there. -/
theorem cl_thread_representation (m : Master) (h : Run.Reachable step clThreadInit m) :
    Rep m ∧ ∀ a, permitted m a → (step m a).isSome := by
  have hinv : Inv m := h.invariant inv_init (fun _ _ _ hs hstep => hs.step hstep)
  refine ⟨hinv.rep, fun a ha => ?_⟩
  obtain ⟨m', hstep, -⟩ := hinv.exists_step ha
  rw [hstep]
  rfl

/-- A socket with a persistent reader and a one-shot writer, both ready at once; an event that
runs, and two timers of which the first is cancelled. -/
def mixedCalls : List Act :=
  [.addRead 1 10 7 true, .addWrite 2 20 7 false, .addTimer 1000 3 30 5, .addEvent 4 40 9,
    .fetch ⟨1000, 1000, []⟩, .addTimer 1000 5 50 6, .fetch ⟨1001, 1001, [(7, 5)]⟩, .cancel 2]

theorem cl_thread_representation_mixed_calls :
    ∃ m, Run.run step clThreadInit mixedCalls = some m ∧
      [ThreadType.unused, .read, .write, .timer, .event, .ready].map m.links.list =
        [[2, 1], [], [], [3], [], [0]] ∧
      Rep m ∧ ∀ a, permitted m a → (step m a).isSome := by
  have hsome : (Run.run step clThreadInit mixedCalls).isSome := by decide
  have hlists : (Run.run step clThreadInit mixedCalls).map (fun m =>
      [ThreadType.unused, .read, .write, .timer, .event, .ready].map m.links.list) =
        some [[2, 1], [], [], [3], [], [0]] := by decide
  obtain ⟨m, hm⟩ := Option.isSome_iff_exists.mp hsome
  rw [hm] at hlists
  exact ⟨m, hm, Option.some.inj hlists, cl_thread_representation m ⟨mixedCalls, hm⟩⟩

end AlgorithmLib.Epoll
