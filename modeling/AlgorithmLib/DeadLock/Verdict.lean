import AlgorithmLib.DeadLock.Graph

/-!
When `_check_dead_lock_stub` is right. The built graph represents the wait-for edges, the
loop over the stack is a peeling of it, and the only place where the bounded stack can
overflow is the loop that finds the vertices nobody waits for.
-/

set_option autoImplicit false

namespace AlgorithmLib.DeadLock

open Keyed Peel

namespace Graphics

def ids (g : Graphics) : List UInt64 := g.map ThreadGraphicVertex.threadId

def indegressOf (g : Graphics) (v : UInt64) : Int :=
  ((threadGraphicVertexLookup g v).map ThreadGraphicVertex.indegress).getD 0

def threadsOf (g : Graphics) (v : UInt64) : List UInt64 :=
  ((threadGraphicVertexLookup g v).map ThreadGraphicVertex.threads).getD []

/-- The graph shows the edges: its vertices are their ends, each with the number of edges to
it and the ends of the edges from it. -/
structure Represents (E : List (UInt64 × UInt64)) (g : Graphics) : Prop where
  nodup : (ids g).Nodup
  mem : ∀ v, v ∈ ids g ↔ ∃ e ∈ E, e.1 = v ∨ e.2 = v
  indegress : ∀ v, indegressOf g v = charged E [] v
  threads : ∀ v, threadsOf g v = targets E v

theorem represents_nil : Represents [] [] :=
  ⟨List.nodup_nil, by simp [ids], fun _ => rfl, fun _ => rfl⟩

theorem ids_addEdge (g : Graphics) (a b : UInt64) :
    ids (addEdge g a b) =
      ids (threadGraphicVertexLookupOrAlloc (threadGraphicVertexLookupOrAlloc g a) b) := by
  rw [addEdge, ids, update_keys ThreadGraphicVertex.addIndegress_key,
    update_keys ThreadGraphicVertex.threadGraphicVertexPushBack_key, ids]

theorem lookup_addEdge (g : Graphics) (a b v : UInt64) :
    threadGraphicVertexLookup (addEdge g a b) v =
      if v = a ∨ v = b then
        some (ThreadGraphicVertex.addIndegress (if v = b then 1 else 0)
          (if v = a then ThreadGraphicVertex.threadGraphicVertexPushBack b
              ((threadGraphicVertexLookup g v).getD (threadGraphicVertexAlloc v))
            else (threadGraphicVertexLookup g v).getD (threadGraphicVertexAlloc v)))
      else threadGraphicVertexLookup g v := by
  have hnew : ∀ k, (threadGraphicVertexAlloc k).threadId = k := fun _ => rfl
  simp only [threadGraphicVertexLookup, addEdge, threadGraphicVertexLookupOrAlloc,
    lookup_update ThreadGraphicVertex.addIndegress_key,
    lookup_update ThreadGraphicVertex.threadGraphicVertexPushBack_key,
    lookup_lookupOrPush (hnew _)]
  by_cases hb : v = b
  · subst hb
    by_cases ha : v = a
    · subst ha
      simp
    · simp [ha]
  · by_cases ha : v = a
    · subst ha
      simp [hb, ThreadGraphicVertex.addIndegress]
    · simp [ha, hb]

theorem indegressOf_addEdge (g : Graphics) (a b v : UInt64) :
    indegressOf (addEdge g a b) v = indegressOf g v + if v = b then 1 else 0 := by
  have hpush : ∀ x : ThreadGraphicVertex,
      (x.threadGraphicVertexPushBack b).indegress = x.indegress := by
    intro x
    rw [ThreadGraphicVertex.threadGraphicVertexPushBack]
    split <;> rfl
  rw [indegressOf, lookup_addEdge, indegressOf]
  by_cases ha : v = a
  · cases threadGraphicVertexLookup g v <;>
      simp [ha, ThreadGraphicVertex.addIndegress, hpush, threadGraphicVertexAlloc]
  · by_cases hb : v = b
    · subst hb
      cases threadGraphicVertexLookup g v <;>
        simp [ha, ThreadGraphicVertex.addIndegress, threadGraphicVertexAlloc]
    · simp [ha, hb]

theorem threadsOf_addEdge (g : Graphics) {a : UInt64} (b v : UInt64) (hfew : threadsOf g a = []) :
    threadsOf (addEdge g a b) v = if v = a then [b] else threadsOf g v := by
  rw [threadsOf, lookup_addEdge, threadsOf]
  by_cases ha : v = a
  · subst ha
    rw [threadsOf] at hfew
    cases hl : threadGraphicVertexLookup g v with
    | none =>
      simp [ThreadGraphicVertex.addIndegress, ThreadGraphicVertex.threadGraphicVertexPushBack,
        threadGraphicVertexAlloc, waitHoldThreadMax]
    | some x =>
      rw [hl, Option.map_some, Option.getD_some] at hfew
      simp [ThreadGraphicVertex.addIndegress, ThreadGraphicVertex.threadGraphicVertexPushBack,
        waitHoldThreadMax, hfew]
  · by_cases hb : v = b
    · subst hb
      cases hl : threadGraphicVertexLookup g v <;>
        simp [ha, ThreadGraphicVertex.addIndegress, threadGraphicVertexAlloc]
    · simp [ha, hb]

theorem Represents.addEdge {E : List (UInt64 × UInt64)} {g : Graphics} (h : Represents E g)
    {a : UInt64} (b : UInt64) (ha : a ∉ E.map Prod.fst) :
    Represents (E ++ [(a, b)]) (Graphics.addEdge g a b) := by
  have hnew : ∀ k, (threadGraphicVertexAlloc k).threadId = k := fun _ => rfl
  have hfew : threadsOf g a = [] := by
    rw [h.threads, targets, List.map_eq_nil_iff, List.filter_eq_nil_iff]
    intro e he hea
    exact ha (List.mem_map.mpr ⟨e, he, by simpa using hea⟩)
  refine ⟨?_, fun v => ?_, fun v => ?_, fun v => ?_⟩
  · rw [ids_addEdge]
    exact lookupOrPush_nodup (hnew b) (lookupOrPush_nodup (hnew a) h.nodup)
  · rw [ids_addEdge, ids, threadGraphicVertexLookupOrAlloc, mem_keys_lookupOrPush (hnew b),
      threadGraphicVertexLookupOrAlloc, mem_keys_lookupOrPush (hnew a), ← ids, h.mem]
    simp only [List.mem_append, List.mem_singleton]
    constructor
    · rintro (rfl | rfl | ⟨e, he, hv⟩)
      · exact ⟨_, Or.inr rfl, Or.inr rfl⟩
      · exact ⟨_, Or.inr rfl, Or.inl rfl⟩
      · exact ⟨e, Or.inl he, hv⟩
    · rintro ⟨e, he | rfl, hv⟩
      · exact Or.inr (Or.inr ⟨e, he, hv⟩)
      · rcases hv with rfl | rfl
        · exact Or.inr (Or.inl rfl)
        · exact Or.inl rfl
  · rw [indegressOf_addEdge, h.indegress]
    by_cases hb : v = b
    · simp [charged, List.countP_append, hb]
    · simp [charged, List.countP_append, hb, Ne.symm hb]
  · rw [threadsOf_addEdge g b v hfew, h.threads]
    by_cases hva : v = a
    · subst hva
      have hnone : targets E v = [] := by rw [← h.threads, hfew]
      rw [targets] at hnone
      simp [targets, List.filter_append, hnone]
    · simp [targets, List.filter_append, hva, Ne.symm hva]

theorem represents_buildGraphics (t : Tables) : Represents t.edges t.buildGraphics := by
  have hfold : ∀ (E F : List (UInt64 × UInt64)) (g : Graphics), Represents E g →
      ((E ++ F).map Prod.fst).Nodup →
      Represents (E ++ F) (F.foldl (fun g e => Graphics.addEdge g e.1 e.2) g) := by
    intro E F
    induction F generalizing E with
    | nil =>
      intro g h _
      simpa using h
    | cons e F ih =>
      intro g h hn
      have he : e.1 ∉ E.map Prod.fst := by
        rw [List.map_append, List.map_cons, List.nodup_append] at hn
        exact fun hm => hn.2.2 _ hm _ List.mem_cons_self rfl
      rw [List.append_cons] at hn ⊢
      exact ih (E ++ [e]) _ (h.addEdge e.2 he) hn
  rw [Tables.buildGraphics_eq]
  exact hfold [] t.edges [] represents_nil t.edges_nodup

end Graphics

namespace Check

def sources (g : Graphics) : List UInt64 :=
  (g.filter (fun v => v.indegress = 0)).map ThreadGraphicVertex.threadId

/-- The bounded stack holds the vertices found without incoming edges, except for those it
dropped because it was full. -/
theorem find_spec (g : Graphics) : ∃ dropped, ((find g).queue ++ dropped).Perm (sources g) ∧
    (find g).counter = (sources g).length ∧ (find g).graphics = g ∧
    (find g).queue.length ≤ maxDeadMutexlockCheck ∧
    (dropped = [] ↔ (sources g).length ≤ maxDeadMutexlockCheck) := by
  have hfold : ∀ (vs : List ThreadGraphicVertex) (s : Check) (dropped done : List UInt64),
      (s.queue ++ dropped).Perm done → s.counter = done.length →
      s.queue.length ≤ maxDeadMutexlockCheck →
      (dropped = [] ∨ s.queue.length = maxDeadMutexlockCheck) →
      ∃ dropped', ((vs.foldl findStep s).queue ++ dropped').Perm (done ++ sources vs) ∧
        (vs.foldl findStep s).counter = (done ++ sources vs).length ∧
        (vs.foldl findStep s).graphics = s.graphics ∧
        (vs.foldl findStep s).queue.length ≤ maxDeadMutexlockCheck ∧
        (dropped' = [] ∨ (vs.foldl findStep s).queue.length = maxDeadMutexlockCheck) := by
    intro vs
    induction vs with
    | nil =>
      intro s dropped done hp hc hq hd
      exact ⟨dropped, by simpa [sources] using hp, by simpa [sources] using hc, rfl, hq, hd⟩
    | cons v vs ih =>
      intro s dropped done hp hc hq hd
      rw [List.foldl_cons]
      by_cases hv : v.indegress = 0
      · have hsrc : done ++ sources (v :: vs) = (done ++ [v.threadId]) ++ sources vs := by
          simp [sources, hv]
        rw [hsrc]
        by_cases hlt : s.queue.length < maxDeadMutexlockCheck
        · have hd' : dropped = [] := hd.resolve_right (by omega)
          have hstep : findStep s v = ⟨s.graphics, v.threadId :: s.queue, s.counter + 1⟩ := by
            rw [findStep, if_pos hv, graphicsQueuePushBack, if_pos hlt]
          rw [hstep]
          refine ih _ [] _ ?_ (by simp [hc]) (by rw [List.length_cons]; omega)
            (Or.inl rfl)
          rw [hd', List.append_nil] at hp
          rw [List.append_nil]
          exact (hp.cons _).trans (List.perm_append_singleton _ _).symm
        · have hstep : findStep s v = ⟨s.graphics, s.queue, s.counter + 1⟩ := by
            rw [findStep, if_pos hv, graphicsQueuePushBack, if_neg hlt]
          rw [hstep]
          refine ih _ (v.threadId :: dropped) _ ?_ (by simp [hc]) hq
            (Or.inr (Nat.le_antisymm hq (Nat.not_lt.mp hlt)))
          exact List.perm_middle.trans
            ((hp.cons _).trans (List.perm_append_singleton _ _).symm)
      · have hsrc : sources (v :: vs) = sources vs := by simp [sources, hv]
        have hstep : findStep s v = s := by rw [findStep, if_neg hv]
        rw [hsrc, hstep]
        exact ih s dropped done hp hc hq hd
  obtain ⟨dropped, hp, hc, hg, hq, hd⟩ := hfold g ⟨g, [], 0⟩ [] [] (List.Perm.refl _) rfl
    (Nat.zero_le _) (Or.inl rfl)
  rw [List.nil_append] at hp hc
  refine ⟨dropped, hp, hc, hg, hq, ?_⟩
  have hlen := hp.length_eq
  rw [List.length_append] at hlen
  change (find g).queue.length + dropped.length = (sources g).length at hlen
  change (find g).queue.length ≤ maxDeadMutexlockCheck at hq
  constructor
  · rintro rfl
    rw [List.length_nil] at hlen
    omega
  · intro hle
    rcases hd with hd | hd
    · exact hd
    · change (find g).queue.length = maxDeadMutexlockCheck at hd
      exact List.eq_nil_of_length_eq_zero (by omega)

theorem mem_sources {g : Graphics} (hn : (Graphics.ids g).Nodup) {v : UInt64} :
    v ∈ sources g ↔ v ∈ Graphics.ids g ∧ Graphics.indegressOf g v = 0 := by
  simp only [sources, List.mem_map, List.mem_filter, decide_eq_true_eq]
  constructor
  · rintro ⟨x, ⟨hx, h0⟩, rfl⟩
    have hl : threadGraphicVertexLookup g x.threadId = some x :=
      (lookup_eq_some_iff hn).mpr ⟨hx, rfl⟩
    exact ⟨List.mem_map.mpr ⟨x, hx, rfl⟩, by rw [Graphics.indegressOf, hl]; exact h0⟩
  · rintro ⟨hv, h0⟩
    obtain ⟨x, hx⟩ := exists_lookup hv
    have hl : threadGraphicVertexLookup g v = some x := hx
    rw [Graphics.indegressOf, hl] at h0
    exact ⟨x, ⟨mem_of_lookup hx, h0⟩, key_of_lookup hx⟩

theorem sources_nodup {g : Graphics} (hn : (Graphics.ids g).Nodup) : (sources g).Nodup :=
  hn.sublist (List.filter_sublist.map _)

variable {E : List (UInt64 × UInt64)} {V taken dropped pending : List UInt64} {s : Check}

/-- The state of the check is a peeling of the edges, with the vertices the stack dropped
counted as found but never taken. -/
structure Peeling (E : List (UInt64 × UInt64)) (V : List UInt64) (s : Check)
    (taken dropped pending : List UInt64) : Prop where
  inv : Inv E V (Graphics.indegressOf s.graphics) taken (s.queue ++ dropped) pending
  counter : s.counter = (taken ++ (s.queue ++ dropped)).length
  ids : Graphics.ids s.graphics = V
  threads : ∀ v, Graphics.threadsOf s.graphics v = targets E v

theorem Peeling.releaseStep {v : UInt64} (h : Peeling E V s taken dropped (v :: pending))
    (hv : v ∈ V) (hq : s.queue.length < maxDeadMutexlockCheck) :
    ∃ s', s.releaseStep v = some s' ∧ Peeling E V s' taken dropped pending ∧
      s'.queue.length ≤ s.queue.length + 1 := by
  have hvg : v ∈ Graphics.ids s.graphics := by rw [h.ids]; exact hv
  obtain ⟨x, hx⟩ := exists_lookup hvg
  have hl : threadGraphicVertexLookup s.graphics v = some x := hx
  have hold : Graphics.indegressOf s.graphics v = x.indegress := by
    rw [Graphics.indegressOf, hl]
    rfl
  -- the graph behind the decrement
  let g := update ThreadGraphicVertex.threadId v (ThreadGraphicVertex.addIndegress (-1)) s.graphics
  have hlg : ∀ w, threadGraphicVertexLookup g w =
      if w = v then some (x.addIndegress (-1)) else threadGraphicVertexLookup s.graphics w := by
    intro w
    rw [threadGraphicVertexLookup, lookup_update ThreadGraphicVertex.addIndegress_key, hx]
    rfl
  have hids : Graphics.ids g = V :=
    (update_keys ThreadGraphicVertex.addIndegress_key).trans h.ids
  have hnew : Graphics.indegressOf g v = Graphics.indegressOf s.graphics v - 1 := by
    rw [hold, Graphics.indegressOf, hlg, if_pos rfl]
    rfl
  have hother : ∀ w, w ≠ v → Graphics.indegressOf g w = Graphics.indegressOf s.graphics w := by
    intro w hw
    rw [Graphics.indegressOf, hlg, if_neg hw, Graphics.indegressOf]
  have hthreads : ∀ w, Graphics.threadsOf g w = targets E w := by
    intro w
    rw [← h.threads, Graphics.threadsOf, Graphics.threadsOf, hlg]
    by_cases hw : w = v
    · rw [if_pos hw, hw, hl]
      rfl
    · rw [if_neg hw]
  rw [Check.releaseStep, hl]
  dsimp only
  by_cases h0 : x.indegress - 1 = 0
  · rw [if_pos h0, graphicsQueuePushBack, if_pos hq]
    refine ⟨_, rfl, ⟨?_, ?_, hids, hthreads⟩, Nat.le_refl _⟩
    · exact h.inv.release_found hv hnew hother (by rw [hnew, hold, h0])
    · have hc := h.counter
      simp only [List.length_append, List.length_cons] at hc ⊢
      omega
  · rw [if_neg h0]
    refine ⟨_, rfl, ⟨?_, h.counter, hids, hthreads⟩, Nat.le_succ _⟩
    exact h.inv.release hnew hother (by rw [hnew, hold]; exact h0)

theorem Peeling.release {ts : List UInt64} (h : Peeling E V s taken dropped ts)
    (hts : ∀ v ∈ ts, v ∈ V) (hq : s.queue.length + ts.length ≤ maxDeadMutexlockCheck) :
    ∃ s', s.release ts = some s' ∧ Peeling E V s' taken dropped [] ∧
      s'.queue.length ≤ s.queue.length + ts.length := by
  induction ts generalizing s with
  | nil => exact ⟨s, rfl, h, Nat.le_refl _⟩
  | cons v ts ih =>
    rw [List.length_cons] at hq
    obtain ⟨s₁, h₁, hp₁, hl₁⟩ := h.releaseStep (hts v List.mem_cons_self) (by omega)
    obtain ⟨s₂, h₂, hp₂, hl₂⟩ := ih hp₁ (fun w hw => hts w (List.mem_cons_of_mem _ hw)) (by omega)
    refine ⟨s₂, ?_, hp₂, by rw [List.length_cons]; omega⟩
    rw [Check.release, h₁]
    exact h₂

/-- With at most one edge from each vertex the stack does not overflow while it is emptied. -/
theorem Peeling.peel (fuel : Nat) (h : Peeling E V s taken dropped [])
    (hE : ∀ u v, Edge E u v → u ∈ V ∧ v ∈ V) (hone : ∀ u, (targets E u).length ≤ 1)
    (hq : s.queue.length ≤ maxDeadMutexlockCheck) (hf : V.length < taken.length + fuel) :
    ∃ s' taken', Check.peel fuel s = some s' ∧ Peeling E V s' taken' dropped [] ∧
      s'.queue = [] := by
  induction fuel generalizing s taken with
  | zero =>
    have hle := (h.inv.nodup.subperm (fun v hv => (h.inv.found v hv).1)).length_le
    rw [List.length_append] at hle
    omega
  | succ fuel ih =>
    obtain ⟨g, q, c⟩ := s
    cases q with
    | nil => exact ⟨_, taken, rfl, h, rfl⟩
    | cons u q =>
      have huV : u ∈ V := (h.inv.found u (by simp)).1
      obtain ⟨x, hx⟩ := exists_lookup (show u ∈ Graphics.ids g by rw [h.ids]; exact huV)
      have hl : threadGraphicVertexLookup g u = some x := hx
      have hxs : x.threads = targets E u := by
        rw [← h.threads, Graphics.threadsOf, hl]
        rfl
      have htake : Peeling E V ⟨g, q, c⟩ (u :: taken) dropped (targets E u) := by
        refine ⟨h.inv.take, ?_, h.ids, h.threads⟩
        have hc := h.counter
        simp only [List.length_append, List.length_cons] at hc ⊢
        omega
      have hin : ∀ v ∈ targets E u, v ∈ V := by
        intro v hv
        obtain ⟨e, he, rfl⟩ := List.mem_map.mp hv
        exact (hE e.1 e.2 (List.mem_filter.mp he).1).2
      have hu1 := hone u
      rw [List.length_cons] at hq
      obtain ⟨s₁, h₁, hp₁, hl₁⟩ := htake.release hin (by dsimp only; omega)
      obtain ⟨s₂, taken', h₂, hp₂, he⟩ := ih hp₁ (by dsimp only at hl₁; omega)
        (by rw [List.length_cons]; omega)
      refine ⟨s₂, taken', ?_, hp₂, he⟩
      rw [Check.peel]
      dsimp only
      rw [hl]
      dsimp only
      rw [hxs, h₁]
      exact h₂

end Check

namespace Tables

def unawaited (t : Tables) : List UInt64 :=
  (t.edges.map Prod.fst).filter (fun thd => thd ∉ t.edges.map Prod.snd)

end Tables

theorem charged_eq_zero_iff {E : List (UInt64 × UInt64)} {v : UInt64} :
    ((charged E [] v : Nat) : Int) = 0 ↔ v ∉ E.map Prod.snd := by
  rw [Int.natCast_eq_zero, ← Nat.le_zero, ← Nat.not_lt, charged_pos, not_iff_not]
  constructor
  · rintro ⟨u, huv, -⟩
    exact List.mem_map.mpr ⟨(u, v), huv, rfl⟩
  · intro hv
    obtain ⟨e, he, rfl⟩ := List.mem_map.mp hv
    exact ⟨e.1, he, List.not_mem_nil⟩

theorem mem_sources_buildGraphics {t : Tables} {v : UInt64} :
    v ∈ Check.sources t.buildGraphics ↔ v ∈ t.unawaited := by
  have h := Graphics.represents_buildGraphics t
  unfold Tables.unawaited
  rw [Check.mem_sources h.nodup, h.mem, h.indegress, charged_eq_zero_iff, List.mem_filter,
    decide_eq_true_eq]
  constructor
  · rintro ⟨⟨e, he, hv⟩, hs⟩
    rcases hv with hv | hv
    · exact ⟨List.mem_map.mpr ⟨e, he, hv⟩, hs⟩
    · exact absurd (List.mem_map.mpr ⟨e, he, hv⟩) hs
  · rintro ⟨hm, hs⟩
    obtain ⟨e, he, hv⟩ := List.mem_map.mp hm
    exact ⟨⟨e, he, Or.inl hv⟩, hs⟩

theorem sources_buildGraphics_length (t : Tables) :
    (Check.sources t.buildGraphics).length = t.unawaited.length := by
  have hn := Check.sources_nodup (Graphics.represents_buildGraphics t).nodup
  have hu : t.unawaited.Nodup := t.edges_nodup.sublist List.filter_sublist
  exact ((List.perm_ext_iff_of_nodup hn hu).mpr (fun v => mem_sources_buildGraphics)).length_eq

theorem targets_length_le_one (t : Tables) (u : UInt64) : (targets t.edges u).length ≤ 1 := by
  have hn := t.edges_nodup
  unfold targets
  rw [List.length_map]
  generalize t.edges = E at hn
  induction E with
  | nil => exact Nat.zero_le _
  | cons e E ih =>
    obtain ⟨he, hE⟩ := List.nodup_cons.mp hn
    rw [List.filter_cons]
    split
    · rename_i hu
      have hnone : E.filter (fun e => e.1 = u) = [] := by
        rw [List.filter_eq_nil_iff]
        intro x hx hxu
        simp only [decide_eq_true_eq] at hu hxu
        exact he (List.mem_map.mpr ⟨x, hx, hxu.trans hu.symm⟩)
      rw [hnone]
      exact Nat.le_refl 1
    · exact ih hE

/-- What `_check_dead_lock_stub` computes: it ends, and it reports a deadlock if there is a
cycle or if the stack had no room for all the threads nobody waits for. -/
theorem checkDeadLockStub_eq (t : Tables) : ∃ found, checkDeadLockStub t = some found ∧
    (found = true ↔ (∃ thd, Relation.TransGen t.WaitsFor thd thd) ∨
      maxDeadMutexlockCheck < t.unawaited.length) := by
  have h := Graphics.represents_buildGraphics t
  obtain ⟨dropped, hperm, hcount, hg, hq, hdrop⟩ := Check.find_spec t.buildGraphics
  have hE : ∀ u v, Edge t.edges u v →
      u ∈ Graphics.ids t.buildGraphics ∧ v ∈ Graphics.ids t.buildGraphics := fun u v huv =>
    ⟨(h.mem u).mpr ⟨(u, v), huv, Or.inl rfl⟩, (h.mem v).mpr ⟨(u, v), huv, Or.inr rfl⟩⟩
  have hstart : Check.Peeling t.edges (Graphics.ids t.buildGraphics) (Check.find t.buildGraphics)
      [] dropped [] := by
    refine ⟨?_, ?_, by rw [hg], by rw [hg]; exact h.threads⟩
    · rw [hg]
      refine Inv.start (hperm.nodup_iff.mpr (Check.sources_nodup h.nodup)) h.indegress ?_
      intro v
      rw [hperm.mem_iff, Check.mem_sources h.nodup]
    · rw [hcount, List.nil_append, hperm.length_eq]
  obtain ⟨s, taken, hs, hp, hempty⟩ := hstart.peel (t.buildGraphics.length + 1) hE
    (targets_length_le_one t) hq (by simp [Graphics.ids])
  refine ⟨_, by rw [checkDeadLockStub, hs]; rfl, ?_⟩
  -- the vertices the stack dropped have an edge, as all sources do
  have hout : ∀ u ∈ dropped, ∃ v, Edge t.edges u v := by
    intro u hu
    have hsrc : u ∈ t.unawaited :=
      mem_sources_buildGraphics.mp (hperm.mem_iff.mp (List.mem_append_right _ hu))
    obtain ⟨e, he, rfl⟩ := List.mem_map.mp (List.mem_of_mem_filter hsrc)
    exact ⟨e.2, he⟩
  have hinv := hp.inv
  rw [hempty, List.nil_append] at hinv
  have hcnt := hp.counter
  rw [hempty, List.nil_append] at hcnt
  have hlen : s.graphics.length = (Graphics.ids t.buildGraphics).length := by
    rw [← hp.ids, Graphics.ids, List.length_map]
  have hall := hinv.found_all_iff h.nodup hE hout
  rw [decide_eq_true_eq, hcnt, hlen, ← Tables.cyclic_edges_iff]
  rw [sources_buildGraphics_length] at hdrop
  rw [Ne, hall, hdrop]
  constructor
  · intro hn
    by_cases hc : Cyclic t.edges
    · exact Or.inl hc
    · exact Or.inr (Nat.lt_of_not_le (fun hle => hn ⟨hle, hc⟩))
  · rintro (hc | hlt) ⟨hle, hnc⟩
    · exact hnc hc
    · omega

/-- A hundred and one threads that wait for lock 7, held by a thread that waits for nothing. -/
def crowd : Tables where
  threadApplyLock := (List.range 101).map (fun i =>
    { valid := 1, threadId := .ofNat (i + 1), lockAddr := 7, lockName := [], site := ⟨[], 0, []⟩ })
  lockBelongThread :=
    [{ pointList := [⟨[], 0, []⟩], count := 1, threadId := 500, lockAddr := 7, lockName := [] }]
  threads := by decide +kernel
  locks := by simp

/-- The crowd raises an alarm, although nobody waits in a circle. -/
theorem check_dead_lock_stub_alarms_crowd :
    checkDeadLockStub crowd = some true ∧ ¬ ∃ thd, Relation.TransGen crowd.WaitsFor thd thd := by
  constructor
  · decide +kernel
  · have hend : ∀ u v, crowd.WaitsFor u v → u ≠ 500 ∧ v = 500 := by
      rintro u v ⟨l, hl, -, rfl, h, hh, -, -, rfl⟩
      have hids : ∀ l ∈ crowd.threadApplyLock, l.threadId ≠ 500 := by decide +kernel
      rw [show h = _ from List.mem_singleton.mp hh]
      exact ⟨hids l hl, rfl⟩
    rintro ⟨thd, hc⟩
    obtain ⟨w, hw, -⟩ := Relation.TransGen.head'_iff.mp hc
    obtain ⟨x, -, hx⟩ := Relation.TransGen.tail'_iff.mp hc
    exact (hend _ _ hw).1 (hend _ _ hx).2

/-- `_check_dead_lock_stub` gives a verdict on every pair of tables. The verdict is right,
an alarm exactly for a cycle of the wait-for graph, if and only if there is a cycle or at
most a hundred threads wait for a held lock while nobody waits for them. -/
theorem check_dead_lock_stub_exact_iff (t : Tables) :
    ∃ found, checkDeadLockStub t = some found ∧
      ((found = true ↔ ∃ thd, Relation.TransGen t.WaitsFor thd thd) ↔
        (∃ thd, Relation.TransGen t.WaitsFor thd thd) ∨
          t.unawaited.length ≤ maxDeadMutexlockCheck) := by
  obtain ⟨found, hf, h⟩ := checkDeadLockStub_eq t
  refine ⟨found, hf, ?_⟩
  rw [h]
  constructor
  · intro hiff
    by_cases hle : t.unawaited.length ≤ maxDeadMutexlockCheck
    · exact Or.inr hle
    · exact Or.inl (hiff.mp (Or.inr (Nat.lt_of_not_le hle)))
  · rintro (hc | hle)
    · exact ⟨fun _ => hc, Or.inl⟩
    · exact ⟨fun hor => hor.resolve_right (Nat.not_lt.mpr hle), Or.inl⟩

end AlgorithmLib.DeadLock
