import AlgorithmLib.TimeWheel.Timed
import AlgorithmLib.TimeWheel.Manager

set_option autoImplicit false

namespace AlgorithmLib.TimeWheel

structure Hosts (c : ItimerCore) (live : NodeId → Prop) : Prop where
  wf : c.links.WF
  linked : ∀ n, c.links.head n ≠ none → live n
  node : ∀ n, live n →
    (c.node n).state = .ok ∧ (c.node n).callback = some itimerEvtCb ∧ (c.node n).data = n

theorem hosts_init (jiffies : BitVec 32) (node : NodeId → ItimerNode) :
    Hosts (itimerCoreInit jiffies node) (fun _ => False) :=
  ⟨Links.wf_empty, fun _ h => (h rfl).elim, fun _ h => h.elim⟩

theorem itimerNodeAdd_head_of_ne {c : ItimerCore} {n m : NodeId} (h : m ≠ n) (expires : BitVec 32) :
    (c.itimerNodeAdd n expires).links.head m = c.links.head m := by
  rw [ItimerCore.itimerNodeAdd]
  split
  · rfl
  · simp only [ItimerCore.itimerInternalAdd, Links.addTail_head, Links.unlink_head, if_neg h]

theorem itimerNodeDel_head_of_ne {c : ItimerCore} {n m : NodeId} (h : m ≠ n) :
    (c.itimerNodeDel n).1.links.head m = c.links.head m := by
  rw [ItimerCore.itimerNodeDel]
  split
  · rfl
  · split
    · rw [Links.unlink_head, if_neg h]
    · rfl

theorem itimerNodeDestroy_head_of_ne {c : ItimerCore} {n m : NodeId} (h : m ≠ n) :
    (c.itimerNodeDestroy n).links.head m = c.links.head m := by
  rw [ItimerCore.itimerNodeDestroy]
  split
  · rfl
  · rw [Links.unlink_head, if_neg h]

theorem itimerEvtStop_head_of_ne {m : ItimerMgr} {n k : NodeId} (h : k ≠ n) (evt : ItimerEvt) :
    (m.itimerEvtStop n evt).1.core.links.head k = m.core.links.head k := by
  rw [ItimerMgr.itimerEvtStop]
  split
  · exact itimerNodeDel_head_of_ne h
  · rfl

theorem itimerEvtStart_head_of_ne {m : ItimerMgr} {n k : NodeId} (h : k ≠ n) (evt : ItimerEvt)
    (period : BitVec 32) (repeat_ : Int) :
    (m.itimerEvtStart n evt period repeat_).1.core.links.head k = m.core.links.head k := by
  rw [ItimerMgr.itimerEvtStart_eq]
  exact (itimerNodeAdd_head_of_ne h _).trans (itimerEvtStop_head_of_ne h evt)

theorem itimerEvtExpire_frame {m m' : ItimerMgr} {n : NodeId} {evt evt' : ItimerEvt} {r : CatchUp}
    (he : m.itimerEvtExpire n evt = some (m', evt', r)) :
    (∀ k, k ≠ n → m'.core.links.head k = m.core.links.head k) ∧
      evt'.callback = evt.callback ∧ evt'.data = evt.data ∧ evt'.user = evt.user := by
  obtain ⟨-, -, ⟨-, rfl, rfl⟩ | ⟨-, rfl, rfl⟩⟩ := ItimerMgr.itimerEvtExpire_cases he
  · exact ⟨fun k hk => itimerNodeDel_head_of_ne hk, rfl, rfl, rfl⟩
  · exact ⟨fun k hk => itimerNodeAdd_head_of_ne hk _, rfl, rfl, rfl⟩

theorem itimerEvtStart_evt {m : ItimerMgr} {n : NodeId} (evt : ItimerEvt) (period : BitVec 32)
    (repeat_ : Int) :
    (m.itimerEvtStart n evt period repeat_).2.callback = evt.callback ∧
      (m.itimerEvtStart n evt period repeat_).2.data = evt.data ∧
      (m.itimerEvtStart n evt period repeat_).2.user = evt.user ∧
      (m.itimerEvtStart n evt period repeat_).2.running = false := by
  rw [ItimerMgr.itimerEvtStart_eq]
  exact ⟨rfl, rfl, rfl, rfl⟩

namespace Hosts

variable {c : ItimerCore} {live : NodeId → Prop} {n : NodeId}

theorem congr (h : Hosts c live) {live' : NodeId → Prop} (hl : ∀ m, live' m ↔ live m) :
    Hosts c live' :=
  ⟨h.wf, fun m hm => (hl m).mpr (h.linked m hm), fun m hm => h.node m ((hl m).mp hm)⟩

theorem relink (h : Hosts c live) {c' : ItimerCore} (hnode : c'.node = c.node)
    (hwf : c'.links.WF) (hlinked : ∀ m, c'.links.head m ≠ none → live m) : Hosts c' live :=
  ⟨hwf, hlinked, fun m hm => hnode ▸ h.node m hm⟩

theorem unlink (h : Hosts c live) (n : NodeId) :
    Hosts { c with links := c.links.unlink n } live := by
  refine h.relink rfl (h.wf.unlink n) (fun m hm => ?_)
  rw [Links.unlink_head] at hm
  split at hm
  · exact absurd rfl hm
  · exact h.linked m hm

theorem itimerInternalAdd (h : Hosts c live) (hn : live n) (hnone : c.links.head n = none) :
    Hosts (c.itimerInternalAdd n) live := by
  refine h.relink rfl (h.wf.addTail hnone _) (fun m hm => ?_)
  simp only [ItimerCore.itimerInternalAdd, Links.addTail_head] at hm
  split at hm
  · next hmn => exact hmn ▸ hn
  · exact h.linked m hm

theorem itimerNodeAdd (h : Hosts c live) (hn : live n) (expires : BitVec 32) :
    Hosts (c.itimerNodeAdd n expires) live := by
  rw [ItimerCore.itimerNodeAdd]
  split
  · exact h
  · have hset : Hosts
        { c with
          links := c.links.unlink n
          node := Function.update c.node n { c.node n with expires := expires } } live := by
      have hun := h.unlink n
      refine ⟨hun.wf, hun.linked, fun m hm => ?_⟩
      by_cases hmn : m = n
      · subst hmn
        simp only [Function.update_self]
        exact h.node m hm
      · simp only [Function.update_of_ne hmn]
        exact h.node m hm
    refine hset.itimerInternalAdd hn ?_
    dsimp only
    rw [Links.unlink_head, if_pos rfl]

theorem itimerNodeDel (h : Hosts c live) (n : NodeId) : Hosts (c.itimerNodeDel n).1 live := by
  rw [ItimerCore.itimerNodeDel]
  split
  · exact h
  · split
    · exact h.unlink n
    · exact h

theorem itimerNodeDestroy (h : Hosts c live) (hn : live n) :
    Hosts (c.itimerNodeDestroy n) (fun m => live m ∧ m ≠ n) := by
  rw [ItimerCore.itimerNodeDestroy, if_neg (by simp [(h.node n hn).1])]
  refine ⟨h.wf.unlink n, fun m hm => ?_, fun m hm => ?_⟩
  · rw [Links.unlink_head] at hm
    split at hm
    · exact absurd rfl hm
    · next hmn => exact ⟨h.linked m hm, hmn⟩
  · dsimp only
    rw [Function.update_of_ne hm.2]
    exact h.node m hm.1

theorem initNode (h : Hosts c live) (hn : ¬ live n) :
    Hosts (c.initNode n (some itimerEvtCb) n) (fun m => live m ∨ m = n) := by
  refine ⟨h.wf, fun m hm => Or.inl (h.linked m hm), fun m hm => ?_⟩
  simp only [ItimerCore.initNode]
  by_cases hmn : m = n
  · subst hmn
    rw [Function.update_self]
    exact ⟨rfl, rfl, rfl⟩
  · rw [Function.update_of_ne hmn]
    exact h.node m (hm.resolve_right hmn)

theorem cascadeStep (h : Hosts c live) (hn : live n) : Hosts (c.cascadeStep n) live := by
  refine (h.unlink n).itimerInternalAdd hn ?_
  dsimp only
  rw [Links.unlink_head, if_pos rfl]

theorem cascade (h : Hosts c live) (k : Tvn) (i : Nat) :
    Hosts (c.itimerInternalCascade k i) live := by
  rw [ItimerCore.itimerInternalCascade]
  have hlive : ∀ m ∈ c.links.list (.tvn k i), live m :=
    fun m hm => h.linked m (by rw [(h.wf.mem_iff _ m).mp hm]; simp)
  generalize c.links.list (.tvn k i) = ns at hlive
  induction ns generalizing c with
  | nil => exact h
  | cons n ns ih =>
    exact ih (h.cascadeStep (hlive n List.mem_cons_self))
      (fun m hm => hlive m (List.mem_cons_of_mem _ hm))

theorem beginTick (h : Hosts c live) : Hosts c.beginTick live := by
  have hcas := ItimerCore.cascades_keep (P := fun c => Hosts c live) (fun _ k i hc => hc.cascade k i) h
  refine hcas.relink rfl (hcas.wf.splice (by simp)) (fun m hm => ?_)
  simp only [ItimerCore.beginTick] at hm
  rw [hcas.wf.splice_head] at hm
  by_cases hp : c.cascades.links.head m = none
  · rw [hp, if_neg (by simp)] at hm
    exact absurd rfl hm
  · exact hcas.linked m hp

theorem beginTick_head (h : Hosts c live) (hn : c.links.head n = none) :
    c.beginTick.links.head n = none := by
  have hlinked : Hosts c (fun m => live m ∧ c.links.head m ≠ none) :=
    ⟨h.wf, fun m hm => ⟨h.linked m hm, hm⟩, fun m hm => h.node m hm.1⟩
  by_contra hne
  exact (hlinked.beginTick.linked n hne).2 hn

variable {m : ItimerMgr}

theorem itimerEvtStop (h : Hosts m.core live) (n : NodeId) (evt : ItimerEvt) :
    Hosts (m.itimerEvtStop n evt).1.core live := by
  rw [ItimerMgr.itimerEvtStop]
  split
  · exact h.itimerNodeDel n
  · exact h

theorem itimerEvtStart (h : Hosts m.core live) (hn : live n) (evt : ItimerEvt)
    (period : BitVec 32) (repeat_ : Int) :
    Hosts (m.itimerEvtStart n evt period repeat_).1.core live := by
  rw [ItimerMgr.itimerEvtStart_eq]
  exact (h.itimerEvtStop n evt).itimerNodeAdd hn _

theorem itimerEvtExpire (h : Hosts m.core live) (hn : live n) {evt evt' : ItimerEvt}
    {m' : ItimerMgr} {r : CatchUp} (he : m.itimerEvtExpire n evt = some (m', evt', r)) :
    Hosts m'.core live := by
  obtain ⟨-, -, ⟨-, rfl, rfl⟩ | ⟨-, rfl, rfl⟩⟩ := ItimerMgr.itimerEvtExpire_cases he
  · exact h.itimerNodeDel n
  · exact h.itimerNodeAdd hn _

end Hosts

end AlgorithmLib.TimeWheel
