import AlgorithmLib.Library.Run
import AlgorithmLib.RbTree.Erase

set_option autoImplicit false

namespace AlgorithmLib.RbTree

open RedBlack RedBlack.ColorTree AlgorithmLib.RbTree.Memory

variable {K : Type} [LinearOrder K]

abbrev Contents (K : Type) := K → Option Ptr

namespace Op

def apply (m : Contents K) : Op K → Contents K
  | .insert _ pos k => if (m k).isSome then m else Function.update m k (some pos)
  | .searchOrInsert _ idx init =>
    if (m idx).isSome then m else Function.update m idx (some init)
  | .search _ _ => m
  | .delete _ idx => Function.update m idx none
  | .deleteNode none => m
  | .deleteNode (some pos) => fun k => if m k = some pos then none else m k

/-- What the macros leave to the application: an element that is not stored is given a key and a
node, and only a stored element is deleted. -/
def Allowed (m : Contents K) : Op K → Prop
  | .insert _ pos k => IsNode pos ∧ ∀ k', m k' = some pos → k' = k
  | .searchOrInsert _ idx init => m idx = none → IsNode init ∧ ∀ k', m k' ≠ some init
  | .search _ _ => True
  | .delete _ _ => True
  | .deleteNode pos => ∀ p ∈ pos, ∃ k, m k = some p

end Op

def contentsStep (m : Contents K) (op : Op K) : Option (Contents K) := some (op.apply m)

def contents (ops : List (Op K)) : Contents K := ops.foldl Op.apply fun _ => none

/-- The tree in memory is balanced, in the order of the keys, and has the stored elements. -/
structure Represents (s : RbState K) (m : Contents K) (T : ColorTree Ptr) : Prop where
  holds : Holds s.memory [] T
  balanced : ∃ n, Balanced T .black n
  sorted : T.toList.Pairwise fun p q => s.key p < s.key q
  stored : ∀ k p, m k = some p ↔ p ∈ T.toList ∧ s.key p = k

theorem Comparison.cases (cmp : Comparison K) (stored searched : K) :
    cmp.func stored searched < 0 ∧ searched < stored ∨
      ¬ cmp.func stored searched < 0 ∧ cmp.func stored searched > 0 ∧ stored < searched ∨
        ¬ cmp.func stored searched < 0 ∧ ¬ cmp.func stored searched > 0 ∧ stored = searched := by
  have hneg := cmp.neg stored searched
  have hpos := cmp.pos stored searched
  rcases lt_trichotomy searched stored with hlt | heq | hgt
  · exact .inl ⟨hneg.mpr hlt, hlt⟩
  · refine .inr (.inr ⟨?_, ?_, heq.symm⟩)
    · exact fun h => (hneg.mp h).ne heq
    · exact fun h => (hpos.mp h).ne heq.symm
  · exact .inr (.inl ⟨fun h => (hneg.mp h).asymm hgt, hpos.mpr hgt, hgt⟩)

theorem searchLoop_spec (cmp : Comparison K) (s : RbState K) (k : K) {fuel : Nat} {parent : Ptr}
    {t : ColorTree Ptr} (ht : HoldsTree s.memory parent t)
    (hsorted : t.toList.Pairwise fun p q => s.key p < s.key q) (hfuel : t.toList.length < fuel) :
    ∃ res, s.searchLoop cmp k fuel (ptr t) = some res ∧
      ∀ p, res = some p ↔ p ∈ t.toList ∧ s.key p = k := by
  induction t generalizing fuel parent with
  | nil =>
    obtain ⟨n, rfl⟩ : ∃ n, fuel = n + 1 := ⟨fuel - 1, by omega⟩
    exact ⟨none, rfl, by simp [ColorTree.toList]⟩
  | node c l a r ihl ihr =>
    obtain ⟨ha, hview, hl, hr⟩ := ht
    simp only [ColorTree.toList, List.length_append, List.length_cons] at hfuel
    obtain ⟨n, rfl⟩ : ∃ n, fuel = n + 1 := ⟨fuel - 1, by omega⟩
    simp only [ColorTree.toList, List.pairwise_append, List.pairwise_cons, List.mem_cons] at hsorted
    obtain ⟨hsl, ⟨har, hsr⟩, hlar⟩ := hsorted
    have hleft : (s.memory.node a).rbLeft = ptr l := congrArg View.left hview
    have hright : (s.memory.node a).rbRight = ptr r := congrArg View.right hview
    simp only [ptr, RbState.searchLoop, if_neg ha.1, hleft, hright]
    simp only [ColorTree.toList, List.mem_append, List.mem_cons]
    rcases cmp.cases (s.key a) k with ⟨hneg, hlt⟩ | ⟨hneg, hpos, hlt⟩ | ⟨hneg, hpos, heq⟩
    · rw [if_pos hneg]
      have hn : l.toList.length < n := by omega
      obtain ⟨res, hrun, hres⟩ := ihl hl hsl hn
      refine ⟨res, hrun, fun p => (hres p).trans ⟨fun h => ⟨.inl h.1, h.2⟩, ?_⟩⟩
      rintro ⟨hp | rfl | hp, hk⟩
      · exact ⟨hp, hk⟩
      · exact absurd hk hlt.ne'
      · exact absurd hk (hlt.trans (har p hp)).ne'
    · rw [if_neg hneg, if_pos hpos]
      have hn : r.toList.length < n := by omega
      obtain ⟨res, hrun, hres⟩ := ihr hr hsr hn
      refine ⟨res, hrun, fun p => (hres p).trans ⟨fun h => ⟨.inr (.inr h.1), h.2⟩, ?_⟩⟩
      rintro ⟨hp | rfl | hp, hk⟩
      · exact absurd hk ((hlar p hp a (.inl rfl)).trans hlt).ne
      · exact absurd hk hlt.ne
      · exact ⟨hp, hk⟩
    · rw [if_neg hneg, if_neg hpos]
      refine ⟨some a, rfl, fun p => ⟨?_, ?_⟩⟩
      · rintro ⟨⟩
        exact ⟨.inr (.inl rfl), heq⟩
      · rintro ⟨hp | rfl | hp, hk⟩
        · exact absurd (hk.trans heq.symm) (hlar p hp a (.inl rfl)).ne
        · rfl
        · exact absurd (hk.trans heq.symm) (har p hp).ne'

theorem HoldsPath.load_slot {h : Memory} {path : Spine Ptr} {p : Ptr} (hp : HoldsPath h path p) :
    h.load (slot path) = some p := by
  cases path with
  | nil => exact congrArg some hp
  | cons f path =>
    obtain ⟨n, hn⟩ := h.read_spec hp.1.1 hp.2.1
    simp only [slot, load, hn.read, Option.map_some, hn.near]

theorem toList_hole (path : Spine Ptr) :
    (Spine.plug path .nil).toList = Spine.before path ++ Spine.after path := by
  rw [Spine.toList_plug, ColorTree.toList, List.append_nil]

theorem insertLoop_spec (cmp : Comparison K) (s : RbState K) (k : K) {fuel : Nat}
    {path : Spine Ptr} {t : ColorTree Ptr} (H : Holds s.memory path t)
    (hsorted : t.toList.Pairwise fun p q => s.key p < s.key q)
    (hbefore : ∀ p ∈ Spine.before path, s.key p < k) (hafter : ∀ p ∈ Spine.after path, k < s.key p)
    (hfuel : t.toList.length < fuel) :
    (∃ p ∈ t.toList, s.key p = k ∧
        s.insertLoop cmp k fuel (slot path) (head path) = some (.inr p)) ∨
      ∃ path', s.insertLoop cmp k fuel (slot path) (head path) =
          some (.inl (slot path', head path')) ∧ Holds s.memory path' .nil ∧
        Spine.plug path' .nil = Spine.plug path t ∧ (∀ p ∈ Spine.before path', s.key p < k) ∧
        ∀ p ∈ Spine.after path', k < s.key p := by
  induction t generalizing fuel path with
  | nil =>
    obtain ⟨n, rfl⟩ : ∃ n, fuel = n + 1 := ⟨fuel - 1, by omega⟩
    refine .inr ⟨path, ?_, H, rfl, hbefore, hafter⟩
    simp only [RbState.insertLoop, H.above.load_slot, Option.bind_eq_bind, Option.bind_some,
      ptr_nil, if_true]
  | node c l a r ihl ihr =>
    simp only [ColorTree.toList, List.length_append, List.length_cons] at hfuel
    obtain ⟨n, rfl⟩ : ∃ n, fuel = n + 1 := ⟨fuel - 1, by omega⟩
    simp only [ColorTree.toList, List.pairwise_append, List.pairwise_cons, List.mem_cons] at hsorted
    obtain ⟨hsl, ⟨har, hsr⟩, hlar⟩ := hsorted
    have hload : s.memory.load (slot path) = some a := H.above.load_slot
    simp only [RbState.insertLoop, hload, Option.bind_eq_bind, Option.bind_some,
      if_neg (Holds.isNode (s := .left) H).1, ColorTree.toList, List.mem_append, List.mem_cons]
    rcases cmp.cases (s.key a) k with ⟨hneg, hlt⟩ | ⟨hneg, hpos, hlt⟩ | ⟨hneg, hpos, heq⟩
    · have hafter' : ∀ p ∈ Spine.after (⟨.left, c, a, r⟩ :: path), k < s.key p := by
        intro p hp
        simp only [Spine.after, List.cons_append, List.mem_cons, List.mem_append] at hp
        rcases hp with rfl | hp | hp
        · exact hlt
        · exact hlt.trans (har p hp)
        · exact hafter p hp
      have hn : l.toList.length < n := by omega
      rcases ihl ((holds_cons (s := .left)).mpr H) hsl hbefore hafter' hn with
        ⟨p, hp, hk, hrun⟩ | hhole
      · exact .inl ⟨p, .inl hp, hk, (if_pos hneg).trans hrun⟩
      · obtain ⟨path', hrun, hhole⟩ := hhole
        exact .inr ⟨path', (if_pos hneg).trans hrun, hhole⟩
    · have hbefore' : ∀ p ∈ Spine.before (⟨.right, c, a, l⟩ :: path), s.key p < k := by
        intro p hp
        simp only [Spine.before, List.mem_append, List.mem_singleton] at hp
        rcases hp with hp | hp | rfl
        · exact hbefore p hp
        · exact (hlar p hp a (.inl rfl)).trans hlt
        · exact hlt
      have hn : r.toList.length < n := by omega
      rcases ihr ((holds_cons (s := .right)).mpr H) hsr hbefore' hafter hn with
        ⟨p, hp, hk, hrun⟩ | hhole
      · exact .inl ⟨p, .inr (.inr hp), hk, (if_neg hneg).trans ((if_pos hpos).trans hrun)⟩
      · obtain ⟨path', hrun, hhole⟩ := hhole
        exact .inr ⟨path', (if_neg hneg).trans ((if_pos hpos).trans hrun), hhole⟩
    · exact .inl ⟨a, .inr (.inl rfl), heq, (if_neg hneg).trans (if_neg hpos)⟩

namespace Represents

variable {s : RbState K} {m : Contents K} {T : ColorTree Ptr}

theorem rbSearch (h : Represents s m T) (cmp : Comparison K) (k : K) :
    s.rbSearch cmp k = some (m k) := by
  obtain ⟨res, hrun, hres⟩ := searchLoop_spec cmp s k h.holds.tree h.sorted h.holds.length_lt
  have hroot : s.memory.root = ptr T := h.holds.above
  have hmk : res = m k := Option.ext fun p => (hres p).trans (h.stored k p).symm
  rw [RbState.rbSearch, hroot, hrun, hmk]

theorem insertLoop (h : Represents s m T) (cmp : Comparison K) (k : K) :
    (∃ q, m k = some q ∧ s.insertLoop cmp k addresses .root 0 = some (.inr q)) ∨
      m k = none ∧ ∃ path,
        s.insertLoop cmp k addresses .root 0 = some (.inl (slot path, head path)) ∧
        Holds s.memory path .nil ∧ Spine.plug path .nil = T ∧
        (∀ p ∈ Spine.before path, s.key p < k) ∧ ∀ p ∈ Spine.after path, k < s.key p := by
  have hdescent := insertLoop_spec cmp s k h.holds h.sorted
    (fun _ hp => absurd hp List.not_mem_nil) (fun _ hp => absurd hp List.not_mem_nil)
    h.holds.length_lt
  rcases hdescent with ⟨q, hq, hk, hrun⟩ | ⟨path, hrun, hpath, hplug, hbefore, hafter⟩
  · exact .inl ⟨q, (h.stored k q).mpr ⟨hq, hk⟩, hrun⟩
  · refine .inr ⟨?_, path, hrun, hpath, hplug, hbefore, hafter⟩
    cases hmk : m k with
    | none => rfl
    | some p =>
      obtain ⟨hp, hkp⟩ := (h.stored k p).mp hmk
      have hlist := toList_hole path
      rw [hplug, Spine.plug] at hlist
      rw [hlist] at hp
      rcases List.mem_append.mp hp with hp | hp
      · exact absurd hkp (hbefore p hp).ne
      · exact absurd hkp (hafter p hp).ne'

theorem update_key (h : Represents s m T) {pos : Ptr} {k : K}
    (hpos : ∀ k', m k' = some pos → k' = k) {p : Ptr} (hp : p ∈ T.toList) :
    Function.update s.key pos k p = s.key p := by
  by_cases hpp : p = pos
  · subst hpp
    rw [Function.update_self]
    exact (hpos _ ((h.stored _ p).mpr ⟨hp, rfl⟩)).symm
  · exact Function.update_of_ne hpp ..

theorem rekey (h : Represents s m T) {pos : Ptr} {k : K} (hpos : ∀ k', m k' = some pos → k' = k) :
    Represents { s with key := Function.update s.key pos k } m T := by
  have hkey : ∀ p ∈ T.toList, Function.update s.key pos k p = s.key p :=
    fun _ hp => h.update_key hpos hp
  refine ⟨h.holds, h.balanced, h.sorted.imp_of_mem fun hp hq hlt => ?_, fun k' p => ?_⟩
  · show Function.update s.key pos k _ < Function.update s.key pos k _
    rwa [hkey _ hp, hkey _ hq]
  · refine (h.stored k' p).trans ⟨?_, ?_⟩
    · rintro ⟨hp, hk⟩
      exact ⟨hp, (hkey p hp).trans hk⟩
    · rintro ⟨hp, hk⟩
      exact ⟨hp, (hkey p hp).symm.trans hk⟩

theorem link (h : Represents s m T) {path : Spine Ptr} {k : K} {pos : Ptr}
    (hpath : Holds s.memory path .nil) (hplug : Spine.plug path .nil = T)
    (hbefore : ∀ p ∈ Spine.before path, s.key p < k) (hafter : ∀ p ∈ Spine.after path, k < s.key p)
    (hnode : IsNode pos) (hfresh : ∀ k', m k' ≠ some pos) (hkey : s.key pos = k) :
    ∃ s' T', s.linkAndColor pos (head path) (slot path) = some s' ∧ s'.key = s.key ∧
      Represents s' (Function.update m k (some pos)) T' := by
  have hlist := toList_hole path
  rw [hplug] at hlist
  have hmem : pos ∉ T.toList := fun hp => hfresh _ ((h.stored _ pos).mpr ⟨hp, rfl⟩)
  have helems : pos ∉ Spine.elems path := by
    rw [← hplug] at hmem
    exact fun hp => hmem ((Spine.perm_plug path .nil).mem_iff.mpr hp)
  obtain ⟨n, hn⟩ := h.balanced
  obtain ⟨h₁, h₂, T', e₁, e₂, H₂, hlist', hbalanced⟩ :=
    linkAndColor_spec hpath (by rwa [hplug]) hnode helems
  refine ⟨{ s with memory := h₂ }, T', ?_, rfl, H₂, hbalanced, ?_, fun k' p => ?_⟩
  · simp only [RbState.linkAndColor, Option.bind_eq_bind, e₁, Option.bind_some, e₂]
  · have hsorted := h.sorted
    rw [hlist] at hsorted
    obtain ⟨hsb, hsa, hba⟩ := List.pairwise_append.mp hsorted
    rw [hlist']
    refine List.pairwise_append.mpr ⟨hsb, List.pairwise_cons.mpr ⟨fun q hq => ?_, hsa⟩, ?_⟩
    · exact hkey.symm ▸ hafter q hq
    · intro p hp q hq
      rcases List.mem_cons.mp hq with rfl | hq
      · exact hkey.symm ▸ hbefore p hp
      · exact hba p hp q hq
  · have hstored := h.stored k' p
    rw [hlist, List.mem_append] at hstored
    rw [hlist', List.mem_append, List.mem_cons]
    by_cases hk : k' = k
    · subst hk
      rw [Function.update_self, Option.some.injEq]
      constructor
      · rintro rfl
        exact ⟨.inr (.inl rfl), hkey⟩
      · rintro ⟨hp | rfl | hp, hpk⟩
        · exact absurd hpk (hbefore p hp).ne
        · rfl
        · exact absurd hpk (hafter p hp).ne'
    · rw [Function.update_of_ne hk, hstored]
      constructor
      · rintro ⟨hp | hp, hpk⟩
        · exact ⟨.inl hp, hpk⟩
        · exact ⟨.inr (.inr hp), hpk⟩
      · rintro ⟨hp | rfl | hp, hpk⟩
        · exact ⟨.inl hp, hpk⟩
        · exact absurd (hpk.symm.trans hkey) hk
        · exact ⟨.inr hp, hpk⟩

theorem rbDeleteNode (h : Represents s m T) {k : K} {a : Ptr} (hk : m k = some a) :
    ∃ s' T', s.rbDeleteNode (some a) = some s' ∧ s'.key = s.key ∧
      Represents s' (fun k' => if m k' = some a then none else m k') T' := by
  obtain ⟨ha, hak⟩ := (h.stored k a).mp hk
  obtain ⟨xs, ys, hsplit⟩ := List.append_of_mem ha
  obtain ⟨path, c, l, r, rfl, hxs, hys⟩ := Spine.exists_focus hsplit
  obtain ⟨n, hn⟩ := h.balanced
  have hfocus : Holds s.memory path (.node c l a r) := by
    have happend := holds_append.mpr h.holds
    rwa [List.append_nil] at happend
  obtain ⟨h', T', hrun, H', hlist, hbalanced⟩ := rbErase_spec hfocus hn
  have hlist : T'.toList = xs ++ ys := by
    rw [hlist, ← hxs, ← hys]
    simp
  have hsub : T'.toList.Sublist (Spine.plug path (.node c l a r)).toList := by
    rw [hlist, hsplit]
    exact (List.sublist_cons_self a ys).append_left xs
  have hmem : ∀ p, p ∈ T'.toList ↔ p ∈ (Spine.plug path (.node c l a r)).toList ∧ p ≠ a := by
    intro p
    have hnodup := h.holds.nodup
    simp only [Spine.plug] at hnodup
    rw [hsplit] at hnodup
    rw [hlist, hsplit]
    grind
  refine ⟨{ s with memory := h' }, T', ?_, rfl, H', hbalanced, h.sorted.sublist hsub,
    fun k' p => ?_⟩
  · simp only [RbState.rbDeleteNode, hrun, Option.map_some]
  · rw [hmem]
    by_cases hk' : m k' = some a
    · rw [if_pos hk']
      constructor
      · exact fun hp => absurd hp.symm (Option.some_ne_none p)
      · rintro ⟨⟨hp, hne⟩, hpk⟩
        have hpa := (h.stored k' p).mpr ⟨hp, hpk⟩
        rw [hk'] at hpa
        exact absurd (Option.some.inj hpa).symm hne
    · rw [if_neg hk', h.stored k' p]
      constructor
      · rintro ⟨hp, hpk⟩
        refine ⟨⟨hp, ?_⟩, hpk⟩
        rintro rfl
        exact hk' ((h.stored k' p).mpr ⟨hp, hpk⟩)
      · rintro ⟨⟨hp, -⟩, hpk⟩
        exact ⟨hp, hpk⟩

theorem apply_delete (h : Represents s m T) {k : K} {a : Ptr} (hk : m k = some a) :
    (fun k' => if m k' = some a then none else m k') = Function.update m k none := by
  funext k'
  by_cases hkk : k' = k
  · subst hkk
    rw [if_pos hk, Function.update_self]
  · rw [Function.update_of_ne hkk]
    refine if_neg fun hk' => hkk ?_
    exact ((h.stored k' a).mp hk').2.symm.trans ((h.stored k a).mp hk).2

theorem step (h : Represents s m T) {op : Op K} (hallowed : op.Allowed m) :
    ∃ s' T', RbTree.step s op = some s' ∧ Represents s' (op.apply m) T' := by
  cases op with
  | insert cmp pos k =>
    obtain ⟨hnode, hpos⟩ := hallowed
    have hrekey := h.rekey hpos
    have hkey : Function.update s.key pos k pos = k := Function.update_self ..
    rcases hrekey.insertLoop cmp k with ⟨q, hq, hrun⟩ |
      ⟨hnone, path, hrun, hpath, hplug, hbefore, hafter⟩
    · refine ⟨{ s with key := Function.update s.key pos k }, T, ?_, ?_⟩
      · simp only [RbTree.step, RbState.rbInsert, hkey, hrun, Option.bind_eq_bind,
          Option.bind_some]
      · rw [Op.apply, hq]
        exact hrekey
    · have hfresh : ∀ k', m k' ≠ some pos := by
        intro k' hk'
        rw [hpos k' hk', hnone] at hk'
        exact (nomatch hk')
      obtain ⟨s', T', hlink, -, hs'⟩ :=
        hrekey.link hpath hplug hbefore hafter hnode hfresh hkey
      refine ⟨s', T', ?_, ?_⟩
      · simp only [RbTree.step, RbState.rbInsert, hkey, hrun, Option.bind_eq_bind,
          Option.bind_some, hlink]
      · rw [Op.apply, hnone]
        exact hs'
  | searchOrInsert cmp idx init =>
    rcases h.insertLoop cmp idx with ⟨q, hq, hrun⟩ |
      ⟨hnone, path, hrun, hpath, hplug, hbefore, hafter⟩
    · refine ⟨s, T, ?_, ?_⟩
      · simp only [RbTree.step, RbState.rbSearchOrInsert, hrun, Option.bind_eq_bind,
          Option.bind_some, Option.map_some]
      · rw [Op.apply, hq]
        exact h
    · obtain ⟨hnode, hfresh⟩ := hallowed hnone
      have hpos : ∀ k', m k' = some init → k' = idx := fun k' hk' => absurd hk' (hfresh k')
      have hlist := toList_hole path
      rw [hplug] at hlist
      have hbefore' : ∀ p ∈ Spine.before path, Function.update s.key init idx p < idx := by
        intro p hp
        rw [h.update_key hpos (hlist ▸ List.mem_append_left _ hp)]
        exact hbefore p hp
      have hafter' : ∀ p ∈ Spine.after path, idx < Function.update s.key init idx p := by
        intro p hp
        rw [h.update_key hpos (hlist ▸ List.mem_append_right _ hp)]
        exact hafter p hp
      obtain ⟨s', T', hlink, -, hs'⟩ := (h.rekey hpos).link hpath hplug hbefore' hafter' hnode
        hfresh (Function.update_self ..)
      refine ⟨s', T', ?_, ?_⟩
      · simp only [RbTree.step, RbState.rbSearchOrInsert, hrun, Option.bind_eq_bind,
          Option.bind_some, hlink, Option.map_some]
      · rw [Op.apply, hnone]
        exact hs'
  | search cmp idx =>
    exact ⟨s, T, by rw [RbTree.step, h.rbSearch]; rfl, h⟩
  | delete cmp idx =>
    cases hidx : m idx with
    | none =>
      refine ⟨s, T, ?_, ?_⟩
      · simp only [RbTree.step, RbState.rbDelete, h.rbSearch, hidx, Option.bind_eq_bind,
          Option.bind_some, RbState.rbDeleteNode]
      · rw [Op.apply, ← hidx, Function.update_eq_self]
        exact h
    | some a =>
      obtain ⟨s', T', hrun, -, hs'⟩ := h.rbDeleteNode hidx
      refine ⟨s', T', ?_, ?_⟩
      · simp only [RbTree.step, RbState.rbDelete, h.rbSearch, hidx, Option.bind_eq_bind,
          Option.bind_some, hrun]
      · rwa [Op.apply, ← h.apply_delete hidx]
  | deleteNode pos =>
    cases pos with
    | none => exact ⟨s, T, rfl, h⟩
    | some a =>
      obtain ⟨k, hk⟩ := hallowed a rfl
      obtain ⟨s', T', hrun, -, hs'⟩ := h.rbDeleteNode hk
      exact ⟨s', T', hrun, hs'⟩

theorem run (h : Represents s m T) {ops : List (Op K)}
    (hallowed : Run.Meets contentsStep (fun m op => op.Allowed m) m ops) :
    ∃ s' T', Run.run RbTree.step s ops = some s' ∧ Represents s' (ops.foldl Op.apply m) T' := by
  induction ops generalizing s m T with
  | nil => exact ⟨s, T, rfl, h⟩
  | cons op ops ih =>
    obtain ⟨s₁, T₁, hstep, h₁⟩ := h.step hallowed.1
    obtain ⟨s', T', hrun, h'⟩ := ih h₁ (hallowed.tail rfl)
    exact ⟨s', T', Run.run_cons.mpr ⟨s₁, hstep, hrun⟩, h'⟩

end Represents

/-- What the macros do in a state whose tree has these contents. -/
structure Implements (s : RbState K) (m : Contents K) : Prop where
  search : ∀ cmp k, s.rbSearch cmp k = some (m k)
  insert_stored : ∀ cmp pos, (m (s.key pos)).isSome → s.rbInsert cmp pos = some s
  searchOrInsert_stored : ∀ cmp k init q, m k = some q →
    s.rbSearchOrInsert cmp k init = some (s, q)
  delete_absent : ∀ cmp k, m k = none → s.rbDelete cmp k = some s
  traverse : ∃ l, s.memory.traverse = some l ∧ (l.map s.key).Pairwise (· < ·) ∧
    ∀ p, p ∈ l ↔ m (s.key p) = some p
  key : ∀ k p, m k = some p → s.key p = k

theorem Represents.implements {s : RbState K} {m : Contents K} {T : ColorTree Ptr}
    (h : Represents s m T) : Implements s m where
  search := h.rbSearch
  insert_stored cmp pos hstored := by
    rcases h.insertLoop cmp (s.key pos) with ⟨q, hq, hrun⟩ | ⟨hnone, -⟩
    · simp only [RbState.rbInsert, hrun, Option.bind_eq_bind, Option.bind_some]
    · rw [hnone] at hstored
      exact (nomatch hstored)
  searchOrInsert_stored cmp k init q hq := by
    rcases h.insertLoop cmp k with ⟨q', hq', hrun⟩ | ⟨hnone, -⟩
    · rw [hq] at hq'
      cases hq'
      simp only [RbState.rbSearchOrInsert, hrun, Option.bind_eq_bind, Option.bind_some]
    · rw [hq] at hnone
      exact (nomatch hnone)
  delete_absent cmp k hk := by
    simp only [RbState.rbDelete, h.rbSearch, hk, Option.bind_eq_bind, Option.bind_some,
      RbState.rbDeleteNode]
  traverse := by
    refine ⟨T.toList, traverse_spec h.holds, List.pairwise_map.mpr h.sorted, fun p => ?_⟩
    rw [h.stored]
    exact ⟨fun hp => ⟨hp, rfl⟩, fun hp => hp.1⟩
  key k p hk := ((h.stored k p).mp hk).2

/-- Every sequence of uses of the macros on an empty root runs, and they implement the contents
that it leaves. -/
theorem rb_finite_map (s : RbState K) (ops : List (Op K)) (hroot : s.memory.root = 0)
    (hallowed : Run.Meets contentsStep (fun m op => op.Allowed m) (fun _ => none) ops) :
    ∃ s', Run.run step s ops = some s' ∧ Implements s' (contents ops) := by
  have hempty : Represents s (fun _ => none) .nil :=
    ⟨⟨hroot, trivial, List.nodup_nil⟩, ⟨0, .nil⟩, List.Pairwise.nil,
      fun k p => by simp [ColorTree.toList]⟩
  obtain ⟨s', T, hrun, h'⟩ := hempty.run hallowed
  exact ⟨s', hrun, h'.implements⟩

def difference : Comparison Nat where
  func stored searched := searched - stored
  neg stored searched := by omega
  pos stored searched := by omega

/-- Three elements that are rotated, a key that is there already, and two that are deleted. -/
def someUses : List (Op Nat) :=
  [.insert difference 8 30, .insert difference 16 10, .insert difference 24 20,
    .insert difference 32 10, .searchOrInsert difference 40 40, .delete difference 20,
    .deleteNode (some 8)]

theorem rb_finite_map_some_uses : ∃ s',
    Run.run step ⟨⟨fun _ => ⟨0, 0, 0⟩, 0⟩, fun _ => 0⟩ someUses = some s' ∧
      Implements s' (contents someUses) ∧ contents someUses 10 = some 16 := by
  have hallowed :
      Run.Meets contentsStep (fun m op => op.Allowed m) (fun _ => none) someUses := by
    simp [someUses, Run.Meets, contentsStep, Op.Allowed, Op.apply, IsNode, Function.update]
    refine ⟨fun k => ?_, fun k => ?_, fun k => ?_, 30, by decide, rfl⟩
    all_goals split_ifs <;> simp
  obtain ⟨s', hrun, h'⟩ :=
    rb_finite_map ⟨⟨fun _ => ⟨0, 0, 0⟩, 0⟩, fun _ => 0⟩ someUses rfl hallowed
  exact ⟨s', hrun, h', rfl⟩

end AlgorithmLib.RbTree
