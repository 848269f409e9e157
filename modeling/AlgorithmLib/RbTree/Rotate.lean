import AlgorithmLib.RbTree.Shape

set_option autoImplicit false

namespace AlgorithmLib.RbTree

open RedBlack RedBlack.ColorTree

/-- One node has been written, or none when the address is `NULL`. -/
structure Wrote (h h' : Memory) (p : Ptr) (v : View) : Prop where
  root : h'.root = h.root
  self : p ≠ 0 → h'.view p = v
  frame : ∀ z, z ≠ p → h'.view z = h.view z

namespace Memory

variable (h : Memory) {p : Ptr}

theorem write_spec (hp : p ≠ 0) {f : RbNode → RbNode} {g : View → View}
    (hf : ∀ r, (f r).view = g r.view) :
    ∃ h', h.write p f = some h' ∧ Wrote h h' p (g (h.view p)) := by
  refine ⟨_, if_neg hp, rfl, fun _ => ?_, fun z hz => ?_⟩
  · simp only [view, Function.update_self, hf]
  · simp only [view, Function.update_of_ne hz]

theorem writeSome_spec (p : Ptr) {f : RbNode → RbNode} {g : View → View}
    (hf : ∀ r, (f r).view = g r.view) :
    ∃ h', h.writeSome p f = some h' ∧ Wrote h h' p (g (h.view p)) := by
  unfold writeSome
  split
  · rename_i hp
    exact ⟨h, rfl, rfl, fun hne => absurd hp hne, fun _ _ => rfl⟩
  · rename_i hp
    exact h.write_spec hp hf

structure Reads (h : Memory) (p : Ptr) (n : RbNode) (s : Side) (parent : Ptr) (c : Color)
    (near far : Ptr) : Prop where
  read : h.read p = some n
  node : h.node p = n
  near : n.child s = near
  far : n.child s.flip = far
  parent : n.rbParent = parent
  color : n.rbColor = colorBit c
  isRed : n.rbIsRed = (c == .red)

theorem read_spec {s : Side} {parent near far : Ptr} {c : Color} (hp : p ≠ 0)
    (hview : h.view p = View.join s parent c near far) :
    ∃ n, h.Reads p n s parent c near far := by
  have hn : (h.node p).view = View.join s parent c near far := hview
  refine ⟨h.node p, if_neg hp, rfl, ?_, ?_, ?_, ?_, ?_⟩
  · rw [← RbNode.view_child, hn, View.child_join]
  · rw [← RbNode.view_child, hn, View.child_flip_join]
  · have hparent : (h.node p).rbParent = (h.node p).view.parent := rfl
    rw [hparent, hn, View.parent_join]
  · rw [RbNode.rbColor_eq, hn, View.color_join]
  · rw [RbNode.rbIsRed_eq, hn, View.color_join]

end Memory

open AlgorithmLib.RbTree.Memory

theorem HoldsPath.relink_spec {h : Memory} {path : Spine Ptr} {p : Ptr} (hp : HoldsPath h path p)
    (side : Side) (hne : p ≠ 0) (hmem : p ∉ Spine.elems path) (q : Ptr) :
    ∃ h', h.relink side (head path) p q = some h' ∧ Relinked h h' path q ∧
      ∀ z, z ≠ head path → h'.view z = h.view z := by
  cases path with
  | nil => exact ⟨_, rfl, rfl, fun _ _ => rfl⟩
  | cons f path =>
    obtain ⟨hf, hview, -, -⟩ := hp
    have hsibling : ptr f.sibling ≠ p := (ne_ptr hne fun hz => hmem
      (List.mem_append_left _ (List.mem_cons_of_mem _ hz))).symm
    obtain ⟨n, hn⟩ := h.read_spec hf.1 hview
    have hside : (if n.child side = p then side else side.flip) = f.side := by
      by_cases hs : side = f.side
      · rw [hs, hn.near, if_pos rfl]
      · have hflip : side = f.side.flip := by
          revert hs
          cases side <;> cases f.side <;> decide
        rw [hflip, hn.far, if_neg hsibling, Side.flip_flip]
    obtain ⟨h', hwrite, hw⟩ := h.write_spec (f := RbNode.setChild f.side q) hf.1
      (fun r => r.view_setChild f.side q)
    refine ⟨h', ?_, ⟨hw.self hf.1, hw.root⟩, hw.frame⟩
    simp only [Memory.relink, head, hf.1, if_false, hn.read, Option.bind_eq_bind, Option.bind_some,
      hside]
    exact hwrite

theorem Holds.paint {h : Memory} {path : Spine Ptr} {s : Side} {c : Color} {a : Ptr}
    {x y : ColorTree Ptr} (H : Holds h path (join s c a x y)) {f : RbNode → RbNode} (d : Color)
    (hf : ∀ r : RbNode, (f r).view = { r.view with color := d }) :
    ∃ h', h.write a f = some h' ∧ Holds h' path (join s d a x y) := by
  obtain ⟨ha, hview, hx, hy⟩ := holdsTree_join.mp H.tree
  have hn : (a :: (x.toList ++ y.toList) ++ Spine.elems path).Nodup :=
    ((perm_join s c a x y).append_right _).nodup_iff.mp H.perm
  obtain ⟨h', hwrite, hw⟩ := h.write_spec (g := fun v => { v with color := d }) ha.1 hf
  have hframe : ∀ z ∈ x.toList ++ y.toList ++ Spine.elems path, h'.view z = h.view z := by
    intro z hz
    refine hw.frame z ?_
    rintro rfl
    exact (List.nodup_cons.mp hn).1 hz
  refine ⟨h', hwrite, ?_, holdsTree_join.mpr ⟨ha, ?_, hx.congr fun z hz => ?_,
    hy.congr fun z hz => ?_⟩, ?_⟩
  · have hpath := H.above
    rw [ptr_join] at hpath ⊢
    exact hpath.congr (fun z hz => hframe z (List.mem_append_right _ hz)) hw.root
  · rw [hw.self ha.1, hview, View.setColor_join]
  · exact hframe z (List.mem_append_left _ (List.mem_append_left _ hz))
  · exact hframe z (List.mem_append_left _ (List.mem_append_right _ hz))
  · rw [Spine.toList_plug_congr path (toList_join_congr s rfl rfl)]
    exact H.nodup

/-- Two nodes, three subtrees and the nodes above the hole have no address in common. -/
structure Apart (x y : Ptr) (near inner far above : List Ptr) : Prop where
  ne : x ≠ y
  fst : x ∉ near ∧ x ∉ inner ∧ x ∉ above
  snd : y ∉ near ∧ y ∉ inner ∧ y ∉ above
  ofNear : ∀ z ∈ near, z ≠ x ∧ z ≠ y ∧ z ∉ inner ∧ z ∉ above
  ofInner : ∀ z ∈ inner, z ≠ x ∧ z ≠ y ∧ z ∉ near ∧ z ∉ above
  ofFar : ∀ z ∈ far, z ≠ x ∧ z ≠ y ∧ z ∉ inner ∧ z ∉ above
  ofAbove : ∀ z ∈ above, z ≠ x ∧ z ≠ y ∧ z ∉ near ∧ z ∉ inner
  nodup : near.Nodup ∧ inner.Nodup ∧ above.Nodup

theorem apart_of_nodup {x y : Ptr} {near inner far above : List Ptr}
    (h : (x :: (near ++ (y :: (inner ++ far))) ++ above).Nodup) :
    Apart x y near inner far above := by
  constructor <;> grind
/-- `__rb_rotate_left` and `__rb_rotate_right` -/
theorem Holds.rotate {h : Memory} {path : Spine Ptr} {s : Side} {c d : Color} {x y : Ptr}
    {a b e : ColorTree Ptr} (H : Holds h path (join s c x a (join s d y b e))) :
    ∃ h', h.rotate s x = some h' ∧ Holds h' path (join s d y (join s c x a b) e) := by
  obtain ⟨hx, hviewx, ha, htree⟩ := holdsTree_join.mp H.tree
  obtain ⟨hy, hviewy, hb, he⟩ := holdsTree_join.mp htree
  rw [ptr_join] at hviewx
  have hpath := H.above
  rw [ptr_join] at hpath
  have hn : (x :: (a.toList ++ (y :: (b.toList ++ e.toList))) ++ Spine.elems path).Nodup :=
    ((((perm_join s d y b e).append_left _).cons x).append_right _).nodup_iff.mp
      (((perm_join s c x a _).append_right _).nodup_iff.mp H.perm)
  obtain ⟨n, hnx⟩ := h.read_spec hx.1 hviewx
  obtain ⟨u, hny⟩ := h.read_spec hy.1 hviewy
  obtain ⟨h₁, e₁, w₁⟩ := h.write_spec hx.1 (fun r => r.view_setChild s.flip (ptr b))
  obtain ⟨h₂, e₂, w₂⟩ := h₁.writeSome_spec (ptr b) (g := fun v => { v with parent := x })
    (fun r => r.view_rbSetParent (IsNode.low (.inr hx)))
  obtain ⟨h₃, e₃, w₃⟩ := h₂.write_spec hy.1 (fun r => r.view_setChild s x)
  obtain ⟨h₄, e₄, w₄⟩ := h₃.write_spec hy.1 (g := fun v => { v with parent := head path })
    (fun r => r.view_rbSetParent hpath.low)
  have hapart := apart_of_nodup hn
  have hxy := hapart.ne
  have hbx : x ≠ ptr b := ne_ptr hx.1 hapart.fst.2.1
  have hby : y ≠ ptr b := ne_ptr hy.1 hapart.snd.2.1
  have hxp : x ≠ head path := ne_head hx.1 hapart.fst.2.2
  have hyp : y ≠ head path := ne_head hy.1 hapart.snd.2.2
  have hframe₄ : ∀ z, z ≠ x → z ≠ y → z ≠ ptr b → h₄.view z = h.view z := by
    intro z hzx hzy hzb
    rw [w₄.frame z hzy, w₃.frame z hzy, w₂.frame z hzb, w₁.frame z hzx]
  have hpath₄ : ∀ z ∈ Spine.elems path, z ≠ x ∧ z ≠ y ∧ z ≠ ptr b := by
    intro z hz
    obtain ⟨hzx, hzy, -, hzb⟩ := hapart.ofAbove z hz
    exact ⟨hzx, hzy, ne_ptr (hpath.isNode hz).1 hzb⟩
  have hroot₄ : h₄.root = h.root := by
    rw [w₄.root, w₃.root, w₂.root, w₁.root]
  obtain ⟨h₅, e₅, hlink, f₅⟩ := (hpath.congr (fun z hz => hframe₄ z (hpath₄ z hz).1
    (hpath₄ z hz).2.1 (hpath₄ z hz).2.2) hroot₄).relink_spec s hx.1 hapart.fst.2.2 y
  obtain ⟨h₆, e₆, w₆⟩ := h₅.write_spec hx.1 (g := fun v => { v with parent := y })
    (fun r => r.view_rbSetParent (IsNode.low (.inr hy)))
  have hrun : h.rotate s x = some h₆ := by
    simp only [Memory.rotate, Option.bind_eq_bind, hnx.read, Option.bind_some, hnx.far, hnx.parent,
      hny.read, hny.near, e₁, e₂, e₃, e₄, e₅, e₆]
  have hframe : ∀ z, z ≠ x → z ≠ y → z ≠ ptr b → z ≠ head path → h₆.view z = h.view z := by
    intro z hzx hzy hzb hzp
    rw [w₆.frame z hzx, f₅ z hzp, hframe₄ z hzx hzy hzb]
  have hx₆ : h₆.view x = View.join s y c (ptr a) (ptr b) := by
    rw [w₆.self hx.1, f₅ x hxp, w₄.frame x hxy, w₃.frame x hxy, w₂.frame x hbx, w₁.self hx.1,
      hviewx, View.setChild_flip_join, View.setParent_join]
  have hy₆ : h₆.view y = View.join s (head path) d x (ptr e) := by
    rw [w₆.frame y hxy.symm, f₅ y hyp, w₄.self hy.1, w₃.self hy.1, w₂.frame y hby,
      w₁.frame y hxy.symm, hviewy, View.setChild_join, View.setParent_join]
  have hb₆ : b ≠ .nil → h₆.view (ptr b) = { h.view (ptr b) with parent := x } := by
    intro hne
    have hbp : ptr b ≠ head path :=
      ne_head (hb.ptr_isNode hne).1 (hapart.ofInner _ (ptr_mem hne)).2.2.2
    rw [w₆.frame _ hbx.symm, f₅ _ hbp, w₄.frame _ hby.symm, w₃.frame _ hby.symm,
      w₂.self (hb.ptr_isNode hne).1, w₁.frame _ hbx.symm]
  have hlink₆ : Relinked h h₆ path y := by
    cases path with
    | nil => exact w₆.root.trans hlink
    | cons f path =>
      obtain ⟨hlinkf, hroot⟩ := hlink
      have hf := hpath₄ f.elem List.mem_cons_self
      exact ⟨by rw [w₆.frame _ hf.1, hlinkf, hframe₄ _ hf.1 hf.2.1 hf.2.2],
        (w₆.root.trans hroot).trans hroot₄⟩
  refine ⟨h₆, hrun, ?_, ?_, ?_⟩
  · rw [ptr_join]
    exact hpath.relink hapart.nodup.2.2 (fun z hz hzp => hframe z (hpath₄ z hz).1 (hpath₄ z hz).2.1
      (hpath₄ z hz).2.2 hzp) hlink₆
  · refine holdsTree_join.mpr ⟨hy, by rwa [ptr_join], holdsTree_join.mpr ⟨hx, hx₆, ?_, ?_⟩, ?_⟩
    · refine ha.congr fun z hz => ?_
      obtain ⟨hzx, hzy, hzb, hzp⟩ := hapart.ofNear z hz
      have hz0 := (ha.isNode hz).1
      exact hframe z hzx hzy (ne_ptr hz0 hzb) (ne_head hz0 hzp)
    · refine hb.reparent hapart.nodup.2.1 (fun z hz hzb => ?_) hb₆
      obtain ⟨hzx, hzy, -, hzp⟩ := hapart.ofInner z hz
      exact hframe z hzx hzy hzb (ne_head (hb.isNode hz).1 hzp)
    · refine he.congr fun z hz => ?_
      obtain ⟨hzx, hzy, hzb, hzp⟩ := hapart.ofFar z hz
      have hz0 := (he.isNode hz).1
      exact hframe z hzx hzy (ne_ptr hz0 hzb) (ne_head hz0 hzp)
  · rw [Spine.toList_plug_congr path (toList_rotate s d c c d x y a b e)]
    exact H.nodup

end AlgorithmLib.RbTree
