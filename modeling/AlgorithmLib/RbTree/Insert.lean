import AlgorithmLib.RbTree.Rotate
import Mathlib.Data.Fintype.Card

set_option autoImplicit false

namespace AlgorithmLib.RbTree

open RedBlack RedBlack.ColorTree AlgorithmLib.RbTree.Memory

theorem Holds.length_lt {h : Memory} {path : Spine Ptr} {t : ColorTree Ptr} (H : Holds h path t) :
    (Spine.plug path t).toList.length < addresses := by
  have hzero : (0 : Ptr) ∉ (Spine.plug path t).toList := by
    intro hmem
    rcases List.mem_append.mp ((Spine.perm_plug path t).mem_iff.mp hmem) with hz | hz
    · exact (H.tree.isNode hz).1 rfl
    · exact (H.above.isNode hz).1 rfl
  have hnodup : ((0 :: (Spine.plug path t).toList).map BitVec.toFin).Nodup :=
    (List.nodup_cons.mpr ⟨hzero, H.nodup⟩).map fun _ _ h => BitVec.eq_of_toFin_eq h
  have hcard := hnodup.length_le_card
  rw [List.length_map, List.length_cons, Fintype.card_fin] at hcard
  exact hcard

theorem Holds.path_length_lt {h : Memory} {path : Spine Ptr} {t : ColorTree Ptr}
    (H : Holds h path t) :
    path.length < addresses :=
  (Spine.length_le_toList_plug path t).trans_lt H.length_lt

theorem Holds.reads {h : Memory} {path : Spine Ptr} {s : Side} {c : Color} {a : Ptr}
    {x y : ColorTree Ptr} (H : Holds h path (join s c a x y)) :
    ∃ n, h.Reads a n s (head path) c (ptr x) (ptr y) := by
  obtain ⟨ha, hview, -⟩ := holdsTree_join.mp H.tree
  exact h.read_spec ha.1 hview

theorem Holds.isNode {h : Memory} {path : Spine Ptr} {s : Side} {c : Color} {a : Ptr}
    {x y : ColorTree Ptr} (H : Holds h path (join s c a x y)) : IsNode a :=
  (holdsTree_join.mp H.tree).1

theorem Memory.Reads.isRed_eq {h : Memory} {p : Ptr} {n : RbNode} {s : Side} {parent near far : Ptr}
    {c : Color} (hn : h.Reads p n s parent c near far) (hp : p ≠ 0) :
    h.isRed p = (c == .red) := by
  rw [Memory.isRed, bne_iff_ne.mpr hp, Bool.true_and, hn.node, hn.isRed]

theorem HoldsTree.isRed_eq {h : Memory} {parent : Ptr} {t : ColorTree Ptr}
    (ht : HoldsTree h parent t)
    {c : Color} {n : Nat} (hb : Balanced t c n) : h.isRed (ptr t) = (c == .red) := by
  cases hb with
  | nil => rfl
  | red hl hr =>
    obtain ⟨ha, hview, -⟩ := holdsTree_join (s := .left).mp ht
    obtain ⟨n, hn⟩ := h.read_spec ha.1 hview
    exact hn.isRed_eq ha.1
  | black hl hr =>
    obtain ⟨ha, hview, -⟩ := holdsTree_join (s := .left).mp ht
    obtain ⟨n, hn⟩ := h.read_spec ha.1 hview
    exact hn.isRed_eq ha.1

theorem Holds.isRed_head {h : Memory} {s : Side} {c : Color} {a : Ptr} {y : ColorTree Ptr}
    {path : Spine Ptr} {t : ColorTree Ptr} (H : Holds h (⟨s, c, a, y⟩ :: path) t) :
    h.isRed a = (c == .red) := by
  obtain ⟨n, hn⟩ := (holds_cons.mp H).reads
  exact hn.isRed_eq (holds_cons.mp H).isNode.1

theorem Holds.ptr_ne {h : Memory} {s : Side} {c : Color} {a : Ptr} {y : ColorTree Ptr}
    {path : Spine Ptr} {t : ColorTree Ptr} (H : Holds h (⟨s, c, a, y⟩ :: path) t)
    (hne : t ≠ .nil ∨ y ≠ .nil) : ptr t ≠ ptr y := by
  have hperm := H.perm
  simp only [Spine.elems, List.cons_append] at hperm
  rcases hne with hne | hne
  · have hmem := ptr_mem hne
    exact ne_ptr (H.tree.ptr_isNode hne).1 (by grind)
  · have hmem := ptr_mem hne
    have hy : HoldsTree h a y := (holdsTree_join.mp (holds_cons.mp H).tree).2.2.2
    exact (ne_ptr (hy.ptr_isNode hne).1 (by grind)).symm

theorem sideOf_eq {n : RbNode} {s : Side} {p q : Ptr} (hnear : n.child s = p)
    (hfar : n.child s.flip = q) (hne : p ≠ q) : sideOf n p = s := by
  cases s with
  | left => exact if_pos hnear
  | right =>
    refine if_neg ?_
    intro heq
    exact hne (heq.symm.trans hfar)

theorem insertColorLoop_done {h : Memory} {path : Spine Ptr} {t : ColorTree Ptr}
    (H : Holds h path t)
    (hne : t ≠ .nil) (hblack : h.isRed (head path) = false) (fuel : Nat) :
    insertColorLoop (fuel + 1) h (ptr t) = some h := by
  obtain ⟨c, a, x, y, rfl⟩ := exists_join .left hne
  obtain ⟨n, hn⟩ := H.reads
  rw [ptr_join, insertColorLoop, hn.read]
  simp only [Option.bind_eq_bind, Option.bind_some, hn.parent, hblack]
  rfl

theorem Holds.rotateOuter {h : Memory} {s : Side} {p g : Ptr} {y u t : ColorTree Ptr}
    {path : Spine Ptr} (H : Holds h (⟨s, .red, p, y⟩ :: ⟨s, .black, g, u⟩ :: path) t) :
    ∃ h₁ h₂ h₃, h.write p RbNode.rbSetBlack = some h₁ ∧ h₁.write g RbNode.rbSetRed = some h₂ ∧
      h₂.rotate s.flip g = some h₃ ∧
      Holds h₃ (⟨s, .black, p, join s .red g y u⟩ :: path) t := by
  obtain ⟨h₁, e₁, H₁⟩ := (holds_cons.mp H).paint .black RbNode.view_rbSetBlack
  obtain ⟨h₂, e₂, H₂⟩ := (holds_cons.mp H₁).paint .red RbNode.view_rbSetRed
  rw [← join_flip, ← join_flip s] at H₂
  obtain ⟨h₃, e₃, H₃⟩ := H₂.rotate
  refine ⟨h₁, h₂, h₃, e₁, e₂, e₃, holds_cons.mpr ?_⟩
  rwa [join_flip, join_flip] at H₃

theorem insertRotate_spec {h : Memory} {r s : Side} {x p g : Ptr} {b e y u : ColorTree Ptr}
    {path : Spine Ptr} {n : Nat}
    (H : Holds h (⟨r, .red, p, y⟩ :: ⟨s, .black, g, u⟩ :: path) (join s .red x b e))
    (ht : Balanced (join s .red x b e) .red n) (hy : Balanced y .black n)
    (hu : Balanced u .black n) (hpath : Spine.Fits path .black (n + 1)) :
    ∃ h' path' t, h.insertRotate s x p g = some (h', ptr t) ∧ Holds h' path' t ∧ t ≠ .nil ∧
      h'.isRed (head path') = false ∧
      (Spine.plug path' t).toList =
        (Spine.plug path (join s .black g (join r .red p (join s .red x b e) y) u)).toList ∧
      ∃ m, Balanced (Spine.plug path' t) .black m := by
  obtain ⟨-, hb, he⟩ := balanced_red.mp ht
  obtain ⟨n', hn⟩ := (holds_cons.mp H).reads
  by_cases hr : r = s
  · subst hr
    have hne : ptr y ≠ x := by
      have hptr := (H.ptr_ne (.inl (join_ne_nil r .red x b e))).symm
      rwa [ptr_join] at hptr
    have hfar : n'.child r.flip = ptr y := hn.far
    obtain ⟨h₁, h₂, h₃, e₁, e₂, e₃, H₃⟩ := H.rotateOuter
    refine ⟨h₃, _, _, ?_, H₃, join_ne_nil r .red x b e, H₃.isRed_head, ?_, ?_⟩
    · simp only [insertRotate, Option.bind_eq_bind, hn.read, Option.bind_some, hfar, hne, if_false,
        e₁, e₂, e₃, ptr_join]
    · rw [Spine.plug]
      refine Spine.toList_plug_congr path ?_
      exact (toList_rotate r .black .red .black .red p g _ y u).symm
    · exact (Spine.Fits.black (balanced_red.mpr ⟨rfl, hy, hu⟩) hpath).plug ht
  · have hflip : r = s.flip := by
      revert hr
      cases r <;> cases s <;> decide
    subst hflip
    have hnear : n'.child s.flip = x := by
      have hchild := hn.near
      rwa [ptr_join] at hchild
    have H₀ := holds_cons.mp H
    rw [join_flip] at H₀
    obtain ⟨h₀, e₀, H₀⟩ := H₀.rotate
    obtain ⟨h₁, h₂, h₃, e₁, e₂, e₃, H₃⟩ := (holds_cons.mpr H₀).rotateOuter
    refine ⟨h₃, _, _, ?_, H₃, join_ne_nil s .red p y b, H₃.isRed_head, ?_, ?_⟩
    · simp only [insertRotate, Option.bind_eq_bind, hn.read, Option.bind_some, hnear, if_true,
        e₀, Option.map_some, e₁, e₂, e₃, ptr_join]
    · rw [Spine.plug]
      refine Spine.toList_plug_congr path ?_
      rw [← toList_rotate s .black .red .black .red, join_flip]
      exact toList_join_congr s (toList_rotate s .red .red .red .red p x y b e) rfl
    · exact (Spine.Fits.black (balanced_red.mpr ⟨rfl, he, hu⟩) hpath).plug
        (balanced_red.mpr ⟨rfl, hy, hb⟩)

theorem insertColorLoop_spec {fuel : Nat} {h : Memory} {path : Spine Ptr} {t : ColorTree Ptr}
    {n : Nat}
    (H : Holds h path t) (ht : Balanced t .red n) (hpath : Spine.Fits path .black n)
    (hfuel : path.length < fuel) :
    ∃ h' T, insertColorLoop fuel h (ptr t) = some h' ∧ Holds h' [] T ∧
      T.toList = (Spine.plug path t).toList ∧ T ≠ .nil ∧ ∃ c m, Balanced T c m := by
  induction fuel generalizing h path t n with
  | zero => exact absurd hfuel (Nat.not_lt_zero _)
  | succ fuel ih =>
    have hne : t ≠ .nil := by
      rintro rfl
      cases ht
    cases hpath with
    | root => exact ⟨h, t, insertColorLoop_done H hne rfl fuel, H, rfl, hne, _, _, ht⟩
    | black hy hp =>
      have hdone := insertColorLoop_done H hne H.isRed_head fuel
      obtain ⟨m, hm⟩ := (Spine.Fits.black hy hp).plug ht
      exact ⟨h, _, hdone, holds_append.mp (by rwa [List.append_nil]), rfl,
        Spine.plug_ne_nil _ hne, _, _, hm⟩
    | @red r p y path n hy hp =>
      cases hp with
      | @black s g u path c d n hu hctx =>
      obtain ⟨x, b, e, rfl⟩ := ht.exists_join s
      obtain ⟨nx, hx⟩ := H.reads
      obtain ⟨np, hp⟩ := (holds_cons.mp H).reads
      have hg := holds_cons.mp (holds_cons.mp H)
      obtain ⟨ng, hng⟩ := hg.reads
      have hptr := (holds_cons.mp H).ptr_ne (.inl (join_ne_nil r .red p _ y))
      have hnear := hng.near
      rw [ptr_join] at hptr hnear
      have hside : sideOf ng p = s := sideOf_eq hnear hng.far hptr
      have hred : h.isRed p = true := H.isRed_head
      have huncle := (holdsTree_join.mp hg.tree).2.2.2.isRed_eq hu
      rw [ptr_join, insertColorLoop]
      simp only [hx.read, Option.bind_eq_bind, Option.bind_some, hx.parent, head, hred, if_true,
        hp.node, hp.parent, hng.read, hside, hng.far, huncle]
      cases d with
      | red =>
        obtain ⟨v, k, l, rfl⟩ := hu.exists_join s
        obtain ⟨h₁, e₁, H₁⟩ := (holds_sibling.mp (holds_cons.mp H)).paint .black
          RbNode.view_rbSetBlack
        have hback := holds_sibling.mp H₁
        rw [Side.flip_flip] at hback
        obtain ⟨h₂, e₂, H₂⟩ := hback.paint .black RbNode.view_rbSetBlack
        obtain ⟨h₃, e₃, H₃⟩ := (holds_cons.mp H₂).paint .red RbNode.view_rbSetRed
        have ht' := balanced_black (s := r) (a := p).mpr ⟨rfl, _, _, _, rfl, ht, hy⟩
        have hu' := hu.blacken_red
        rw [blacken_join] at hu'
        obtain ⟨h', T, hrun, H', hlist, hT⟩ := ih H₃
          (balanced_red.mpr ⟨rfl, ht', hu'⟩) hctx (by simp at hfuel; omega)
        rw [ptr_join] at hrun
        refine ⟨h', T, ?_, H', ?_, hT⟩
        · simp only [ptr_join, beq_self_eq_true, if_true, e₁, Option.bind_some, e₂, e₃, hrun]
        · rw [hlist, Spine.plug, Spine.plug]
          refine Spine.toList_plug_congr path ?_
          exact toList_join_congr s (toList_join_congr r rfl rfl) (toList_join_congr s rfl rfl)
      | black =>
        obtain ⟨h', path', t, hrun, H', hne', hblack, hlist, m, hm⟩ :=
          insertRotate_spec H ht hy hu hctx
        obtain ⟨fuel, rfl⟩ : ∃ k, fuel = k + 1 := ⟨fuel - 1, by simp at hfuel; omega⟩
        refine ⟨h', _, ?_, holds_append.mp (by rwa [List.append_nil]), hlist,
          Spine.plug_ne_nil _ hne', _, _, hm⟩
        simp only [hrun, Option.bind_some, insertColorLoop_done H' hne' hblack]
        rfl

/-- The root is made black at the end, whatever its colour was. -/
theorem Holds.blackenRoot {h : Memory} {T : ColorTree Ptr} (H : Holds h [] T) (hne : T ≠ .nil)
    {c : Color} {m : Nat} (hT : Balanced T c m) :
    ∃ h', h.write h.root RbNode.rbSetBlack = some h' ∧ Holds h' [] T.blacken ∧
      ∃ k, Balanced T.blacken .black k := by
  have hbalanced : ∃ k, Balanced T.blacken .black k := by
    cases c with
    | red => exact ⟨_, hT.blacken_red⟩
    | black => exact ⟨m, by rwa [hT.blacken_black]⟩
  obtain ⟨d, a, x, y, rfl⟩ := exists_join .left hne
  obtain ⟨h', e, H'⟩ := H.paint .black RbNode.view_rbSetBlack
  have hroot : h.root = a := H.above.trans (ptr_join ..)
  exact ⟨h', hroot ▸ e, by rwa [blacken_join], hbalanced⟩

theorem rbInsertColor_spec {h : Memory} {path : Spine Ptr} {t : ColorTree Ptr} {n : Nat}
    (H : Holds h path t) (ht : Balanced t .red n) (hpath : Spine.Fits path .black n) :
    ∃ h' T, h.rbInsertColor (ptr t) = some h' ∧ Holds h' [] T ∧
      T.toList = (Spine.plug path t).toList ∧ ∃ m, Balanced T .black m := by
  obtain ⟨h₁, T, e₁, H₁, hlist, hne, c, m, hT⟩ :=
    insertColorLoop_spec H ht hpath H.path_length_lt
  obtain ⟨h₂, e₂, H₂, hbalanced⟩ := H₁.blackenRoot hne hT
  refine ⟨h₂, _, ?_, H₂, (toList_blacken T).trans hlist, hbalanced⟩
  simp only [rbInsertColor, Option.bind_eq_bind, e₁, Option.bind_some, e₂]

def slot : Spine Ptr → Slot
  | [] => .root
  | f :: _ => .child f.side f.elem

theorem rbLinkNode_spec {h : Memory} {path : Spine Ptr} (H : Holds h path .nil) {p : Ptr}
    (hp : IsNode p) (hmem : p ∉ Spine.elems path) :
    ∃ h', h.rbLinkNode p (head path) (slot path) = some h' ∧
      Holds h' path (join .left .red p .nil .nil) := by
  have hlow := H.above.low
  have hview : RbNode.view ⟨head path, 0, 0⟩ = View.join .left (head path) .red 0 0 := by
    have hword : (0 : BitVec 64) &&& 3 ||| head path = head path := BitVec.zero_or
    have hparent := parent_of_word hlow 0
    have hcolor := color_of_word hlow 0
    rw [hword] at hparent hcolor
    simp only [RbNode.view, RbNode.rbParent, hparent, RbNode.rbIsRed, RbNode.rbColor, hcolor]
    rfl
  obtain ⟨h₁, e₁, w₁⟩ := h.write_spec hp.1 (f := fun _ => ⟨head path, 0, 0⟩)
    (g := fun _ => View.join .left (head path) .red 0 0) (fun _ => hview)
  have hframe : ∀ z ∈ Spine.elems path, h₁.view z = h.view z := by
    intro z hz
    refine w₁.frame z ?_
    rintro rfl
    exact hmem hz
  have hhead : p ≠ head path := ne_head hp.1 hmem
  have H₁ := H.above.congr hframe w₁.root
  have hstore : ∃ h₂, h₁.store (slot path) p = some h₂ ∧ Relinked h₁ h₂ path p ∧
      ∀ z, z ≠ head path → h₂.view z = h₁.view z := by
    cases path with
    | nil => exact ⟨_, rfl, rfl, fun _ _ => rfl⟩
    | cons f path =>
      obtain ⟨h₂, e₂, w₂⟩ := h₁.write_spec (f := RbNode.setChild f.side p) H₁.1.1
        (fun r => r.view_setChild f.side p)
      exact ⟨h₂, e₂, ⟨w₂.self H₁.1.1, w₂.root⟩, w₂.frame⟩
  obtain ⟨h₂, e₂, hlink, f₂⟩ := hstore
  have hnodup : (Spine.elems path).Nodup := H.perm
  refine ⟨h₂, ?_, ?_, ?_, ?_⟩
  · simp only [rbLinkNode, Option.bind_eq_bind, e₁, Option.bind_some, e₂]
  · rw [ptr_join]
    exact H₁.relink hnodup (fun z _ hz => f₂ z hz) hlink
  · refine holdsTree_join.mpr ⟨hp, ?_, trivial, trivial⟩
    rw [f₂ p hhead, w₁.self hp.1]
    rfl
  · refine ((Spine.perm_plug path _).nodup_iff).mpr ?_
    exact List.nodup_cons.mpr ⟨hmem, hnodup⟩

theorem linkAndColor_spec {h : Memory} {path : Spine Ptr} (H : Holds h path .nil) {m : Nat}
    (hm : Balanced (Spine.plug path .nil) .black m) {p : Ptr} (hp : IsNode p)
    (hmem : p ∉ Spine.elems path) :
    ∃ h₁ h₂ T, h.rbLinkNode p (head path) (slot path) = some h₁ ∧ h₁.rbInsertColor p = some h₂ ∧
      Holds h₂ [] T ∧ T.toList = Spine.before path ++ p :: Spine.after path ∧
      ∃ k, Balanced T .black k := by
  obtain ⟨c, n, hpath, hnil⟩ := Spine.fits_of_plug hm
  cases hnil
  obtain ⟨h₁, e₁, H₁⟩ := rbLinkNode_spec H hp hmem
  obtain ⟨h₂, T, e₂, H₂, hlist, hbalanced⟩ :=
    rbInsertColor_spec H₁ (balanced_red.mpr ⟨rfl, .nil, .nil⟩) hpath
  refine ⟨h₁, h₂, T, e₁, e₂, H₂, ?_, hbalanced⟩
  rw [hlist, Spine.toList_plug]
  simp [join, ColorTree.toList]

end AlgorithmLib.RbTree
