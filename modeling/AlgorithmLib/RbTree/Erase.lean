import AlgorithmLib.RbTree.EraseColor
import AlgorithmLib.RbTree.Walk

set_option autoImplicit false

namespace AlgorithmLib.RbTree

open RedBlack RedBlack.ColorTree AlgorithmLib.RbTree.Memory

theorem Holds.splice {h h₁ h₂ : Memory} {path : Spine Ptr} {s : Side} {c : Color} {a : Ptr}
    {x : ColorTree Ptr} (H : Holds h path (join s c a x .nil))
    (w : Wrote h h₁ (ptr x) { h.view (ptr x) with parent := head path })
    (hlink : Relinked h₁ h₂ path (ptr x)) (hframe : ∀ z, z ≠ head path → h₂.view z = h₁.view z) :
    Holds h₂ path x := by
  obtain ⟨ha, -, hx, -⟩ := holdsTree_join.mp H.tree
  have hn : (a :: (x.toList ++ []) ++ Spine.elems path).Nodup :=
    ((perm_join s c a x .nil).append_right _).nodup_iff.mp H.perm
  rw [List.append_nil] at hn
  have hn := (List.nodup_cons.mp hn).2
  obtain ⟨hnx, hnpath, hdisj⟩ := List.nodup_append.mp hn
  have hpath := H.above
  have hout : ∀ z ∈ Spine.elems path, z ≠ ptr x := fun z hz =>
    ne_ptr (hpath.isNode hz).1 fun hzx => hdisj z hzx z hz rfl
  have hin : ∀ z ∈ x.toList, z ≠ head path := fun z hz =>
    ne_head (hx.isNode hz).1 fun hzp => hdisj z hz z hzp rfl
  refine ⟨?_, ?_, ((Spine.perm_plug path x).nodup_iff).mpr hn⟩
  · exact (hpath.congr (fun z hz => w.frame z (hout z hz)) w.root).relink hnpath
      (fun z _ hz => hframe z hz) hlink
  · refine hx.reparent hnx (fun z hz hzx => ?_) fun hne => ?_
    · rw [hframe z (hin z hz), w.frame z hzx]
    · rw [hframe _ (hin _ (ptr_mem hne)), w.self (hx.ptr_isNode hne).1]

theorem Holds.replace {h : Memory} {path : Spine Ptr} {c : Color} {l r : ColorTree Ptr} {a p : Ptr}
    (H : Holds h path (.node c l a r)) (hl : l ≠ .nil) (hp : IsNode p)
    (hmem : p ∉ (ColorTree.node c l a r).toList ++ Spine.elems path) :
    ∃ o h₁ h₂ o' h₃ h₄, h.read a = some o ∧ h.write p (fun _ => o) = some h₁ ∧
      h₁.relink .left o.rbParent a p = some h₂ ∧ h₂.read a = some o' ∧
      h₂.write o'.rbLeft (RbNode.rbSetParent p) = some h₃ ∧
      h₃.writeSome o'.rbRight (RbNode.rbSetParent p) = some h₄ ∧
      Holds h₄ path (.node c l p r) := by
  obtain ⟨ha, hview, hholdsl, hholdsr⟩ := holdsTree_join (s := .left).mp H.tree
  have hpath : HoldsPath h path a := H.above
  have hn : (l.toList ++ a :: r.toList ++ Spine.elems path).Nodup := H.perm
  have hmem : p ∉ l.toList ++ a :: r.toList ++ Spine.elems path := hmem
  obtain ⟨o, ho⟩ := h.read_spec ha.1 hview
  have hoview : o.view = View.join .left (head path) c (ptr l) (ptr r) := by
    rw [← ho.node]
    exact hview
  obtain ⟨h₁, e₁, w₁⟩ := h.write_spec hp.1 (f := fun _ => o)
    (g := fun _ => View.join .left (head path) c (ptr l) (ptr r)) (fun _ => hoview)
  have hapart : Apart p a l.toList r.toList [] (Spine.elems path) :=
    apart_of_nodup (by rw [List.append_nil]; exact List.nodup_cons.mpr ⟨hmem, hn⟩)
  have hmempath : ∀ z ∈ Spine.elems path, z ≠ p ∧ z ≠ a ∧ z ≠ ptr l ∧ z ≠ ptr r := by
    intro z hz
    obtain ⟨hzp, hza, hzl, hzr⟩ := hapart.ofAbove z hz
    have hz0 := (hpath.isNode hz).1
    exact ⟨hzp, hza, ne_ptr hz0 hzl, ne_ptr hz0 hzr⟩
  obtain ⟨h₂, e₂, hlink, f₂⟩ := (hpath.congr (fun z hz => w₁.frame z (hmempath z hz).1)
    w₁.root).relink_spec .left ha.1 hapart.snd.2.2 p
  have hap : a ≠ p := hapart.ne.symm
  have hahead : a ≠ head path := ne_head ha.1 hapart.snd.2.2
  have hphead : p ≠ head path := ne_head hp.1 hapart.fst.2.2
  obtain ⟨o', ho'⟩ := h₂.read_spec ha.1 (by rw [f₂ a hahead, w₁.frame a hap]; exact hview)
  have hzero : ptr l ≠ 0 := (hholdsl.ptr_isNode hl).1
  have hlmem := hapart.ofNear _ (ptr_mem hl)
  obtain ⟨h₃, e₃, w₃⟩ := h₂.write_spec hzero (g := fun v => { v with parent := p })
    (fun r => r.view_rbSetParent (IsNode.low (.inr hp)))
  obtain ⟨h₄, e₄, w₄⟩ := h₃.writeSome_spec (ptr r) (g := fun v => { v with parent := p })
    (fun r => r.view_rbSetParent (IsNode.low (.inr hp)))
  have hleft : o'.rbLeft = ptr l := ho'.near
  have hright : o'.rbRight = ptr r := ho'.far
  have hpl : p ≠ ptr l := ne_ptr hp.1 hapart.fst.1
  have hpr : p ≠ ptr r := ne_ptr hp.1 hapart.fst.2.1
  have hlr : ptr l ≠ ptr r := ne_ptr hzero hlmem.2.2.1
  have hframe : ∀ z, z ≠ p → z ≠ head path → z ≠ ptr l → z ≠ ptr r → h₄.view z = h.view z := by
    intro z hzp hzh hzl hzr
    rw [w₄.frame z hzr, w₃.frame z hzl, f₂ z hzh, w₁.frame z hzp]
  have hroot : h₄.root = h₂.root := w₄.root.trans w₃.root
  refine ⟨o, h₁, h₂, o', h₃, h₄, ho.read, e₁, ?_, ho'.read, ?_, ?_, ?_, ?_, ?_⟩
  · rw [ho.parent]
    exact e₂
  · rw [hleft]
    exact e₃
  · rw [hright]
    exact e₄
  · show HoldsPath h₄ path p
    have hlink₄ : Relinked h h₄ path p := by
      cases path with
      | nil => exact hroot.trans hlink
      | cons f path =>
        obtain ⟨hlinkf, hroot₂⟩ := hlink
        obtain ⟨hfp, -, hfl, hfr⟩ := hmempath f.elem List.mem_cons_self
        refine ⟨?_, (hroot.trans hroot₂).trans w₁.root⟩
        rw [w₄.frame _ hfr, w₃.frame _ hfl, hlinkf, w₁.frame _ hfp]
    refine hpath.relink hapart.nodup.2.2 (fun z hz hzh => ?_) hlink₄
    obtain ⟨hzp, -, hzl, hzr⟩ := hmempath z hz
    exact hframe z hzp hzh hzl hzr
  · refine holdsTree_join (s := .left).mpr ⟨hp, ?_, ?_, ?_⟩
    · rw [w₄.frame p hpr, w₃.frame p hpl, f₂ p hphead, w₁.self hp.1]
    · refine hholdsl.reparent hapart.nodup.1 (fun z hz hzl => ?_) fun _ => ?_
      · obtain ⟨hzp, -, hzr, hzh⟩ := hapart.ofNear z hz
        have hz0 := (hholdsl.isNode hz).1
        exact hframe z hzp (ne_head hz0 hzh) hzl (ne_ptr hz0 hzr)
      · rw [w₄.frame _ hlr, w₃.self hzero, f₂ _ (ne_head hzero hlmem.2.2.2),
          w₁.frame _ hpl.symm]
    · refine hholdsr.reparent hapart.nodup.2.1 (fun z hz hzr => ?_) fun hr => ?_
      · obtain ⟨hzp, -, hzl, hzh⟩ := hapart.ofInner z hz
        have hz0 := (hholdsr.isNode hz).1
        exact hframe z hzp (ne_head hz0 hzh) (ne_ptr hz0 hzl) hzr
      · have hr0 := (hholdsr.ptr_isNode hr).1
        rw [w₄.self hr0, w₃.frame _ hlr.symm,
          f₂ _ (ne_head hr0 (hapart.ofInner _ (ptr_mem hr)).2.2.2), w₁.frame _ hpr.symm]
  · refine ((Spine.perm_plug path _).nodup_iff).mpr ?_
    have hnew : ((ColorTree.node c l p r).toList ++ Spine.elems path) =
        l.toList ++ p :: r.toList ++ Spine.elems path := rfl
    rw [hnew]
    grind

theorem Holds.mend {h : Memory} {path : Spine Ptr} {s : Side} {c d : Color} {a : Ptr}
    {x : ColorTree Ptr}
    {n : Nat} (H : Holds h path x) (ht : Balanced (join s c a x .nil) d n)
    (hpath : Spine.Fits path d n) :
    ∃ h' T, (if colorBit c = rbBlack then h.rbEraseColor (ptr x) (head path) else some h) =
        some h' ∧ Holds h' [] T ∧ T.toList = (Spine.plug path x).toList ∧
      ∃ m, Balanced T .black m := by
  cases c with
  | red =>
    obtain ⟨rfl, hx, -⟩ := balanced_red.mp ht
    refine ⟨h, Spine.plug path x, rfl, ?_, rfl, hpath.to_black.plug hx⟩
    exact holds_append.mp (by rwa [List.append_nil])
  | black =>
    obtain ⟨rfl, m, d, e, rfl, hx, -⟩ := balanced_black.mp ht
    exact rbEraseColor_spec H hx.short hpath

theorem cut_spec {h : Memory} {q path : Spine Ptr} {c : Color} {l : ColorTree Ptr} {a p : Ptr}
    (hpath : HoldsPath h (q ++ ⟨.right, c, a, l⟩ :: path) p)
    (hnodup : (Spine.elems (q ++ ⟨.right, c, a, l⟩ :: path)).Nodup) (hbefore : Spine.before q = [])
    (child : Ptr) :
    ∃ h', (head (q ++ ⟨.right, c, a, l⟩ :: path) = a ∧
          h.write a (RbNode.setChild .right child) = some h' ∧
          head (q ++ ⟨.right, c, p, l⟩ :: path) = p ∨
        head (q ++ ⟨.right, c, a, l⟩ :: path) ≠ a ∧
          h.write (head (q ++ ⟨.right, c, a, l⟩ :: path)) (RbNode.setChild .left child) =
            some h' ∧
          head (q ++ ⟨.right, c, p, l⟩ :: path) = head (q ++ ⟨.right, c, a, l⟩ :: path)) ∧
      Relinked h h' (q ++ ⟨.right, c, a, l⟩ :: path) child ∧
      ∀ z, z ≠ head (q ++ ⟨.right, c, a, l⟩ :: path) → h'.view z = h.view z := by
  cases q with
  | nil =>
    obtain ⟨h', e, w⟩ := h.write_spec (f := RbNode.setChild .right child) hpath.1.1
      (fun r => r.view_setChild .right child)
    exact ⟨h', .inl ⟨rfl, e, rfl⟩, ⟨w.self hpath.1.1, w.root⟩, w.frame⟩
  | cons f q =>
    obtain ⟨t, d, b, y⟩ := f
    have ht : t = .left := by
      cases t with
      | left => rfl
      | right => simp [Spine.before] at hbefore
    subst ht
    have hne : b ≠ a := by
      rintro rfl
      refine (List.nodup_cons.mp hnodup).1 (List.mem_append_right _ ?_)
      show b ∈ Spine.elems (q ++ ⟨.right, c, b, l⟩ :: path)
      rw [Spine.elems_append]
      exact List.mem_append_right _ List.mem_cons_self
    obtain ⟨h', e, w⟩ := h.write_spec (f := RbNode.setChild .left child) hpath.1.1
      (fun r => r.view_setChild .left child)
    exact ⟨h', .inr ⟨hne, e, rfl⟩, ⟨w.self hpath.1.1, w.root⟩, w.frame⟩

theorem Memory.Reads.only_child {h : Memory} {p : Ptr} {n : RbNode} {s : Side} {parent near : Ptr}
    {c : Color} (hn : h.Reads p n s parent c near 0) :
    (n.rbLeft = 0 ∨ n.rbRight = 0) ∧ (if n.rbLeft = 0 then n.rbRight else n.rbLeft) = near := by
  have hnear := hn.near
  have hfar := hn.far
  cases s with
  | left =>
    have hleft : n.rbLeft = near := hnear
    have hright : n.rbRight = 0 := hfar
    rw [hleft, hright]
    refine ⟨.inr rfl, ?_⟩
    split
    · rename_i hzero
      exact hzero.symm
    · rfl
  | right =>
    have hright : n.rbRight = near := hnear
    have hleft : n.rbLeft = 0 := hfar
    rw [hleft, hright]
    exact ⟨.inl rfl, if_pos rfl⟩

theorem rbErase_one {h : Memory} {path : Spine Ptr} {s : Side} {c : Color} {a : Ptr}
    {x : ColorTree Ptr}
    {m : Nat} (H : Holds h path (join s c a x .nil))
    (hm : Balanced (Spine.plug path (join s c a x .nil)) .black m) :
    ∃ h' T, h.rbErase a = some h' ∧ Holds h' [] T ∧ T.toList = (Spine.plug path x).toList ∧
      ∃ k, Balanced T .black k := by
  obtain ⟨d, k, hfits, hbalanced⟩ := Spine.fits_of_plug hm
  have hpath : HoldsPath h path a := by
    have habove := H.above
    rwa [ptr_join] at habove
  have hperm : (a :: (x.toList ++ []) ++ Spine.elems path).Nodup :=
    ((perm_join s c a x .nil).append_right _).nodup_iff.mp H.perm
  rw [List.append_nil] at hperm
  obtain ⟨hmem, hnodup⟩ := List.nodup_cons.mp hperm
  obtain ⟨-, -, hdisj⟩ := List.nodup_append.mp hnodup
  have hframe : ∀ z ∈ Spine.elems path, z ≠ ptr x := fun z hz =>
    ne_ptr (hpath.isNode hz).1 fun hzx => hdisj z hzx z hz rfl
  obtain ⟨n, hn⟩ := H.reads
  obtain ⟨hzero, hchild⟩ := hn.only_child
  obtain ⟨h₁, e₁, w₁⟩ := h.writeSome_spec (ptr x) (g := fun v => { v with parent := head path })
    (fun r => r.view_rbSetParent hpath.low)
  obtain ⟨h₂, e₂, hlink, f₂⟩ := (hpath.congr (fun z hz => w₁.frame z (hframe z hz))
    w₁.root).relink_spec .left H.isNode.1 (fun hz => hmem (List.mem_append_right _ hz)) (ptr x)
  obtain ⟨h', T, hrun, H', hT⟩ := (H.splice w₁ hlink f₂).mend hbalanced hfits
  refine ⟨h', T, ?_, H', hT⟩
  simp only [rbErase, Option.bind_eq_bind, hn.read, Option.bind_some, if_pos hzero, hchild,
    hn.parent, e₁, e₂, hn.color, hrun]

theorem rbErase_two {h : Memory} {path : Spine Ptr} {c : Color} {l r : ColorTree Ptr} {a : Ptr}
    {m : Nat}
    (H : Holds h path (.node c l a r)) (hl : l ≠ .nil) (hr : r ≠ .nil)
    (hm : Balanced (Spine.plug path (.node c l a r)) .black m) :
    ∃ h' T, h.rbErase a = some h' ∧ Holds h' [] T ∧
      T.toList = Spine.before path ++ (l.toList ++ r.toList) ++ Spine.after path ∧
      ∃ k, Balanced T .black k := by
  obtain ⟨n, hn⟩ := Holds.reads (s := .left) H
  have hleft : n.rbLeft = ptr l := hn.near
  have hright : n.rbRight = ptr r := hn.far
  have Hr := (holds_cons (s := .right)).mpr H
  have hlength : r.toList.length ≤ addresses := by
    have hlt := H.length_lt
    rw [Spine.toList_plug] at hlt
    simp only [ColorTree.toList, List.length_append, List.length_cons] at hlt
    omega
  obtain ⟨q, d, p, x, hwalk, rfl, hbefore⟩ := leftmost_spec Hr hr hlength
  -- the next node has no left child, so that it is cut out like a node with one child
  have Hp := holds_append.mpr Hr
  obtain ⟨np, hnp⟩ := Holds.reads (s := .right) Hp
  have hchild : np.rbRight = ptr x := hnp.near
  obtain ⟨e, k, hfits, hbalanced⟩ := Spine.fits_of_plug (p := q ++ ⟨.right, c, a, l⟩ :: path)
    (t := .node d .nil p x) (by rw [Spine.plug_append]; exact hm)
  have hp : IsNode p := Holds.isNode (s := .right) Hp
  have hperm : (p :: x.toList ++ Spine.elems (q ++ ⟨.right, c, a, l⟩ :: path)).Nodup := Hp.perm
  obtain ⟨hmem, hnodup⟩ := List.nodup_cons.mp hperm
  obtain ⟨-, helems, hdisj⟩ := List.nodup_append.mp hnodup
  have hpath : HoldsPath h (q ++ ⟨.right, c, a, l⟩ :: path) p := Hp.above
  have hframe : ∀ z ∈ Spine.elems (q ++ ⟨.right, c, a, l⟩ :: path), z ≠ ptr x := fun z hz =>
    ne_ptr (hpath.isNode hz).1 fun hzx => hdisj z hzx z hz rfl
  obtain ⟨h₁, e₁, w₁⟩ := h.writeSome_spec (ptr x)
    (g := fun v => { v with parent := head (q ++ ⟨.right, c, a, l⟩ :: path) })
    (fun r => r.view_rbSetParent hpath.low)
  obtain ⟨h₂, e₂, hlink, f₂⟩ := cut_spec (hpath.congr (fun z hz => w₁.frame z (hframe z hz))
    w₁.root) helems hbefore (ptr x)
  have H₂ := Holds.splice (s := .right) Hp w₁ hlink f₂
  have hfresh : p ∉ (ColorTree.node c l a (Spine.plug q x)).toList ++ Spine.elems path := by
    intro hin
    refine hmem ((Spine.perm_plug _ x).mem_iff.mp ?_)
    rw [Spine.plug_append]
    exact (Spine.perm_plug path (.node c l a (Spine.plug q x))).mem_iff.mpr hin
  obtain ⟨o, h₃, h₄, o', h₅, h₆, r₂, e₃, e₄, r₄, e₅, e₆, H₆⟩ :=
    Holds.replace (holds_cons.mp (holds_append.mp H₂)) hl hp hfresh
  have H₆ := holds_append.mpr ((holds_cons (s := .right)).mpr H₆)
  obtain ⟨h', T, hrun, H', hlist, hT⟩ := H₆.mend (s := .right) hbalanced (hfits.setElem p)
  refine ⟨h', T, ?_, H', ?_, hT⟩
  · have hnot : ¬ (n.rbLeft = 0 ∨ n.rbRight = 0) := by
      rw [hleft, hright]
      exact not_or.mpr ⟨((holds_cons (s := .left)).mpr H).tree.ptr_isNode hl |>.1,
        (Hr.tree.ptr_isNode hr).1⟩
    rcases e₂ with ⟨hhead, e₂, hnew⟩ | ⟨hhead, e₂, hnew⟩
    · rw [hnew] at hrun
      rw [hhead] at hnp e₁
      simp only [rbErase, Option.bind_eq_bind, hn.read, Option.bind_some, if_neg hnot]
      simp only [hright, hwalk, hnp.read, Option.bind_some, hchild, hnp.parent, e₁, if_true, e₂,
        Option.map_some, r₂, e₃, e₄, r₄, e₅, e₆, hnp.color, hrun]
    · rw [hnew] at hrun
      simp only [rbErase, Option.bind_eq_bind, hn.read, Option.bind_some, if_neg hnot]
      simp only [hright, hwalk, hnp.read, Option.bind_some, hchild, hnp.parent, e₁, if_neg hhead,
        e₂, Option.map_some, r₂, e₃, e₄, r₄, e₅, e₆, hnp.color, hrun]
  · rw [hlist, Spine.plug_append, Spine.plug, Spine.toList_plug, Spine.toList_plug, hbefore]
    simp [join, ColorTree.toList, Spine.toList_plug, hbefore]

theorem rbErase_spec {h : Memory} {path : Spine Ptr} {c : Color} {l r : ColorTree Ptr} {a : Ptr}
    {m : Nat}
    (H : Holds h path (.node c l a r))
    (hm : Balanced (Spine.plug path (.node c l a r)) .black m) :
    ∃ h' T, h.rbErase a = some h' ∧ Holds h' [] T ∧
      T.toList = Spine.before path ++ (l.toList ++ r.toList) ++ Spine.after path ∧
      ∃ k, Balanced T .black k := by
  by_cases hr : r = .nil
  · subst hr
    obtain ⟨h', T, hrun, H', hlist, hT⟩ := rbErase_one (s := .left) H hm
    exact ⟨h', T, hrun, H', by rw [hlist, Spine.toList_plug]; simp [ColorTree.toList], hT⟩
  · by_cases hl : l = .nil
    · subst hl
      obtain ⟨h', T, hrun, H', hlist, hT⟩ := rbErase_one (s := .right) H hm
      exact ⟨h', T, hrun, H', by rw [hlist, Spine.toList_plug]; simp [ColorTree.toList], hT⟩
    · exact rbErase_two H hl hr hm

end AlgorithmLib.RbTree
