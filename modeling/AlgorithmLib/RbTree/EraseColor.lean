import AlgorithmLib.RbTree.Insert

set_option autoImplicit false

namespace AlgorithmLib.RbTree

open RedBlack RedBlack.ColorTree AlgorithmLib.RbTree.Memory

theorem Memory.writeSome_of_ne {h : Memory} {p : Ptr} (hp : p ≠ 0) (f : RbNode → RbNode) :
    h.writeSome p f = h.write p f := if_neg hp

theorem Memory.Reads.isRed_or {h k : Memory} {p : Ptr} {n : RbNode} {s : Side}
    {parent near far : Ptr} {c : Color} (hn : h.Reads p n s parent c near far) :
    (k.isRed n.rbLeft || k.isRed n.rbRight) = (k.isRed near || k.isRed far) := by
  have hnear := hn.near
  have hfar := hn.far
  cases s with
  | left =>
    have hleft : n.rbLeft = near := hnear
    have hright : n.rbRight = far := hfar
    rw [hleft, hright]
  | right =>
    have hright : n.rbRight = near := hnear
    have hleft : n.rbLeft = far := hfar
    rw [hleft, hright, Bool.or_comm]

theorem HoldsPath.root_mem {h : Memory} {f : Frame Ptr} {path : Spine Ptr} {p : Ptr}
    (hp : HoldsPath h (f :: path) p) : h.root ∈ Spine.elems (f :: path) := by
  induction path generalizing f p with
  | nil =>
    have hroot : h.root = f.elem := hp.2.2.2
    rw [hroot]
    exact List.mem_cons_self
  | cons g path ih => exact List.mem_append_right _ (ih hp.2.2.2)

theorem Holds.ptr_ne_root {h : Memory} {f : Frame Ptr} {path : Spine Ptr} {t : ColorTree Ptr}
    (H : Holds h (f :: path) t) : ptr t ≠ h.root := by
  have hroot := H.above.root_mem
  exact (ne_ptr (H.above.isNode hroot).1 fun hmem =>
    (List.nodup_append.mp H.perm).2.2 _ hmem _ hroot rfl).symm

theorem eraseRotate_spec {h : Memory} {s : Side} {p o : Ptr} {x z t : ColorTree Ptr}
    {path : Spine Ptr}
    (H : Holds h (⟨s, .black, p, join s .red o x z⟩ :: path) t) :
    ∃ h', h.eraseRotate s p o = some (h', ptr x) ∧
      Holds h' (⟨s, .red, p, x⟩ :: ⟨s, .black, o, z⟩ :: path) t := by
  obtain ⟨h₁, e₁, H₁⟩ := (holds_sibling.mp H).paint .black RbNode.view_rbSetBlack
  have hback := holds_sibling.mp H₁
  rw [Side.flip_flip] at hback
  obtain ⟨h₂, e₂, H₂⟩ := (holds_cons.mp hback).paint .red RbNode.view_rbSetRed
  obtain ⟨h₃, e₃, H₃⟩ := H₂.rotate
  have H₃ := holds_cons.mpr H₃
  obtain ⟨n, hn⟩ := H₃.reads
  refine ⟨h₃, ?_, holds_cons.mpr H₃⟩
  simp only [eraseRotate, Option.bind_eq_bind, e₁, Option.bind_some, e₂, e₃, hn.read, hn.far]

theorem Holds.eraseOuter {h : Memory} {s : Side} {c : Color} {p o w : Ptr} {x k l t : ColorTree Ptr}
    {path : Spine Ptr} (H : Holds h (⟨s, c, p, join s .black o x (join s .red w k l)⟩ :: path) t) :
    ∃ n h₁ h₂ m h₃ h₄, h.read p = some n ∧ h.write o (RbNode.rbSetColor n.rbColor) = some h₁ ∧
      h₁.write p RbNode.rbSetBlack = some h₂ ∧ h₂.read o = some m ∧
      h₂.writeSome (m.child s.flip) RbNode.rbSetBlack = some h₃ ∧ h₃.rotate s p = some h₄ ∧
      Holds h₄ path (join s c o (join s .black p t x) (join s .black w k l)) := by
  obtain ⟨n, hn⟩ := (holds_cons.mp H).reads
  obtain ⟨h₁, e₁, H₁⟩ := (holds_sibling.mp H).paint c (fun r => r.view_rbSetColor c)
  have hback := holds_sibling.mp H₁
  rw [Side.flip_flip] at hback
  obtain ⟨h₂, e₂, H₂⟩ := (holds_cons.mp hback).paint .black RbNode.view_rbSetBlack
  have H₂ := holds_sibling.mp (holds_cons.mpr H₂)
  obtain ⟨m, hm⟩ := H₂.reads
  have H₂ := holds_sibling.mp (holds_cons.mpr H₂)
  obtain ⟨h₃, e₃, H₃⟩ := H₂.paint .black RbNode.view_rbSetBlack
  have H₃ := holds_cons.mp H₃
  rw [join_flip] at H₃
  have H₃ := holds_cons.mp H₃
  rw [join_flip] at H₃
  obtain ⟨h₄, e₄, H₄⟩ := H₃.rotate
  refine ⟨n, h₁, h₂, m, h₃, h₄, hn.read, ?_, e₂, hm.read, ?_, e₄, H₄⟩
  · rw [hn.color]
    exact e₁
  · have hfar := hm.far
    rw [ptr_join] at hfar
    rw [hfar, writeSome_of_ne H₂.isNode.1]
    exact e₃

theorem eraseLast_spec {h : Memory} {s : Side} {c d e : Color} {p o : Ptr} {x z t : ColorTree Ptr}
    {path : Spine Ptr} {n : Nat} (H : Holds h (⟨s, c, p, join s .black o x z⟩ :: path) t)
    (ht : Balanced t .black n) (hx : Balanced x d n) (hz : Balanced z e n)
    (hred : (d == .red || e == .red) = true)
    (hpath : Spine.Fits (⟨s, c, p, join s .black o x z⟩ :: path) .black (n + 1)) :
    ∃ h' T, h.eraseLast s p o = some h' ∧ Holds h' path T ∧
      T.toList = (join s c p t (join s .black o x z)).toList ∧
      ∃ m, Balanced (Spine.plug path T) .black m := by
  have ho := holds_sibling.mp H
  obtain ⟨no, hno⟩ := ho.reads
  obtain ⟨-, -, hholdsx, hholdsz⟩ := holdsTree_join.mp ho.tree
  have hfar := hholdsz.isRed_eq hz
  cases e with
  | red =>
    obtain ⟨w, k, l, rfl⟩ := hz.exists_join s
    obtain ⟨np, h₁, h₂, m, h₃, h₄, r₁, e₁, e₂, r₂, e₃, e₄, H₄⟩ := H.eraseOuter
    refine ⟨h₄, _, ?_, H₄, ?_, ?_⟩
    · simp only [eraseLast, Option.bind_eq_bind, hno.read, Option.bind_some, hno.far, hfar,
        beq_self_eq_true, if_true, r₁, e₁, e₂, r₂, e₃, e₄]
    · rw [toList_rotate s c .black c .black]
      exact toList_join_congr s rfl (toList_join_congr s rfl (toList_join_congr s rfl rfl))
    · have hblack := hz.blacken_red
      rw [blacken_join] at hblack
      exact hpath.plug_join (balanced_black.mpr ⟨rfl, _, _, _, rfl, ht, hx⟩) hblack
  | black =>
    have hd : d = .red := by simpa using hred
    subst hd
    obtain ⟨q, u, v, rfl⟩ := hx.exists_join s
    obtain ⟨-, hu, hv⟩ := balanced_red.mp hx
    -- the near child goes up before the last rotation
    have hnear := hno.near
    rw [ptr_join] at hnear
    have hq := holds_cons.mpr ho
    obtain ⟨k₁, f₁, K₁⟩ := hq.paint .black RbNode.view_rbSetBlack
    obtain ⟨k₂, f₂, K₂⟩ := (holds_cons.mp K₁).paint .red RbNode.view_rbSetRed
    rw [← join_flip s .red, ← join_flip s .black] at K₂
    obtain ⟨k₃, f₃, K₃⟩ := K₂.rotate
    rw [join_flip, join_flip] at K₃
    have K₃ := holds_sibling.mp K₃
    rw [Side.flip_flip] at K₃
    obtain ⟨nk, hnk⟩ := (holds_cons.mp K₃).reads
    have hup := hnk.far
    rw [ptr_join] at hup
    obtain ⟨np, h₁, h₂, m, h₃, h₄, r₁, e₁, e₂, r₂, e₃, e₄, H₄⟩ := K₃.eraseOuter
    refine ⟨h₄, _, ?_, H₄, ?_, ?_⟩
    · simp only [eraseLast, Option.bind_eq_bind, hno.read, Option.bind_some, hno.far, hfar, hnear,
        writeSome_of_ne hq.isNode.1, f₁, f₂, f₃, hnk.read, hup]
      rw [hnk.read] at r₁
      cases r₁
      simp only [e₁, e₂, r₂, e₃, e₄, Option.bind_some]
      rfl
    · rw [toList_rotate s c .black c .black]
      refine toList_join_congr s rfl ?_
      rw [← toList_rotate s .black .red]
    · exact hpath.plug_join (balanced_black.mpr ⟨rfl, _, _, _, rfl, ht, hu⟩)
        (balanced_black.mpr ⟨rfl, _, _, _, rfl, hv, hz⟩)

/-- What `__rb_erase_color` leaves when the node at the end of its loop is made black. -/
def Mends (h : Memory) (node : Ptr) (l : List Ptr) : Prop :=
  ∃ h' T, h.writeSome node RbNode.rbSetBlack = some h' ∧ Holds h' [] T ∧ T.toList = l ∧
    ∃ m, Balanced T .black m

theorem Holds.mends_root {h : Memory} {T : ColorTree Ptr} (H : Holds h [] T) {m : Nat}
    (hT : Balanced T .black m) : Mends h h.root T.toList := by
  have hroot : h.root = ptr T := H.above
  by_cases hne : T = .nil
  · subst hne
    exact ⟨h, .nil, by rw [hroot]; rfl, H, rfl, m, hT⟩
  · obtain ⟨h', e, H', hbalanced⟩ := H.blackenRoot hne hT
    rw [← writeSome_of_ne (hroot ▸ (H.tree.ptr_isNode hne).1)] at e
    exact ⟨h', _, e, H', toList_blacken T, hbalanced⟩

theorem eraseColorLoop_red {h : Memory} {path : Spine Ptr} {s : Side} {x y : ColorTree Ptr}
    {a : Ptr}
    {n : Nat} (H : Holds h path (join s .red a x y))
    (ht : Balanced (join s .black a x y) .black (n + 1))
    (hpath : Spine.Fits path .black (n + 1)) (fuel : Nat) (parent : Ptr) :
    eraseColorLoop (fuel + 1) h a parent = some (h, a) ∧
      Mends h a (Spine.plug path (join s .red a x y)).toList := by
  obtain ⟨na, hna⟩ := H.reads
  have hred : h.isRed a = true := hna.isRed_eq H.isNode.1
  refine ⟨?_, ?_⟩
  · rw [eraseColorLoop, hred]
    rfl
  · obtain ⟨h', e, H'⟩ := H.paint .black RbNode.view_rbSetBlack
    refine ⟨h', Spine.plug path (join s .black a x y), ?_, ?_, ?_, hpath.plug ht⟩
    · rw [writeSome_of_ne H.isNode.1]
      exact e
    · exact holds_append.mp (by rwa [List.append_nil])
    · exact Spine.toList_plug_congr path (toList_join_congr s rfl rfl)

theorem eraseColorTurn_spec (fuel : Nat) {h : Memory} {s : Side} {c : Color} {p : Ptr}
    {y t : ColorTree Ptr} {path : Spine Ptr} {n : Nat} (H : Holds h (⟨s, c, p, y⟩ :: path) t)
    (ht : Balanced t .black n) (hy : Balanced y .black (n + 1))
    (hpath : Spine.Fits (⟨s, c, p, y⟩ :: path) .black (n + 1))
    (hloop : ∀ h' y', Holds h' path (join s c p t y') → Balanced y' .red n →
      ∃ h'' node, eraseColorLoop fuel h' p (head path) = some (h'', node) ∧
        Mends h'' node (Spine.plug path (join s c p t y')).toList) :
    ∃ no h' node, h.read (ptr y) = some no ∧ no.rbIsRed = false ∧
      (if (h.isRed no.rbLeft || h.isRed no.rbRight) = true then
          (h.eraseLast s p (ptr y)).bind fun h => some (h, h.root)
        else (h.write (ptr y) RbNode.rbSetRed).bind fun h =>
          (h.read p).bind fun n => eraseColorLoop fuel h p n.rbParent) = some (h', node) ∧
      Mends h' node (Spine.plug (⟨s, c, p, y⟩ :: path) t).toList := by
  obtain ⟨c', o, x, z, rfl⟩ := exists_join s hy.ne_nil
  have hc' : c' = .black := by
    cases c' with
    | black => rfl
    | red => exact (nomatch (balanced_red.mp hy).1)
  subst hc'
  obtain ⟨-, k, d, e, hk, hx, hz⟩ := balanced_black.mp hy
  obtain rfl : n = k := Nat.succ.inj hk
  have ho := holds_sibling.mp H
  obtain ⟨no, hno⟩ := ho.reads
  obtain ⟨-, -, hholdsx, hholdsz⟩ := holdsTree_join.mp ho.tree
  have hcolors := hno.isRed_or (k := h)
  rw [hholdsx.isRed_eq hx, hholdsz.isRed_eq hz] at hcolors
  rw [ptr_join]
  cases hred : (d == .red || e == .red) with
  | true =>
    obtain ⟨h', T, hrun, H', hlist, m, hm⟩ := eraseLast_spec H ht hx hz hred hpath
    refine ⟨no, h', h'.root, hno.read, hno.isRed, ?_, ?_⟩
    · rw [hcolors, hred, if_pos rfl, hrun]
      rfl
    · have hends := Holds.mends_root (T := Spine.plug path T)
        (holds_append.mp (by rwa [List.append_nil])) hm
      rwa [Spine.toList_plug_congr path hlist] at hends
  | false =>
    obtain ⟨hd, he⟩ : d = .black ∧ e = .black := by
      cases d <;> cases e <;> simp at hred ⊢
    subst hd he
    obtain ⟨h', e', H'⟩ := ho.paint .red RbNode.view_rbSetRed
    have hback := holds_sibling.mp H'
    rw [Side.flip_flip] at hback
    obtain ⟨np, hnp⟩ := (holds_cons.mp hback).reads
    obtain ⟨h'', node, hrun, hends⟩ :=
      hloop h' _ (holds_cons.mp hback) (balanced_red.mpr ⟨rfl, hx, hz⟩)
    refine ⟨no, h'', node, hno.read, hno.isRed, ?_, ?_⟩
    · rw [hcolors, hred, if_neg Bool.false_ne_true, e', Option.bind_some, hnp.read,
        Option.bind_some, hnp.parent, hrun]
    · have hlist : (join s c p t (join s .red o x z)).toList =
          (join s c p t (join s .black o x z)).toList :=
        toList_join_congr s rfl (toList_join_congr s rfl rfl)
      rwa [Spine.toList_plug_congr path hlist] at hends

theorem eraseColorLoop_spec {fuel : Nat} {h : Memory} {path : Spine Ptr} {t : ColorTree Ptr}
    {n : Nat}
    (H : Holds h path t) (ht : Short t n) (hpath : Spine.Fits path .black (n + 1))
    (hfuel : path.length < fuel) :
    ∃ h' node, eraseColorLoop fuel h (ptr t) (head path) = some (h', node) ∧
      Mends h' node (Spine.plug path t).toList := by
  induction fuel generalizing h path t n with
  | zero => exact absurd hfuel (Nat.not_lt_zero _)
  | succ fuel ih =>
    cases ht with
    | @red l r a n hb =>
      obtain ⟨hrun, hends⟩ :=
        eraseColorLoop_red (s := .left) H hb hpath fuel (head path)
      exact ⟨h, a, hrun, hends⟩
    | black hb =>
      cases path with
      | nil =>
        have hroot : h.root = ptr t := H.above
        refine ⟨h, ptr t, ?_, hroot ▸ H.mends_root hb⟩
        simp [eraseColorLoop, hroot]
      | cons f path =>
        obtain ⟨s, c, p, y⟩ := f
        have hcond : (h.isRed (ptr t) || decide (ptr t = h.root)) = false := by
          rw [H.tree.isRed_eq hb, decide_eq_false H.ptr_ne_root]
          rfl
        obtain ⟨np, hnp⟩ := (holds_cons.mp H).reads
        have hside : y ≠ .nil → sideOf np (ptr t) = s := fun hne =>
          sideOf_eq hnp.near hnp.far (H.ptr_ne (.inr hne))
        have hshort : path.length < fuel := Nat.lt_of_succ_lt_succ hfuel
        obtain ⟨k, hk⟩ : ∃ k, fuel = k + 1 := ⟨fuel - 1, by omega⟩
        rw [eraseColorLoop, hcond]
        simp only [Bool.false_eq_true, if_false, head, hnp.read, Option.bind_eq_bind,
          Option.bind_some]
        have hred : ∀ {c : Color} {y : ColorTree Ptr} {path : Spine Ptr},
            Spine.Fits (⟨s, c, p, y⟩ :: path) .black (n + 1) → c = .red →
            ∀ h' y', Holds h' path (join s c p t y') → Balanced y' .red n →
            ∃ h'' node, eraseColorLoop fuel h' p (head path) = some (h'', node) ∧
              Mends h'' node (Spine.plug path (join s c p t y')).toList := by
          rintro c y path hp rfl h' y' H' hy'
          cases hp with
          | red _ hp =>
            obtain ⟨hrun, hends⟩ := eraseColorLoop_red H'
              (balanced_black.mpr ⟨rfl, _, _, _, rfl, hb, hy'⟩) hp.to_black k (head path)
            exact ⟨h', p, hk ▸ hrun, hends⟩
        cases hpath with
        | red hy hp =>
          obtain ⟨no, h', node, hread, hcolor, hrun, hends⟩ :=
            eraseColorTurn_spec fuel H hb hy (.red hy hp) (hred (.red hy hp) rfl)
          refine ⟨h', node, ?_, hends⟩
          simp only [hside hy.ne_nil, hnp.far, hread, hcolor, Option.bind_some,
            Bool.false_eq_true, if_false, hrun]
        | @black _ _ _ _ _ d _ hy hp =>
          cases d with
          | black =>
            obtain ⟨no, h', node, hread, hcolor, hrun, hends⟩ :=
              eraseColorTurn_spec fuel H hb hy (.black hy hp) fun h' y' H' hy' => by
                obtain ⟨h'', node, hrun, hends⟩ := ih H'
                  (.black (balanced_black.mpr ⟨rfl, _, _, _, rfl, hb, hy'⟩)) hp hshort
                rw [ptr_join] at hrun
                exact ⟨h'', node, hrun, hends⟩
            refine ⟨h', node, ?_, hends⟩
            simp only [hside hy.ne_nil, hnp.far, hread, hcolor, Option.bind_some,
              Bool.false_eq_true, if_false, hrun]
          | red =>
            obtain ⟨o, x, z, rfl⟩ := hy.exists_join s
            obtain ⟨-, hx, hz⟩ := balanced_red.mp hy
            obtain ⟨no, hno⟩ := (holds_sibling.mp H).reads
            obtain ⟨h₁, e₁, H₁⟩ := eraseRotate_spec H
            have hp₁ := Spine.Fits.red (s := s) (a := p) hx (.black (s := s) (a := o) hz hp)
            obtain ⟨no', h', node, hread, hcolor, hrun, hends⟩ :=
              eraseColorTurn_spec fuel H₁ hb hx hp₁ (hred hp₁ rfl)
            refine ⟨h', node, ?_, ?_⟩
            · simp only [hside (join_ne_nil s .red o x z), hnp.far, ptr_join, hno.read, hno.isRed,
                Option.bind_some, beq_self_eq_true, if_true, e₁, hread, hrun]
            · have hlist := Spine.toList_plug_congr path
                (toList_rotate s .black .red .black .red p o t x z)
              rw [Spine.plug, Spine.plug, hlist] at hends
              exact hends

theorem rbEraseColor_spec {h : Memory} {path : Spine Ptr} {t : ColorTree Ptr} {n : Nat}
    (H : Holds h path t) (ht : Short t n) (hpath : Spine.Fits path .black (n + 1)) :
    ∃ h' T, h.rbEraseColor (ptr t) (head path) = some h' ∧ Holds h' [] T ∧
      T.toList = (Spine.plug path t).toList ∧ ∃ m, Balanced T .black m := by
  obtain ⟨h₁, node, hrun, h₂, T, hwrite, H₂, hlist, hm⟩ :=
    eraseColorLoop_spec H ht hpath H.path_length_lt
  refine ⟨h₂, T, ?_, H₂, hlist, hm⟩
  simp only [rbEraseColor, Option.bind_eq_bind, hrun, Option.bind_some, hwrite]

end AlgorithmLib.RbTree
