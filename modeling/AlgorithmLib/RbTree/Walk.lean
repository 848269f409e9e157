import AlgorithmLib.RbTree.Insert

set_option autoImplicit false

namespace AlgorithmLib.RbTree

open RedBlack RedBlack.ColorTree AlgorithmLib.RbTree.Memory

theorem leftmost_spec {fuel : Nat} {h : Memory} {path : Spine Ptr} {t : ColorTree Ptr}
    (H : Holds h path t) (hne : t ≠ .nil) (hfuel : t.toList.length ≤ fuel) :
    ∃ q c a r, leftmost fuel h (ptr t) = some a ∧ t = Spine.plug q (.node c .nil a r) ∧
      Spine.before q = [] := by
  induction t generalizing fuel path with
  | nil => exact absurd rfl hne
  | node c l a r ihl ihr =>
    simp only [ColorTree.toList, List.length_append, List.length_cons] at hfuel
    obtain ⟨k, rfl⟩ : ∃ k, fuel = k + 1 := ⟨fuel - 1, by omega⟩
    obtain ⟨n, hn⟩ := Holds.reads (s := .left) H
    have hleft : n.rbLeft = ptr l := hn.near
    have Hl := (holds_cons (s := .left)).mpr H
    have hread : h.read (ptr (.node c l a r)) = some n := hn.read
    rw [leftmost, hread]
    simp only [Option.bind_eq_bind, Option.bind_some, hleft]
    by_cases hl : l = .nil
    · subst hl
      exact ⟨[], c, a, r, if_pos rfl, rfl, rfl⟩
    · have hzero : ptr l ≠ 0 := (Hl.tree.ptr_isNode hl).1
      rw [if_neg hzero]
      have hk : l.toList.length ≤ k := by omega
      obtain ⟨q, d, b, r', hrun, rfl, hbefore⟩ := ihl Hl hl hk
      refine ⟨q ++ [⟨.left, c, a, r⟩], d, b, r', hrun, ?_, ?_⟩
      · rw [Spine.plug_append]
        rfl
      · rw [Spine.before_append, hbefore]
        rfl

theorem climb_spec {fuel : Nat} {h : Memory} {path : Spine Ptr} {t : ColorTree Ptr}
    (H : Holds h path t)
    (hne : t ≠ .nil) (hfuel : path.length < fuel) :
    climb fuel h (ptr t) = some ((Spine.after path).head?.getD 0) := by
  induction path generalizing fuel t with
  | nil =>
    obtain ⟨k, rfl⟩ : ∃ k, fuel = k + 1 := ⟨fuel - 1, by simp at hfuel; omega⟩
    obtain ⟨c, a, x, y, rfl⟩ := exists_join .left hne
    obtain ⟨n, hn⟩ := H.reads
    rw [ptr_join, climb, hn.read]
    simp only [Option.bind_eq_bind, Option.bind_some, hn.parent]
    rfl
  | cons f path ih =>
    obtain ⟨s, d, p, z⟩ := f
    obtain ⟨k, rfl⟩ : ∃ k, fuel = k + 1 := ⟨fuel - 1, by simp at hfuel; omega⟩
    have hp := holds_cons.mp H
    obtain ⟨np, hnp⟩ := hp.reads
    have hptr := H.ptr_ne (.inl hne)
    obtain ⟨c, a, x, y, rfl⟩ := exists_join .left hne
    obtain ⟨n, hn⟩ := H.reads
    have hzero : p ≠ 0 := hp.isNode.1
    rw [ptr_join] at hptr
    rw [ptr_join, climb, hn.read]
    simp only [Option.bind_eq_bind, Option.bind_some, hn.parent, head, hnp.node]
    cases s with
    | left =>
      have hright : np.rbRight = ptr z := hnp.far
      rw [hright, if_neg fun h => hptr h.2]
      rfl
    | right =>
      have hright : np.rbRight = a := hnp.near.trans (ptr_join ..)
      rw [hright, if_pos ⟨hzero, rfl⟩]
      have hup := ih hp (join_ne_nil .right d p _ z) (Nat.lt_of_succ_lt_succ hfuel)
      rwa [ptr_join] at hup

theorem rbNext_spec {h : Memory} {path : Spine Ptr} {c : Color} {l r : ColorTree Ptr} {a : Ptr}
    (H : Holds h path (.node c l a r)) :
    h.rbNext a = some ((r.toList ++ Spine.after path).head?.getD 0) := by
  obtain ⟨n, hn⟩ := Holds.reads (s := .left) H
  have hright : n.rbRight = ptr r := hn.far
  have Hr := (holds_cons (s := .right)).mpr H
  have hperm := H.perm
  have hself : head path ≠ a := by
    refine (ne_head (Holds.isNode (s := .left) H).1 fun hmem => ?_).symm
    exact (List.nodup_append.mp hperm).2.2 a (by simp [ColorTree.toList]) a hmem rfl
  simp only [rbNext, hn.read, Option.bind_eq_bind, Option.bind_some, hn.parent, if_neg hself,
    hright, ne_eq]
  by_cases hr : r = .nil
  · subst hr
    rw [if_neg (not_not_intro ptr_nil)]
    exact climb_spec H (join_ne_nil .left c a l .nil) H.path_length_lt
  · rw [if_pos (Hr.tree.ptr_isNode hr).1]
    have hlength : r.toList.length ≤ addresses := by
      have hlt := H.length_lt
      rw [Spine.toList_plug] at hlt
      simp only [ColorTree.toList, List.length_append, List.length_cons] at hlt
      omega
    obtain ⟨q, d, b, r', hrun, hq, hbefore⟩ := leftmost_spec Hr hr hlength
    rw [hrun, hq, Spine.toList_plug, hbefore]
    rfl

theorem visit_spec {fuel : Nat} {h : Memory} {T : ColorTree Ptr} (H : Holds h [] T)
    {xs ys : List Ptr}
    (hsplit : T.toList = xs ++ ys) (hfuel : ys.length < fuel) :
    visit fuel h (ys.head?.getD 0) = some ys := by
  induction ys generalizing fuel xs with
  | nil =>
    obtain ⟨k, rfl⟩ : ∃ k, fuel = k + 1 := ⟨fuel - 1, by simp at hfuel; omega⟩
    rfl
  | cons a ys ih =>
    obtain ⟨k, rfl⟩ : ∃ k, fuel = k + 1 := ⟨fuel - 1, by simp at hfuel; omega⟩
    obtain ⟨p, c, l, r, rfl, hbefore, hafter⟩ := Spine.exists_focus hsplit
    have hfocus : Holds h p (.node c l a r) := by
      have happend := holds_append.mpr H
      rwa [List.append_nil] at happend
    have hnext := rbNext_spec hfocus
    have ha : a ≠ 0 := (Holds.isNode (s := .left) hfocus).1
    rw [hafter] at hnext
    have hsplit' : (Spine.plug p (.node c l a r)).toList = (xs ++ [a]) ++ ys := by
      rw [hsplit, List.append_assoc]
      rfl
    have hrest := ih hsplit' (Nat.lt_of_succ_lt_succ hfuel)
    simp only [List.head?_cons, Option.getD_some, visit, if_neg ha, hnext, Option.bind_eq_bind,
      Option.bind_some, hrest]

theorem traverse_spec {h : Memory} {T : ColorTree Ptr} (H : Holds h [] T) :
    h.traverse = some T.toList := by
  have hroot : h.root = ptr T := H.above
  have hlength : T.toList.length < addresses := H.length_lt
  have hvisit := visit_spec H (List.nil_append T.toList).symm hlength
  have hfirst : h.rbFirst = some (T.toList.head?.getD 0) := by
    rw [rbFirst, hroot]
    by_cases hne : T = .nil
    · subst hne
      rfl
    · obtain ⟨q, c, a, r, hrun, hq, hbefore⟩ := leftmost_spec H hne (Nat.le_of_lt hlength)
      rw [if_neg (H.tree.ptr_isNode hne).1, hrun, hq, Spine.toList_plug, hbefore]
      rfl
  simp only [Memory.traverse, hfirst, Option.bind_eq_bind, Option.bind_some, hvisit]

end AlgorithmLib.RbTree
