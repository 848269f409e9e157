import AlgorithmLib.RbTree.Model

/-!
A tree in memory, seen from one of its holes: the nodes above the hole, and the subtree in it. What
a write does to the memory is said of the view of the nodes.
-/

set_option autoImplicit false

namespace AlgorithmLib.RbTree

open RedBlack RedBlack.ColorTree

def Memory.view (h : Memory) (p : Ptr) : View := (h.node p).view

def ptr : ColorTree Ptr → Ptr
  | .nil => 0
  | .node _ _ a _ => a

@[simp] theorem ptr_nil : ptr .nil = 0 := rfl

@[simp] theorem ptr_join (s : Side) (c : Color) (a : Ptr) (x y : ColorTree Ptr) :
    ptr (join s c a x y) = a := by
  cases s <;> rfl

/-- The address of the node above the hole, 0 at the root. -/
def head : Spine Ptr → Ptr
  | [] => 0
  | f :: _ => f.elem

def HoldsTree (h : Memory) : Ptr → ColorTree Ptr → Prop
  | _, .nil => True
  | parent, .node c l a r =>
    IsNode a ∧ h.view a = ⟨parent, c, ptr l, ptr r⟩ ∧ HoldsTree h a l ∧ HoldsTree h a r

def HoldsPath (h : Memory) : Spine Ptr → Ptr → Prop
  | [], p => h.root = p
  | f :: path, p =>
    IsNode f.elem ∧ h.view f.elem = View.join f.side (head path) f.color p (ptr f.sibling) ∧
      HoldsTree h f.elem f.sibling ∧ HoldsPath h path f.elem

structure Holds (h : Memory) (path : Spine Ptr) (t : ColorTree Ptr) : Prop where
  above : HoldsPath h path (ptr t)
  tree : HoldsTree h (head path) t
  nodup : (Spine.plug path t).toList.Nodup

theorem holdsTree_join {h : Memory} {parent : Ptr} {s : Side} {c : Color} {a : Ptr}
    {x y : ColorTree Ptr} : HoldsTree h parent (join s c a x y) ↔
      IsNode a ∧ h.view a = View.join s parent c (ptr x) (ptr y) ∧ HoldsTree h a x ∧
        HoldsTree h a y := by
  cases s with
  | left => exact Iff.rfl
  | right =>
    constructor
    · rintro ⟨ha, hview, hy, hx⟩
      exact ⟨ha, hview, hx, hy⟩
    · rintro ⟨ha, hview, hx, hy⟩
      exact ⟨ha, hview, hy, hx⟩

theorem holds_cons {h : Memory} {s : Side} {c : Color} {a : Ptr} {y : ColorTree Ptr}
    {path : Spine Ptr}
    {t : ColorTree Ptr} : Holds h (⟨s, c, a, y⟩ :: path) t ↔ Holds h path (join s c a t y) := by
  constructor
  · rintro ⟨⟨ha, hview, hy, hpath⟩, ht, hnodup⟩
    exact ⟨by rwa [ptr_join], holdsTree_join.mpr ⟨ha, hview, ht, hy⟩, hnodup⟩
  · rintro ⟨hpath, htree, hnodup⟩
    obtain ⟨ha, hview, ht, hy⟩ := holdsTree_join.mp htree
    exact ⟨⟨ha, hview, hy, by rwa [ptr_join] at hpath⟩, ht, hnodup⟩

theorem holds_sibling {h : Memory} {s : Side} {c : Color} {a : Ptr} {x y : ColorTree Ptr}
    {path : Spine Ptr} :
    Holds h (⟨s, c, a, y⟩ :: path) x ↔ Holds h (⟨s.flip, c, a, x⟩ :: path) y := by
  rw [holds_cons, holds_cons, join_flip]

theorem holds_append {h : Memory} {q path : Spine Ptr} {t : ColorTree Ptr} :
    Holds h (q ++ path) t ↔ Holds h path (Spine.plug q t) := by
  induction q generalizing t with
  | nil => exact Iff.rfl
  | cons f q ih =>
    rw [List.cons_append, holds_cons, ih]
    rfl

theorem ptr_mem {t : ColorTree Ptr} (h : t ≠ .nil) : ptr t ∈ t.toList := by
  cases t with
  | nil => exact absurd rfl h
  | node c l a r => simp [ptr, ColorTree.toList]

theorem HoldsTree.isNode {h : Memory} {parent : Ptr} {t : ColorTree Ptr} (ht : HoldsTree h parent t)
    {z : Ptr} (hz : z ∈ t.toList) : IsNode z := by
  induction t generalizing parent with
  | nil => exact absurd hz (List.not_mem_nil)
  | node c l a r ihl ihr =>
    obtain ⟨ha, -, hl, hr⟩ := ht
    rcases List.mem_append.mp hz with hz | hz
    · exact ihl hl hz
    · rcases List.mem_cons.mp hz with rfl | hz
      · exact ha
      · exact ihr hr hz

theorem HoldsPath.isNode {h : Memory} {path : Spine Ptr} {p : Ptr} (hp : HoldsPath h path p)
    {z : Ptr} (hz : z ∈ Spine.elems path) : IsNode z := by
  induction path generalizing p with
  | nil => exact absurd hz (List.not_mem_nil)
  | cons f path ih =>
    obtain ⟨hf, -, hsibling, hpath⟩ := hp
    rcases List.mem_append.mp hz with hz | hz
    · rcases List.mem_cons.mp hz with rfl | hz
      · exact hf
      · exact hsibling.isNode hz
    · exact ih hpath hz

theorem HoldsTree.ptr_isNode {h : Memory} {parent : Ptr} {t : ColorTree Ptr}
    (ht : HoldsTree h parent t)
    (hne : t ≠ .nil) : IsNode (ptr t) :=
  ht.isNode (ptr_mem hne)

theorem HoldsPath.low {h : Memory} {path : Spine Ptr} {p : Ptr} (hp : HoldsPath h path p) :
    head path &&& 3 = 0 := by
  cases path with
  | nil => rfl
  | cons f path => exact IsNode.low (.inr hp.1)

theorem ne_ptr {z : Ptr} {t : ColorTree Ptr} (hz : z ≠ 0) (hmem : z ∉ t.toList) : z ≠ ptr t := by
  rintro rfl
  cases t with
  | nil => exact hz rfl
  | node c l a r => exact hmem (ptr_mem (fun h => (nomatch h)))

theorem ne_head {z : Ptr} {path : Spine Ptr} (hz : z ≠ 0) (hmem : z ∉ Spine.elems path) :
    z ≠ head path := by
  rintro rfl
  cases path with
  | nil => exact hz rfl
  | cons f path => exact hmem List.mem_cons_self

theorem Holds.perm {h : Memory} {path : Spine Ptr} {t : ColorTree Ptr} (H : Holds h path t) :
    (t.toList ++ Spine.elems path).Nodup :=
  (Spine.perm_plug path t).nodup_iff.mp H.nodup

theorem HoldsTree.congr {h h' : Memory} {parent : Ptr} {t : ColorTree Ptr}
    (ht : HoldsTree h parent t)
    (hview : ∀ z ∈ t.toList, h'.view z = h.view z) : HoldsTree h' parent t := by
  induction t generalizing parent with
  | nil => trivial
  | node c l a r ihl ihr =>
    obtain ⟨ha, hviewa, hl, hr⟩ := ht
    refine ⟨ha, ?_, ihl hl fun z hz => hview z ?_, ihr hr fun z hz => hview z ?_⟩
    · rw [hview a (List.mem_append_right _ List.mem_cons_self), hviewa]
    · exact List.mem_append_left _ hz
    · exact List.mem_append_right _ (List.mem_cons_of_mem _ hz)

theorem HoldsTree.reparent {h h' : Memory} {parent parent' : Ptr} {t : ColorTree Ptr}
    (ht : HoldsTree h parent t) (hnodup : t.toList.Nodup)
    (hframe : ∀ z ∈ t.toList, z ≠ ptr t → h'.view z = h.view z)
    (hroot : t ≠ .nil → h'.view (ptr t) = { h.view (ptr t) with parent := parent' }) :
    HoldsTree h' parent' t := by
  cases t with
  | nil => trivial
  | node c l a r =>
    obtain ⟨ha, hviewa, hl, hr⟩ := ht
    obtain ⟨-, hr', hdisj⟩ := List.nodup_append.mp hnodup
    refine ⟨ha, ?_, hl.congr fun z hz => hframe z ?_ ?_, hr.congr fun z hz => hframe z ?_ ?_⟩
    · have hviewr := hroot (fun h => (nomatch h))
      simp only [ptr] at hviewr
      rw [hviewr, hviewa]
    · exact List.mem_append_left _ hz
    · exact hdisj z hz a List.mem_cons_self
    · exact List.mem_append_right _ (List.mem_cons_of_mem _ hz)
    · rintro rfl
      exact (List.nodup_cons.mp hr').1 hz

def Relinked (h h' : Memory) : Spine Ptr → Ptr → Prop
  | [], p => h'.root = p
  | f :: _, p => h'.view f.elem = (h.view f.elem).setChild f.side p ∧ h'.root = h.root

theorem HoldsPath.congr {h h' : Memory} {path : Spine Ptr} {p : Ptr} (hp : HoldsPath h path p)
    (hview : ∀ z ∈ Spine.elems path, h'.view z = h.view z) (hroot : h'.root = h.root) :
    HoldsPath h' path p := by
  induction path generalizing p with
  | nil => exact hroot.trans hp
  | cons f path ih =>
    obtain ⟨hf, hviewf, hsibling, hpath⟩ := hp
    refine ⟨hf, ?_, hsibling.congr fun z hz => hview z ?_, ih hpath fun z hz => hview z ?_⟩
    · rw [hview f.elem List.mem_cons_self, hviewf]
    · exact List.mem_append_left _ (List.mem_cons_of_mem _ hz)
    · exact List.mem_append_right _ hz

theorem HoldsPath.relink {h h' : Memory} {path : Spine Ptr} {p p' : Ptr} (hp : HoldsPath h path p)
    (hnodup : (Spine.elems path).Nodup)
    (hframe : ∀ z ∈ Spine.elems path, z ≠ head path → h'.view z = h.view z)
    (hlink : Relinked h h' path p') : HoldsPath h' path p' := by
  cases path with
  | nil => exact hlink
  | cons f path =>
    obtain ⟨hf, hviewf, hsibling, hpath⟩ := hp
    obtain ⟨hlinkf, hroot⟩ := hlink
    have hne : ∀ z ∈ f.sibling.toList ++ Spine.elems path, z ≠ f.elem := by
      rintro z hz rfl
      exact (List.nodup_cons.mp hnodup).1 hz
    have hframe' : ∀ z ∈ f.sibling.toList ++ Spine.elems path, h'.view z = h.view z :=
      fun z hz => hframe z (List.mem_cons_of_mem _ hz) (hne z hz)
    refine ⟨hf, ?_, hsibling.congr fun z hz => hframe' z (List.mem_append_left _ hz),
      hpath.congr (fun z hz => hframe' z (List.mem_append_right _ hz)) hroot⟩
    rw [hlinkf, hviewf, View.setChild_join]

end AlgorithmLib.RbTree
