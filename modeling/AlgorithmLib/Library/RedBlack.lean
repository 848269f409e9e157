import Mathlib.Data.List.Basic

/-!
Red-black trees with a path to a hole. What the algorithms do on one side of a node they do on the
other, so that the side is a parameter.
-/

set_option autoImplicit false

namespace AlgorithmLib.RedBlack

inductive Side where
  | left | right
  deriving DecidableEq, Repr

def Side.flip : Side → Side
  | .left => .right
  | .right => .left

@[simp] theorem Side.flip_flip (s : Side) : s.flip.flip = s := by
  cases s <;> rfl

inductive Color where
  | red | black
  deriving DecidableEq, Repr

inductive ColorTree (α : Type) where
  | nil
  | node (c : Color) (l : ColorTree α) (a : α) (r : ColorTree α)
  deriving Repr

variable {α : Type}

namespace ColorTree

/-- The first subtree is on the side. -/
def join : Side → Color → α → ColorTree α → ColorTree α → ColorTree α
  | .left, c, a, x, y => node c x a y
  | .right, c, a, x, y => node c y a x

def toList : ColorTree α → List α
  | nil => []
  | node _ l a r => l.toList ++ a :: r.toList

def blacken : ColorTree α → ColorTree α
  | nil => nil
  | node _ l a r => node .black l a r

theorem join_flip (s : Side) (c : Color) (a : α) (x y : ColorTree α) :
    join s.flip c a x y = join s c a y x := by
  cases s <;> rfl

theorem exists_join (s : Side) {t : ColorTree α} (h : t ≠ nil) :
    ∃ c a x y, t = join s c a x y := by
  cases t with
  | nil => exact absurd rfl h
  | node c l a r =>
    cases s with
    | left => exact ⟨c, a, l, r, rfl⟩
    | right => exact ⟨c, a, r, l, rfl⟩

theorem join_ne_nil (s : Side) (c : Color) (a : α) (x y : ColorTree α) : join s c a x y ≠ nil := by
  cases s <;> exact fun h => (nomatch h)

@[simp] theorem blacken_join (s : Side) (c : Color) (a : α) (x y : ColorTree α) :
    (join s c a x y).blacken = join s .black a x y := by
  cases s <;> rfl

theorem perm_join (s : Side) (c : Color) (a : α) (x y : ColorTree α) :
    (join s c a x y).toList.Perm (a :: (x.toList ++ y.toList)) := by
  cases s with
  | left => exact List.perm_middle
  | right => exact List.perm_middle.trans (List.perm_append_comm.cons a)

@[simp] theorem toList_blacken (t : ColorTree α) : t.blacken.toList = t.toList := by
  cases t <;> rfl

/-- Colours do not show in the list, and a rotation does not either. -/
theorem toList_rotate (s : Side) (c d c' d' : Color) (a b : α) (x y z : ColorTree α) :
    (join s c b (join s d a x y) z).toList = (join s c' a x (join s d' b y z)).toList := by
  cases s <;> simp [join, toList]

theorem toList_join_congr (s : Side) {c c' : Color} {a : α} {x x' y y' : ColorTree α}
    (hx : x.toList = x'.toList) (hy : y.toList = y'.toList) :
    (join s c a x y).toList = (join s c' a x' y').toList := by
  cases s <;> simp [join, toList, hx, hy]

/-- The colour of the root, and the number of black nodes on every way down. -/
inductive Balanced : ColorTree α → Color → Nat → Prop where
  | nil : Balanced nil .black 0
  | red {l r : ColorTree α} {a : α} {n : Nat} :
    Balanced l .black n → Balanced r .black n → Balanced (node .red l a r) .red n
  | black {l r : ColorTree α} {a : α} {c d : Color} {n : Nat} :
    Balanced l c n → Balanced r d n → Balanced (node .black l a r) .black (n + 1)

theorem balanced_red {s : Side} {a : α} {x y : ColorTree α} {c : Color} {n : Nat} :
    Balanced (join s .red a x y) c n ↔ c = .red ∧ Balanced x .black n ∧ Balanced y .black n := by
  constructor
  · intro h
    cases s with
    | left =>
      cases h with
      | red hl hr => exact ⟨rfl, hl, hr⟩
    | right =>
      cases h with
      | red hl hr => exact ⟨rfl, hr, hl⟩
  · rintro ⟨rfl, hx, hy⟩
    cases s with
    | left => exact .red hx hy
    | right => exact .red hy hx

theorem balanced_black {s : Side} {a : α} {x y : ColorTree α} {c : Color} {n : Nat} :
    Balanced (join s .black a x y) c n ↔
      c = .black ∧ ∃ m d e, n = m + 1 ∧ Balanced x d m ∧ Balanced y e m := by
  constructor
  · intro h
    cases s with
    | left =>
      cases h with
      | black hl hr => exact ⟨rfl, _, _, _, rfl, hl, hr⟩
    | right =>
      cases h with
      | black hl hr => exact ⟨rfl, _, _, _, rfl, hr, hl⟩
  · rintro ⟨rfl, m, d, e, rfl, hx, hy⟩
    cases s with
    | left => exact .black hx hy
    | right => exact .black hy hx

theorem Balanced.ne_nil {t : ColorTree α} {c : Color} {n : Nat} (h : Balanced t c (n + 1)) :
    t ≠ ColorTree.nil := by
  rintro rfl
  cases h

/-- A tree with a root of this colour. -/
theorem Balanced.exists_join {t : ColorTree α} {n : Nat} (h : Balanced t .red n) (s : Side) :
    ∃ a x y, t = join s .red a x y := by
  cases h with
  | @red l r a n hl hr =>
    cases s with
    | left => exact ⟨a, l, r, rfl⟩
    | right => exact ⟨a, r, l, rfl⟩

/-- A red root can be made black. -/
theorem Balanced.blacken_red {t : ColorTree α} {n : Nat} (h : Balanced t .red n) :
    Balanced t.blacken .black (n + 1) := by
  cases h with
  | red hl hr => exact .black hl hr

theorem Balanced.blacken_black {t : ColorTree α} {n : Nat} (h : Balanced t .black n) :
    t.blacken = t := by
  cases h <;> rfl

/-- Every way down has this many black nodes, and one more when the root is made black. -/
inductive Short : ColorTree α → Nat → Prop where
  | black {t : ColorTree α} {n : Nat} : Balanced t .black n → Short t n
  | red {l r : ColorTree α} {a : α} {n : Nat} :
    Balanced (node .black l a r) .black (n + 1) → Short (node .red l a r) n

theorem Balanced.short {t : ColorTree α} {c : Color} {n : Nat}
    (h : Balanced t c n) : Short t n := by
  cases h with
  | nil => exact .black .nil
  | red hl hr => exact .red (.black hl hr)
  | black hl hr => exact .black (.black hl hr)

end ColorTree

open ColorTree

/-- A node above the hole, the side of the hole, and the other subtree. -/
structure Frame (α : Type) where
  side : Side
  color : Color
  elem : α
  sibling : ColorTree α
  deriving Repr

/-- The nodes above a hole, from the hole upwards. -/
abbrev Spine (α : Type) := List (Frame α)

namespace Spine

def plug : Spine α → ColorTree α → ColorTree α
  | [], t => t
  | f :: p, t => plug p (join f.side f.color f.elem t f.sibling)

def before : Spine α → List α
  | [] => []
  | f :: p =>
    match f.side with
    | .left => before p
    | .right => before p ++ (f.sibling.toList ++ [f.elem])

def after : Spine α → List α
  | [] => []
  | f :: p =>
    match f.side with
    | .left => f.elem :: f.sibling.toList ++ after p
    | .right => after p

theorem toList_plug (p : Spine α) (t : ColorTree α) :
    (plug p t).toList = before p ++ t.toList ++ after p := by
  induction p generalizing t with
  | nil => simp [plug, before, after]
  | cons f p ih =>
    obtain ⟨s, c, a, y⟩ := f
    rw [plug, ih]
    cases s <;> simp [before, after, join, toList]

theorem plug_append (q p : Spine α) (t : ColorTree α) : plug (q ++ p) t = plug p (plug q t) := by
  induction q generalizing t with
  | nil => rfl
  | cons f q ih => exact ih _

theorem before_append (q p : Spine α) : before (q ++ p) = before p ++ before q := by
  induction q with
  | nil => simp [before]
  | cons f q ih =>
    cases hs : f.side <;> simp [before, hs, ih]

theorem after_append (q p : Spine α) : after (q ++ p) = after q ++ after p := by
  induction q with
  | nil => simp [after]
  | cons f q ih =>
    cases hs : f.side <;> simp [after, hs, ih]

/-- Where a list is cut at an element, the tree has a node. -/
theorem exists_focus {t : ColorTree α} {xs ys : List α} {a : α} (h : t.toList = xs ++ a :: ys) :
    ∃ p c l r, t = plug p (node c l a r) ∧ before p ++ l.toList = xs ∧
      r.toList ++ after p = ys := by
  induction t generalizing xs ys with
  | nil => simp [toList] at h
  | node c l b r ihl ihr =>
    rcases List.append_eq_append_iff.mp h with ⟨zs, hxs, hr⟩ | ⟨zs, hl, hys⟩
    · cases zs with
      | nil =>
        obtain ⟨rfl, rfl⟩ : b = a ∧ r.toList = ys := by simpa using hr
        exact ⟨[], c, l, r, rfl, by simpa [before] using hxs.symm, by simp [after]⟩
      | cons z zs =>
        obtain ⟨rfl, hzs⟩ : b = z ∧ r.toList = zs ++ a :: ys := by simpa using hr
        obtain ⟨p, d, l', r', rfl, hbefore, hafter⟩ := ihr hzs
        refine ⟨p ++ [⟨.right, c, b, l⟩], d, l', r', ?_, ?_, ?_⟩
        · rw [plug_append]
          rfl
        · rw [before_append, hxs, ← hbefore]
          simp [before]
        · rw [after_append, ← hafter]
          simp [after]
    · cases zs with
      | nil =>
        obtain ⟨rfl, rfl⟩ : a = b ∧ ys = r.toList := by simpa using hys
        exact ⟨[], c, l, r, rfl, by simpa [before] using hl, by simp [after]⟩
      | cons z zs =>
        obtain ⟨rfl, rfl⟩ : a = z ∧ ys = zs ++ b :: r.toList := by simpa using hys
        obtain ⟨p, d, l', r', rfl, hbefore, hafter⟩ := ihl hl
        refine ⟨p ++ [⟨.left, c, b, r⟩], d, l', r', ?_, ?_, ?_⟩
        · rw [plug_append]
          rfl
        · rw [before_append, ← hbefore]
          simp [before]
        · rw [after_append, ← hafter]
          simp [after]

/-- The elements of the nodes above the hole and of their other subtrees. -/
def elems : Spine α → List α
  | [] => []
  | f :: p => f.elem :: f.sibling.toList ++ elems p

theorem elems_append (q p : Spine α) : elems (q ++ p) = elems q ++ elems p := by
  induction q with
  | nil => rfl
  | cons f q ih => simp [elems, ih]

theorem perm_plug (p : Spine α) (t : ColorTree α) : (plug p t).toList.Perm
    (t.toList ++ elems p) := by
  induction p generalizing t with
  | nil => simp [plug, elems]
  | cons f p ih =>
    refine (ih _).trans ?_
    refine ((perm_join f.side f.color f.elem t f.sibling).append_right _).trans ?_
    simp only [elems, List.cons_append, List.append_assoc]
    exact List.perm_middle.symm

theorem plug_ne_nil (p : Spine α) {t : ColorTree α} (h : t ≠ .nil) : plug p t ≠ .nil := by
  induction p generalizing t with
  | nil => exact h
  | cons f p ih => exact ih (join_ne_nil f.side f.color f.elem t f.sibling)

theorem toList_plug_congr (p : Spine α) {t t' : ColorTree α} (h : t.toList = t'.toList) :
    (plug p t).toList = (plug p t').toList := by
  rw [toList_plug, toList_plug, h]

theorem length_le_toList_plug (p : Spine α) (t : ColorTree α) : p.length ≤
    (plug p t).toList.length := by
  rw [toList_plug]
  induction p with
  | nil => exact Nat.zero_le _
  | cons f p ih =>
    cases hs : f.side <;> simp [before, after, hs] at ih ⊢ <;> omega

/-- The hole takes the trees of this colour and height, and black ones of this height. -/
inductive Fits : Spine α → Color → Nat → Prop where
  | root {n : Nat} : Fits [] .black n
  | red {s : Side} {a : α} {y : ColorTree α} {p : Spine α} {n : Nat} :
    Balanced y .black n → Fits p .red n → Fits (⟨s, .red, a, y⟩ :: p) .black n
  | black {s : Side} {a : α} {y : ColorTree α} {p : Spine α} {c d : Color} {n : Nat} :
    Balanced y d n → Fits p .black (n + 1) → Fits (⟨s, .black, a, y⟩ :: p) c n

theorem Fits.to_black {p : Spine α} {c : Color} {n : Nat} (h : Fits p c n) : Fits p .black n := by
  cases h with
  | root => exact .root
  | red hy hp => exact .red hy hp
  | black hy hp => exact .black hy hp

theorem Fits.plug {p : Spine α} {t : ColorTree α} {c : Color} {n : Nat} (hp : Fits p c n)
    (ht : Balanced t c n) : ∃ m, Balanced (plug p t) .black m := by
  induction hp generalizing t with
  | root => exact ⟨_, ht⟩
  | red hy _ ih => exact ih (balanced_red.mpr ⟨rfl, ht, hy⟩)
  | black hy _ ih => exact ih (balanced_black.mpr ⟨rfl, _, _, _, rfl, ht, hy⟩)

/-- The node above a hole for black trees can be any node with two black subtrees. -/
theorem Fits.plug_join {s : Side} {c : Color} {a b : α} {x y z : ColorTree α} {p : Spine α}
    {n : Nat}
    (hp : Fits (⟨s, c, a, y⟩ :: p) .black n) (hx : Balanced x .black n)
    (hz : Balanced z .black n) : ∃ m, Balanced (Spine.plug p (join s c b x z)) .black m := by
  cases hp with
  | red hy hp => exact hp.plug (balanced_red.mpr ⟨rfl, hx, hz⟩)
  | black hy hp => exact hp.plug (balanced_black.mpr ⟨rfl, _, _, _, rfl, hx, hz⟩)

/-- Every subtree fits where it is. -/
theorem fits_of_plug {p : Spine α} {t : ColorTree α} {m : Nat}
    (h : Balanced (Spine.plug p t) .black m) :
    ∃ c n, Fits p c n ∧ Balanced t c n := by
  induction p generalizing t with
  | nil => exact ⟨_, _, .root, h⟩
  | cons f p ih =>
    obtain ⟨s, c, a, y⟩ := f
    obtain ⟨d, n, hp, ht⟩ := ih h
    cases c with
    | red =>
      obtain ⟨rfl, ht, hy⟩ := balanced_red.mp ht
      exact ⟨_, _, .red hy hp, ht⟩
    | black =>
      obtain ⟨rfl, k, d', e, rfl, ht, hy⟩ := balanced_black.mp ht
      exact ⟨_, _, .black hy hp, ht⟩

/-- A hole above which another element stands takes the same trees. -/
theorem Fits.setElem {q p : Spine α} {s : Side} {c d : Color} {a : α} {y : ColorTree α} {n : Nat}
    (h : Fits (q ++ ⟨s, c, a, y⟩ :: p) d n) (b : α) : Fits (q ++ ⟨s, c, b, y⟩ :: p) d n := by
  induction q generalizing d n with
  | nil =>
    cases h with
    | red hy hp => exact .red hy hp
    | black hy hp => exact .black hy hp
  | cons f q ih =>
    cases h with
    | red hy hp => exact .red hy (ih hp)
    | black hy hp => exact .black hy (ih hp)

end Spine

end AlgorithmLib.RedBlack
