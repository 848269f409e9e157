import AlgorithmLib.Library.RedBlack

/-!
`demo/C/rbtree/rbtree.h`: a node keeps the colour in the low bits of the pointer to its parent,
which the alignment of the nodes leaves free.
-/

set_option autoImplicit false

namespace AlgorithmLib.RbTree

open RedBlack

/-- An address, 0 for `NULL`. -/
abbrev Ptr := BitVec 64

structure RbNode where
  rbParentColor : BitVec 64
  rbRight : Ptr
  rbLeft : Ptr
  deriving DecidableEq, Repr

/-- `__attribute__((aligned(sizeof(long))))` -/
def IsNode (p : Ptr) : Prop := p ≠ 0 ∧ p &&& 7 = 0

instance (p : Ptr) : Decidable (IsNode p) := inferInstanceAs (Decidable (_ ∧ _))

def rbRed : BitVec 64 := 0
def rbBlack : BitVec 64 := 1

namespace RbNode

def rbParent (r : RbNode) : Ptr := r.rbParentColor &&& ~~~3
def rbColor (r : RbNode) : BitVec 64 := r.rbParentColor &&& 1
def rbIsRed (r : RbNode) : Bool := r.rbColor == 0
def rbIsBlack (r : RbNode) : Bool := r.rbColor != 0
def rbSetRed (r : RbNode) : RbNode := { r with rbParentColor := r.rbParentColor &&& ~~~1 }
def rbSetBlack (r : RbNode) : RbNode := { r with rbParentColor := r.rbParentColor ||| 1 }

def rbSetParent (p : Ptr) (r : RbNode) : RbNode :=
  { r with rbParentColor := r.rbParentColor &&& 3 ||| p }

def rbSetColor (color : BitVec 64) (r : RbNode) : RbNode :=
  { r with rbParentColor := r.rbParentColor &&& ~~~1 ||| color }

/-- `rb_left` or `rb_right` -/
def child : Side → RbNode → Ptr
  | .left, r => r.rbLeft
  | .right, r => r.rbRight

def setChild : Side → Ptr → RbNode → RbNode
  | .left, p, r => { r with rbLeft := p }
  | .right, p, r => { r with rbRight := p }

end RbNode

structure View where
  parent : Ptr
  color : Color
  left : Ptr
  right : Ptr
  deriving DecidableEq, Repr

namespace View

def child : Side → View → Ptr
  | .left, v => v.left
  | .right, v => v.right

def setChild : Side → Ptr → View → View
  | .left, p, v => { v with left := p }
  | .right, p, v => { v with right := p }

/-- The first child is on the side. -/
def join : Side → Ptr → Color → Ptr → Ptr → View
  | .left, p, c, x, y => ⟨p, c, x, y⟩
  | .right, p, c, x, y => ⟨p, c, y, x⟩

@[simp] theorem parent_join (s : Side) (p : Ptr) (c : Color) (x y : Ptr) :
    (join s p c x y).parent = p := by
  cases s <;> rfl

@[simp] theorem color_join (s : Side) (p : Ptr) (c : Color) (x y : Ptr) :
    (join s p c x y).color = c := by
  cases s <;> rfl

@[simp] theorem child_join (s : Side) (p : Ptr) (c : Color) (x y : Ptr) :
    child s (join s p c x y) = x := by
  cases s <;> rfl

@[simp] theorem child_flip_join (s : Side) (p : Ptr) (c : Color) (x y : Ptr) :
    child s.flip (join s p c x y) = y := by
  cases s <;> rfl

@[simp] theorem setChild_join (s : Side) (p : Ptr) (c : Color) (x y z : Ptr) :
    setChild s z (join s p c x y) = join s p c z y := by
  cases s <;> rfl

@[simp] theorem setChild_flip_join (s : Side) (p : Ptr) (c : Color) (x y z : Ptr) :
    setChild s.flip z (join s p c x y) = join s p c x z := by
  cases s <;> rfl

@[simp] theorem setParent_join (s : Side) (p q : Ptr) (c : Color) (x y : Ptr) :
    { join s p c x y with parent := q } = join s q c x y := by
  cases s <;> rfl

@[simp] theorem setColor_join (s : Side) (p : Ptr) (c d : Color) (x y : Ptr) :
    { join s p c x y with color := d } = join s p d x y := by
  cases s <;> rfl

end View

def colorBit : Color → BitVec 64
  | .red => rbRed
  | .black => rbBlack

def RbNode.view (r : RbNode) : View :=
  { parent := r.rbParent, color := if r.rbIsRed then .red else .black
    left := r.rbLeft, right := r.rbRight }

theorem IsNode.low {p : Ptr} (h : p = 0 ∨ IsNode p) : p &&& 3 = 0 := by
  rcases h with rfl | ⟨-, h⟩
  · rfl
  · calc p &&& 3 = (p &&& 7) &&& 3 := by rw [BitVec.and_assoc]; rfl
      _ = 0 := by rw [h]; rfl

theorem getLsbD_of_eq_zero {w : BitVec 64} (h : w = 0) (i : Nat) : w.getLsbD i = false := by
  rw [h]
  exact BitVec.getLsbD_zero

theorem one_low (i : Nat) :
    ((1 : BitVec 64).getLsbD i && (3 : BitVec 64).getLsbD i) = (1 : BitVec 64).getLsbD i := by
  rw [← BitVec.getLsbD_and]
  rfl

theorem parent_of_word {p : Ptr} (h : p &&& 3 = 0) (w : BitVec 64) :
    (w &&& 3 ||| p) &&& ~~~3 = p := by
  apply BitVec.eq_of_getLsbD_eq
  intro i hi
  have hbit := getLsbD_of_eq_zero h i
  simp only [BitVec.getLsbD_and, BitVec.getLsbD_or, BitVec.getLsbD_not, hi, decide_true,
    Bool.true_and] at hbit ⊢
  cases h3 : (3 : BitVec 64).getLsbD i with
  | true =>
    rw [h3, Bool.and_true] at hbit
    rw [hbit, Bool.not_true, Bool.and_false]
  | false => rw [Bool.and_false, Bool.false_or, Bool.not_false, Bool.and_true]

theorem color_of_word {p : Ptr} (h : p &&& 3 = 0) (w : BitVec 64) :
    (w &&& 3 ||| p) &&& 1 = w &&& 1 := by
  apply BitVec.eq_of_getLsbD_eq
  intro i _
  have hbit := getLsbD_of_eq_zero h i
  have hone := one_low i
  simp only [BitVec.getLsbD_and, BitVec.getLsbD_or] at hbit ⊢
  cases h1 : (1 : BitVec 64).getLsbD i with
  | false => rw [Bool.and_false, Bool.and_false]
  | true =>
    rw [h1, Bool.true_and] at hone
    rw [hone, Bool.and_true] at hbit
    rw [hone, hbit, Bool.or_false, Bool.and_true]

theorem parent_of_color (w : BitVec 64) {c : BitVec 64} (hc : c &&& ~~~3 = 0) :
    (w &&& ~~~1 ||| c) &&& ~~~3 = w &&& ~~~3 := by
  apply BitVec.eq_of_getLsbD_eq
  intro i hi
  have hbit := getLsbD_of_eq_zero hc i
  have hone := one_low i
  simp only [BitVec.getLsbD_and, BitVec.getLsbD_or, BitVec.getLsbD_not, hi, decide_true,
    Bool.true_and] at hbit ⊢
  cases h3 : (3 : BitVec 64).getLsbD i with
  | true => rw [Bool.not_true, Bool.and_false, Bool.and_false]
  | false =>
    rw [h3, Bool.and_false] at hone
    rw [h3, Bool.not_false, Bool.and_true] at hbit
    rw [← hone, hbit, Bool.or_false, Bool.not_false, Bool.and_true]

namespace RbNode

variable (r : RbNode)

@[simp] theorem view_child (s : Side) : r.view.child s = r.child s := by
  cases s <;> rfl

@[simp] theorem view_setChild (s : Side) (p : Ptr) :
    (r.setChild s p).view = View.setChild s p r.view := by
  cases s <;> rfl

theorem rbIsRed_eq : r.rbIsRed = (r.view.color == .red) := by
  simp only [view]
  cases r.rbIsRed <;> rfl

theorem rbColor_eq : r.rbColor = colorBit r.view.color := by
  have hcases : r.rbColor = 0 ∨ r.rbColor = 1 := by
    unfold rbColor
    generalize r.rbParentColor = w
    have hlt : (w &&& 1).toNat < 2 := by
      rw [BitVec.toNat_and]
      exact Nat.lt_of_le_of_lt Nat.and_le_right (by decide)
    have : (w &&& 1).toNat = 0 ∨ (w &&& 1).toNat = 1 := by omega
    rcases this with h | h
    · exact .inl (BitVec.eq_of_toNat_eq h)
    · exact .inr (BitVec.eq_of_toNat_eq h)
  rcases hcases with h | h <;> simp [view, rbIsRed, h, colorBit, rbRed, rbBlack]

theorem view_rbSetParent {p : Ptr} (h : p &&& 3 = 0) :
    (r.rbSetParent p).view = { r.view with parent := p } := by
  simp only [view, rbSetParent, rbParent, rbIsRed, rbColor, parent_of_word h, color_of_word h]
  rfl

theorem view_rbSetColor (c : Color) :
    (r.rbSetColor (colorBit c)).view = { r.view with color := c } := by
  have hparent := parent_of_color r.rbParentColor
    (by cases c <;> decide : colorBit c &&& ~~~3 = 0)
  have hcolor : (r.rbParentColor &&& ~~~1 ||| colorBit c) &&& 1 = colorBit c := by
    have hclear : r.rbParentColor &&& ~~~1 &&& 1 = 0 := by
      rw [BitVec.and_assoc]
      exact BitVec.and_zero
    have hown : colorBit c &&& 1 = colorBit c := by cases c <;> decide
    apply BitVec.eq_of_getLsbD_eq
    intro i _
    have hbit := getLsbD_of_eq_zero hclear i
    have hc := congrArg (fun q : BitVec 64 => q.getLsbD i) hown
    simp only [BitVec.getLsbD_and, BitVec.getLsbD_or, Bool.and_or_distrib_right] at hbit hc ⊢
    rw [hbit, hc, Bool.false_or]
  simp only [view, rbSetColor, rbParent, rbIsRed, rbColor, hparent, hcolor]
  cases c <;> rfl

theorem view_rbSetRed : r.rbSetRed.view = { r.view with color := .red } := by
  rw [← view_rbSetColor r .red]
  have hword : r.rbParentColor &&& ~~~1 = r.rbParentColor &&& ~~~1 ||| 0 := BitVec.or_zero.symm
  rw [rbSetRed, hword]
  rfl

theorem view_rbSetBlack : r.rbSetBlack.view = { r.view with color := .black } := by
  rw [← view_rbSetColor r .black]
  have hword : r.rbParentColor ||| 1 = r.rbParentColor &&& ~~~1 ||| 1 := by
    apply BitVec.eq_of_getLsbD_eq
    intro i hi
    simp only [BitVec.getLsbD_and, BitVec.getLsbD_or, BitVec.getLsbD_not, hi, decide_true,
      Bool.true_and]
    cases (1 : BitVec 64).getLsbD i with
    | true => rw [Bool.or_true, Bool.or_true]
    | false => rw [Bool.not_false, Bool.and_true]
  rw [rbSetBlack, hword]
  rfl

end RbNode

end AlgorithmLib.RbTree
