import AlgorithmLib.RbTree.Node
import Mathlib.Algebra.Order.Ring.Nat
import Mathlib.Logic.Function.Basic

/-!
`demo/C/rbtree/rbtree.c` and the macros of `rbtree.h`. An access through `NULL` is `none`; a loop
visits a new address in each turn, which bounds it. What the source writes down for the left and
again for the right side has the side as a parameter.
-/

set_option autoImplicit false

namespace AlgorithmLib.RbTree

open RedBlack

/-- The nodes in memory, and `struct rb_root`. -/
structure Memory where
  node : Ptr → RbNode
  root : Ptr

def addresses : Nat := 2 ^ 64

namespace Memory

def read (h : Memory) (p : Ptr) : Option RbNode := if p = 0 then none else some (h.node p)

def write (h : Memory) (p : Ptr) (f : RbNode → RbNode) : Option Memory :=
  if p = 0 then none else some { h with node := Function.update h.node p (f (h.node p)) }

/-- `if (p) *p = ..` -/
def writeSome (h : Memory) (p : Ptr) (f : RbNode → RbNode) : Option Memory :=
  if p = 0 then some h else h.write p f

/-- `p && rb_is_red(p)`, the opposite of `!p || rb_is_black(p)` -/
def isRed (h : Memory) (p : Ptr) : Bool := p != 0 && (h.node p).rbIsRed

/-- The link from the parent, or from the root, to `old` leads to `new`; the source asks on the
`side` whether it is there. -/
def relink (side : Side) (h : Memory) (parent old new : Ptr) : Option Memory :=
  if parent = 0 then some { h with root := new }
  else do
    let n ← h.read parent
    h.write parent (RbNode.setChild (if n.child side = old then side else side.flip) new)

/-- `__rb_rotate_left` and `__rb_rotate_right` -/
def rotate (side : Side) (h : Memory) (node : Ptr) : Option Memory := do
  let n ← h.read node
  let up := n.child side.flip
  let parent := n.rbParent
  let u ← h.read up
  let inner := u.child side
  let h ← h.write node (RbNode.setChild side.flip inner)
  let h ← h.writeSome inner (RbNode.rbSetParent node)
  let h ← h.write up (RbNode.setChild side node)
  let h ← h.write up (RbNode.rbSetParent parent)
  let h ← h.relink side parent node up
  h.write node (RbNode.rbSetParent up)

def rotateLeft : Memory → Ptr → Option Memory := rotate .left
def rotateRight : Memory → Ptr → Option Memory := rotate .right

def sideOf (n : RbNode) (child : Ptr) : Side := if n.rbLeft = child then .left else .right

/-- `rb_insert_color` when the uncle is black: the end of a turn, with the node of the next. -/
def insertRotate (side : Side) (h : Memory) (node parent gparent : Ptr) :
    Option (Memory × Ptr) := do
  let n ← h.read parent
  let (h, node, parent) ←
    if n.child side.flip = node then (h.rotate side parent).map fun h => (h, parent, node)
    else some (h, node, parent)
  let h ← h.write parent RbNode.rbSetBlack
  let h ← h.write gparent RbNode.rbSetRed
  let h ← h.rotate side.flip gparent
  some (h, node)

/-- The loop of `rb_insert_color` -/
def insertColorLoop : Nat → Memory → Ptr → Option Memory
  | 0, _, _ => none
  | fuel + 1, h, node => do
    let n ← h.read node
    let parent := n.rbParent
    if h.isRed parent then
      let gparent := (h.node parent).rbParent
      let g ← h.read gparent
      let side := sideOf g parent
      let uncle := g.child side.flip
      if h.isRed uncle then
        let h ← h.write uncle RbNode.rbSetBlack
        let h ← h.write parent RbNode.rbSetBlack
        let h ← h.write gparent RbNode.rbSetRed
        insertColorLoop fuel h gparent
      else
        let (h, node) ← h.insertRotate side node parent gparent
        insertColorLoop fuel h node
    else some h

def rbInsertColor (h : Memory) (node : Ptr) : Option Memory := do
  let h ← insertColorLoop addresses h node
  h.write h.root RbNode.rbSetBlack

/-- `__rb_erase_color` when the other child is red, with the other child after that -/
def eraseRotate (side : Side) (h : Memory) (parent other : Ptr) : Option (Memory × Ptr) := do
  let h ← h.write other RbNode.rbSetBlack
  let h ← h.write parent RbNode.rbSetRed
  let h ← h.rotate side parent
  let n ← h.read parent
  some (h, n.child side.flip)

/-- `__rb_erase_color` when a child of the other child is red: the last turn -/
def eraseLast (side : Side) (h : Memory) (parent other : Ptr) : Option Memory := do
  let o ← h.read other
  let (h, other) ←
    if h.isRed (o.child side.flip) then some (h, other)
    else do
      let h ← h.writeSome (o.child side) RbNode.rbSetBlack
      let h ← h.write other RbNode.rbSetRed
      let h ← h.rotate side.flip other
      let n ← h.read parent
      some (h, n.child side.flip)
  let n ← h.read parent
  let h ← h.write other (RbNode.rbSetColor n.rbColor)
  let h ← h.write parent RbNode.rbSetBlack
  let o ← h.read other
  let h ← h.writeSome (o.child side.flip) RbNode.rbSetBlack
  h.rotate side parent

/-- The loop of `__rb_erase_color`, with the node at its end -/
def eraseColorLoop : Nat → Memory → Ptr → Ptr → Option (Memory × Ptr)
  | 0, _, _, _ => none
  | fuel + 1, h, node, parent =>
    if h.isRed node || node = h.root then some (h, node)
    else do
      let n ← h.read parent
      let side := sideOf n node
      let other := n.child side.flip
      let o ← h.read other
      let (h, other) ← if o.rbIsRed then h.eraseRotate side parent other else some (h, other)
      let o ← h.read other
      if h.isRed o.rbLeft || h.isRed o.rbRight then
        let h ← h.eraseLast side parent other
        some (h, h.root)
      else
        let h ← h.write other RbNode.rbSetRed
        let n ← h.read parent
        eraseColorLoop fuel h parent n.rbParent

def rbEraseColor (h : Memory) (node parent : Ptr) : Option Memory := do
  let (h, node) ← eraseColorLoop addresses h node parent
  h.writeSome node RbNode.rbSetBlack

/-- `while (n->rb_left) n = n->rb_left` -/
def leftmost : Nat → Memory → Ptr → Option Ptr
  | 0, _, _ => none
  | fuel + 1, h, n => do
    let r ← h.read n
    if r.rbLeft = 0 then some n else leftmost fuel h r.rbLeft

def rbErase (h : Memory) (node : Ptr) : Option Memory := do
  let n ← h.read node
  if n.rbLeft = 0 ∨ n.rbRight = 0 then
    let child := if n.rbLeft = 0 then n.rbRight else n.rbLeft
    let h ← h.writeSome child (RbNode.rbSetParent n.rbParent)
    let h ← h.relink .left n.rbParent node child
    if n.rbColor = rbBlack then h.rbEraseColor child n.rbParent else some h
  else
    let old := node
    let node ← leftmost addresses h n.rbRight
    let n ← h.read node
    let child := n.rbRight
    let parent := n.rbParent
    let h ← h.writeSome child (RbNode.rbSetParent parent)
    let (h, parent) ←
      if parent = old then (h.write parent (RbNode.setChild .right child)).map fun h => (h, node)
      else (h.write parent (RbNode.setChild .left child)).map fun h => (h, parent)
    let o ← h.read old
    let h ← h.write node fun _ => o
    let h ← h.relink .left o.rbParent old node
    let o ← h.read old
    let h ← h.write o.rbLeft (RbNode.rbSetParent node)
    let h ← h.writeSome o.rbRight (RbNode.rbSetParent node)
    if n.rbColor = rbBlack then h.rbEraseColor child parent else some h

def rbFirst (h : Memory) : Option Ptr :=
  if h.root = 0 then some 0 else leftmost addresses h h.root

/-- `while ((parent = rb_parent(node)) && node == parent->rb_right) node = parent` -/
def climb : Nat → Memory → Ptr → Option Ptr
  | 0, _, _ => none
  | fuel + 1, h, node => do
    let n ← h.read node
    let parent := n.rbParent
    if parent ≠ 0 ∧ node = (h.node parent).rbRight then climb fuel h parent else some parent

def rbNext (h : Memory) (node : Ptr) : Option Ptr := do
  let n ← h.read node
  if n.rbParent = node then some 0
  else if n.rbRight ≠ 0 then leftmost addresses h n.rbRight
  else climb addresses h node

/-- `for (node = rb_first(&root); node; node = rb_next(node))` from this node on -/
def visit : Nat → Memory → Ptr → Option (List Ptr)
  | 0, _, _ => none
  | fuel + 1, h, node =>
    if node = 0 then some []
    else do
      let next ← h.rbNext node
      let rest ← visit fuel h next
      some (node :: rest)

def traverse (h : Memory) : Option (List Ptr) := do
  let node ← h.rbFirst
  visit addresses h node

/-- `struct rb_node **n` -/
inductive Slot where
  | root
  | child (side : Side) (p : Ptr)
  deriving DecidableEq, Repr

def load (h : Memory) : Slot → Option Ptr
  | .root => some h.root
  | .child side p => (h.read p).map (RbNode.child side)

def store (h : Memory) (n : Slot) (q : Ptr) : Option Memory :=
  match n with
  | .root => some { h with root := q }
  | .child side p => h.write p (RbNode.setChild side q)

def rbLinkNode (h : Memory) (node parent : Ptr) (rbLink : Slot) : Option Memory := do
  let h ← h.write node fun _ => { rbParentColor := parent, rbRight := 0, rbLeft := 0 }
  h.store rbLink node

end Memory

/-- The result of `func`, which is given the stored element and what is searched for. -/
structure Comparison (K : Type) [LinearOrder K] where
  func : K → K → Int
  neg : ∀ stored searched, func stored searched < 0 ↔ searched < stored
  pos : ∀ stored searched, 0 < func stored searched ↔ stored < searched

variable {K : Type} [LinearOrder K]

/-- The tree, and the keys of the elements; an element has the address of its node. -/
structure RbState (K : Type) where
  memory : Memory
  key : Ptr → K

namespace RbState

open AlgorithmLib.RbTree.Memory

/-- The loop of `rb_insert` and `rb_search_or_insert`: the link and the parent for the element, or
the element that has the key. -/
def insertLoop (cmp : Comparison K) (s : RbState K) (k : K) :
    Nat → Slot → Ptr → Option ((Slot × Ptr) ⊕ Ptr)
  | 0, _, _ => none
  | fuel + 1, n, parent => do
    let this ← s.memory.load n
    if this = 0 then some (.inl (n, parent))
    else if cmp.func (s.key this) k < 0 then insertLoop cmp s k fuel (.child .left this) this
    else if cmp.func (s.key this) k > 0 then insertLoop cmp s k fuel (.child .right this) this
    else some (.inr this)

def linkAndColor (s : RbState K) (pos parent : Ptr) (n : Slot) : Option (RbState K) := do
  let h ← s.memory.rbLinkNode pos parent n
  let h ← h.rbInsertColor pos
  some { s with memory := h }

def rbInsert (cmp : Comparison K) (s : RbState K) (pos : Ptr) : Option (RbState K) := do
  match ← s.insertLoop cmp (s.key pos) addresses .root 0 with
  | .inl (n, parent) => s.linkAndColor pos parent n
  | .inr _ => some s

def searchLoop (cmp : Comparison K) (s : RbState K) (idx : K) : Nat → Ptr → Option (Option Ptr)
  | 0, _ => none
  | fuel + 1, node =>
    if node = 0 then some none
    else if cmp.func (s.key node) idx < 0 then
      searchLoop cmp s idx fuel (s.memory.node node).rbLeft
    else if cmp.func (s.key node) idx > 0 then
      searchLoop cmp s idx fuel (s.memory.node node).rbRight
    else some (some node)

/-- The element, `none` for `NULL` -/
def rbSearch (cmp : Comparison K) (s : RbState K) (idx : K) : Option (Option Ptr) :=
  s.searchLoop cmp idx addresses s.memory.root

/-- `init_func` makes this element with the key when it is called. -/
def rbSearchOrInsert (cmp : Comparison K) (s : RbState K) (idx : K) (init : Ptr) :
    Option (RbState K × Ptr) := do
  match ← s.insertLoop cmp idx addresses .root 0 with
  | .inl (n, parent) =>
    let s := { s with key := Function.update s.key init idx }
    let s ← s.linkAndColor init parent n
    some (s, init)
  | .inr this => some (s, this)

/-- `none` is `NULL`. -/
def rbDeleteNode (s : RbState K) : Option Ptr → Option (RbState K)
  | none => some s
  | some node => (s.memory.rbErase node).map fun h => { s with memory := h }

def rbDelete (cmp : Comparison K) (s : RbState K) (idx : K) : Option (RbState K) := do
  let pos ← s.rbSearch cmp idx
  s.rbDeleteNode pos

end RbState

/-- A use of one of the macros, with its comparison function. -/
inductive Op (K : Type) [LinearOrder K] where
  /-- the application gives the element its key and inserts it -/
  | insert (cmp : Comparison K) (pos : Ptr) (k : K)
  | searchOrInsert (cmp : Comparison K) (idx : K) (init : Ptr)
  | search (cmp : Comparison K) (idx : K)
  | delete (cmp : Comparison K) (idx : K)
  | deleteNode (node : Option Ptr)

def step (s : RbState K) : Op K → Option (RbState K)
  | .insert cmp pos k => { s with key := Function.update s.key pos k }.rbInsert cmp pos
  | .searchOrInsert cmp idx init => (s.rbSearchOrInsert cmp idx init).map Prod.fst
  | .search cmp idx => (s.rbSearch cmp idx).map fun _ => s
  | .delete cmp idx => s.rbDelete cmp idx
  | .deleteNode node => s.rbDeleteNode node

end AlgorithmLib.RbTree
