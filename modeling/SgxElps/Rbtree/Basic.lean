/-
**The intrusive red-black tree `malloc_rbtree`.**

`libOS/mm/rbtree.cpp` is a red-black tree on nodes that lie inside the objects.  Missing children, and
the parent of the root, are the node `sentinel` of the tree itself; its colour is set by the
constructor, its `parent` is written by `transplant` and `__erase`, and its `left` and `right` are
never initialised.  Before the first insertion `root` is a null pointer.

Each function is a function on the memory of the nodes.  The result `none` stands for everything that
ends or loses the program: a failed assertion, a null pointer that is followed, a field that is read
before it is written, and a loop that does not end.  No loop goes on for longer than `fuel` rounds; how
many rounds are enough is a matter of the proofs.

The two mirror images of a piece of code are one definition with a parameter for the side, where they
are mirror images; the two halves of the loop in `__insert` are not.

Main definitions: `Mem`, `insert`, `erase`, `step`.
-/

import SgxElps.Lib.Transition
import SgxElps.Lib.RedBlack
import Mathlib.Order.Lattice
import Mathlib.Logic.Function.Basic

namespace Rbtree

open RedBlack (Color Side)
open Function

variable {N K : Type}

/-- What a pointer that is not null points to: the sentinel of the tree, or the node of an object. -/
inductive Addr (N : Type) where
  | sentinel
  | node (n : N)
deriving DecidableEq

/-- An `rbtree_node`.  The children are `left` and `right`; a field that is not initialised is `none`.
The code stores no null pointer in a field. -/
structure Cell (N : Type) where
  color : Color
  child : Side → Option (Addr N)
  parent : Option (Addr N)

/-- The nodes, and the field `root` of the tree, where `none` is the null pointer. -/
structure Mem (N : Type) where
  cell : Addr N → Cell N
  root : Option (Addr N)

/-- `LIBOS_ASSERT`. -/
def libosAssert (b : Bool) : Option Unit := if b then some () else none

/-- The constructor; `objects` is what the nodes of the objects hold before. -/
def Mem.new (objects : N → Cell N) : Mem N where
  cell
    | .sentinel => ⟨.black, fun _ => none, none⟩
    | .node n => objects n
  root := none

namespace Mem

variable [DecidableEq N] (m : Mem N)

/-! ### Fields -/

def color (a : Addr N) : Color := (m.cell a).color

def child (d : Side) (a : Addr N) : Option (Addr N) := (m.cell a).child d

def parent (a : Addr N) : Option (Addr N) := (m.cell a).parent

def setColor (a : Addr N) (c : Color) : Mem N :=
  { m with cell := update m.cell a { m.cell a with color := c } }

def setChild (d : Side) (a b : Addr N) : Mem N :=
  { m with
    cell := update m.cell a
      { m.cell a with child := update (m.cell a).child d (some b) } }

def setParent (a b : Addr N) : Mem N :=
  { m with cell := update m.cell a { m.cell a with parent := some b } }

def setRoot (a : Addr N) : Mem N := { m with root := some a }

/-! ### Rotations -/

/-- In a rotation: the parent `pp` of `p` gets the child `q` in the place of `p`. -/
def replaceChild (pp p q : Addr N) : Option (Mem N) :=
  if pp ≠ .sentinel then do
    let l ← m.child .left pp
    if l = p then some (m.setChild .left pp q)
    else do
      let r ← m.child .right pp
      libosAssert (r = p)
      some (m.setChild .right pp q)
  else some (m.setRoot q)

/-- A rotation towards side `d`. -/
def rotation (d : Side) (p : Addr N) : Option (Mem N) := do
  libosAssert (p ≠ .sentinel)
  let q ← m.child d.other p
  libosAssert (q ≠ .sentinel)
  let b ← m.child d q
  let m := m.setChild d.other p b
  let m := if b ≠ .sentinel then m.setParent b p else m
  let pp ← m.parent p
  let m := m.setParent q pp
  let m ← m.replaceChild pp p q
  some ((m.setChild d q p).setParent p q)

def rotationLeft (p : Addr N) : Option (Mem N) := m.rotation .left p

def rotationRight (q : Addr N) : Option (Mem N) := m.rotation .right q

/-! ### Insertion -/

section Insert

variable [LinearOrder K] (key : N → K)

/-- The loop of `insert_bst`: the parent of the place for the node, or `none` if its key is there. -/
def descend (node : N) : (fuel : ℕ) → (cur : Option (Addr N)) → (p : Addr N) →
    Option (Option (Addr N))
  | 0, _, _ => none
  | fuel + 1, some (.node n), _ =>
      if key node < key n then
        (m.child .left (.node n)).bind fun l => descend node fuel (some l) (.node n)
      else if key n < key node then
        (m.child .right (.node n)).bind fun r => descend node fuel (some r) (.node n)
      else some none
  | _ + 1, _, p => some (some p)

/-- The end of `insert_bst`: the node is linked below `p`. -/
def link (node : N) (p : Addr N) : Mem N :=
  let m := m.setParent (.node node) p
  let m :=
    match p with
    | .sentinel => m.setRoot (.node node)
    | .node q =>
        if key node < key q then m.setChild .left p (.node node)
        else m.setChild .right p (.node node)
  let m := m.setChild .left (.node node) .sentinel
  let m := m.setChild .right (.node node) .sentinel
  m.setColor (.node node) .red

def insertBst (fuel : ℕ) (node : N) : Option (Mem N × Bool) :=
  match m.descend key node fuel m.root .sentinel with
  | none => none
  | some none => some (m, false)
  | some (some p) => some (m.link key node p, true)

/-- The end of a round of the loop in `__insert`: `cur->parent` becomes black, the grandparent red, and
the grandparent is rotated towards side `d`. -/
def rotateGrandparent (d : Side) (cur : Addr N) : Option (Mem N) := do
  let p ← m.parent cur
  let m := m.setColor p .black
  let g ← m.parent p
  let m := m.setColor g .red
  m.rotation d g

/-- One round of the loop in `__insert` below the red parent `p` of `cur`, with the new `cur`. -/
def insertRound (cur p : Addr N) : Option (Mem N × Addr N) := do
  let g ← m.parent p
  let gl ← m.child .left g
  if p = gl then
    let uncle ← m.child .right g
    if m.color uncle = .red then
      some (((m.setColor g .red).setColor p .black).setColor uncle .black, g)
    else
      let pr ← m.child .right p
      if cur = pr then
        let m ← m.rotationLeft p
        let m ← m.rotateGrandparent .right p
        some (m, p)
      else
        let m ← m.rotateGrandparent .right cur
        some (m, cur)
  else
    let gr ← m.child .right g
    libosAssert (p = gr)
    let uncle ← m.child .left g
    if m.color uncle = .red then
      some (((m.setColor g .red).setColor p .black).setColor uncle .black, g)
    else
      -- this test asks for the left child of the grandparent
      if cur = gl then
        let m ← m.rotationRight p
        let m ← m.rotateGrandparent .left p
        some (m, p)
      else
        let m ← m.rotateGrandparent .left cur
        some (m, cur)

/-- The loop of `__insert`. -/
def insertLoop : (fuel : ℕ) → Mem N → (cur : Addr N) → Option (Mem N)
  | 0, _, _ => none
  | fuel + 1, m, cur => do
      let p ← m.parent cur
      if m.color p = .red then
        let (m, cur) ← m.insertRound cur p
        insertLoop fuel m cur
      else some m

/-- `__insert`. -/
def insert (fuel : ℕ) (node : N) : Option (Mem N × Bool) :=
  let a : Addr N := .node node
  let m := ((m.setParent a .sentinel).setChild .left a .sentinel).setChild .right a .sentinel
  match m.insertBst key fuel node with
  | none => none
  | some (m, false) => some (m, false)
  | some (m, true) => do
      let m ← insertLoop fuel m a
      let root ← m.root
      some (m.setColor root .black, true)

end Insert

/-! ### Traversal -/

/-- The loop of `__begin`. -/
def leftmost : (fuel : ℕ) → (cur : Addr N) → Option (Addr N)
  | 0, _ => none
  | fuel + 1, cur => do
      let l ← m.child .left cur
      if l ≠ .sentinel then leftmost fuel l else some cur

/-- `__begin`; the inner `none` is the null pointer. -/
def begin (fuel : ℕ) : (start : Option (Addr N)) → Option (Option (Addr N))
  | some (.node n) => (m.leftmost fuel (.node n)).map some
  | _ => some none

/-- The loop of `__lookup`.  A child that was written is not null, so the branches for null children are
never taken. -/
def search [LinearOrder K] (key : N → K) (v : K) : (fuel : ℕ) → (cur : Option (Addr N)) →
    Option (Option (Addr N))
  | 0, _ => none
  | fuel + 1, some (.node n) =>
      if v < key n then (m.child .left (.node n)).bind fun l => search key v fuel (some l)
      else if ¬ key n < v then some (some (.node n))
      else (m.child .right (.node n)).bind fun r => search key v fuel (some r)
  | _ + 1, _ => some none

/-- `__lookup`. -/
def lookup [LinearOrder K] (key : N → K) (fuel : ℕ) (v : K) : Option (Option (Addr N)) :=
  m.search key v fuel m.root

/-- The loop of `__next`; the inner `none` is the null pointer. -/
def climb : (fuel : ℕ) → (node : Addr N) → Option (Option (Addr N))
  | 0, _ => none
  | fuel + 1, node => do
      let p ← m.parent node
      if p ≠ .sentinel then
        let l ← m.child .left p
        if node = l then some (some p) else climb fuel p
      else some none

/-- `__next`. -/
def next (fuel : ℕ) (node : Addr N) : Option (Option (Addr N)) := do
  let r ← m.child .right node
  if r ≠ .sentinel then (m.leftmost fuel r).map some else m.climb fuel node

/-! ### Removal -/

def transplant (u v : Addr N) : Option (Mem N) := do
  let pu ← m.parent u
  let m ←
    if pu = .sentinel then some (m.setRoot v)
    else do
      let l ← m.child .left pu
      if u = l then some (m.setChild .left pu v) else some (m.setChild .right pu v)
  some (m.setParent v pu)

/-- The first part of a round of `delete_fixup`: a red sibling is replaced by a black one. -/
def redSibling (d : Side) (x : Addr N) : Option (Mem N × Addr N) := do
  let p ← m.parent x
  let w ← m.child d.other p
  if m.color w = .red then
    let m := m.setColor w .black
    let p ← m.parent x
    let m := m.setColor p .red
    let m ← m.rotation d p
    let p ← m.parent x
    let w ← m.child d.other p
    some (m, w)
  else some (m, w)

/-- In a round of `delete_fixup`: the far child of the sibling is made red. -/
def redFar (d : Side) (x w : Addr N) : Option (Mem N × Addr N) := do
  let far ← m.child d.other w
  if m.color far = .black then
    let near ← m.child d w
    let m := m.setColor near .black
    let m := m.setColor w .red
    let m ← m.rotation d.other w
    let p ← m.parent x
    let w ← m.child d.other p
    some (m, w)
  else some (m, w)

/-- A round of `delete_fixup` for the child `x` on side `d` of its parent, with the new `x`. -/
def fixupRound (d : Side) (x : Addr N) : Option (Mem N × Addr N) := do
  let (m, w) ← m.redSibling d x
  let near ← m.child d w
  let far ← m.child d.other w
  if m.color near = .black ∧ m.color far = .black then
    let m := m.setColor w .red
    let p ← m.parent x
    some (m, p)
  else
    let (m, w) ← m.redFar d x w
    let p ← m.parent x
    let m := m.setColor w (m.color p)
    let m := m.setColor p .black
    let far ← m.child d.other w
    let m := m.setColor far .black
    let m ← m.rotation d p
    let root ← m.root
    some (m, root)

/-- `delete_fixup`. -/
def deleteFixup : (fuel : ℕ) → Mem N → (x : Addr N) → Option (Mem N)
  | 0, _, _ => none
  | fuel + 1, m, x =>
      if m.root ≠ some x ∧ m.color x = .black then do
        let p ← m.parent x
        let l ← m.child .left p
        let (m, x) ← m.fixupRound (if x = l then .left else .right) x
        deleteFixup fuel m x
      else some (m.setColor x .black)

/-- In the third case of `__erase`: `x`, the right child of `y`, goes to the place of `y`, and the right
subtree of `z` goes below `y`. -/
def takeSuccessor (z y x : Addr N) : Option (Mem N) := do
  let yp ← m.parent y
  if yp = z then some (m.setParent x y)
  else do
    let m ← m.transplant y x
    let zr ← m.child .right z
    let m := m.setChild .right y zr
    some (m.setParent zr y)

/-- In the third case of `__erase`: `y` takes the place of `z`, its left subtree and its colour. -/
def putInPlace (z y : Addr N) : Option (Mem N) := do
  let m ← m.transplant z y
  let zl ← m.child .left z
  let m := m.setChild .left y zl
  let m := m.setParent zl y
  some (m.setColor y (m.color z))

/-- The third case of `__erase`, with `x`. -/
def replaceBySuccessor (z y : Addr N) : Option (Mem N × Addr N) := do
  let x ← m.child .right y
  let m ← m.takeSuccessor z y x
  let m ← m.putInPlace z y
  some (m, x)

/-- `__erase` before the call of `delete_fixup`, with `x`. -/
def unlink (fuel : ℕ) (z : Addr N) : Option (Mem N × Addr N) := do
  let l ← m.child .left z
  let r ← m.child .right z
  if l = .sentinel then
    let m ← m.transplant z r
    some (m, r)
  else if r = .sentinel then
    let m ← m.transplant z l
    some (m, l)
  else
    let y ← m.leftmost fuel r
    m.replaceBySuccessor z y

/-- `__erase`.  `y_original_color` is the colour of `z` in all three cases. -/
def erase (fuel : ℕ) (z : Addr N) : Option (Mem N × Option (Addr N)) := do
  let ret ← m.next fuel z
  let yOriginalColor := m.color z
  let (m, x) ← m.unlink fuel z
  let m ← if yOriginalColor = .black then deleteFixup fuel m x else some m
  some (m, ret)

end Mem

/-! ### Sequences of operations -/

/-- The memory and the objects that are in the tree; `fault` says that an operation has not returned as
it should. -/
structure State (N : Type) where
  mem : Mem N
  live : List N
  fault : Bool

def init (objects : N → Cell N) : State N := ⟨.new objects, [], false⟩

/-- Enough rounds for every loop. -/
def State.fuel (s : State N) : ℕ := 2 * s.live.length + 4

inductive Event (N : Type) where
  | insert (n : N)
  | erase (n : N)

def step [DecidableEq N] [LinearOrder K] (key : N → K) (s : State N) : Event N → Option (State N)
  | .insert n =>
      if s.fault = false ∧ n ∉ s.live then
        match s.mem.insert key s.fuel n with
        | none => some { s with fault := true }
        | some (m, true) => some { s with mem := m, live := n :: s.live }
        | some (m, false) => some { s with mem := m }
      else none
  | .erase n =>
      if s.fault = false ∧ n ∈ s.live then
        match s.mem.erase s.fuel (.node n) with
        | none => some { s with fault := true }
        | some (m, _) => some { s with mem := m, live := s.live.erase n }
      else none

end Rbtree
