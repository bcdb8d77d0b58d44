import Mathlib.Logic.Function.Basic
import LearningCode.Lib.RedBlack

/-!
# The red-black tree

`main.cpp` over a memory that holds a node at every address; what the addresses
outside the tree hold is arbitrary. The code is written twice, for left and for
right; here the side is an argument. A loop that runs out of `turns` has no
result.
-/

namespace LearningCode.RbTree

open RedBlack

abbrev Ptr := Nat

structure RbtreeNode where
  color : Color
  left : Ptr
  right : Ptr
  parent : Ptr
  key : Int
  value : Ptr

namespace RbtreeNode

def child (n : RbtreeNode) : Side → Ptr
  | .left => n.left
  | .right => n.right

def setChild (n : RbtreeNode) (s : Side) (p : Ptr) : RbtreeNode :=
  match s with
  | .left => { n with left := p }
  | .right => { n with right := p }

end RbtreeNode

/-- `rbtree`, with the memory its pointers point into. -/
structure Rbtree where
  mem : Ptr → RbtreeNode
  root : Ptr
  nil : Ptr

namespace Rbtree

def modify (T : Rbtree) (p : Ptr) (f : RbtreeNode → RbtreeNode) : Rbtree :=
  { T with mem := Function.update T.mem p (f (T.mem p)) }

def child (T : Rbtree) (s : Side) (p : Ptr) : Ptr := (T.mem p).child s

def parent (T : Rbtree) (p : Ptr) : Ptr := (T.mem p).parent

def color (T : Rbtree) (p : Ptr) : Color := (T.mem p).color

def setChild (T : Rbtree) (s : Side) (p q : Ptr) : Rbtree := T.modify p (·.setChild s q)

def setParent (T : Rbtree) (p q : Ptr) : Rbtree := T.modify p ({ · with parent := q })

def setColor (T : Rbtree) (p : Ptr) (c : Color) : Rbtree := T.modify p ({ · with color := c })

end Rbtree

/-- `p` takes the place of `x` under the parent of `x`, whose child on the side
`s` is looked at first. -/
def relink (s : Side) (T : Rbtree) (x p : Ptr) : Rbtree :=
  if T.parent x = T.nil then { T with root := p }
  else if x = T.child s (T.parent x) then T.setChild s (T.parent x) p
  else T.setChild s.flip (T.parent x) p

/-- `x` goes down on the side `s`, its child of the other side comes up. -/
def rotate (s : Side) (T : Rbtree) (x : Ptr) : Rbtree :=
  let y := T.child s.flip x
  let T := T.setChild s.flip x (T.child s y)
  let T := if T.child s y ≠ T.nil then T.setParent (T.child s y) x else T
  let T := T.setParent y (T.parent x)
  let T := relink s T x y
  let T := T.setChild s y x
  T.setParent x y

def rbtreeLeftRotate : Rbtree → Ptr → Rbtree := rotate .left

def rbtreeRightRotate : Rbtree → Ptr → Rbtree := rotate .right

/-- The side of its parent that `p` is on; the code takes what is not left for right. -/
def sideOf (T : Rbtree) (p : Ptr) : Side :=
  if p = T.child .left (T.parent p) then .left else .right

/-- The end of the case of the black uncle: the parent takes the place of the grandparent. -/
def raiseParent (s : Side) (T : Rbtree) (z : Ptr) : Rbtree :=
  let T := T.setColor (T.parent z) .black
  let T := T.setColor (T.parent (T.parent z)) .red
  rotate s.flip T (T.parent (T.parent z))

def insertCase (s : Side) (T : Rbtree) (z : Ptr) : Rbtree × Ptr :=
  let y := T.child s.flip (T.parent (T.parent z))
  if T.color y = .red then
    let T := T.setColor (T.parent z) .black
    let T := T.setColor y .black
    let T := T.setColor (T.parent (T.parent z)) .red
    (T, T.parent (T.parent z))
  else
    let (T, z) :=
      if z = T.child s.flip (T.parent z) then (rotate s T (T.parent z), T.parent z) else (T, z)
    (raiseParent s T z, z)

def insertFixupLoop : (turns : Nat) → Rbtree → Ptr → Option Rbtree
  | 0, _, _ => none
  | turns + 1, T, z =>
    if T.color (T.parent z) = .red then
      let (T, z) := insertCase (sideOf T (T.parent z)) T z
      insertFixupLoop turns T z
    else some T

def rbtreeInsertFixup (turns : Nat) (T : Rbtree) (z : Ptr) : Option Rbtree := do
  let T ← insertFixupLoop turns T z
  some (T.setColor T.root .black)

def keyCompare (a b : Int) : Int :=
  if a > b then 1 else if a < b then -1 else 0

/-- The search of `rbtree_insert`: where the new node is to hang, or `none` if
the key is there. -/
def insertSearch (T : Rbtree) (key : Int) : (turns : Nat) → (x y : Ptr) → Option (Option Ptr)
  | 0, _, _ => none
  | turns + 1, x, y =>
    if x ≠ T.nil then
      if keyCompare key (T.mem x).key < 0 then insertSearch T key turns (T.child .left x) x
      else if keyCompare key (T.mem x).key > 0 then insertSearch T key turns (T.child .right x) x
      else some none
    else some (some y)

def linkNew (T : Rbtree) (z y : Ptr) : Rbtree :=
  let T := T.setParent z y
  let T :=
    if y = T.nil then { T with root := z }
    else if keyCompare (T.mem z).key (T.mem y).key < 0 then T.setChild .left y z
    else T.setChild .right y z
  let T := T.setChild .left z T.nil
  let T := T.setChild .right z T.nil
  T.setColor z .red

def rbtreeInsert (turns : Nat) (T : Rbtree) (z : Ptr) : Option Rbtree := do
  match ← insertSearch T (T.mem z).key turns T.root T.nil with
  | none => some T
  | some y => rbtreeInsertFixup turns (linkNew T z y) z

def outermost (s : Side) (T : Rbtree) : (turns : Nat) → Ptr → Option Ptr
  | 0, _ => none
  | turns + 1, x => if T.child s x ≠ T.nil then outermost s T turns (T.child s x) else some x

def rbtreeMaxi (turns : Nat) (T : Rbtree) (x : Ptr) : Option Ptr := outermost .right T turns x

def rbtreeMini (turns : Nat) (T : Rbtree) (x : Ptr) : Option Ptr := outermost .left T turns x

def climb (T : Rbtree) : (turns : Nat) → (x y : Ptr) → Option Ptr
  | 0, _, _ => none
  | turns + 1, x, y =>
    if y ≠ T.nil ∧ x = T.child .right y then climb T turns y (T.parent y) else some y

def rbtreeSuccessor (turns : Nat) (T : Rbtree) (x : Ptr) : Option Ptr :=
  if T.child .right x ≠ T.nil then rbtreeMini turns T (T.child .right x)
  else climb T turns x (T.parent x)

/-- Case 1 of `rbtree_delete_fixup`: a red sibling is rotated up. -/
def deleteCase1 (s : Side) (T : Rbtree) (x w : Ptr) : Rbtree × Ptr :=
  if T.color w = .red then
    let T := T.setColor w .black
    let T := T.setColor (T.parent x) .red
    let T := rotate s T (T.parent x)
    (T, T.child s.flip (T.parent x))
  else (T, w)

/-- Case 3: the red child of the sibling is brought to the outside. -/
def deleteCase3 (s : Side) (T : Rbtree) (x w : Ptr) : Rbtree × Ptr :=
  if T.color (T.child s.flip w) = .black then
    let T := T.setColor (T.child s w) .black
    let T := T.setColor w .red
    let T := rotate s.flip T w
    (T, T.child s.flip (T.parent x))
  else (T, w)

/-- Case 4: the sibling takes the place and the colour of the parent. -/
def deleteCase4 (s : Side) (T : Rbtree) (x w : Ptr) : Rbtree × Ptr :=
  let T := T.setColor w (T.color (T.parent x))
  let T := T.setColor (T.parent x) .black
  let T := T.setColor (T.child s.flip w) .black
  let T := rotate s T (T.parent x)
  (T, T.root)

def deleteCase (s : Side) (T : Rbtree) (x : Ptr) : Rbtree × Ptr :=
  let w := T.child s.flip (T.parent x)
  let (T, w) := deleteCase1 s T x w
  -- Case 2: both children of the sibling are black.
  if T.color (T.child s w) = .black ∧ T.color (T.child s.flip w) = .black then
    let T := T.setColor w .red
    (T, T.parent x)
  else
    let (T, w) := deleteCase3 s T x w
    deleteCase4 s T x w

def deleteFixupLoop : (turns : Nat) → Rbtree → Ptr → Option (Rbtree × Ptr)
  | 0, _, _ => none
  | turns + 1, T, x =>
    if x ≠ T.root ∧ T.color x = .black then
      let (T, x) := deleteCase (sideOf T x) T x
      deleteFixupLoop turns T x
    else some (T, x)

def rbtreeDeleteFixup (turns : Nat) (T : Rbtree) (x : Ptr) : Option Rbtree := do
  let (T, x) ← deleteFixupLoop turns T x
  some (T.setColor x .black)

def onlyChild (T : Rbtree) (y : Ptr) : Ptr :=
  if T.child .left y ≠ T.nil then T.child .left y
  else if T.child .right y ≠ T.nil then T.child .right y
  else T.nil

def spliceOut (T : Rbtree) (y x : Ptr) : Rbtree :=
  relink .left (T.setParent x (T.parent y)) y x

def copyBinding (T : Rbtree) (z y : Ptr) : Rbtree :=
  T.modify z fun n => { n with key := (T.mem y).key, value := (T.mem y).value }

/-- `rbtree_delete` once `y`, the node to unlink, is known. -/
def unlink (turns : Nat) (T : Rbtree) (z y : Ptr) : Option (Rbtree × Ptr) :=
  let x := onlyChild T y
  let T := spliceOut T y x
  let T := if y ≠ z then copyBinding T z y else T
  if T.color y = .black then do
    let T ← rbtreeDeleteFixup turns T x
    some (T, y)
  else some (T, y)

/-- The node to unlink for the binding of `z` to go. -/
def nodeToUnlink (turns : Nat) (T : Rbtree) (z : Ptr) : Option Ptr :=
  if T.child .left z = T.nil ∨ T.child .right z = T.nil then some z
  else rbtreeSuccessor turns T z

def rbtreeDelete (turns : Nat) (T : Rbtree) (z : Ptr) : Option (Rbtree × Ptr) := do
  let y ← nodeToUnlink turns T z
  unlink turns T z y

def searchFrom (T : Rbtree) (key : Int) : (turns : Nat) → Ptr → Option Ptr
  | 0, _ => none
  | turns + 1, node =>
    if node ≠ T.nil then
      if key < (T.mem node).key then searchFrom T key turns (T.child .left node)
      else if key > (T.mem node).key then searchFrom T key turns (T.child .right node)
      else some node
    else some T.nil

def rbtreeSearch (turns : Nat) (T : Rbtree) (key : Int) : Option Ptr :=
  searchFrom T key turns T.root

end LearningCode.RbTree
