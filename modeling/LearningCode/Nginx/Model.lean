import Mathlib.Data.BitVec
import Mathlib.Logic.Function.Basic
import LearningCode.Lib.RedBlack

/-!
# The red-black tree of nginx

`rbtree.h` and `rbtree.c`, over a memory that holds a node at every address. The
nodes are part of the caller's records, so that a deletion may not move a key to
another node: it relinks the next node in order into the place of the deleted
one. The parent of the root is never set on a deletion and means nothing.
-/

namespace LearningCode.Nginx

open RedBlack

abbrev Ptr := Nat

/-- `ngx_rbtree_node_t`; the colour is 1 for red. -/
structure NgxRbtreeNode where
  key : BitVec 32
  left : Ptr
  right : Ptr
  parent : Ptr
  color : Color

namespace NgxRbtreeNode

def child (n : NgxRbtreeNode) : Side → Ptr
  | .left => n.left
  | .right => n.right

def setChild (n : NgxRbtreeNode) (s : Side) (p : Ptr) : NgxRbtreeNode :=
  match s with
  | .left => { n with left := p }
  | .right => { n with right := p }

end NgxRbtreeNode

def NULL : Ptr := 0

abbrev Mem := Ptr → NgxRbtreeNode

/-- `ngx_rbtree_insert_pt`: what the memory is after the call. -/
abbrev NgxRbtreeInsertPt := (turns : Nat) → Mem → (temp node sentinel : Ptr) → Option Mem

/-- `ngx_rbtree_t`, with the memory its pointers point into. -/
structure NgxRbtree where
  mem : Mem
  root : Ptr
  sentinel : Ptr
  insert : NgxRbtreeInsertPt

namespace NgxRbtree

def modify (T : NgxRbtree) (p : Ptr) (f : NgxRbtreeNode → NgxRbtreeNode) : NgxRbtree :=
  { T with mem := Function.update T.mem p (f (T.mem p)) }

def child (T : NgxRbtree) (s : Side) (p : Ptr) : Ptr := (T.mem p).child s

def parent (T : NgxRbtree) (p : Ptr) : Ptr := (T.mem p).parent

def color (T : NgxRbtree) (p : Ptr) : Color := (T.mem p).color

def setChild (T : NgxRbtree) (s : Side) (p q : Ptr) : NgxRbtree := T.modify p (·.setChild s q)

def setParent (T : NgxRbtree) (p q : Ptr) : NgxRbtree := T.modify p ({ · with parent := q })

def setColor (T : NgxRbtree) (p : Ptr) (c : Color) : NgxRbtree := T.modify p ({ · with color := c })

end NgxRbtree

def ngxRbtreeInit (mem : Mem) (s : Ptr) (i : NgxRbtreeInsertPt) : NgxRbtree :=
  (NgxRbtree.mk mem s s i).setColor s .black

/-- `p` takes the place of `node`; the child on the side `s` is looked at first. -/
def relink (s : Side) (T : NgxRbtree) (node p : Ptr) : NgxRbtree :=
  if node = T.root then { T with root := p }
  else if node = T.child s (T.parent node) then T.setChild s (T.parent node) p
  else T.setChild s.flip (T.parent node) p

/-- `node` goes down on the side `s`, its child of the other side comes up. -/
def rotate (s : Side) (T : NgxRbtree) (node : Ptr) : NgxRbtree :=
  let temp := T.child s.flip node
  let T := T.setChild s.flip node (T.child s temp)
  let T := if T.child s temp ≠ T.sentinel then T.setParent (T.child s temp) node else T
  let T := T.setParent temp (T.parent node)
  let T := relink s T node temp
  let T := T.setChild s temp node
  T.setParent node temp

def ngxRbtreeLeftRotate : NgxRbtree → Ptr → NgxRbtree := rotate .left

def ngxRbtreeRightRotate : NgxRbtree → Ptr → NgxRbtree := rotate .right

def ngxRbtreeMin (T : NgxRbtree) : (turns : Nat) → (node : Ptr) → Option Ptr
  | 0, _ => none
  | turns + 1, node =>
    if T.child .left node ≠ T.sentinel then ngxRbtreeMin T turns (T.child .left node) else some node

-- ---------------------------------------------------------------------------
-- Insertion
-- ---------------------------------------------------------------------------

/-- The loop of the two insertion functions, which goes left where the key is
`less`: the node the new one is to hang under, and on which side. -/
def insertWalk (less : BitVec 32 → BitVec 32 → Bool) (mem : Mem) (node sentinel : Ptr) :
    (turns : Nat) → (temp : Ptr) → Option (Ptr × Side)
  | 0, _ => none
  | turns + 1, temp =>
    let s : Side := if less (mem node).key (mem temp).key then .left else .right
    if (mem temp).child s = sentinel then some (temp, s)
    else insertWalk less mem node sentinel turns ((mem temp).child s)

/-- The writes behind the loop, `temp->left` or `temp->right` being `*p`. -/
def hangNew (mem : Mem) (temp node sentinel : Ptr) (s : Side) : Mem :=
  let mem := Function.update mem temp ((mem temp).setChild s node)
  Function.update mem node
    { mem node with left := sentinel, right := sentinel, parent := temp, color := .red }

def insertBy (less : BitVec 32 → BitVec 32 → Bool) : NgxRbtreeInsertPt :=
  fun turns mem temp node sentinel =>
    (insertWalk less mem node sentinel turns temp).map fun p =>
      hangNew mem p.1 node sentinel p.2

def valueLess (k k' : BitVec 32) : Bool := decide (k < k')

def timerLess (k k' : BitVec 32) : Bool := decide ((k - k').toInt < 0)

def ngxRbtreeInsertValue : NgxRbtreeInsertPt := insertBy valueLess

def ngxRbtreeInsertTimerValue : NgxRbtreeInsertPt := insertBy timerLess

/-- The side of its parent that `p` is on; the code takes what is not left for right. -/
def sideOf (T : NgxRbtree) (p : Ptr) : Side :=
  if p = T.child .left (T.parent p) then .left else .right

/-- The end of the case of the black uncle: the parent takes the place of the grandparent. -/
def raiseParent (s : Side) (T : NgxRbtree) (node : Ptr) : NgxRbtree :=
  let T := T.setColor (T.parent node) .black
  let T := T.setColor (T.parent (T.parent node)) .red
  rotate s.flip T (T.parent (T.parent node))

def insertCase (s : Side) (T : NgxRbtree) (node : Ptr) : NgxRbtree × Ptr :=
  let temp := T.child s.flip (T.parent (T.parent node))
  if T.color temp = .red then
    let T := T.setColor (T.parent node) .black
    let T := T.setColor temp .black
    let T := T.setColor (T.parent (T.parent node)) .red
    (T, T.parent (T.parent node))
  else
    let (T, node) :=
      if node = T.child s.flip (T.parent node) then (rotate s T (T.parent node), T.parent node)
      else (T, node)
    (raiseParent s T node, node)

def insertLoop : (turns : Nat) → NgxRbtree → (node : Ptr) → Option NgxRbtree
  | 0, _, _ => none
  | turns + 1, T, node =>
    if node ≠ T.root ∧ T.color (T.parent node) = .red then
      let (T, node) := insertCase (sideOf T (T.parent node)) T node
      insertLoop turns T node
    else some T

def ngxRbtreeInsert (turns : Nat) (T : NgxRbtree) (node : Ptr) : Option NgxRbtree :=
  if T.root = T.sentinel then
    let T := T.modify node fun n =>
      { n with parent := NULL, left := T.sentinel, right := T.sentinel, color := .black }
    some { T with root := node }
  else do
    let mem ← T.insert turns T.mem T.root node T.sentinel
    let T ← insertLoop turns { T with mem := mem } node
    some (T.setColor T.root .black)

-- ---------------------------------------------------------------------------
-- Deletion
-- ---------------------------------------------------------------------------

/-- `temp` and `subst`: the node to take out of its place, and what is below it. -/
def chooseSubst (turns : Nat) (T : NgxRbtree) (node : Ptr) : Option (Ptr × Ptr) :=
  if T.child .left node = T.sentinel then some (T.child .right node, node)
  else if T.child .right node = T.sentinel then some (T.child .left node, node)
  else (ngxRbtreeMin T turns (T.child .right node)).map fun subst =>
    (if T.child .left subst ≠ T.sentinel then T.child .left subst else T.child .right subst, subst)

/-- The writes under `DEBUG stuff`. -/
def clear (T : NgxRbtree) (node : Ptr) : NgxRbtree :=
  T.modify node fun n => { n with left := NULL, right := NULL, parent := NULL, key := 0 }

def takeOut (T : NgxRbtree) (subst temp : Ptr) : NgxRbtree :=
  if subst = T.child .left (T.parent subst) then T.setChild .left (T.parent subst) temp
  else T.setChild .right (T.parent subst) temp

def putIn (T : NgxRbtree) (node subst : Ptr) : NgxRbtree :=
  let T := T.modify subst fun n =>
    { n with left := (T.mem node).left, right := (T.mem node).right,
             parent := (T.mem node).parent, color := (T.mem node).color }
  let T := relink .left T node subst
  let T := if T.child .left subst ≠ T.sentinel then T.setParent (T.child .left subst) subst else T
  if T.child .right subst ≠ T.sentinel then T.setParent (T.child .right subst) subst else T

/-- The links after a deletion, up to the fixup. -/
def unlink (T : NgxRbtree) (node subst temp : Ptr) : NgxRbtree :=
  let T := takeOut T subst temp
  let T :=
    if subst = node then T.setParent temp (T.parent subst)
    else
      let T :=
        if T.parent subst = node then T.setParent temp subst
        else T.setParent temp (T.parent subst)
      putIn T node subst
  clear T node

/-- A red sibling is rotated up. -/
def deleteCase1 (s : Side) (T : NgxRbtree) (temp w : Ptr) : NgxRbtree × Ptr :=
  if T.color w = .red then
    let T := T.setColor w .black
    let T := T.setColor (T.parent temp) .red
    let T := rotate s T (T.parent temp)
    (T, T.child s.flip (T.parent temp))
  else (T, w)

/-- The red child of the sibling is brought to the outside. -/
def deleteCase3 (s : Side) (T : NgxRbtree) (temp w : Ptr) : NgxRbtree × Ptr :=
  if T.color (T.child s.flip w) = .black then
    let T := T.setColor (T.child s w) .black
    let T := T.setColor w .red
    let T := rotate s.flip T w
    (T, T.child s.flip (T.parent temp))
  else (T, w)

/-- The sibling takes the place and the colour of the parent. -/
def deleteCase4 (s : Side) (T : NgxRbtree) (temp w : Ptr) : NgxRbtree × Ptr :=
  let T := T.setColor w (T.color (T.parent temp))
  let T := T.setColor (T.parent temp) .black
  let T := T.setColor (T.child s.flip w) .black
  let T := rotate s T (T.parent temp)
  (T, T.root)

def deleteCase (s : Side) (T : NgxRbtree) (temp : Ptr) : NgxRbtree × Ptr :=
  let w := T.child s.flip (T.parent temp)
  let (T, w) := deleteCase1 s T temp w
  if T.color (T.child s w) = .black ∧ T.color (T.child s.flip w) = .black then
    let T := T.setColor w .red
    (T, T.parent temp)
  else
    let (T, w) := deleteCase3 s T temp w
    deleteCase4 s T temp w

def deleteLoop : (turns : Nat) → NgxRbtree → (temp : Ptr) → Option (NgxRbtree × Ptr)
  | 0, _, _ => none
  | turns + 1, T, temp =>
    if temp ≠ T.root ∧ T.color temp = .black then
      let (T, temp) := deleteCase (sideOf T temp) T temp
      deleteLoop turns T temp
    else some (T, temp)

/-- `ngx_rbtree_delete` once `temp` and `subst` are known. -/
def deleteChosen (turns : Nat) (T : NgxRbtree) (node temp subst : Ptr) : Option NgxRbtree :=
  if subst = T.root then
    let T := { T with root := temp }
    some (clear (T.setColor temp .black) node)
  else
    let isRed := decide (T.color subst = .red)
    let T := unlink T node subst temp
    if isRed then some T
    else do
      let (T, temp) ← deleteLoop turns T temp
      some (T.setColor temp .black)

def ngxRbtreeDelete (turns : Nat) (T : NgxRbtree) (node : Ptr) : Option NgxRbtree := do
  let (temp, subst) ← chooseSubst turns T node
  deleteChosen turns T node temp subst

-- ---------------------------------------------------------------------------
-- Iteration
-- ---------------------------------------------------------------------------

/-- The loop of `ngx_rbtree_next`: up while coming from the right. -/
def nextAbove (T : NgxRbtree) : (turns : Nat) → (node : Ptr) → Option Ptr
  | 0, _ => none
  | turns + 1, node =>
    let parent := T.parent node
    if node = T.root then some NULL
    else if node = T.child .left parent then some parent
    else nextAbove T turns parent

def ngxRbtreeNext (turns : Nat) (T : NgxRbtree) (node : Ptr) : Option Ptr :=
  if T.child .right node ≠ T.sentinel then ngxRbtreeMin T turns (T.child .right node)
  else nextAbove T turns node

end LearningCode.Nginx
