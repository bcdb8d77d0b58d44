import Mathlib.Logic.Function.Basic
import LearningCode.Lib.Blocks

/-!
# The B-tree

`btree.cpp` over a heap of nodes. A null or freed pointer that is followed, and
an index outside an array, have no result; running out of `turns` has none
either. The arrays of a node are blocks of their own, so a loop that moves keys
and children is written as one loop for each.
-/

namespace LearningCode.Btree

open Blocks

abbrev Ptr := Nat

structure BtreeNode where
  children : List (Option Ptr)
  keys : List Int
  num : Nat
  leaf : Bool

abbrev Heap := Ptr → Option BtreeNode

structure Btree where
  heap : Heap
  root : Option Ptr
  t : Nat

def Btree.store (T : Btree) (p : Ptr) (n : BtreeNode) : Btree :=
  { T with heap := Function.update T.heap p (some n) }

/-- `btree_destroy_node`, and `free`. -/
def Btree.free (T : Btree) (p : Ptr) : Btree := { T with heap := Function.update T.heap p none }

/-- `calloc` does not fail: it returns an address that is free, if there is one. -/
abbrev Malloc := Heap → Ptr

def btreeCreateNode (t : Nat) (leaf : Bool) : BtreeNode where
  children := List.replicate (2 * t) none
  keys := List.replicate (2 * t - 1) 0
  num := 0
  leaf := leaf

def btreeCreate (malloc : Malloc) (heap : Heap) (t : Nat) : Btree :=
  let x := malloc heap
  ({ heap := heap, root := some x, t := t } : Btree).store x (btreeCreateNode t true)

/-- The loops that move children run for internal nodes only. -/
def copyChildren (leaf : Bool) (src : List (Option Ptr)) (n d s : Nat) (dst : List (Option Ptr)) :
    Option (List (Option Ptr)) := if leaf then some dst else copy src n d s dst

def btreeSplitChild (malloc : Malloc) (T : Btree) (x : Ptr) (i : Nat) : Option Btree := do
  let nx ← T.heap x
  let y ← (← nx.children[i]?)
  let ny ← T.heap y
  let z := malloc T.heap
  let nz := btreeCreateNode T.t ny.leaf
  let zkeys ← copy ny.keys (T.t - 1) 0 T.t nz.keys
  let zchildren ← copyChildren ny.leaf ny.children T.t 0 T.t nz.children
  let children ← shiftUp (nx.num - i) (i + 1) nx.children
  let children ← write children (i + 1) (some z)
  let keys ← shiftUp (nx.num - i) i nx.keys
  let k ← ny.keys[T.t - 1]?
  let keys ← write keys i k
  let T := T.store z { nz with keys := zkeys, children := zchildren, num := T.t - 1 }
  let T := T.store y { ny with num := T.t - 1 }
  some (T.store x { nx with keys := keys, children := children, num := nx.num + 1 })

/-- `while (i >= 0 && x->keys[i] > key) i--` from `i = n - 1`, returning `i + 1`. -/
def scan (keys : List Int) (key : Int) : (n : Nat) → Option Nat
  | 0 => some 0
  | n + 1 => do
    let k ← keys[n]?
    if k > key then scan keys key n else some (n + 1)

/-- The same loop in a leaf, where it shifts the keys, and the write of the new key. -/
def insertKey (key : Int) : (n : Nat) → List Int → Option (List Int)
  | 0, keys => write keys 0 key
  | n + 1, keys => do
    let k ← keys[n]?
    if k > key then (write keys (n + 1) k).bind (insertKey key n) else write keys (n + 1) key

def btreeInsertNonfull (malloc : Malloc) : (turns : Nat) → Btree → Ptr → Int → Option Btree
  | 0, _, _, _ => none
  | turns + 1, T, x, key => do
    let nx ← T.heap x
    if nx.leaf then
      let keys ← insertKey key nx.num nx.keys
      some (T.store x { nx with keys := keys, num := nx.num + 1 })
    else
      let i ← scan nx.keys key nx.num
      let c ← (← nx.children[i]?)
      let nc ← T.heap c
      if nc.num = 2 * T.t - 1 then
        let T ← btreeSplitChild malloc T x i
        let nx ← T.heap x
        let k ← nx.keys[i]?
        let c ← (← nx.children[if key > k then i + 1 else i]?)
        btreeInsertNonfull malloc turns T c key
      else btreeInsertNonfull malloc turns T c key

def btreeInsert (malloc : Malloc) (turns : Nat) (T : Btree) (key : Int) : Option Btree := do
  let root ← T.root
  let n ← T.heap root
  if n.num = 2 * T.t - 1 then
    let node := malloc T.heap
    let nn := btreeCreateNode T.t false
    let children ← write nn.children 0 (some root)
    let T := { T.store node { nn with children := children } with root := some node }
    let T ← btreeSplitChild malloc T node 0
    let nn ← T.heap node
    let k ← nn.keys[0]?
    let c ← (← nn.children[if key > k then 1 else 0]?)
    btreeInsertNonfull malloc turns T c key
  else btreeInsertNonfull malloc turns T root key

def btreeMerge (T : Btree) (node : Ptr) (idx : Nat) : Option Btree := do
  let nn ← T.heap node
  let left ← (← nn.children[idx]?)
  let right ← (← nn.children[idx + 1]?)
  let nl ← T.heap left
  let nr ← T.heap right
  let k ← nn.keys[idx]?
  let lkeys ← write nl.keys (T.t - 1) k
  let lkeys ← copy nr.keys (T.t - 1) T.t 0 lkeys
  let lchildren ← copyChildren nl.leaf nr.children T.t T.t 0 nl.children
  let T := T.store left { nl with keys := lkeys, children := lchildren, num := nl.num + T.t }
  let T := T.free right
  let keys ← shiftDown (nn.num - (idx + 1)) idx nn.keys
  let children ← shiftDown (nn.num - (idx + 1)) (idx + 1) nn.children
  -- The loop leaves `i` at `node->num`, or where it started.
  let children ← write children (max (idx + 1) nn.num + 1) none
  let T := T.store node { nn with keys := keys, children := children, num := nn.num - 1 }
  if nn.num - 1 = 0 then some ({ T with root := some left }.free node) else some T

/-- `while (idx < node->num && key > node->keys[idx]) idx++`, with `n` keys to go. -/
def position (keys : List Int) (key : Int) : (n idx : Nat) → Option Nat
  | 0, idx => some idx
  | n + 1, idx => do
    let k ← keys[idx]?
    if key > k then position keys key n (idx + 1) else some idx

def removeFromLeaf (T : Btree) (node : Ptr) (idx : Nat) : Option Btree := do
  let nn ← T.heap node
  let keys ← shiftDown (nn.num - 1 - idx) idx nn.keys
  let keys ← write keys (nn.num - 1) 0
  let T := T.store node { nn with keys := keys, num := nn.num - 1 }
  if nn.num - 1 = 0 then some { T.free node with root := none } else some T

/-- A call `btree_delete_key(T, node, key)` still to be made. -/
abbrev Next := Option (Option Ptr × Int)

/-- The key is in an internal node: what is done there, and the call at the end. -/
def deleteFound (T : Btree) (node : Ptr) (idx : Nat) (key : Int) : Option (Btree × Next) := do
  let nn ← T.heap node
  let left ← (← nn.children[idx]?)
  let nl ← T.heap left
  if nl.num ≥ T.t then
    let k ← nl.keys[nl.num - 1]?
    let keys ← write nn.keys idx k
    some (T.store node { nn with keys := keys }, some (some left, k))
  else
    let right ← (← nn.children[idx + 1]?)
    let nr ← T.heap right
    if nr.num ≥ T.t then
      let k ← nr.keys[0]?
      let keys ← write nn.keys idx k
      some (T.store node { nn with keys := keys }, some (some right, k))
    else
      let T ← btreeMerge T node idx
      let nn ← T.heap node
      let child ← nn.children[idx]?
      some (T, some (child, key))

def borrowRight (T : Btree) (node child right : Ptr) (idx : Nat) : Option Btree := do
  let nn ← T.heap node
  let nc ← T.heap child
  let nr ← T.heap right
  let k ← nn.keys[idx]?
  let ckeys ← write nc.keys nc.num k
  let r ← nr.children[0]?
  let cchildren ← write nc.children (nc.num + 1) r
  let k ← nr.keys[0]?
  let keys ← write nn.keys idx k
  let rkeys ← shiftDown (nr.num - 1) 0 nr.keys
  let rchildren ← shiftDown (nr.num - 1) 0 nr.children
  let rkeys ← write rkeys (nr.num - 1) 0
  let r ← rchildren[nr.num]?
  let rchildren ← write rchildren (nr.num - 1) r
  let rchildren ← write rchildren nr.num none
  let T := T.store node { nn with keys := keys }
  let T := T.store child { nc with keys := ckeys, children := cchildren, num := nc.num + 1 }
  some (T.store right { nr with keys := rkeys, children := rchildren, num := nr.num - 1 })

def borrowLeft (T : Btree) (node child left : Ptr) (idx : Nat) : Option Btree := do
  let nn ← T.heap node
  let nc ← T.heap child
  let nl ← T.heap left
  let ckeys ← shiftUp nc.num 0 nc.keys
  let cchildren ← shiftUp nc.num 1 nc.children
  let c ← cchildren[0]?
  let cchildren ← write cchildren 1 c
  let l ← nl.children[nl.num]?
  let cchildren ← write cchildren 0 l
  let k ← nn.keys[idx - 1]?
  let ckeys ← write ckeys 0 k
  let k ← nl.keys[nl.num - 1]?
  let keys ← write nn.keys (idx - 1) k
  let lkeys ← write nl.keys (nl.num - 1) 0
  let lchildren ← write nl.children nl.num none
  let T := T.store node { nn with keys := keys }
  let T := T.store child { nc with keys := ckeys, children := cchildren, num := nc.num + 1 }
  some (T.store left { nl with keys := lkeys, children := lchildren, num := nl.num - 1 })

def siblingNum (T : Btree) : Option Ptr → Option (Option Nat)
  | none => some none
  | some p => (T.heap p).map fun n => some n.num

/-- The sibling on the left is there from the second child on, that on the right
up to the last but one. -/
def leftSibling (nn : BtreeNode) (idx : Nat) : Option (Option Ptr) :=
  if 1 ≤ idx then nn.children[idx - 1]? else some none

def rightSibling (nn : BtreeNode) (idx : Nat) : Option (Option Ptr) :=
  if idx + 1 ≤ nn.num then nn.children[idx + 1]? else some none

def atLeast (num : Option Nat) (n : Nat) : Bool := num.any (n ≤ ·)

def equals (num : Option Nat) (n : Nat) : Bool := num.any (n = ·)

/-- The right sibling has more keys than the left one, or is the only one. -/
def richer : (lnum rnum : Option Nat) → Bool
  | some l, some r => decide (r > l)
  | _, r => r.isSome

/-- The child about to be visited has `t - 1` keys: it borrows, or is merged
with a sibling. Returned with the child to go on with. -/
def refill (T : Btree) (node child : Ptr) (idx : Nat) : Option (Btree × Ptr) := do
  let nn ← T.heap node
  let left ← leftSibling nn idx
  let right ← rightSibling nn idx
  let lnum ← siblingNum T left
  let rnum ← siblingNum T right
  if atLeast lnum T.t || atLeast rnum T.t then
    let richR := richer lnum rnum
    if atLeast rnum T.t && richR then
      let right ← right
      let T ← borrowRight T node child right idx
      some (T, child)
    else
      let left ← left
      let T ← borrowLeft T node child left idx
      some (T, child)
  else if (lnum.isNone || equals lnum (T.t - 1)) && (rnum.isNone || equals rnum (T.t - 1)) then
    if equals lnum (T.t - 1) then
      let left ← left
      let T ← btreeMerge T node (idx - 1)
      some (T, left)
    else if equals rnum (T.t - 1) then
      let T ← btreeMerge T node idx
      some (T, child)
    else some (T, child)
  else some (T, child)

/-- `btree_delete_key` up to the call it ends with, if it does not return. -/
def deleteStep (T : Btree) (node : Ptr) (key : Int) : Option (Btree × Next) := do
  let nn ← T.heap node
  let idx ← position nn.keys key nn.num 0
  if idx < nn.num ∧ nn.keys[idx]? = some key then
    if nn.leaf then (removeFromLeaf T node idx).map (·, none)
    else deleteFound T node idx key
  else
    match ← nn.children[idx]? with
    | none => some (T, none)
    | some child =>
      let nc ← T.heap child
      if nc.num = T.t - 1 then
        (refill T node child idx).map fun (T, child) => (T, some (some child, key))
      else some (T, some (some child, key))

def btreeDeleteKey : (turns : Nat) → Btree → Option Ptr → Int → Option Btree
  | 0, _, _, _ => none
  | _ + 1, T, none, _ => some T
  | turns + 1, T, some node, key => do
    let (T, next) ← deleteStep T node key
    match next with
    | none => some T
    | some (node, key) => btreeDeleteKey turns T node key

def btreeDelete (turns : Nat) (T : Btree) (key : Int) : Option (Btree × Int) :=
  match T.root with
  | none => some (T, -1)
  | some root => (btreeDeleteKey turns T (some root) key).map (·, 0)

end LearningCode.Btree
