import LearningCode.MinHeap.Model
import Mathlib.Data.BitVec

/-!
# Timers on a 32-bit clock

`mh-timer.h` over the min-heap and `rbt-timer.h` over the red-black tree of
nginx. What `current_time` returns is an argument, a callback is its entry in
the list of fired timers, and a subtraction of `int`s is taken modulo `2 ^ 32`.
Of `rbtree.c` the walks that compare keys are here; the rebalancing is a
parameter, since it moves nodes without changing their order, as is shown of the
tree of nginx in a module of its own.
-/

namespace LearningCode.WrapTimer

open MinHeap (Ptr Heap load minHeapPush minHeapPop)

-- --------------------------------------------------------------------------
-- mh-timer.h
-- --------------------------------------------------------------------------

namespace Mh

def minHeapTop (s : Heap) : Option (Option Ptr) :=
  if s.n ≠ 0 then (load s 0).map some else some none

def time (s : Heap) (te : Ptr) : BitVec 32 := BitVec.ofNat 32 (s.entry te).time

/-- `te` is what `malloc` returns, and the result of the call. -/
def addTimer (s : Heap) (te : Ptr) (msec now : BitVec 32) (granted : Bool) :
    Option (Heap × Option Ptr) := do
  let s := { s with entry := Function.update s.entry te ⟨(now + msec).toNat, 0⟩ }
  let (s, ret) ← minHeapPush s te granted
  some (s, if ret ≠ 0 then none else some te)

def findNearestExpireTimer (s : Heap) (now : BitVec 32) : Option Int := do
  match ← minHeapTop s with
  | none => some (-1)
  | some te =>
    let diff := (time s te - now).toInt
    some (if diff > 0 then diff else 0)

/-- The loop of `expire_timer`: the heap it leaves and the timers it fires. -/
def expireTimer : (turns : Nat) → Heap → (cur : BitVec 32) → Option (Heap × List Ptr)
  | 0, _, _ => none
  | turns + 1, s, cur => do
    match ← minHeapTop s with
    | none => some (s, [])
    | some te =>
      if time s te > cur then some (s, [])
      else do
        let (s, _) ← minHeapPop s
        let (s, fired) ← expireTimer turns s cur
        some (s, te :: fired)

end Mh

-- --------------------------------------------------------------------------
-- rbt-timer.h
-- --------------------------------------------------------------------------

namespace Rbt

structure Node where
  ptr : Ptr
  key : BitVec 32
deriving DecidableEq, Repr

/-- The shape of the tree; an empty child is the sentinel. -/
inductive Ngx where
  | sentinel
  | node (left : Ngx) (node : Node) (right : Ngx)
deriving DecidableEq, Repr

def Ngx.inorder : Ngx → List Node
  | .sentinel => []
  | .node l n r => l.inorder ++ n :: r.inorder

/-- The walk of `ngx_rbtree_insert_timer_value`, and the node put where it ends. -/
def insertTimerValue : Ngx → Node → Ngx
  | .sentinel, node => .node .sentinel node .sentinel
  | .node l temp r, node =>
    if (node.key - temp.key).toInt < 0 then .node (insertTimerValue l node) temp r
    else .node l temp (insertTimerValue r node)

/-- The rotations after an insertion, and `ngx_rbtree_delete`. -/
structure Balancing where
  rebalance : Ngx → Node → Ngx
  inorder_rebalance : ∀ t n, (rebalance t n).inorder = t.inorder
  delete : Ngx → Node → Ngx
  inorder_delete : ∀ t n, n ∈ t.inorder → (delete t n).inorder = t.inorder.erase n

def ngxRbtreeInsert (B : Balancing) (t : Ngx) (node : Node) : Ngx :=
  match t with
  | .sentinel => .node .sentinel node .sentinel
  | t => B.rebalance (insertTimerValue t node) node

def ngxRbtreeMin : Ngx → Node → Ngx → Node
  | .sentinel, n, _ => n
  | .node l m r, _, _ => ngxRbtreeMin l m r

def addTimer (B : Balancing) (t : Ngx) (te : Ptr) (msec now : BitVec 32) : Ngx :=
  ngxRbtreeInsert B t ⟨te, msec + now⟩

def findNearestExpireTimer (t : Ngx) (now : BitVec 32) : Int :=
  match t with
  | .sentinel => -1
  | .node l n r =>
    let diff := ((ngxRbtreeMin l n r).key - now).toInt
    if diff > 0 then diff else 0

def expireTimer (B : Balancing) : (turns : Nat) → Ngx → (now : BitVec 32) → Option (Ngx × List Ptr)
  | 0, _, _ => none
  | turns + 1, t, now =>
    match t with
    | .sentinel => some (.sentinel, [])
    | .node l n r =>
      let node := ngxRbtreeMin l n r
      if node.key > now then some (.node l n r, [])
      else do
        let (t, fired) ← expireTimer B turns (B.delete (.node l n r) node) now
        some (t, node.ptr :: fired)

end Rbt

end LearningCode.WrapTimer
