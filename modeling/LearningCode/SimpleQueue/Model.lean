import LearningCode.Lib.Threads

/-!
# The queue on linked nodes

`SimpleLockFreeQueue.h`, one step for each atomic load, store and
compare-and-swap and for each move of an item. An `idx_t` is kept as its fields,
node number, version and consumed flag, and only `head` carries the flag;
versions do not wrap. The blocks that hold the nodes are left out, so a node
number is the address that `get_node_at` finds.
-/

namespace LearningCode.SimpleQueue

structure Idx where
  node : Nat
  version : Nat
deriving DecidableEq, Repr

/-- What one call of `enqueue` brings, told apart from the other calls'. -/
structure Item (α : Type) where
  call : Nat
  value : α
deriving DecidableEq, Repr

structure Queue (α : Type) where
  nextNodeIdx : Nat
  head : Idx
  /-- `is_consumed` of `head`. -/
  consumed : Bool
  tail : Idx
  /-- `none` stands for 0. -/
  freeListHead : Option Idx
  next : Nat → Option Idx
  /-- The storage of a node, `none` when nothing is constructed there. -/
  item : Nat → Option (Item α)
  calls : Nat
  /-- The items whose node was put behind `tail`, in that order. -/
  enqueued : List (Item α)
  /-- What was moved out of the nodes. -/
  returned : List (Option (Item α))

inductive Pc (α : Type)
  | idle
  | tryGetLoad (item : Item α)
  | tryGetNext (item : Item α) (head : Idx)
  | tryGetCas (item : Item α) (head : Idx) (next : Option Idx)
  | newNodeAddress (item : Item α)
  | clearNext (item : Item α) (idx : Idx)
  | construct (item : Item α) (idx : Idx)
  | loadTail (item : Item α) (nodeIdx : Idx)
  | casTail (item : Item α) (nodeIdx tail : Idx)
  | storeNext (tail nodeIdx : Idx)
  | enqueueReturn
  | loadHead
  | loadNext (head : Idx) (consumed : Bool)
  | consume (head : Idx)
  | moveConsumed (head : Idx)
  | moveHead (head : Idx) (consumed : Bool) (next : Idx)
  | moveRemoved (head : Idx)
  | loadFree (idx : Idx) (result : Option (Option (Item α)))
  | storeFree (idx : Idx) (result : Option (Option (Item α))) (head : Option Idx)
  | casFree (idx : Idx) (result : Option (Option (Item α))) (head : Option Idx)
  | dequeueReturn (result : Option (Option (Item α)))

inductive Action (α : Type)
  | enqueue (value : α)
  | tryDequeue
  /-- `spurious` is what a weak compare-and-swap may do. -/
  | run (spurious : Bool)

variable {α : Type}

/-- The test of the loop of `try_get_node_from_free_list`. -/
def tryGet (item : Item α) : (head : Option Idx) → Pc α
  | none => .newNodeAddress item
  | some head => .tryGetNext item head

def incrVersion (idx : Idx) : Idx := ⟨idx.node, idx.version + 1⟩

def afterFree : (result : Option (Option (Item α))) → Pc α
  | none => .loadHead
  | some item => .dequeueReturn (some item)

def run (s : Queue α) (spurious : Bool) : Pc α → Queue α × Pc α
  | .tryGetLoad item => (s, tryGet item s.freeListHead)
  | .tryGetNext item head => (s, .tryGetCas item head (s.next head.node))
  | .tryGetCas item head next =>
    if spurious = false ∧ s.freeListHead = some head then
      ({ s with freeListHead := next }, .clearNext item (incrVersion head))
    else (s, tryGet item s.freeListHead)
  | .newNodeAddress item =>
    ({ s with nextNodeIdx := s.nextNodeIdx + 1 }, .clearNext item ⟨s.nextNodeIdx, 0⟩)
  | .clearNext item idx =>
    ({ s with next := Function.update s.next idx.node none }, .construct item idx)
  | .construct item idx =>
    ({ s with item := Function.update s.item idx.node (some item) }, .loadTail item idx)
  | .loadTail item nodeIdx => (s, .casTail item nodeIdx s.tail)
  | .casTail item nodeIdx tail =>
    if spurious = false ∧ s.tail = tail then
      ({ s with tail := nodeIdx, enqueued := s.enqueued ++ [item] }, .storeNext tail nodeIdx)
    else (s, .casTail item nodeIdx s.tail)
  | .storeNext tail nodeIdx =>
    ({ s with next := Function.update s.next tail.node (some nodeIdx) }, .enqueueReturn)
  | .loadHead => (s, .loadNext s.head s.consumed)
  | .loadNext head consumed =>
    match s.next head.node with
    | none => if consumed then (s, .dequeueReturn none) else (s, .consume head)
    | some next => (s, .moveHead head consumed next)
  | .consume head =>
    if s.head = head ∧ s.consumed = false then ({ s with consumed := true }, .moveConsumed head)
    else (s, .loadHead)
  | .moveConsumed head =>
    ({ s with
        item := Function.update s.item head.node none
        returned := s.returned ++ [s.item head.node] },
      .dequeueReturn (some (s.item head.node)))
  | .moveHead head consumed next =>
    if spurious = false ∧ s.head = head ∧ s.consumed = consumed then
      ({ s with head := next, consumed := false },
        if consumed then .loadFree head none else .moveRemoved head)
    else (s, .loadHead)
  | .moveRemoved head =>
    ({ s with
        item := Function.update s.item head.node none
        returned := s.returned ++ [s.item head.node] },
      .loadFree head (some (s.item head.node)))
  | .loadFree idx result => (s, .storeFree idx result s.freeListHead)
  | .storeFree idx result head =>
    ({ s with next := Function.update s.next idx.node head }, .casFree idx result head)
  | .casFree idx result head =>
    if spurious = false ∧ s.freeListHead = head then
      ({ s with freeListHead := some idx }, afterFree result)
    else (s, .storeFree idx result s.freeListHead)
  | pc => (s, pc)

def Pc.returned : Pc α → Bool
  | .idle => true
  | .enqueueReturn => true
  | .dequeueReturn _ => true
  | _ => false

def step (s : Queue α) (pc : Pc α) : Action α → Option (Queue α × Pc α)
  | .enqueue value =>
    if pc.returned then some ({ s with calls := s.calls + 1 }, .tryGetLoad ⟨s.calls, value⟩)
    else none
  | .tryDequeue => if pc.returned then some (s, .loadHead) else none
  | .run spurious => if pc.returned then none else some (run s spurious pc)

/-- The constructor: a blank node, consumed. -/
def initial (α : Type) : Queue α :=
  ⟨2, ⟨1, 0⟩, true, ⟨1, 0⟩, none, fun _ => none, fun _ => none, 0, [], []⟩

def queue (α : Type) : Threads.Program (Queue α) (Pc α) (Action α) where
  start s := s = initial α
  idle pc := pc = .idle
  step s pc action s' pc' := step s pc action = some (s', pc')

def Pc.moving : Pc α → Option Idx
  | .moveConsumed head => some head
  | .moveRemoved head => some head
  | _ => none

/-- A thread that is about to take a node from the free list takes none that
still holds the item of a thread `m`. -/
def Spares (s : Queue α) (pc : Pc α) (action : Action α) (m : Pc α) : Prop :=
  ∀ item head next, pc = .tryGetCas item head next → action = .run false →
    s.freeListHead = some head → ∀ idx, m.moving = some idx → idx.node ≠ head.node

end LearningCode.SimpleQueue
