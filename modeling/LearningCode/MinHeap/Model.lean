import Mathlib.Algebra.Group.Nat.Defs
import Mathlib.Logic.Function.Basic

/-!
# The min-heap of timers

`minheap.c` with its `unsigned` arithmetic: every index computation is taken
modulo `2 ^ 32`. An access of `p` outside the `a` allocated slots, or a read of
a slot never written, is a fault and has no result.
-/

namespace LearningCode.MinHeap

abbrev Ptr := Nat

abbrev uint32 (x : Nat) : Nat := x % 2 ^ 32

abbrev minusOne : Nat := 2 ^ 32 - 1

structure TimerEntry where
  time : Nat
  minHeapIdx : Nat
  deriving DecidableEq, Repr

structure Heap where
  p : Nat → Option Ptr
  n : Nat
  a : Nat
  /-- The entries, wherever they were allocated. -/
  entry : Ptr → TimerEntry

def minHeapCtor (entry : Ptr → TimerEntry) : Heap where
  p := fun _ => none
  n := 0
  a := 0
  entry := entry

def minHeapElemInit (s : Heap) (e : Ptr) : Heap :=
  { s with entry := Function.update s.entry e { s.entry e with minHeapIdx := minusOne } }

def load (s : Heap) (i : Nat) : Option Ptr := if i < s.a then s.p i else none

/-- `(s->p[i] = e)->min_heap_idx = i`. -/
def place (s : Heap) (i : Nat) (e : Ptr) : Option Heap :=
  if i < s.a then
    some { s with
      p := Function.update s.p i (some e)
      entry := Function.update s.entry e { s.entry e with minHeapIdx := i } }
  else none

def minHeapElemGreater (s : Heap) (a b : Ptr) : Bool := (s.entry b).time < (s.entry a).time

/-- `(hole_index - 1) / 2`, which is `0x7fffffff` at the root. -/
def parentIndex (i : Nat) : Nat := uint32 (i + (2 ^ 32 - 1)) / 2

theorem parentIndex_lt (hi : i ≠ 0) : parentIndex i < i := by
  unfold parentIndex uint32
  omega

def minHeapShiftUp (s : Heap) (holeIndex : Nat) (e : Ptr) : Option Heap :=
  if holeIndex ≠ 0 then do
    let q ← load s (parentIndex holeIndex)
    if minHeapElemGreater s q e then
      let s ← place s holeIndex q
      minHeapShiftUp s (parentIndex holeIndex) e
    else
      place s holeIndex e
  else
    place s holeIndex e
termination_by holeIndex
decreasing_by exact parentIndex_lt ‹_›

/-- The body of the `do` runs before the test; from the first test on the loop
is that of `min_heap_shift_up_`. -/
def minHeapShiftUpUnconditional (s : Heap) (holeIndex : Nat) (e : Ptr) : Option Heap := do
  let q ← load s (parentIndex holeIndex)
  let s ← place s holeIndex q
  minHeapShiftUp s (parentIndex holeIndex) e

/-- `min_child -= min_child == n || greater(p[min_child], p[min_child - 1])`. -/
def pickChild (s : Heap) (minChild : Nat) : Option Nat :=
  if minChild = s.n then some (uint32 (minChild + (2 ^ 32 - 1)))
  else do
    let right ← load s minChild
    let left ← load s (uint32 (minChild + (2 ^ 32 - 1)))
    if minHeapElemGreater s right left then some (uint32 (minChild + (2 ^ 32 - 1)))
    else some minChild

/-- The `while` of `min_heap_shift_down_`; `turns` bounds its iterations, and
running out of them counts as a fault. -/
def minHeapShiftDownLoop (s : Heap) (holeIndex : Nat) (e : Ptr) : (turns : Nat) → Option Heap
  | 0 => none
  | turns + 1 =>
    let minChild := uint32 (2 * (holeIndex + 1))
    if minChild ≤ s.n then do
      let minChild ← pickChild s minChild
      let c ← load s minChild
      if minHeapElemGreater s e c then
        let s ← place s holeIndex c
        minHeapShiftDownLoop s minChild e turns
      else
        place s holeIndex e
    else
      place s holeIndex e

/-- The hole moves down, so `n + 1` turns are enough unless an index wraps. -/
def minHeapShiftDown (s : Heap) (holeIndex : Nat) (e : Ptr) : Option Heap :=
  minHeapShiftDownLoop s holeIndex e (s.n + 1)

/-- `granted` is whether `realloc` finds the memory. The new slots keep what
`realloc` leaves in them, which nothing reads. -/
def minHeapReserve (s : Heap) (n : Nat) (granted : Bool) : Heap × Bool :=
  if s.a < n then
    let a := if s.a ≠ 0 then uint32 (s.a * 2) else 8
    let a := if a < n then n else a
    if granted then ({ s with a := a }, true) else (s, false)
  else (s, true)

abbrev Code := Int

def minHeapPush (s : Heap) (e : Ptr) (granted : Bool) : Option (Heap × Code) :=
  match minHeapReserve s (uint32 (s.n + 1)) granted with
  | (s, false) => some (s, -1)
  | (s, true) => do
    let s ← minHeapShiftUp { s with n := uint32 (s.n + 1) } s.n e
    some (s, 0)

def setIdx (s : Heap) (e : Ptr) (i : Nat) : Heap :=
  { s with entry := Function.update s.entry e { s.entry e with minHeapIdx := i } }

def minHeapPop (s : Heap) : Option (Heap × Option Ptr) :=
  if s.n ≠ 0 then do
    let e ← load s 0
    let s := { s with n := s.n - 1 }
    let last ← load s s.n
    let s ← minHeapShiftDown s 0 last
    some (setIdx s e minusOne, some e)
  else some (s, none)

/-- The choice `min_heap_erase_` and `min_heap_adjust_` both write out: up when
the parent is greater, down otherwise. -/
def shiftEither (s : Heap) (idx : Nat) (e : Ptr) : Option Heap := do
  let up ← if 0 < idx then (load s (parentIndex idx)).map (minHeapElemGreater s · e) else some false
  if up then minHeapShiftUpUnconditional s idx e else minHeapShiftDown s idx e

def minHeapErase (s : Heap) (e : Ptr) : Option (Heap × Code) :=
  if (s.entry e).minHeapIdx ≠ minusOne then do
    let s := { s with n := uint32 (s.n + (2 ^ 32 - 1)) }
    let last ← load s s.n
    let s ← shiftEither s (s.entry e).minHeapIdx last
    some (setIdx s e minusOne, 0)
  else some (s, -1)

def minHeapAdjust (s : Heap) (e : Ptr) (granted : Bool) : Option (Heap × Code) :=
  if (s.entry e).minHeapIdx = minusOne then minHeapPush s e granted
  else do
    let s ← shiftEither s (s.entry e).minHeapIdx e
    some (s, 0)

end LearningCode.MinHeap
