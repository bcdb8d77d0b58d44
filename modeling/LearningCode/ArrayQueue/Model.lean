import Mathlib.Algebra.Group.Nat.Defs
import LearningCode.Lib.Threads

/-!
# The array queue

`ArrayLockFreeQueueImp.h`, one step for each load, store and atomic operation on
a member of the queue. The control state of a thread says which step comes next
and holds the local variables still needed; a test of locals is part of the
step that loads the last of them. `QUEUE_INT` counts modulo `2 ^ 64`.
-/

namespace LearningCode.ArrayQueue

abbrev uint64 (x : Nat) : Nat := x % 2 ^ 64

structure Queue (α : Type) where
  theQueue : Nat → α
  count : Nat
  writeIndex : Nat
  readIndex : Nat
  maximumReadIndex : Nat
  /-- The data of the enqueues that moved `m_writeIndex`, in that order. -/
  stored : List α
  /-- The data of the dequeues that moved `m_readIndex`, in that order. -/
  returned : List α

def countToIndex (qSize aCount : Nat) : Nat := aCount % qSize

inductive Pc (α : Type)
  | idle
  | enqueueLoadWrite (data : α)
  | enqueueLoadRead (data : α) (currentWriteIndex : Nat)
  | enqueueReserve (data : α) (currentWriteIndex : Nat)
  | enqueueStore (data : α) (currentWriteIndex : Nat)
  | enqueueCommit (currentWriteIndex : Nat)
  | enqueueCount
  | enqueueReturn (done : Bool)
  | dequeueLoadRead
  | dequeueLoadMaximum (currentReadIndex : Nat)
  | dequeueCopy (currentReadIndex : Nat)
  | dequeueTake (data : α) (currentReadIndex : Nat)
  | dequeueCount (data : α)
  | dequeueReturn (data : Option α)

inductive Action (α : Type)
  | enqueue (data : α)
  | dequeue
  | run

variable {α : Type}

def run (qSize : Nat) (s : Queue α) : Pc α → Queue α × Pc α
  | .enqueueLoadWrite data => (s, .enqueueLoadRead data s.writeIndex)
  | .enqueueLoadRead data currentWriteIndex =>
    let currentReadIndex := s.readIndex
    if countToIndex qSize (uint64 (currentWriteIndex + 1)) = countToIndex qSize currentReadIndex then
      (s, .enqueueReturn false)
    else (s, .enqueueReserve data currentWriteIndex)
  | .enqueueReserve data currentWriteIndex =>
    if s.writeIndex = currentWriteIndex then
      ({ s with writeIndex := uint64 (currentWriteIndex + 1), stored := s.stored ++ [data] },
        .enqueueStore data currentWriteIndex)
    else (s, .enqueueLoadWrite data)
  | .enqueueStore data currentWriteIndex =>
    ({ s with theQueue :=
        Function.update s.theQueue (countToIndex qSize currentWriteIndex) data },
      .enqueueCommit currentWriteIndex)
  | .enqueueCommit currentWriteIndex =>
    if s.maximumReadIndex = currentWriteIndex then
      ({ s with maximumReadIndex := uint64 (currentWriteIndex + 1) }, .enqueueCount)
    else (s, .enqueueCommit currentWriteIndex)
  | .enqueueCount => ({ s with count := uint64 (s.count + 1) }, .enqueueReturn true)
  | .dequeueLoadRead => (s, .dequeueLoadMaximum s.readIndex)
  | .dequeueLoadMaximum currentReadIndex =>
    let currentMaximumReadIndex := s.maximumReadIndex
    if countToIndex qSize currentReadIndex = countToIndex qSize currentMaximumReadIndex then
      (s, .dequeueReturn none)
    else (s, .dequeueCopy currentReadIndex)
  | .dequeueCopy currentReadIndex =>
    (s, .dequeueTake (s.theQueue (countToIndex qSize currentReadIndex)) currentReadIndex)
  | .dequeueTake data currentReadIndex =>
    if s.readIndex = currentReadIndex then
      ({ s with readIndex := uint64 (currentReadIndex + 1), returned := s.returned ++ [data] },
        .dequeueCount data)
    else (s, .dequeueLoadRead)
  | .dequeueCount data =>
    ({ s with count := uint64 (s.count + (2 ^ 64 - 1)) }, .dequeueReturn (some data))
  | pc => (s, pc)

def Pc.returned : Pc α → Bool
  | .idle => true
  | .enqueueReturn _ => true
  | .dequeueReturn _ => true
  | _ => false

def step (qSize : Nat) (s : Queue α) (pc : Pc α) : Action α → Option (Queue α × Pc α)
  | .enqueue data => if pc.returned then some (s, .enqueueLoadWrite data) else none
  | .dequeue => if pc.returned then some (s, .dequeueLoadRead) else none
  | .run => if pc.returned then none else some (run qSize s pc)

/-- The constructor; the array holds whatever was there. -/
def construct (theQueue : Nat → α) : Queue α := ⟨theQueue, 0, 0, 0, 0, [], []⟩

def queue (α : Type) (qSize : Nat) : Threads.Program (Queue α) (Pc α) (Action α) where
  start s := ∃ theQueue, s = construct theQueue
  idle pc := pc = .idle
  step s pc action s' pc' := step qSize s pc action = some (s', pc')

end LearningCode.ArrayQueue
