import Mathlib.Data.Finset.Card
import Mathlib.Data.UInt
import LearningCode.Lib.Transition

/-!
# Two blocking queues

`SyncQueue` of `sync_queue.h`, bounded and with a condition for each side, and
`SimpleSyncQueue` of `simple_sync_queue.h`, unbounded and with one condition,
used by any number of threads. Each access under the mutex is a step of its
own. `Count`, which reads the size without the mutex, is left out.
-/

namespace LearningCode.SyncQueue

inductive Cond where
  | notEmpty | notFull
deriving Repr, DecidableEq

/-- `look` is `Empty`, `Full` or `Size`. -/
inductive Call (α : Type) where
  | put (x : α)
  | take
  | look
deriving Repr, DecidableEq

/-- Where a call is: before the `lock_guard`, at the test of the loop, in the
wait, at what it does to the list, at `notify_one`, at the end of the guard. -/
inductive Stage where
  | lock | test | wait | act | notify | unlock
deriving Repr, DecidableEq

inductive Pc (α : Type) where
  | idle
  | at (call : Call α) (stage : Stage)
deriving Repr, DecidableEq

structure State (τ α : Type) where
  queue : List α
  mutex : Option τ
  /-- Who is blocked on each of the conditions. -/
  asleep : Cond → Finset τ
  pc : τ → Pc α
  /-- What was put and what was taken, in the order of the list operations. -/
  puts : List α
  takes : List α

/-- `_maxSize` of a `SyncQueue`; a `SimpleSyncQueue` has none. -/
abbrev Kind := Option Int32

def limit (maxSize : Int32) : Nat := maxSize.toInt64.toUInt64.toNat

variable {τ α : Type} [DecidableEq τ]

def Call.waits (kind : Kind) : Call α → Option Cond
  | .put _ => kind.map fun _ => .notFull
  | .take => some .notEmpty
  | .look => none

def Call.notifies (kind : Kind) : Call α → Option Cond
  | .put _ => some .notEmpty
  | .take => kind.map fun _ => .notFull
  | .look => none

def blocked (kind : Kind) (queue : List α) : Cond → Bool
  | .notFull => kind.any fun maxSize => queue.length = limit maxSize
  | .notEmpty => queue.isEmpty

def act (s : State τ α) : Call α → Option (State τ α)
  | .put x => some { s with queue := s.queue ++ [x], puts := s.puts ++ [x] }
  | .take =>
    match s.queue with
    | [] => none
    | x :: queue => some { s with queue, takes := s.takes ++ [x] }
  | .look => some s

inductive Action (τ α : Type) where
  | call (c : Call α)
  /-- The next step of a call; `notify_one` picks one of those asleep, if any. -/
  | run (notified : Option τ)
  /-- A spurious wake-up. -/
  | wake

def State.goto (s : State τ α) (t : τ) (pc : Pc α) : State τ α :=
  { s with pc := Function.update s.pc t pc }

def State.rouse (s : State τ α) (c : Cond) (t : τ) : State τ α :=
  { s with asleep := Function.update s.asleep c ((s.asleep c).erase t) }

def run (kind : Kind) (s : State τ α) (t : τ) (notified : Option τ) (call : Call α) :
    Stage → Option (State τ α)
  | .lock =>
    if s.mutex = none then
      let stage := if (call.waits kind).isSome then .test else .act
      some ({ s with mutex := some t }.goto t (.at call stage))
    else none
  | .test => do
    let c ← call.waits kind
    if blocked kind s.queue c then
      let asleep := Function.update s.asleep c (insert t (s.asleep c))
      some ({ s with mutex := none, asleep }.goto t (.at call .wait))
    else some (s.goto t (.at call .act))
  | .wait => do
    let c ← call.waits kind
    if t ∈ s.asleep c then none
    else if s.mutex = none then some ({ s with mutex := some t }.goto t (.at call .test))
    else none
  | .act => do
    let s ← act s call
    let stage := if (call.notifies kind).isSome then .notify else .unlock
    some (s.goto t (.at call stage))
  | .notify => do
    let c ← call.notifies kind
    match notified with
    | some u => if u ∈ s.asleep c then some ((s.rouse c u).goto t (.at call .unlock)) else none
    | none => if s.asleep c = ∅ then some (s.goto t (.at call .unlock)) else none
  | .unlock => some ({ s with mutex := none }.goto t .idle)

def step (kind : Kind) (s : State τ α) (t : τ) : Action τ α → Option (State τ α)
  | .call c =>
    match s.pc t with
    | .idle => some (s.goto t (.at c .lock))
    | .at _ _ => none
  | .run notified =>
    match s.pc t with
    | .idle => none
    | .at call stage => run kind s t notified call stage
  | .wake =>
    match s.pc t with
    | .at call .wait => do
      let c ← call.waits kind
      if t ∈ s.asleep c then some (s.rouse c t) else none
    | _ => none

def new : State τ α where
  queue := []
  mutex := none
  asleep _ := ∅
  pc _ := .idle
  puts := []
  takes := []

def queues (kind : Kind) : Transition (State τ α) (τ × Action τ α) where
  init s := s = new
  step s i s' := step kind s i.1 i.2 = some s'

end LearningCode.SyncQueue
