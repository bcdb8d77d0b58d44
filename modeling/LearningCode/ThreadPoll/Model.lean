import LearningCode.Lib.Transition
import Mathlib.Logic.Function.Basic

/-!
# The thread pool in C

`threadpoll.c`: what is done under the mutex is one step, and so is a wait on the
condition until the mutex is held again. The memory of a task is the owner's
whenever the pool has not got the task. A pointer to no task that is followed
has no result. `task_func` and `user_data` are for the callback, and left out.
-/

namespace LearningCode.ThreadPoll

abbrev Ptr := Nat

structure Task where
  prev : Option Ptr
  next : Option Ptr
  deriving DecidableEq

abbrev Heap := Ptr → Option Task

def Heap.setPrev (heap : Heap) (p : Ptr) (o : Option Ptr) : Option Heap :=
  (heap p).map fun n => Function.update heap p (some { n with prev := o })

def Heap.setNext (heap : Heap) (p : Ptr) (o : Option Ptr) : Option Heap :=
  (heap p).map fun n => Function.update heap p (some { n with next := o })

def Heap.setPrevIf (heap : Heap) (p o : Option Ptr) : Option Heap :=
  p.elim (some heap) (heap.setPrev · o)

def Heap.setNextIf (heap : Heap) (p o : Option Ptr) : Option Heap :=
  p.elim (some heap) (heap.setNext · o)

def llAdd (heap : Heap) (item : Ptr) (list : Option Ptr) : Option (Heap × Option Ptr) := do
  let heap ← heap.setPrev item none
  let heap ← heap.setNext item list
  let heap ← heap.setPrevIf list (some item)
  some (heap, some item)

def llRemove (heap : Heap) (item : Ptr) (list : Option Ptr) : Option (Heap × Option Ptr) := do
  let n ← heap item
  let heap ← heap.setNextIf n.prev n.next
  let n ← heap item
  let heap ← heap.setPrevIf n.next n.prev
  let n ← heap item
  let list := if list = some item then n.next else list
  let heap ← heap.setNext item none
  let heap ← heap.setPrev item none
  some (heap, list)

/-- What the pool was given, and what `get_task` returned to which worker. -/
inductive Entry (ω : Type)
  | pushed (task : Ptr)
  | returned (worker : ω) (task : Ptr)

structure ThreadPollT (ω : Type) where
  heap : Heap
  /-- The first of the workers. -/
  workers : Option ω
  tasks : Option Ptr
  /-- A field of each worker. -/
  termination : ω → Bool
  /-- Newest first. -/
  log : List (Entry ω)

variable {ω : Type}

def pushTask (T : ThreadPollT ω) (task : Ptr) : Option (ThreadPollT ω) := do
  let (heap, tasks) ← llAdd T.heap task T.tasks
  some { T with heap := heap, tasks := tasks, log := .pushed task :: T.log }

inductive Pc
  /-- About to lock the mutex in `get_task`. -/
  | calling
  /-- In `pthread_cond_wait`. -/
  | waiting
  /-- In the callback of a task. -/
  | running (task : Ptr)
  | exited

/-- `get_task` from one lock of the mutex to the next. -/
def getTask (T : ThreadPollT ω) (worker : ω) : Option (ThreadPollT ω × Pc) :=
  if T.workers.isNone ∧ ¬ T.termination worker then some (T, .waiting)
  else if T.termination worker then some (T, .exited)
  else
    match T.tasks with
    | none => some (T, .calling)
    | some task => do
      let (heap, tasks) ← llRemove T.heap task T.tasks
      some ({ T with heap := heap, tasks := tasks, log := .returned worker task :: T.log },
        .running task)

/-- The pool has the task: it was pushed, and not returned since. -/
def Pending : List (Entry ω) → Ptr → Prop
  | [], _ => False
  | .pushed q :: log, p => q = p ∨ Pending log p
  | .returned _ q :: log, p => q ≠ p ∧ Pending log p

structure State (ω : Type) where
  pool : ThreadPollT ω
  pc : ω → Pc

inductive Label (ω : Type)
  /-- Any thread, a callback too, pushes a task. -/
  | push (task : Ptr)
  /-- The owner of a task allocates, writes or frees it. -/
  | own (task : Ptr) (cell : Option Task)
  /-- `thread_poll_create` adds a worker. -/
  | create (worker : ω)
  /-- `thread_destroy` sets the flag of a worker. -/
  | destroy (worker : ω)
  | getTask (worker : ω)
  /-- The callback returns. -/
  | finish (worker : ω)

variable [DecidableEq ω]

/-- A task is pushed, or touched otherwise, only while the pool has not got it. -/
inductive Step : State ω → Label ω → State ω → Prop
  | push {st T task} : ¬ Pending st.pool.log task → pushTask st.pool task = some T →
      Step st (.push task) { st with pool := T }
  | own {st : State ω} {task cell} : ¬ Pending st.pool.log task →
      Step st (.own task cell)
        { st with pool := { st.pool with heap := Function.update st.pool.heap task cell } }
  | create {st : State ω} {w} :
      Step st (.create w) { st with pool := { st.pool with workers := some w } }
  | destroy {st : State ω} {w} :
      Step st (.destroy w)
        { st with
          pool := { st.pool with termination := Function.update st.pool.termination w true } }
  | getTask {st T w k} : st.pc w = .calling ∨ st.pc w = .waiting → getTask st.pool w = some (T, k) →
      Step st (.getTask w) ⟨T, Function.update st.pc w k⟩
  | finish {st w task} : st.pc w = .running task →
      Step st (.finish w) { st with pc := Function.update st.pc w .calling }

/-- `memset` to zero, and no worker has been started. -/
def threadPoll (ω : Type) [DecidableEq ω] : Transition (State ω) (Label ω) where
  init st := st.pool.workers = none ∧ st.pool.tasks = none ∧ st.pool.log = [] ∧
    (∀ w, st.pool.termination w = false) ∧ ∀ w, st.pc w = .calling
  step := Step

end LearningCode.ThreadPoll
