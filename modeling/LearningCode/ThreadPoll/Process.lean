import LearningCode.ThreadPoll.Tasks

/-!
# The threads of the pool, one access at a time

`threadpoll.c` again, with `thread_poll_create` and `thread_destroy`, which take
no mutex. Each read of `workers`, `termination` or `tasks` is a step, as is each
access of `thread_destroy` to a worker; so is what is done under the mutex by a
thread that pushes. A wait may return whenever the mutex is free, so signals
leave nothing behind.
-/

namespace LearningCode.ThreadPoll

open Transition

inductive WorkerPc
  /-- Not created. -/
  | none
  /-- In `get_task`: locks the mutex. -/
  | lock
  /-- `while (workers == NULL)` -/
  | loop
  /-- `if (termination) break;` -/
  | leave
  /-- In `pthread_cond_wait`. -/
  | waiting
  /-- `if (termination)` after the loop. -/
  | check
  | take
  | running (task : Ptr)
  /-- `get_task` returned NULL: frees the worker. -/
  | free
  | exited
  deriving DecidableEq

inductive MainPc
  /-- Before any `thread_destroy`. -/
  | create
  /-- `LL_ADD` of a worker whose thread is started. -/
  | add (worker : Ptr)
  /-- `worker != NULL`, and `worker->termination = 1`. -/
  | visit (worker : Option Ptr)
  /-- `worker = worker->next` -/
  | next (worker : Ptr)
  | broadcast
  /-- `thread_destroy` has returned. -/
  | destroyed
  /-- A worker was accessed that is not allocated. -/
  | fault
  deriving DecidableEq

structure Process where
  pool : ThreadPollT Ptr
  /-- The links of the workers, none where there is no `worker_t`. -/
  nodes : Heap
  /-- The worker that holds the mutex. -/
  mutex : Option Ptr
  pc : Ptr → WorkerPc
  main : MainPc
  /-- The workers whose link this call of `thread_destroy` has read. -/
  passed : List Ptr
  /-- The workers that found no task while their flag was 0, newest first. -/
  idle : List Ptr

def Process.goto (P : Process) (w : Ptr) (k : WorkerPc) : Process :=
  { P with pc := Function.update P.pc w k }

/-- `LL_REMOVE` of the first task, or back to the mutex. -/
def take (P : Process) (w : Ptr) : Option Process :=
  match P.pool.tasks with
  | none =>
    let idle := if P.pool.termination w then P.idle else w :: P.idle
    some ({ P with mutex := none, idle := idle }.goto w .lock)
  | some task => do
    let (heap, tasks) ← llRemove P.pool.heap task P.pool.tasks
    let pool := { P.pool with heap := heap, tasks := tasks, log := .returned w task :: P.pool.log }
    some ({ P with mutex := none, pool := pool }.goto w (.running task))

/-- With `get_task`. -/
def threadCallback (P : Process) (w : Ptr) : Option Process :=
  match P.pc w with
  | .none => none
  | .lock => if P.mutex = none then some ({ P with mutex := some w }.goto w .loop) else none
  | .loop => some (P.goto w (if P.pool.workers = none then .leave else .check))
  | .leave =>
    if P.pool.termination w then some (P.goto w .check)
    else some ({ P with mutex := none }.goto w .waiting)
  | .waiting => if P.mutex = none then some ({ P with mutex := some w }.goto w .loop) else none
  | .check =>
    if P.pool.termination w then some ({ P with mutex := none }.goto w .free)
    else some (P.goto w .take)
  | .take => take P w
  | .running _ => some (P.goto w .lock)
  | .free => some ({ P with nodes := Function.update P.nodes w none }.goto w .exited)
  | .exited => none

def mainThread (P : Process) : Option Process :=
  match P.main with
  | .create => none
  | .add w => do
    let (nodes, workers) ← llAdd P.nodes w P.pool.workers
    some { P with nodes := nodes, pool := { P.pool with workers := workers }, main := .create }
  | .visit none => some { P with main := .broadcast }
  | .visit (some w) =>
    match P.nodes w with
    | none => some { P with main := .fault }
    | some _ =>
      let termination := Function.update P.pool.termination w true
      some { P with pool := { P.pool with termination := termination }, main := .next w }
  | .next w =>
    match P.nodes w with
    | none => some { P with main := .fault }
    | some n => some { P with passed := w :: P.passed, main := .visit n.next }
  | .broadcast => if P.mutex = none then some { P with main := .destroyed } else none
  | .destroyed => none
  | .fault => none

inductive Action
  /-- `malloc`, `memset` and `pthread_create`; where they fail there is no worker. -/
  | create (worker : Ptr)
  | main
  /-- `thread_destroy` is called, perhaps not for the first time. -/
  | destroy
  | push (task : Ptr)
  | own (task : Ptr) (cell : Option Task)
  | worker (worker : Ptr)

inductive Process.Step : Process → Action → Process → Prop
  | create {P : Process} {w} : P.main = .create → P.nodes w = none →
      Step P (.create w)
        ({ P with
          nodes := Function.update P.nodes w (some ⟨none, none⟩)
          pool := { P.pool with termination := Function.update P.pool.termination w false }
          main := .add w }.goto w .lock)
  | main {P P' : Process} : mainThread P = some P' → Step P .main P'
  | destroy {P : Process} : P.main = .create ∨ P.main = .destroyed →
      Step P .destroy { P with main := .visit P.pool.workers, passed := [] }
  | push {P : Process} {T task} : P.mutex = none → ¬ Pending P.pool.log task →
      pushTask P.pool task = some T → Step P (.push task) { P with pool := T }
  | own {P : Process} {task cell} : ¬ Pending P.pool.log task →
      Step P (.own task cell)
        { P with pool := { P.pool with heap := Function.update P.pool.heap task cell } }
  | worker {P P' : Process} {w} : threadCallback P w = some P' → Step P (.worker w) P'

def process : Transition Process Action where
  init P := P.pool.workers = none ∧ P.pool.tasks = none ∧ P.pool.log = [] ∧
    (∀ w, P.pool.termination w = false) ∧ (∀ w, P.nodes w = none) ∧ P.mutex = none ∧
    (∀ w, P.pc w = .none) ∧ P.main = .create ∧ P.passed = [] ∧ P.idle = []
  step := Process.Step

def blank : Process :=
  ⟨⟨fun _ => none, none, none, fun _ => false, []⟩, fun _ => none, none, fun _ => .none, .create, [], []⟩

theorem process_blank : process.init blank :=
  ⟨rfl, rfl, rfl, fun _ => rfl, fun _ => rfl, rfl, fun _ => rfl, rfl, rfl, rfl⟩

-- ---------------------------------------------------------------------------
-- The tasks
-- ---------------------------------------------------------------------------

variable {P P' : Process} {w : Ptr} {l : List Ptr}

theorem OnList.takeStep (h : OnList P.pool l) : ∃ P', ThreadPoll.take P w = some P' ∧
    ∃ l, OnList P'.pool l := by
  unfold ThreadPoll.take
  cases l with
  | nil =>
    rw [h.first]
    exact ⟨_, rfl, [], h⟩
  | cons p l =>
    obtain ⟨heap, hremove, h'⟩ := h.take w
    rw [show P.pool.tasks = some p from h.first] at hremove ⊢
    simp only [hremove, Option.bind_eq_bind, Option.bind_some]
    exact ⟨_, rfl, l, h'⟩

theorem threadCallback_pool (h : threadCallback P w = some P') :
    P.pc w = .take ∧ take P w = some P' ∨ P'.pool = P.pool := by
  unfold threadCallback at h
  split at h
  case h_7 hpc => exact .inl ⟨hpc, h⟩
  case h_1 => cases h
  case h_10 => cases h
  case h_2 =>
    obtain ⟨-, h⟩ := Option.ite_none_right_eq_some.mp h
    cases h
    exact .inr rfl
  case h_5 =>
    obtain ⟨-, h⟩ := Option.ite_none_right_eq_some.mp h
    cases h
    exact .inr rfl
  case h_4 => split at h <;> cases h <;> exact .inr rfl
  case h_6 => split at h <;> cases h <;> exact .inr rfl
  all_goals
    cases h
    exact .inr rfl

theorem mainThread_pool (h : mainThread P = some P') : ∃ workers termination,
    P'.pool = { P.pool with workers := workers, termination := termination } := by
  unfold mainThread at h
  split at h
  case h_2 =>
    obtain ⟨⟨nodes, workers⟩, -, h⟩ := Option.bind_eq_some_iff.mp h
    cases h
    exact ⟨_, _, rfl⟩
  case h_6 =>
    obtain ⟨-, h⟩ := Option.ite_none_right_eq_some.mp h
    cases h
    exact ⟨_, _, rfl⟩
  case h_4 => split at h <;> cases h <;> exact ⟨_, _, rfl⟩
  case h_5 => split at h <;> cases h <;> exact ⟨_, _, rfl⟩
  all_goals
    cases h
    try exact ⟨_, _, rfl⟩

/-- As in the coarser model, the tasks stay linked both ways. -/
theorem Process.exists_onList (h : Reach process free P) : ∃ l, OnList P.pool l := by
  refine h.invariant (P := fun P => ∃ l, OnList P.pool l) ?_ ?_
  · rintro P ⟨-, hfirst, hlog, -⟩
    exact ⟨[], .nil hfirst hlog⟩
  · rintro P i P' ⟨l, h⟩ - hstep
    cases hstep with
    | create => exact ⟨l, h.linked, h.first, h.nodup, h.pending, h.balance⟩
    | main hstep =>
      obtain ⟨workers, termination, hpool⟩ := mainThread_pool hstep
      rw [hpool]
      exact ⟨l, h.linked, h.first, h.nodup, h.pending, h.balance⟩
    | destroy => exact ⟨l, h⟩
    | push _ hnew hpush => exact h.pushed hnew hpush
    | own hout => exact ⟨l, h.own hout _⟩
    | @worker P' w hstep =>
      rcases threadCallback_pool hstep with ⟨-, htake⟩ | hpool
      · obtain ⟨P'', htake', h'⟩ := h.takeStep (w := w)
        cases htake.symm.trans htake'
        exact h'
      · exact ⟨l, hpool ▸ h⟩

theorem Process.take_returns (h : Reach process free P) (w : Ptr) : (take P w).isSome := by
  obtain ⟨l, h⟩ := Process.exists_onList h
  obtain ⟨P', htake, -⟩ := h.takeStep (w := w)
  simp [htake]

end LearningCode.ThreadPoll
