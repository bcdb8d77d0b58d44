import LearningCode.Lib.Threads

/-!
# The thread pool in C++

`ZeroThreadpool.cpp` and the two `exec` of its header, one step for each section
under `_mutex` and each access to `_atomic` or to a task outside it. A thread
that waits on `_condition` may wake at any time, so notifying it is no step.
-/

namespace LearningCode.ZeroThreadpool

/-- `TaskFunc`, numbered in the order of `exec`; the function is left out. -/
structure TaskFunc where
  id : Nat
  expireTime : Int
  deriving DecidableEq

structure Pool where
  tasks : List TaskFunc
  atomic : Int
  bTerminate : Bool
  /-- How often `exec` put a task into the queue. -/
  execs : Nat
  /-- The tasks whose `exec` has returned. -/
  returned : List Nat
  /-- The tasks that ran to the end, and those dropped as expired. -/
  ran : List Nat
  dropped : List Nat
  deriving DecidableEq

inductive Pc
  /-- In `run`, at the head of the loop. -/
  | loop
  | get
  | waitTask
  | got (task : TaskFunc)
  | running (task : TaskFunc)
  | ran
  | notify
  | exited
  /-- A thread outside the pool, and its calls; `before` is what had been
  returned when `waitForAllDone` was called. -/
  | client
  | exec (expireTime : Int)
  | pushed (id : Nat)
  | waitForAllDone (millsecond : Int) (before : List Nat)
  | waitEmpty (millsecond : Int) (before : List Nat)
  | done (result : Bool) (before : List Nat)
  deriving DecidableEq

inductive Action
  | exec (timeoutMs now : Int)
  | waitForAllDone (millsecond : Int)
  /-- With the clock, and whether a wait with a limit is over. -/
  | run (now : Int) (timeout : Bool)
  deriving DecidableEq

/-- `get`, up to a wait or to its return. -/
def get (s : Pool) : Pool × Pc :=
  match s.tasks, s.bTerminate with
  | _, true => (s, .loop)
  | [], false => (s, .waitTask)
  | task :: tasks, false => ({ s with tasks := tasks }, .got task)

def Pool.finish (s : Pool) (now : Int) (task : TaskFunc) : Pool :=
  if task.expireTime ≠ 0 ∧ task.expireTime < now then { s with dropped := task.id :: s.dropped }
  else { s with ran := task.id :: s.ran }

def run (s : Pool) (now : Int) (timeout : Bool) : Pc → Option (Pool × Pc)
  | .loop => some (s, if s.bTerminate then .exited else .get)
  | .get => some (get s)
  | .waitTask => some (get s)
  | .got task => some ({ s with atomic := s.atomic + 1 }, .running task)
  | .running task => some (s.finish now task, .ran)
  | .ran => some ({ s with atomic := s.atomic - 1 }, .notify)
  | .notify => some (s, .loop)
  | .exec expireTime =>
    some ({ s with tasks := s.tasks ++ [⟨s.execs, expireTime⟩], execs := s.execs + 1 },
      .pushed s.execs)
  | .pushed id => some ({ s with returned := id :: s.returned }, .client)
  | .waitForAllDone millsecond before =>
    some (s, if s.tasks.isEmpty then .done true before else .waitEmpty millsecond before)
  | .waitEmpty millsecond before =>
    if s.tasks.isEmpty then some (s, .done true before)
    else if timeout ∧ ¬ millsecond < 0 then some (s, .done false before)
    else some (s, .waitEmpty millsecond before)
  | .done _ _ => some (s, .client)
  | .client => none
  | .exited => none

def step (s : Pool) (pc : Pc) : Action → Option (Pool × Pc)
  | .exec timeoutMs now =>
    if pc = .client then some (s, .exec (if timeoutMs = 0 then 0 else now + timeoutMs)) else none
  | .waitForAllDone millsecond =>
    if pc = .client then some (s, .waitForAllDone millsecond s.returned) else none
  | .run now timeout => run s now timeout pc

def pool : Threads.Program Pool Pc Action where
  start s := s = ⟨[], 0, false, 0, [], [], []⟩
  idle pc := pc = .loop ∨ pc = .client
  step s pc action s' pc' := step s pc action = some (s', pc')

def Pc.held : Pc → Option TaskFunc
  | .got task => some task
  | .running task => some task
  | _ => none

def Finished (s : Pool) (id : Nat) : Prop := id ∈ s.ran ∨ id ∈ s.dropped

/-- A call that is about to return true finds no worker `m` with an older task. -/
def Idle (s : Pool) (pc : Pc) (action : Action) (m : Pc) : Prop :=
  ∀ s' before, step s pc action = some (s', .done true before) →
    ∀ task, m.held = some task → task.id ∉ before

end LearningCode.ZeroThreadpool
