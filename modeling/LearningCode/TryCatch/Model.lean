import Mathlib.Data.Option.Basic

/-!
# The exception macros

`Try`, `Catch`, `Finally` and `EndTry` of `try-catch.c`, expanded, and the code around them.
A block of the expansion has an `Exception_flag` and a `frame` of its own; their address
is how many there are below, so it is used again. `setjmp` saves what is left to run and
how many blocks there are. `frame.message` is left out, as nothing reads it.
-/

namespace LearningCode.TryCatch

abbrev Exc := Nat

abbrev Fn := Nat

structure Site where
  func : String
  file : String
  line : Int
  deriving DecidableEq

inductive Flag
  | ExceptionEntered
  | ExceptionThrown
  | ExceptionHandled
  | ExceptionFinalized
  deriving DecidableEq

/-- What the macros expand to, in the innermost block around it. -/
inductive Cmd
  | skip
  /-- Any other statement, which ends. -/
  | act (n : Nat)
  | call (f : Fn)
  | seq (a b : Cmd)
  /-- `ntyExceptionThrow(&(e), ...)`; the cause is what `vsnprintf` makes of it. -/
  | throw (e : Exc) (site : Site) (cause : Option String)
  /-- `ReThrow` -/
  | rethrow
  /-- `do { volatile int Exception_flag; ntyExceptionFrame frame; ... } while (0)` -/
  | block (c : Cmd)
  /-- `frame` becomes the top of the stack. -/
  | push
  /-- `Exception_flag = setjmp(frame.env)` -/
  | setjmp
  /-- `ntyExceptionPopStack` -/
  | pop
  /-- `Exception_flag = f` -/
  | setFlag (f : Flag)
  /-- `if (Exception_flag == f)` -/
  | ifFlag (f : Flag) (a b : Cmd)
  /-- `if (frame.exception == &(e))` -/
  | ifException (e : Exc) (a b : Cmd)

open TryCatch.Flag Cmd

-- ---------------------------------------------------------------------------
-- The macros
-- ---------------------------------------------------------------------------

mutual

inductive Stmt
  | skip
  | act (n : Nat)
  | call (f : Fn)
  | seq (a b : Stmt)
  | throw (e : Exc) (site : Site) (cause : Option String)
  /-- `Try body Catch(e1) h1 ... EndTry` -/
  | tryEnd (body : Stmt) (catches : Catches)
  /-- `Try body Catch(e1) h1 ... Finally fin EndTry` -/
  | tryFinally (body : Stmt) (catches : Catches) (fin : Stmt)

inductive Catches
  | nil
  | cons (e : Exc) (h : Stmt) (rest : Catches)

end

/-- `Catch`, `Finally` and `EndTry` begin with this. -/
def popIfEntered : Cmd := ifFlag ExceptionEntered pop skip

/-- The last line of `EndTry`. -/
def rethrowIfThrown : Cmd := ifFlag ExceptionThrown rethrow skip

/-- From the `}` of the last block before `Finally`, or `EndTry`, on. -/
def afterCatches : Option Cmd → Cmd
  | none => rethrowIfThrown
  | some fin =>
    seq (seq (ifFlag ExceptionEntered (setFlag ExceptionFinalized) skip) (seq fin popIfEntered))
      rethrowIfThrown

/-- From where `setjmp` returns on. -/
def dispatch (body catches : Cmd) (fin : Option Cmd) : Cmd :=
  seq (ifFlag ExceptionEntered (seq body popIfEntered) catches) (afterCatches fin)

def tryBlock (body catches : Cmd) (fin : Option Cmd) : Cmd :=
  block (seq push (seq setjmp (dispatch body catches fin)))

mutual

def expand : Stmt → Cmd
  | .skip => skip
  | .act n => act n
  | .call f => call f
  | .seq a b => seq (expand a) (expand b)
  | .throw e site cause => .throw e site cause
  | .tryEnd body catches => tryBlock (expand body) (expandCatches catches) none
  | .tryFinally body catches fin =>
    tryBlock (expand body) (expandCatches catches) (some (expand fin))

def expandCatches : Catches → Cmd
  | .nil => skip
  | .cons e h rest =>
    ifException e (seq (setFlag ExceptionHandled) (seq (expand h) popIfEntered)) (expandCatches rest)

end

-- ---------------------------------------------------------------------------
-- The machine
-- ---------------------------------------------------------------------------

/-- What is left to run; a function that is called is at its front. -/
inductive Item
  | run (c : Cmd)
  /-- The end of a block. -/
  | endBlock

structure JmpBuf where
  control : List Item
  depth : Nat

/-- The variables of a block, each `none` until it is written. -/
structure Scope where
  flag : Option Flag
  exception : Option (Exc × Site)
  next : Option (Option Nat)
  env : Option JmpBuf

inductive Output
  | act (n : Nat)
  | print (e : Exc) (cause : Option String) (site : Site)
  deriving DecidableEq

structure State where
  control : List Item
  /-- The innermost first. -/
  scopes : List Scope
  /-- `ExceptionStack`, of this thread. -/
  exceptionStack : Option Nat
  output : List Output

def scopeAt : List Scope → Nat → Option Scope
  | [], _ => none
  | scope :: below, a => if a = below.length then some scope else scopeAt below a

def chain (scopes : List Scope) : (fuel : Nat) → Option Nat → List Nat
  | 0, _ => []
  | _ + 1, none => []
  | fuel + 1, some a => a :: chain scopes fuel (((scopeAt scopes a).bind Scope.next).getD none)

/-- `ExceptionStack` as a list; it has no more frames than there are blocks. -/
def State.stack (s : State) : List Nat := chain s.scopes (s.scopes.length + 1) s.exceptionStack

def setScope (scope : Scope) : List Scope → Nat → List Scope
  | [], _ => []
  | old :: below, a => if a = below.length then scope :: below else old :: setScope scope below a

/-- `longjmp(env, ExceptionThrown)`, and the assignment `setjmp` returns to. -/
def longjmp (s : State) (env : JmpBuf) : Option State :=
  if s.scopes.length < env.depth then none
  else
    match s.scopes.drop (s.scopes.length - env.depth) with
    | [] => none
    | scope :: below =>
      some { s with
        control := env.control, scopes := { scope with flag := some ExceptionThrown } :: below }

def ntyExceptionThrow (s : State) (e : Exc) (site : Site) (cause : Option String) : Option State :=
  match s.exceptionStack with
  | some a => do
    let frame ← scopeAt s.scopes a
    let next ← frame.next
    let env ← frame.env
    longjmp { s with
      scopes := setScope { frame with exception := some (e, site) } s.scopes a,
      exceptionStack := next } env
  | none => some { s with output := s.output ++ [.print e cause site] }

/-- One command, where `s.control` is what is behind it. -/
def exec (p : Fn → Cmd) (c : Cmd) (s : State) : Option State :=
  match c, s.scopes with
  | skip, _ => some s
  | act n, _ => some { s with output := s.output ++ [.act n] }
  | call f, _ => some { s with control := .run (p f) :: s.control }
  | seq a b, _ => some { s with control := .run a :: .run b :: s.control }
  | .throw e site cause, _ => ntyExceptionThrow s e site cause
  | rethrow, scope :: _ => do
    let (e, site) ← scope.exception
    ntyExceptionThrow s e site none
  | block c, scopes =>
    some { s with
      control := .run c :: .endBlock :: s.control, scopes := ⟨none, none, none, none⟩ :: scopes }
  | push, scope :: below =>
    some { s with
      scopes := { scope with next := some s.exceptionStack } :: below,
      exceptionStack := some below.length }
  | setjmp, scope :: below =>
    some { s with
      scopes := { scope with
        env := some ⟨s.control, below.length + 1⟩, flag := some ExceptionEntered } :: below }
  | pop, scopes => do
    let a ← s.exceptionStack
    let frame ← scopeAt scopes a
    let next ← frame.next
    some { s with exceptionStack := next }
  | setFlag f, scope :: below => some { s with scopes := { scope with flag := some f } :: below }
  | ifFlag f a b, scope :: _ => do
    let flag ← scope.flag
    some { s with control := .run (if flag = f then a else b) :: s.control }
  | ifException e a b, scope :: _ => do
    let (e', _) ← scope.exception
    some { s with control := .run (if e' = e then a else b) :: s.control }
  | _, [] => none

def step (p : Fn → Cmd) (s : State) : Option State :=
  match s.control with
  | [] => none
  | .run c :: control => exec p c { s with control := control }
  | .endBlock :: control =>
    match s.scopes with
    | [] => none
    | _ :: below => some { s with control := control, scopes := below }

end LearningCode.TryCatch
