import LearningCode.TryCatch.Model

/-!
# Structured exceptions

What the macros are for: a machine that knows the constructs. A raise looks for the
innermost `Try` whose body is being run, wherever it was called from; a handler and
a `Finally` are no longer part of that body.
-/

namespace LearningCode.TryCatch.Structured

inductive Frame
  | run (s : Stmt)
  /-- The body of this `Try` is being run. -/
  | body (catches : Catches) (fin : Option Stmt)
  /-- A handler is being run. -/
  | handler (fin : Option Stmt)
  /-- What is left behind `Finally`: an exception nothing caught. -/
  | final (pending : Option (Exc × Site))

structure State where
  control : List Frame
  output : List Output

def find (e : Exc) : Catches → Option Stmt
  | .nil => none
  | .cons e' h rest => if e = e' then some h else find e rest

def innermost : List Frame → Option (Catches × Option Stmt × List Frame)
  | [] => none
  | .body catches fin :: k => some (catches, fin, k)
  | .run _ :: k => innermost k
  | .handler _ :: k => innermost k
  | .final _ :: k => innermost k

/-- `Finally`, if there is one, and what is to be raised behind it. -/
def finish (fin : Option Stmt) (pending : Option (Exc × Site)) (k : List Frame) : List Frame :=
  match fin with
  | none => .final pending :: k
  | some f => .run f :: .final pending :: k

def raise (s : State) (e : Exc) (site : Site) (cause : Option String) : State :=
  match innermost s.control with
  | none => { s with output := s.output ++ [.print e cause site] }
  | some (catches, fin, k) =>
    match find e catches with
    | some h => { s with control := .run h :: .handler fin :: k }
    | none => { s with control := finish fin (some (e, site)) k }

def step (p : Fn → Stmt) (s : State) : Option State :=
  match s.control with
  | [] => none
  | .run .skip :: k => some { s with control := k }
  | .run (.act n) :: k => some { s with control := k, output := s.output ++ [.act n] }
  | .run (.call f) :: k => some { s with control := .run (p f) :: k }
  | .run (.seq a b) :: k => some { s with control := .run a :: .run b :: k }
  | .run (.throw e site cause) :: k => some (raise { s with control := k } e site cause)
  | .run (.tryEnd body catches) :: k =>
    some { s with control := .run body :: .body catches none :: k }
  | .run (.tryFinally body catches fin) :: k =>
    some { s with control := .run body :: .body catches (some fin) :: k }
  | .body _ fin :: k => some { s with control := finish fin none k }
  | .handler fin :: k => some { s with control := finish fin none k }
  | .final none :: k => some { s with control := k }
  | .final (some (e, site)) :: k => some (raise { s with control := k } e site none)

/-- The active ones, innermost first, each as the number of `Try` statements around it. -/
def nesting : List Frame → Nat
  | [] => 0
  | .run _ :: k => nesting k
  | .body _ _ :: k => nesting k + 1
  | .handler _ :: k => nesting k + 1
  | .final _ :: k => nesting k + 1

def active : List Frame → List Nat
  | [] => []
  | .run _ :: k => active k
  | .body _ _ :: k => nesting k :: active k
  | .handler _ :: k => active k
  | .final _ :: k => active k

end LearningCode.TryCatch.Structured
