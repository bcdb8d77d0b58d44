import Mathlib.Logic.Function.Basic

/-!
# The deadlock detection component

`deadlock_success.c`: the lock table, the wait-for graph and the three hooks,
and the system of threads that call them. An access outside `vertex_list` or
`lock_list` has no result.
-/

namespace LearningCode.Deadlock

abbrev maxSlots : Nat := 100

abbrev Thread := Nat

abbrev Mutex := Nat

inductive PairType
  | process
  | resource
  deriving DecidableEq, Repr

structure Pair where
  thId : Nat
  type : PairType
  lockId : Nat
  degress : Int
  deriving DecidableEq, Repr

/-- A slot of `vertex_list` with the list that hangs off it. -/
structure Vertex where
  pair : Pair
  next : List Pair
  deriving DecidableEq, Repr

/-- The slots in use: `vertex_num` and `lock_num` are the lengths. -/
structure TaskGraph where
  vertexList : List Vertex
  lockList : List Pair
  deriving DecidableEq, Repr

def zeroedPair : Pair where
  thId := 0
  type := .process
  lockId := 0
  degress := 0

def zeroed : TaskGraph := ⟨[], []⟩

def searchVertex (tg : TaskGraph) (pair : Pair) : Option Nat :=
  tg.vertexList.findIdx? fun v => v.pair.type = pair.type && v.pair.thId = pair.thId

def addVertex (tg : TaskGraph) (pair : Pair) : Option TaskGraph :=
  if searchVertex tg pair = none then
    if tg.vertexList.length < maxSlots then
      some { tg with vertexList := tg.vertexList ++ [⟨pair, []⟩] }
    else none
  else some tg

def addEdge (tg : TaskGraph) (u v : Pair) : Option TaskGraph := do
  let tg ← addVertex tg u
  let tg ← addVertex tg v
  let i ← searchVertex tg u
  some { tg with vertexList := tg.vertexList.modify i fun x => { x with next := x.next ++ [v] } }

/-- The walk starts at the vertex of `u` itself. -/
def verifyEdge (tg : TaskGraph) (u v : Pair) : Bool :=
  if tg.vertexList.length = 0 then false
  else match searchVertex tg u with
    | none => false
    | some i => (tg.vertexList[i]?).any fun x => (x.pair :: x.next).any (·.thId = v.thId)

def removeEdge (tg : TaskGraph) (u v : Pair) : TaskGraph :=
  match searchVertex tg u, searchVertex tg v with
  | some i, some _ =>
    { tg with vertexList := tg.vertexList.modify i fun x =>
        { x with next := x.next.eraseP (·.thId = v.thId) } }
  | _, _ => tg

def searchLock (tg : TaskGraph) (lock : Nat) : Option Nat :=
  tg.lockList.findIdx? fun p => p.lockId = lock

def searchEmptyLock (tg : TaskGraph) (_lock : Nat) : Nat :=
  (tg.lockList.findIdx? fun p => p.lockId = 0).getD tg.lockList.length

/-- The local pairs `u` and `v` of the hooks, which set these two fields only. -/
def process (threadId : Nat) : Pair := { zeroedPair with thId := threadId }

def lockBefore (tg : TaskGraph) (threadId lock : Nat) : Option TaskGraph :=
  match searchLock tg lock with
  | none => some tg
  | some idx => do
    let u := process threadId
    let tg ← addVertex tg u
    let e ← tg.lockList[idx]?
    let v := process e.thId
    let tg := { tg with
      lockList := tg.lockList.modify idx fun p => { p with degress := p.degress + 1 } }
    let tg ← addVertex tg v
    if verifyEdge tg u v then some tg else addEdge tg u v

def lockAfter (tg : TaskGraph) (threadId lock : Nat) : Option TaskGraph :=
  match searchLock tg lock with
  | none =>
    let idx := searchEmptyLock tg lock
    if maxSlots ≤ idx then none
    else if idx < tg.lockList.length then
      some { tg with
        lockList := tg.lockList.modify idx fun p => { p with thId := threadId, lockId := lock } }
    else
      some { tg with
        lockList := tg.lockList ++ [{ zeroedPair with thId := threadId, lockId := lock }] }
  | some idx => do
    let u := process threadId
    let e ← tg.lockList[idx]?
    let v := process e.thId
    let tg := { tg with
      lockList := tg.lockList.modify idx fun p => { p with degress := p.degress - 1 } }
    let tg := if verifyEdge tg u v then removeEdge tg u v else tg
    some { tg with lockList := tg.lockList.modify idx fun p => { p with thId := threadId } }

/-- A lock that is not there is looked up at index -1, outside `lock_list`. -/
def unlockAfter (tg : TaskGraph) (_threadId lock : Nat) : Option TaskGraph := do
  let idx ← searchLock tg lock
  let e ← tg.lockList[idx]?
  if e.degress = 0 then
    some { tg with lockList := tg.lockList.modify idx fun p => { p with thId := 0, lockId := 0 } }
  else some tg

-- ---------------------------------------------------------------------------
-- The threads
-- ---------------------------------------------------------------------------

/-- Where a thread is: outside both calls, between `lock_before` and the real
lock, between that and `lock_after`, between the real unlock and `unlock_after`. -/
inductive Pc
  | idle
  | waiting (m : Mutex)
  | acquired (m : Mutex)
  | released (m : Mutex)
  deriving DecidableEq

structure State where
  tg : TaskGraph
  holder : Mutex → Option Thread
  pc : Thread → Pc

inductive Label
  | lockBefore (u : Thread) (m : Mutex)
  | acquire (u : Thread) (m : Mutex)
  | lockAfter (u : Thread) (m : Mutex)
  | release (u : Thread) (m : Mutex)
  | unlockAfter (u : Thread) (m : Mutex)
  deriving DecidableEq

def State.at (s : State) (tg : TaskGraph) (u : Thread) (pc : Pc) : State :=
  { s with tg := tg, pc := Function.update s.pc u pc }

/-- The hooks run under `tg->mutex`, each in one step. -/
def step (s : State) : Label → Option State
  | .lockBefore u m =>
    if s.pc u = .idle ∧ m ≠ 0 then (lockBefore s.tg u m).map (s.at · u (.waiting m)) else none
  | .acquire u m =>
    if s.pc u = .waiting m ∧ s.holder m = none then
      some { s.at s.tg u (.acquired m) with holder := Function.update s.holder m (some u) }
    else none
  | .lockAfter u m =>
    if s.pc u = .acquired m then (lockAfter s.tg u m).map (s.at · u .idle) else none
  | .release u m =>
    if s.pc u = .idle ∧ s.holder m = some u then
      some { s.at s.tg u (.released m) with holder := Function.update s.holder m none }
    else none
  | .unlockAfter u m =>
    if s.pc u = .released m then (unlockAfter s.tg u m).map (s.at · u .idle) else none

def initial : State where
  tg := zeroed
  holder := fun _ => none
  pc := fun _ => .idle

end LearningCode.Deadlock
