import LearningCode.Deadlock.Model
import LearningCode.Lib.Blocks
import LearningCode.Lib.Transition
import LearningCode.Lib.Walks

/-!
# The cycle check

`DFS`, `search_for_cycle` and `check_dead_lock`, with the arrays they write to. Every
index is checked, also where `print_deadlock` reads the threads on `path`. The depth
of the recursion is limited by `fuel`.
-/

namespace LearningCode.Deadlock

open Blocks (write)

/-- The fields of `task_graph` that the check uses. -/
structure Scan where
  path : List Int
  visited : List Int
  k : Nat
  deadlock : Int

structure Scan.Sized (s : Scan) : Prop where
  path : s.path.length = maxSlots + 1
  visited : s.visited.length = maxSlots

def printDeadlock (tg : TaskGraph) (s : Scan) : Option (List Thread) :=
  (List.range s.k).mapM fun i => do
    let idx ← s.path[i]?
    let ver ← if idx < 0 then none else tg.vertexList[idx.toNat]?
    some ver.pair.thId

def dfs (tg : TaskGraph) : (fuel : Nat) → (idx : Option Nat) → Scan → Option Scan
  | 0, _, _ => none
  | fuel + 1, idx, s => do
    let idx ← idx
    let ver ← tg.vertexList[idx]?
    let seen ← s.visited[idx]?
    if seen = 1 then
      let path ← write s.path s.k idx
      let s := { s with path := path, k := s.k + 1 }
      let _ ← printDeadlock tg s
      some { s with deadlock := 1 }
    else
      let visited ← write s.visited idx 1
      let path ← write s.path s.k idx
      ver.next.foldlM
        (fun s pair => (dfs tg fuel (searchVertex tg pair) s).map fun s => { s with k := s.k - 1 })
        { s with visited := visited, path := path, k := s.k + 1 }

def clearVisited (idx : Nat) : (n i : Nat) → List Int → Option (List Int)
  | 0, _, visited => some visited
  | n + 1, i, visited =>
    if i = idx then clearVisited idx n (i + 1) visited
    else do
      let visited ← write visited i 0
      clearVisited idx n (i + 1) visited

def clearPath : (n i : Nat) → List Int → Option (List Int)
  | 0, _, path => some path
  | n + 1, i, path => do
    let path ← write path i (-1)
    clearPath n (i + 1) path

def searchForCycle (tg : TaskGraph) (fuel idx : Nat) (s : Scan) : Option Scan := do
  let ver ← tg.vertexList[idx]?
  let visited ← write s.visited idx 1
  let path ← write s.path 0 idx
  ver.next.foldlM
    (fun s pair => do
      let visited ← clearVisited idx tg.vertexList.length 0 s.visited
      let path ← clearPath maxSlots 1 s.path
      dfs tg fuel (searchVertex tg pair) { s with visited := visited, path := path, k := 1 })
    { s with visited := visited, path := path, k := 1 }

/-- The loop of `check_dead_lock` with `n` turns to go. -/
def checkFrom (tg : TaskGraph) (fuel : Nat) : (n i : Nat) → Scan → Option Scan
  | 0, _, s => some s
  | n + 1, i, s =>
    if s.deadlock = 1 then some s
    else do
      let s ← searchForCycle tg fuel i s
      checkFrom tg fuel n (i + 1) s

def checkDeadLock (tg : TaskGraph) (fuel : Nat) (s : Scan) : Option Scan :=
  checkFrom tg fuel tg.vertexList.length 0 { s with deadlock := 0 }

-- ---------------------------------------------------------------------------
-- graphs
-- ---------------------------------------------------------------------------

inductive Edit
  | addVertex (pair : Pair)
  | addEdge (u v : Pair)

/-- The graphs that calls of `add_vertex` and `add_edge` build, with at most `MAX` vertices. -/
def building : Transition TaskGraph Edit where
  init tg := tg.vertexList = []
  step tg edit tg' :=
    match edit with
    | .addVertex pair => addVertex tg pair = some tg'
    | .addEdge u v => addEdge tg u v = some tg'

def successors (tg : TaskGraph) (i : Nat) : List Nat :=
  (tg.vertexList[i]?.elim [] (·.next)).filterMap (searchVertex tg)

def Linked (tg : TaskGraph) : Prop :=
  ∀ ver ∈ tg.vertexList, ∀ p ∈ ver.next, (searchVertex tg p).isSome

/-- Below some edge two different walks end at the same vertex. -/
def RejoinsBelowEdge (tg : TaskGraph) : Prop :=
  ∃ i, ∃ j ∈ successors tg i, Walks.Rejoins (successors tg) j

end LearningCode.Deadlock
