import Mathlib.Logic.Function.Basic
import Mathlib.Data.BitVec

/-!
# The multi-level time wheel

`timewheel.c`: 256 near lists, four levels of 64 lists each, a 32-bit clock.
A list is the addresses reached from its head through `next`; the fields of a
node live in the store, since `del_timer` writes them through a pointer the
caller kept. Callbacks do not touch the wheel here: running one is an event.
-/

namespace LearningCode.TimeWheel

abbrev TIME_NEAR_SHIFT : Nat := 8
abbrev TIME_NEAR : Nat := 1 <<< TIME_NEAR_SHIFT
abbrev TIME_LEVEL_SHIFT : Nat := 6
abbrev TIME_LEVEL : Nat := 1 <<< TIME_LEVEL_SHIFT
abbrev TIME_NEAR_MASK : BitVec 32 := BitVec.ofNat 32 (TIME_NEAR - 1)
abbrev TIME_LEVEL_MASK : BitVec 32 := BitVec.ofNat 32 (TIME_LEVEL - 1)

abbrev Addr := Nat
abbrev Handler := Nat

/-- `struct timer_node` without `next`, which the lists stand for. -/
structure TimerNode where
  expire : BitVec 32
  callback : Handler
  cancel : BitVec 8
  id : BitVec 32
  deriving DecidableEq, Repr

structure Event where
  node : Addr
  callback : Handler
  time : BitVec 32
  deriving DecidableEq, Repr

structure Timer where
  near : Nat → List Addr
  t : Nat → Nat → List Addr
  time : BitVec 32
  node : Addr → TimerNode
  /-- The next address `malloc` hands out. -/
  fresh : Addr
  log : List Event

/-- `link_clear`: what was on the list, and the list it leaves. -/
def linkClear (list : List Addr) : List Addr × List Addr := (list, [])

def link (list : List Addr) (node : Addr) : List Addr := list ++ [node]

def linkNear (T : Timer) (idx : Nat) (node : Addr) : Timer :=
  { T with near := Function.update T.near idx (link (T.near idx) node) }

def linkLevel (T : Timer) (level idx : Nat) (node : Addr) : Timer :=
  { T with
    t := Function.update T.t level (Function.update (T.t level) idx (link (T.t level idx) node)) }

def addNode (T : Timer) (node : Addr) : Timer :=
  let time := (T.node node).expire
  let currentTime := T.time
  let msec := time - currentTime
  if msec < BitVec.ofNat 32 TIME_NEAR then
    linkNear T (time &&& TIME_NEAR_MASK).toNat node
  else if msec < BitVec.ofNat 32 (1 <<< (TIME_NEAR_SHIFT + TIME_LEVEL_SHIFT)) then
    linkLevel T 0 ((time >>> TIME_NEAR_SHIFT) &&& TIME_LEVEL_MASK).toNat node
  else if msec < BitVec.ofNat 32 (1 <<< (TIME_NEAR_SHIFT + 2 * TIME_LEVEL_SHIFT)) then
    linkLevel T 1 ((time >>> (TIME_NEAR_SHIFT + TIME_LEVEL_SHIFT)) &&& TIME_LEVEL_MASK).toNat node
  else if msec < BitVec.ofNat 32 (1 <<< (TIME_NEAR_SHIFT + 3 * TIME_LEVEL_SHIFT)) then
    linkLevel T 2
      ((time >>> (TIME_NEAR_SHIFT + 2 * TIME_LEVEL_SHIFT)) &&& TIME_LEVEL_MASK).toNat node
  else
    linkLevel T 3
      ((time >>> (TIME_NEAR_SHIFT + 3 * TIME_LEVEL_SHIFT)) &&& TIME_LEVEL_MASK).toNat node

/-- `temp->callback(temp)` for a callback that leaves the wheel alone. -/
def runCallback (T : Timer) (node : Addr) : Timer :=
  { T with log := T.log ++ [⟨node, (T.node node).callback, T.time⟩] }

/-- `malloc` returns a node whose `cancel` is 0; the code sets the other
fields. The second component is the returned pointer, `none` for `NULL`. -/
def addTimer (T : Timer) (time : BitVec 32) (func : Handler) (threadid : BitVec 32) :
    Timer × Option Addr :=
  let node := T.fresh
  let T := { T with
    fresh := T.fresh + 1
    node := Function.update T.node node ⟨time + T.time, func, 0, threadid⟩ }
  if time.toInt ≤ 0 then
    (runCallback T node, none)
  else
    (addNode T node, some node)

def moveList (T : Timer) (level idx : Nat) : Timer :=
  let cleared := linkClear (T.t level idx)
  let T := { T with
    t := Function.update T.t level (Function.update (T.t level) idx cleared.2) }
  cleared.1.foldl addNode T

/-- The `while` of `timer_shift`. `ct` is not 0, so some level answers
`break` before `levels` runs out. -/
def timerShiftLoop (T : Timer) (ct time mask : BitVec 32) (i : Nat) : (levels : Nat) → Timer
  | 0 => T
  | levels + 1 =>
    if ct &&& (mask - 1) = 0 then
      let idx := (time &&& TIME_LEVEL_MASK).toNat
      if idx ≠ 0 then
        moveList T i idx
      else
        timerShiftLoop T ct (time >>> TIME_LEVEL_SHIFT) (mask <<< TIME_LEVEL_SHIFT) (i + 1) levels
    else T

def timerShift (T : Timer) : Timer :=
  let ct := T.time + 1
  let T := { T with time := ct }
  if ct = 0 then
    moveList T 3 0
  else
    timerShiftLoop T ct (ct >>> TIME_NEAR_SHIFT) (BitVec.ofNat 32 TIME_NEAR) 0 4

/-- Runs the callback of every node that is not cancelled; `free` takes the
node away, and no list holds it any more. -/
def dispatchList (T : Timer) : List Addr → Timer
  | [] => T
  | temp :: current =>
    dispatchList (if (T.node temp).cancel = 0#8 then runCallback T temp else T) current

theorem dispatchList_near (T : Timer) (current : List Addr) :
    (dispatchList T current).near = T.near := by
  induction current generalizing T with
  | nil => rfl
  | cons temp current ih =>
    rw [dispatchList, ih]
    split <;> rfl

/-- The `while` of `timer_execute`. The lists are untouched while callbacks
run, so the one just cleared is empty at the next test. -/
def timerExecuteLoop (T : Timer) (idx : Nat) : Timer :=
  if T.near idx = [] then T
  else
    let cleared := linkClear (T.near idx)
    timerExecuteLoop
      (dispatchList { T with near := Function.update T.near idx cleared.2 } cleared.1) idx
termination_by (T.near idx).length
decreasing_by
  rename_i hne
  simpa [dispatchList_near, linkClear, List.length_pos_iff] using hne

def timerExecute (T : Timer) : Timer :=
  timerExecuteLoop T (T.time &&& TIME_NEAR_MASK).toNat

def timerUpdate (T : Timer) : Timer :=
  timerExecute (timerShift (timerExecute T))

def delTimer (T : Timer) (node : Addr) : Timer :=
  { T with node := Function.update T.node node { T.node node with cancel := 1 } }

/-- `timer_create_timer`, with the clock it starts at left open. -/
def timerCreateTimer (time : BitVec 32) : Timer where
  near := fun _ => []
  t := fun _ _ => []
  time := time
  node := fun _ => ⟨0, 0, 0, 0⟩
  fresh := 0
  log := []

inductive Op
  | addTimer (time : BitVec 32) (func : Handler) (threadid : BitVec 32)
  | timerUpdate
  | delTimer (node : Addr)
  deriving DecidableEq, Repr

def step (T : Timer) : Op → Timer
  | .addTimer time func threadid => (addTimer T time func threadid).1
  | .timerUpdate => timerUpdate T
  | .delTimer node => delTimer T node

def run (T : Timer) (ops : List Op) : Timer := ops.foldl step T

end LearningCode.TimeWheel
