import LearningCode.Lib.Transition
import LearningCode.TimeWheel.Placement

/-!
# The nodes of the time wheel in memory

`timewheel.c` once more, down to the `next` fields and the tail pointers, which
the lists of the other model stand for, and with callbacks that add timers. A
state is a point of the code between two of its calls of `link_clear`,
`add_node`, a callback and `free`; `Control` says where. `malloc` finds a node
with any contents and never fails, an access to memory that is not allocated
has no result.
-/

namespace LearningCode.TimeWheel.Nodes

/-- A `timer_node_t *`: the head of a list, or what `malloc` returned. -/
inductive Ptr
  | head (list : Slot)
  | node (a : Addr)
  deriving DecidableEq, Repr

structure Cell extends TimerNode where
  next : Option Ptr
  deriving DecidableEq, Repr

inductive Entry
  | linked (node : Ptr)
  | dispatched (node : Ptr)
  | cleared (node : Ptr)
  deriving DecidableEq, Repr

structure Wheel where
  heap : Ptr → Option Cell
  /-- Outside the two arrays of lists there is none. -/
  tail : Slot → Option Ptr
  time : BitVec 32
  log : List Entry

def Valid : Slot → Prop
  | .near idx => idx < TIME_NEAR
  | .level level idx => level < 4 ∧ idx < TIME_LEVEL

instance : DecidablePred Valid
  | .near idx => inferInstanceAs (Decidable (idx < TIME_NEAR))
  | .level level idx => inferInstanceAs (Decidable (level < 4 ∧ idx < TIME_LEVEL))

def slots : List Slot :=
  (List.range TIME_NEAR).map .near ++
    (List.range 4).flatMap fun i => (List.range TIME_LEVEL).map (.level i)

def Wheel.next (w : Wheel) (p : Ptr) : Option (Option Ptr) := (w.heap p).map Cell.next

def Wheel.write (w : Wheel) (p : Ptr) (cell : Option Cell) : Wheel :=
  { w with heap := Function.update w.heap p cell }

def Wheel.setNext (w : Wheel) (p : Ptr) (next : Option Ptr) : Option Wheel :=
  (w.heap p).map fun cell => w.write p (some { cell with next := next })

def Wheel.setTail (w : Wheel) (list : Slot) (p : Ptr) : Wheel :=
  { w with tail := Function.update w.tail list (some p) }

def linkClear (w : Wheel) (list : Slot) : Option (Wheel × Option Ptr) := do
  let ret ← w.next (.head list)
  let w ← w.setNext (.head list) none
  some (w.setTail list (.head list), ret)

def link (w : Wheel) (list : Slot) (node : Ptr) : Option Wheel := do
  let tail ← w.tail list
  let w ← w.setNext tail (some node)
  (w.setTail list node).setNext node none

def addNode (w : Wheel) (node : Ptr) : Option Wheel := do
  let time := (← w.heap node).expire
  let currentTime := w.time
  let msec := time - currentTime
  if msec < BitVec.ofNat 32 TIME_NEAR then
    link w (.near (time &&& TIME_NEAR_MASK).toNat) node
  else if msec < BitVec.ofNat 32 (1 <<< (TIME_NEAR_SHIFT + TIME_LEVEL_SHIFT)) then
    link w (.level 0 ((time >>> TIME_NEAR_SHIFT) &&& TIME_LEVEL_MASK).toNat) node
  else if msec < BitVec.ofNat 32 (1 <<< (TIME_NEAR_SHIFT + 2 * TIME_LEVEL_SHIFT)) then
    link w (.level 1
      ((time >>> (TIME_NEAR_SHIFT + TIME_LEVEL_SHIFT)) &&& TIME_LEVEL_MASK).toNat) node
  else if msec < BitVec.ofNat 32 (1 <<< (TIME_NEAR_SHIFT + 3 * TIME_LEVEL_SHIFT)) then
    link w (.level 2
      ((time >>> (TIME_NEAR_SHIFT + 2 * TIME_LEVEL_SHIFT)) &&& TIME_LEVEL_MASK).toNat) node
  else
    link w (.level 3
      ((time >>> (TIME_NEAR_SHIFT + 3 * TIME_LEVEL_SHIFT)) &&& TIME_LEVEL_MASK).toNat) node

/-- A head is part of the wheel and cannot be freed alone. -/
def free (w : Wheel) : Ptr → Option Wheel
  | .head _ => none
  | .node a => (w.heap (.node a)).map fun _ => w.write (.node a) none

def Wheel.record (w : Wheel) (entry : Entry) : Wheel := { w with log := entry :: w.log }

/-- The node `add_timer` fills in; `malloc` found `cell` there. -/
def allocate (w : Wheel) (time : BitVec 32) (func : Handler) (threadid : BitVec 32) (node : Addr)
    (cell : Cell) : Wheel :=
  w.write (.node node)
    (some { cell with expire := time + w.time, callback := func, id := threadid })

/-- The `while` of `timer_shift`, as the call of `move_list` it makes. -/
def timerShiftLoop (ct time mask : BitVec 32) (i : Nat) : (levels : Nat) → Option (Option Slot)
  | 0 => none
  | levels + 1 =>
    if ct &&& (mask - 1) = 0 then
      let idx := (time &&& TIME_LEVEL_MASK).toNat
      if idx ≠ 0 then some (some (.level i idx))
      else timerShiftLoop ct (time >>> TIME_LEVEL_SHIFT) (mask <<< TIME_LEVEL_SHIFT) (i + 1) levels
    else some none

def moved (ct : BitVec 32) : Option (Option Slot) :=
  if ct = 0 then some (some (.level 3 0))
  else timerShiftLoop ct (ct >>> TIME_NEAR_SHIFT) (BitVec.ofNat 32 TIME_NEAR) 0 4

/-- What of `timer_shift` comes before the loop of `move_list`. -/
def timerShift (w : Wheel) : Option (Wheel × Option Ptr) := do
  let ct := w.time + 1
  let w := { w with time := ct }
  match ← moved ct with
  | some list => linkClear w list
  | none => some (w, none)

def delTimer (w : Wheel) (node : Addr) : Wheel :=
  match w.heap (.node node) with
  | some cell => w.write (.node node) (some { cell with cancel := 1 })
  | none => w

def freeNodes (w : Wheel) : (turns : Nat) → (current : Option Ptr) → Option Wheel
  | _, none => some w
  | 0, some _ => none
  | turns + 1, some temp => do
    let current ← w.next temp
    let w ← free w temp
    freeNodes (w.record (.cleared temp)) turns current

def clearTimer (turns : Nat) (w : Wheel) : List Slot → Option Wheel
  | [] => some w
  | list :: rest => do
    let w ← freeNodes w turns (← w.next (.head list))
    let (w, _) ← linkClear w list
    clearTimer turns w rest

def timerCreateTimer : Wheel where
  heap
    | .head list => if Valid list then some ⟨⟨0, 0, 0, 0⟩, none⟩ else none
    | .node _ => none
  tail list := if Valid list then some (.head list) else none
  time := 0
  log := []

inductive Control
  /-- No call is under way. -/
  | idle
  /-- `add_timer` runs a callback itself, and holds the lock meanwhile. -/
  | direct (node : Ptr)
  /-- The test of the `while` of `timer_execute`; `shift` when `timer_shift` is next. -/
  | execute (shift : Bool) (idx : Nat)
  /-- The body of `dispatch_list`, the lock dropped. -/
  | dispatch (shift : Bool) (idx : Nat) (temp : Ptr)
  | callback (shift : Bool) (idx : Nat) (temp : Ptr) (current : Option Ptr)
  /-- The test of the `while` of `move_list`. -/
  | move (current : Option Ptr)
  deriving DecidableEq, Repr

/-- The nodes of a chain that was cut off its list and is still to be gone through. -/
def Control.current : Control → Option Ptr
  | .dispatch _ _ temp => some temp
  | .callback _ _ _ current => current
  | .move current => current
  | _ => none

structure State where
  wheel : Wheel
  control : Control

inductive Op
  | addTimer (time : BitVec 32) (func : Handler) (threadid : BitVec 32) (node : Addr) (cell : Cell)
  | timerUpdate
  | delTimer (node : Addr)
  | clearTimer
  /-- What runs comes to its next point. -/
  | advance

def timerExecute (w : Wheel) (shift : Bool) : State :=
  ⟨w, .execute shift (w.time &&& TIME_NEAR_MASK).toNat⟩

def dispatchList (w : Wheel) (shift : Bool) (idx : Nat) : (current : Option Ptr) → State
  | some temp => ⟨w, .dispatch shift idx temp⟩
  | none => ⟨w, .execute shift idx⟩

def advance (w : Wheel) : Control → Option State
  | .idle => none
  | .direct node => do some ⟨← free w node, .idle⟩
  | .execute shift idx => do
    match ← w.next (.head (.near idx)) with
    | some _ =>
      let (w, current) ← linkClear w (.near idx)
      some (dispatchList w shift idx current)
    | none =>
      if shift then
        let (w, current) ← timerShift w
        some ⟨w, .move current⟩
      else some ⟨w, .idle⟩
  | .dispatch shift idx temp => do
    let cell ← w.heap temp
    let w := w.record (.dispatched temp)
    if cell.cancel = 0 then some ⟨w, .callback shift idx temp cell.next⟩
    else some (dispatchList (← free w temp) shift idx cell.next)
  | .callback shift idx temp current => do
    some (dispatchList (← free w temp) shift idx current)
  | .move none => some (timerExecute w false)
  | .move (some current) => do
    let temp ← w.next current
    some ⟨← addNode w current, .move temp⟩

def addTimer (st : State) (time : BitVec 32) (func : Handler) (threadid : BitVec 32) (node : Addr)
    (cell : Cell) : Option State :=
  let w := allocate st.wheel time func threadid node cell
  if time.toInt ≤ 0 then some ⟨w, .direct (.node node)⟩
  else (addNode w (.node node)).map fun w => ⟨w.record (.linked (.node node)), st.control⟩

/-- `turns` bounds the loops of `clear_timer`. -/
def call (turns : Nat) (st : State) : Op → Option State
  | .addTimer time func threadid node cell => addTimer st time func threadid node cell
  | .timerUpdate => some (timerExecute st.wheel true)
  | .delTimer node => some { st with wheel := delTimer st.wheel node }
  | .clearTimer => (clearTimer turns st.wheel slots).map fun w => { st with wheel := w }
  | .advance => advance st.wheel st.control

/-- The lock and the callbacks decide who is next. While a callback of
`dispatch_list` runs, timers with a positive delay may be added. -/
def Legal (st : State) : Op → Prop
  | .addTimer time _ _ node _ => st.wheel.heap (.node node) = none ∧
      (st.control = .idle ∨
        (∃ shift idx temp current, st.control = .callback shift idx temp current) ∧ 0 < time.toInt)
  | .timerUpdate | .clearTimer => st.control = .idle
  | .delTimer _ => True
  | .advance => st.control ≠ .idle

def runs : Transition State Op where
  init st := st = ⟨timerCreateTimer, .idle⟩
  step st op st' := Legal st op ∧ ∃ turns, call turns st op = some st'

end LearningCode.TimeWheel.Nodes
