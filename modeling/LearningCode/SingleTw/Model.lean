import LearningCode.Lib.Transition
import Mathlib.Algebra.BigOperators.Group.Finset.Basic
import Mathlib.Data.UInt

/-!
# The single-level wheel of heartbeats

`single_tw.c`. A list of the wheel is the nodes reached from its head through
`next`. `get_timer_node` is not modelled: the node it returns is an argument,
and a legal call gets one that no list holds, which is all `idx` is for.
-/

namespace LearningCode.SingleTw

abbrev twSize : Nat := 16
abbrev expire : UInt32 := 10
abbrev twMask : UInt32 := 15

abbrev TimerPtr := Nat
abbrev ConnPtr := Nat

structure ConnNode where
  used : UInt8
  id : Int
deriving DecidableEq, Repr

structure Wheel where
  tw : Nat → List TimerPtr
  tick : UInt32
  /-- The field `node` of a timer node. -/
  node : TimerPtr → ConnPtr
  conn : ConnPtr → ConnNode

inductive Line where
  | killDown (cn : ConnPtr) (id : Int)
  | used (cn : ConnPtr) (id : Int) (used : UInt8)
deriving DecidableEq, Repr

def slot (tick : UInt32) : Nat := (tick &&& twMask).toNat

def setUsed (W : Wheel) (c : ConnPtr) (used : UInt8) : Wheel :=
  { W with conn := Function.update W.conn c { W.conn c with used } }

def addConn (W : Wheel) (tnode : TimerPtr) (cnode : ConnPtr) (delay : Int32) : Wheel :=
  let list := slot (W.tick + expire + delay.toUInt32)
  let W := setUsed W cnode ((W.conn cnode).used + 1)
  { W with
    node := Function.update W.node tnode cnode
    tw := Function.update W.tw list (W.tw list ++ [tnode]) }

/-- The `while` of `check_conn`, over the nodes of the list. -/
def checkLoop (W : Wheel) : List TimerPtr → Wheel × List Line
  | [] => (W, [])
  | temp :: current =>
    let cn := W.node temp
    let W := setUsed W cn ((W.conn cn).used - 1)
    let line :=
      if (W.conn cn).used = 0 then .killDown cn (W.conn cn).id
      else .used cn (W.conn cn).id (W.conn cn).used
    let (W, lines) := checkLoop W current
    (W, line :: lines)

def checkConn (W : Wheel) : Wheel × List Line :=
  let itick := W.tick
  let W := { W with tick := W.tick + 1 }
  let (W, lines) := checkLoop W (W.tw (slot itick))
  ({ W with tw := Function.update W.tw (slot itick) [] }, lines)

def Line.killed : Line → Option ConnPtr
  | .killDown cn _ => some cn
  | .used .. => none

def Reported (W : Wheel) (c : ConnPtr) : Prop := c ∈ (checkConn W).2.filterMap Line.killed

instance (W : Wheel) (c : ConnPtr) : Decidable (Reported W c) :=
  inferInstanceAs (Decidable (c ∈ (checkConn W).2.filterMap Line.killed))

-- --------------------------------------------------------------------------
-- Runs, and what they are to be compared with
-- --------------------------------------------------------------------------

inductive Op where
  | addConn (tnode : TimerPtr) (cnode : ConnPtr) (delay : Int32)
  | checkConn

/-- The calls of `check_conn` made so far, and for each connection the
deadlines of the heartbeats since it was last reported dead. -/
structure History where
  now : Nat
  deadlines : ConnPtr → List Nat

def record (W : Wheel) (H : History) : Op → History
  | .addConn _ cnode delay =>
    { H with
      deadlines := Function.update H.deadlines cnode
        ((H.now + 10 + delay.toNatClampNeg) :: H.deadlines cnode) }
  | .checkConn =>
    { now := H.now + 1
      deadlines := fun c => if Reported W c then [] else H.deadlines c }

def perform (W : Wheel) : Op → Wheel
  | .addConn tnode cnode delay => addConn W tnode cnode delay
  | .checkConn => (checkConn W).1

/-- The delays the comment in `main` allows, and a node that is not linked. -/
def Legal (W : Wheel) : Op → Prop
  | .addConn tnode _ delay => (∀ i, tnode ∉ W.tw i) ∧ 0 ≤ delay ∧ delay ≤ 10
  | .checkConn => True

def Initial (W : Wheel) : Prop :=
  (∀ i, W.tw i = []) ∧ W.tick = 0 ∧ ∀ c, (W.conn c).used = 0

def calls : Transition (Wheel × History) Op where
  init s := Initial s.1 ∧ s.2 = ⟨0, fun _ => []⟩
  step s op s' := Legal s.1 op ∧ s' = (perform s.1 op, record s.1 s.2 op)

/-- A call of `check_conn` now reports exactly the connections whose last
deadline is this tick. -/
def Right (s : Wheel × History) : Prop :=
  ∀ c, Reported s.1 c ↔ (s.2.deadlines c).max? = some s.2.now

-- --------------------------------------------------------------------------
-- When it does
-- --------------------------------------------------------------------------

def entries (W : Wheel) (c : ConnPtr) (i : Nat) : Nat := (W.tw i).countP (W.node · = c)

def pending (W : Wheel) (c : ConnPtr) : Nat := ∑ i ∈ Finset.range twSize, entries W c i

/-- No connection with a node left on another list goes through a count of
pending nodes that is 0 in 8 bits. -/
def Counted (W : Wheel) : Prop :=
  ∀ c, entries W c (slot W.tick) ≠ pending W c →
    ∀ j, 1 ≤ j → j ≤ entries W c (slot W.tick) → (pending W c - j) % 256 ≠ 0

/-- The deadline is less than one turn of the wheel away; the counter of no
connection wraps before its last node is reached. -/
def Fits (s : Wheel × History) : Op → Prop
  | .addConn _ _ delay => 10 + delay.toNatClampNeg < twSize
  | .checkConn => Counted s.1

end LearningCode.SingleTw
