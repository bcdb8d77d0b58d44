import Mathlib.Algebra.Ring.Nat
import Mathlib.Logic.Function.Basic

/-!
# The skip list of timers

`skiplist.c` over an explicit heap. Reading or writing a node that is not
allocated, a level a node does not have, or an `update` entry never written has
no result. `malloc` does not fail, and may return the address of a freed node.
`length` is an `int`, and wraps around as the machine's addition does.
-/

namespace LearningCode.SkipList

abbrev Ptr := Nat

abbrev Handler := Nat

def defaultHandler : Handler := 0

abbrev maxLevel : Nat := 32

structure ZskiplistNode where
  score : Nat
  handler : Handler
  /-- The forward pointers. -/
  level : List (Option Ptr)

abbrev Heap := Ptr → Option ZskiplistNode

structure Zskiplist where
  heap : Heap
  header : Ptr
  length : Int32
  level : Nat
  /-- How many nodes there are. The source has no such field: it only bounds the
  turns of a search, as `length` cannot once it has wrapped. -/
  count : Nat

/-- What `malloc` returns: an address, and what the block happens to hold. -/
structure Block where
  ptr : Ptr
  junk : Nat → Option Ptr

def forward (heap : Heap) (x : Ptr) (i : Nat) : Option (Option Ptr) :=
  (heap x).bind fun n => n.level[i]?

def setForward (heap : Heap) (x : Ptr) (i : Nat) (v : Option Ptr) : Option Heap := do
  let n ← heap x
  if i < n.level.length then
    some (Function.update heap x (some { n with level := n.level.set i v }))
  else none

def zslCreateNode (level score : Nat) (func : Handler) (junk : Nat → Option Ptr) : ZskiplistNode where
  score := score
  handler := func
  level := (List.range level).map junk

def zslCreate (heap : Heap) (b : Block) : Zskiplist :=
  let n := zslCreateNode maxLevel 0 defaultHandler b.junk
  { heap := Function.update heap b.ptr (some { n with level := n.level.map fun _ => none })
    header := b.ptr
    length := 0
    level := 1
    count := 0 }

/-- `ups` is the number of draws below `ZSKIPLIST_P` before the first that is not. -/
def zslRandomLevel (ups : Nat) : Nat :=
  let level := 1 + ups
  if level < maxLevel then level else maxLevel

/-- The inner `while` of a search, on level `i`. Running out of `turns` counts
as a fault. -/
def walk (heap : Heap) (score i : Nat) (x : Ptr) : (turns : Nat) → Option Ptr
  | 0 => none
  | turns + 1 => do
    match ← forward heap x i with
    | none => some x
    | some y =>
      let n ← heap y
      if n.score < score then walk heap score i y turns else some x

/-- The `update` array; an entry not yet written is `none`. -/
abbrev Update := Nat → Option Ptr

/-- The outer `for` of a search, over the levels `level - 1` down to 0. A level
has no more nodes than level 0, so `count + 1` turns are enough for each. -/
def search (z : Zskiplist) (score : Nat) : (level : Nat) → Ptr → Update → Option (Ptr × Update)
  | 0, x, update => some (x, update)
  | i + 1, x, update => do
    let x ← walk z.heap score i x (z.count + 1)
    search z score i x (Function.update update i (some x))

def linkLevel (x : Ptr) (update : Update) (heap : Heap) (i : Nat) : Option Heap := do
  let u ← update i
  let f ← forward heap u i
  let heap ← setForward heap x i f
  setForward heap u i (some x)

/-- `if (level > zsl->level)`: the new levels start at the header. -/
def raiseLevel (z : Zskiplist) (update : Update) (level : Nat) : Update × Nat :=
  if z.level < level then
    (fun i => if z.level ≤ i ∧ i < level then some z.header else update i, level)
  else (update, z.level)

def zslInsert (z : Zskiplist) (score : Nat) (func : Handler) (ups : Nat) (b : Block) :
    Option (Zskiplist × Ptr) := do
  let (_, update) ← search z score z.level z.header fun _ => none
  let level := zslRandomLevel ups
  let (update, zlevel) := raiseLevel z update level
  let heap := Function.update z.heap b.ptr (some (zslCreateNode level score func b.junk))
  let heap ← (List.range level).foldlM (linkLevel b.ptr update) heap
  some ({ z with
    heap := heap, level := zlevel, length := z.length + 1, count := z.count + 1 }, b.ptr)

def zslMin (z : Zskiplist) : Option (Option Ptr) := forward z.heap z.header 0

/-- One turn of the unlinking loops: past `x` if it comes next. -/
def unlinkLevel (x : Ptr) (update : Update) (heap : Heap) (i : Nat) : Option Heap := do
  let u ← update i
  let f ← forward heap u i
  if f = some x then do
    let g ← forward heap x i
    setForward heap u i g
  else some heap

/-- `while (level > 1 && header->level[level - 1].forward == NULL) level--`. -/
def lowerLevel (heap : Heap) (header : Ptr) : Nat → Option Nat
  | level + 2 => do
    match ← forward heap header (level + 1) with
    | none => lowerLevel heap header (level + 1)
    | some _ => some (level + 2)
  | level => some level

def zslDeleteHead (z : Zskiplist) : Option Zskiplist := do
  match ← zslMin z with
  | none => some z
  | some x =>
    let heap ← (List.range z.level).reverse.foldlM (unlinkLevel x fun _ => some z.header) z.heap
    let level ← lowerLevel heap z.header z.level
    some { z with heap := heap, level := level, length := z.length - 1, count := z.count - 1 }

def zslDeleteNode (z : Zskiplist) (x : Ptr) (update : Update) : Option Zskiplist := do
  let heap ← (List.range z.level).foldlM (unlinkLevel x update) z.heap
  let level ← lowerLevel heap z.header z.level
  some { z with heap := heap, level := level, length := z.length - 1, count := z.count - 1 }

def zslDelete (z : Zskiplist) (zn : Ptr) : Option Zskiplist := do
  let n ← z.heap zn
  let (x, update) ← search z n.score z.level z.header fun _ => none
  match ← forward z.heap x 0 with
  | none => some z
  | some x =>
    let nx ← z.heap x
    if n.score = nx.score then do
      let z ← zslDeleteNode z x update
      some { z with heap := Function.update z.heap x none }
    else some z

end LearningCode.SkipList
