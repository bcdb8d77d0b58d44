import LearningCode.Lib.Fuel
import LearningCode.Lib.Transition
import Mathlib.Logic.Function.Basic

/-!
# The table of the reactor

`ntyreactor_init`, `ntyreactor_alloc` and `ntyreactor_find_event_idx` of
`C1000Kserver.c`. The addresses that `malloc` returns are given, in the order of the
calls, and none of them is NULL. The fields of an event are not looked at here, and
`blkcnt` stays below 2 ^ 22 for any `int` that is a descriptor.
-/

namespace LearningCode.C1000K

open Transition

abbrev Ptr := Nat

def MAX_EPOLL_EVENTS : Nat := 1024

structure Eventblock where
  next : Option Ptr
  events : Ptr

/-- A slot: the array it is in, and its index there. -/
structure Slot where
  events : Ptr
  idx : Nat
  deriving DecidableEq

/-- The reactor, with the memory it points to. -/
structure Ntyreactor (ν : Type) where
  blkcnt : Nat
  evblk : Option Ptr
  blocks : Ptr → Option Eventblock
  events : Ptr → Option (Nat → ν)
  /-- How often `malloc` has been called. -/
  mallocs : Nat

variable {ν : Type} (malloc : Nat → Ptr) (zero : ν)

def newBlock (R : Ntyreactor ν) : Ntyreactor ν × Ptr :=
  let evs := malloc R.mallocs
  let block := malloc (R.mallocs + 1)
  ({ R with
    events := Function.update R.events evs (some fun _ => zero)
    blocks := Function.update R.blocks block (some ⟨none, evs⟩)
    mallocs := R.mallocs + 2 }, block)

/-- `while (blk->next != NULL) blk = blk->next;` -/
def last (blocks : Ptr → Option Eventblock) : (turns : Nat) → (blk : Ptr) → Option Ptr
  | 0, _ => none
  | turns + 1, blk => do
    match (← blocks blk).next with
    | none => some blk
    | some next => last blocks turns next

def ntyreactorAlloc (turns : Nat) (R : Ntyreactor ν) : Option (Ntyreactor ν) := do
  match R.evblk with
  | none => some R
  | some evblk =>
    let blk ← last R.blocks turns evblk
    let (R, block) := newBlock malloc zero R
    let b ← R.blocks blk
    some { R with
      blocks := Function.update R.blocks blk (some { b with next := some block })
      blkcnt := R.blkcnt + 1 }

/-- `while (blkidx >= reactor->blkcnt) ntyreactor_alloc(reactor);` -/
def grow (blkidx : Nat) : (turns : Nat) → Ntyreactor ν → Option (Ntyreactor ν)
  | 0, _ => none
  | turns + 1, R =>
    if blkidx ≥ R.blkcnt then do grow blkidx turns (← ntyreactorAlloc malloc zero turns R)
    else some R

/-- `while (i++ < blkidx && blk != NULL) blk = blk->next;` with `n` for `blkidx - i`. -/
def walk (blocks : Ptr → Option Eventblock) : (n : Nat) → (blk : Option Ptr) → Option (Option Ptr)
  | 0, blk => some blk
  | _ + 1, none => some none
  | n + 1, some blk => do walk blocks n (← blocks blk).next

/-- The slot is none where the block is NULL. -/
def findEventIdx (turns : Nat) (R : Ntyreactor ν) (sockfd : Nat) : Option (Ntyreactor ν × Slot) := do
  let blkidx := sockfd / MAX_EPOLL_EVENTS
  let R ← grow malloc zero blkidx turns R
  let blk ← walk R.blocks blkidx R.evblk
  let b ← R.blocks (← blk)
  some (R, ⟨b.events, sockfd % MAX_EPOLL_EVENTS⟩)

/-- `memset`, and then a block unless `epoll_create` fails; with what it returned. -/
def ntyreactorInit (epfd : Int) : Ntyreactor ν × Int :=
  let R : Ntyreactor ν := ⟨0, none, fun _ => none, fun _ => none, 0⟩
  if epfd ≤ 0 then (R, -2)
  else
    let (R, block) := newBlock malloc zero R
    ({ R with evblk := some block, blkcnt := 1 }, 0)

inductive Action (ν : Type)
  /-- A call, and the slot it returned. -/
  | find (sockfd : Nat) (slot : Slot)
  /-- An event is written, by whoever has its slot. -/
  | write (slot : Slot) (ev : ν)

inductive Step : Ntyreactor ν → Action ν → Ntyreactor ν → Prop
  | find {R R' : Ntyreactor ν} {sockfd slot} :
      Returns (fun turns => findEventIdx malloc zero turns R sockfd) (R', slot) →
      Step R (.find sockfd slot) R'
  | write {R : Ntyreactor ν} {slot ev evs} : R.events slot.events = some evs →
      slot.idx < MAX_EPOLL_EVENTS →
      Step R (.write slot ev)
        { R with
          events := Function.update R.events slot.events (some (Function.update evs slot.idx ev)) }

def table : Transition (Ntyreactor ν) (Action ν) where
  init R := ∃ epfd, ntyreactorInit malloc zero epfd = (R, 0)
  step := Step malloc zero

end LearningCode.C1000K
