import LearningCode.Lib.Chain
import LearningCode.SimpleQueue.Model

/-!
# What the threads of the linked queue know

The nodes are in line, in the free list, or held by one thread. A name, node
and version, comes into line once, so a compare-and-swap that finds an old
`head` finds the node still in front; a name that has left the free list does
not come back, because its node has moved on to another version.
-/

namespace LearningCode.SimpleQueue

open Links Threads

/-- What the proof keeps beside the memory. -/
structure Ghost (α : Type) where
  /-- The names that have left the line. -/
  past : List Idx
  /-- The names from `head` to `tail`. -/
  line : List Idx
  free : List Idx
  version : Nat → Nat
  /-- The items that a thread owns or owned, in the order of the line. -/
  taken : List (Item α)

variable {α : Type} {g g' : Ghost α} {s s' : Queue α} {pc k m : Pc α} {a b h i : Idx}
  {x : Item α} {n : Nat} {o : Option Idx}

def unread (s : Queue α) (line : List Idx) : List Idx := if s.consumed then line.tail else line

structure Shared (g : Ghost α) (s : Queue α) : Prop where
  head : g.line.head? = some s.head
  tail : g.line.getLast? = some s.tail
  names : (g.past ++ g.line).Nodup
  nodes : ((g.line ++ g.free).map Idx.node).Nodup
  queued : Queued Idx.node s.next g.line
  stacked : Stacked Idx.node s.next g.free
  top : s.freeListHead = g.free.head?
  allocated : ∀ a ∈ g.past ++ g.line ++ g.free, a.node < s.nextNodeIdx
  aged : ∀ a ∈ g.past, a.version ≤ g.version a.node
  current : ∀ a ∈ g.line ++ g.free, a.version = g.version a.node
  blank : ∀ n, s.nextNodeIdx ≤ n → g.version n = 0
  items : ∃ waiting, s.enqueued = g.taken ++ waiting ∧
    (unread s g.line).map (fun a => s.item a.node) = waiting.map some
  kept : ∀ n x, s.item n = some x → x.call < s.calls
  unique : ∀ n n' x, s.item n = some x → s.item n' = some x → n = n'
  distinct : s.enqueued.Nodup
  counted : ∀ x ∈ s.enqueued, x.call < s.calls
  once : s.returned.Nodup
  returned : ∀ r ∈ s.returned, ∃ x ∈ g.taken, r = some x

-- ---------------------------------------------------------------------------
-- What a control state is about
-- ---------------------------------------------------------------------------

@[simp] def Pc.pending : Pc α → Option (Item α)
  | .tryGetLoad item => some item
  | .tryGetNext item _ => some item
  | .tryGetCas item _ _ => some item
  | .newNodeAddress item => some item
  | .clearNext item _ => some item
  | .construct item _ => some item
  | .loadTail item _ => some item
  | .casTail item _ _ => some item
  | _ => none

@[simp] def Pc.unborn : Pc α → Option (Item α)
  | .tryGetLoad item => some item
  | .tryGetNext item _ => some item
  | .tryGetCas item _ _ => some item
  | .newNodeAddress item => some item
  | .clearNext item _ => some item
  | .construct item _ => some item
  | _ => none

@[simp] def Pc.popping : Pc α → Option Idx
  | .tryGetNext _ head => some head
  | .tryGetCas _ head _ => some head
  | _ => none

@[simp] def Pc.popped : Pc α → Option (Idx × Option Idx)
  | .tryGetCas _ head next => some (head, next)
  | _ => none

@[simp] def Pc.made : Pc α → Option Idx
  | .clearNext _ idx => some idx
  | .construct _ idx => some idx
  | .loadTail _ idx => some idx
  | .casTail _ idx _ => some idx
  | _ => none

@[simp] def Pc.cleared : Pc α → Option Idx
  | .construct _ idx => some idx
  | .loadTail _ idx => some idx
  | .casTail _ idx _ => some idx
  | _ => none

@[simp] def Pc.filled : Pc α → Option (Idx × Item α)
  | .loadTail item idx => some (idx, item)
  | .casTail item idx _ => some (idx, item)
  | _ => none

@[simp] def Pc.linking : Pc α → Option (Idx × Idx)
  | .storeNext tail idx => some (tail, idx)
  | _ => none

@[simp] def Pc.seen : Pc α → Option Idx
  | .loadNext head _ => some head
  | .consume head => some head
  | .moveHead head _ _ => some head
  | _ => none

@[simp] def Pc.removing : Pc α → Option (Idx × Idx)
  | .moveHead head _ next => some (head, next)
  | _ => none

@[simp] def Pc.removed : Pc α → Option Idx
  | .moveRemoved head => some head
  | .loadFree idx _ => some idx
  | .storeFree idx _ _ => some idx
  | .casFree idx _ _ => some idx
  | _ => none

@[simp] def Pc.pushing : Pc α → Option (Idx × Option Idx)
  | .casFree idx _ head => some (idx, head)
  | _ => none

attribute [simp] Pc.moving

def Pc.held (pc : Pc α) : Option Idx := pc.made.or pc.removed

def Loose (g : Ghost α) (s : Queue α) (n : Nat) : Prop :=
  n < s.nextNodeIdx ∧ ∀ a ∈ g.line ++ g.free, a.node ≠ n

structure Here (g : Ghost α) (s : Queue α) (pc : Pc α) : Prop where
  pending : ∀ x, pc.pending = some x → x.call < s.calls ∧ x ∉ s.enqueued
  unborn : ∀ x, pc.unborn = some x → ∀ n, s.item n ≠ some x
  popping : ∀ a, pc.popping = some a → a.node < s.nextNodeIdx ∧
    (a ∈ g.free ∨ a.version < g.version a.node)
  popped : ∀ a o, pc.popped = some (a, o) → a ∈ g.free → s.next a.node = o
  held : ∀ a, pc.held = some a → Loose g s a.node ∧ a.version = g.version a.node
  made : ∀ a, pc.made = some a → a ∉ g.past
  cleared : ∀ a, pc.cleared = some a → s.next a.node = none
  filled : ∀ a x, pc.filled = some (a, x) → s.item a.node = some x
  linking : ∀ a b, pc.linking = some (a, b) →
    s.next a.node = none ∧ ∃ l l', g.line = l ++ a :: b :: l'
  seen : ∀ a, pc.seen = some a → a ∈ g.past ∨ a = s.head
  removing : ∀ a b, pc.removing = some (a, b) → a = s.head → s.next a.node = some b
  moving : ∀ a, pc.moving = some a → a.node < s.nextNodeIdx ∧
    ∃ x ∈ g.taken, s.item a.node = some x ∧ some x ∉ s.returned
  pushing : ∀ a o, pc.pushing = some (a, o) → s.next a.node = o

structure Apart (k m : Pc α) : Prop where
  pending : ∀ x, k.pending = some x → m.pending ≠ some x
  held : ∀ a b, k.held = some a → m.held = some b → a.node ≠ b.node
  linking : ∀ a b c d, k.linking = some (a, b) → m.linking = some (c, d) → a ≠ c
  moving : ∀ a b, k.moving = some a → m.moving = some b → a.node ≠ b.node
  made_moving : ∀ a b, k.made = some a → m.moving = some b → a.node ≠ b.node
  moving_made : ∀ a b, k.moving = some a → m.made = some b → a.node ≠ b.node

theorem Apart.symm (h : Apart k m) : Apart m k :=
  ⟨fun x hm hk => h.pending x hk hm, fun a b ha hb => (h.held b a hb ha).symm,
    fun a b c d ha hc => (h.linking c d a b hc ha).symm,
    fun a b ha hb => (h.moving b a hb ha).symm,
    fun a b ha hb => (h.moving_made b a hb ha).symm,
    fun a b ha hb => (h.made_moving b a hb ha).symm⟩

def outline (α : Type) : Outline (Queue α) (Pc α) (Ghost α) where
  shared := Shared
  here := Here
  apart := Apart

end LearningCode.SimpleQueue
