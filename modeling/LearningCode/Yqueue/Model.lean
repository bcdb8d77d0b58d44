import LearningCode.Lib.Transition
import Mathlib.Logic.Function.Basic

/-!
# The pipe on chunks

`ypipe.hpp` over `yqueue.hpp` and `atomic_ptr.hpp`: one writer and one reader,
one step for each access to what both can reach, which is the chunks, the spare
chunk and `c`. A step has no result where the access is to a chunk that is not
allocated, beyond the `N` values of a chunk, or through NULL; a chunk pointer
loaded from a chunk counts as such an access when it is NULL.
-/

namespace LearningCode.Yqueue

abbrev Ptr := Nat

/-- A `T *` into a chunk: the chunk and the index of the value. -/
abbrev Slot := Ptr × Nat

structure Chunk (α : Type) where
  values : Nat → α
  prev : Option Ptr
  next : Option Ptr

abbrev Heap (α : Type) := Ptr → Option (Chunk α)

/-- Where the writer is; `incomplete` is the argument of the `write` under way. -/
inductive Writer (α : Type)
  | idle
  | store (value : α) (incomplete : Bool)
  | push (incomplete : Bool)
  | takeSpare (incomplete : Bool)
  | linkSpare (incomplete : Bool) (sc : Ptr)
  | backSpare (incomplete : Bool) (sc : Ptr)
  | malloc (incomplete : Bool)
  | backNew (incomplete : Bool)
  | moveEnd (incomplete : Bool)
  | wrote
  | unpushBack
  | unpushEnd
  | freeEnd
  | clearNext
  | load
  | unwrote (value : Option α)
  | casC
  | setC
  | flushed (awake : Bool)
deriving DecidableEq

/-- Where the reader is; `reads` tells `read` from `check_read`. -/
inductive Reader (α : Type)
  | idle
  | casC (reads : Bool)
  | load
  | pop (value : α)
  | moveBegin (value : α)
  | clearPrev (value : α) (o : Ptr)
  | giveSpare (value : α) (o : Ptr)
  | freeSpare (value : α) (cs : Option Ptr)
  | checked (available : Bool)
  | got (value : Option α)
deriving DecidableEq

def Writer.returned {α : Type} : Writer α → Bool
  | .idle => true
  | .wrote => true
  | .unwrote _ => true
  | .flushed _ => true
  | _ => false

def Reader.returned {α : Type} : Reader α → Bool
  | .idle => true
  | .checked _ => true
  | .got _ => true
  | _ => false

def Writer.asks {α : Type} : Writer α → Bool
  | .malloc _ => true
  | _ => false

structure Pipe (α : Type) where
  heap : Heap α
  spareChunk : Option Ptr
  c : Option Slot
  beginChunk : Ptr
  beginPos : Nat
  r : Option Slot
  backChunk : Ptr
  backPos : Nat
  endChunk : Ptr
  endPos : Nat
  w : Slot
  f : Slot
  writer : Writer α
  reader : Reader α
  /-- The items written and not taken back. -/
  written : List α
  /-- The items of the writes that were complete, with those they completed. -/
  complete : List α
  /-- What the last `flush` with something to flush let the reader see. -/
  visible : List α
  /-- The items read. -/
  taken : List α
  /-- A `check_read` found nothing, and no `flush` has reported it yet. -/
  asleep : Bool

/-- A call, or the next step of the call under way. What `malloc` returns is
not initialised. -/
inductive Action (α : Type)
  | write (value : α) (incomplete : Bool)
  | unwrite
  | flush
  | writer
  | malloc (granted : Option (Ptr × Chunk α))
  | checkRead
  | read
  | reader

variable {α : Type}

def next (heap : Heap α) (p : Ptr) : Option Ptr := (heap p).bind Chunk.next

def prev (heap : Heap α) (p : Ptr) : Option Ptr := (heap p).bind Chunk.prev

def value (N : Nat) (heap : Heap α) (a : Slot) : Option α :=
  if a.2 < N then (heap a.1).map fun chunk => chunk.values a.2 else none

namespace Pipe

def front (s : Pipe α) : Slot := (s.beginChunk, s.beginPos)

def back (s : Pipe α) : Slot := (s.backChunk, s.backPos)

def modify (s : Pipe α) (p : Ptr) (f : Chunk α → Chunk α) : Option (Pipe α) :=
  (s.heap p).map fun chunk => { s with heap := Function.update s.heap p (some (f chunk)) }

def store (N : Nat) (s : Pipe α) (a : Slot) (value : α) : Option (Pipe α) :=
  if a.2 < N then
    s.modify a.1 fun chunk => { chunk with values := Function.update chunk.values a.2 value }
  else none

def setNext (s : Pipe α) (p : Ptr) (q : Option Ptr) : Option (Pipe α) :=
  s.modify p ({ · with next := q })

def setPrev (s : Pipe α) (p : Ptr) (q : Option Ptr) : Option (Pipe α) :=
  s.modify p ({ · with prev := q })

def free (s : Pipe α) : Option Ptr → Option (Pipe α)
  | none => some s
  | some p =>
    if (s.heap p).isSome then some { s with heap := Function.update s.heap p none } else none

end Pipe

/-- What `write` does once the element is pushed. -/
def finishWrite (incomplete : Bool) (s : Pipe α) : Pipe α :=
  if incomplete then { s with writer := .wrote }
  else { s with f := s.back, complete := s.written, writer := .wrote }

def runWriter (N : Nat) (s : Pipe α) : Writer α → Option (Pipe α)
  | .store value incomplete => do
    let s ← s.store N s.back value
    some { s with written := s.written ++ [value], writer := .push incomplete }
  | .push incomplete =>
    let s := { s with backChunk := s.endChunk, backPos := s.endPos, endPos := s.endPos + 1 }
    if s.endPos ≠ N then some (finishWrite incomplete s)
    else some { s with writer := .takeSpare incomplete }
  | .takeSpare incomplete =>
    match s.spareChunk with
    | some sc => some { s with spareChunk := none, writer := .linkSpare incomplete sc }
    | none => some { s with spareChunk := none, writer := .malloc incomplete }
  | .linkSpare incomplete sc => do
    let s ← s.setNext s.endChunk (some sc)
    some { s with writer := .backSpare incomplete sc }
  | .backSpare incomplete sc => do
    let s ← s.setPrev sc (some s.endChunk)
    some { s with writer := .moveEnd incomplete }
  | .backNew incomplete => do
    let p ← next s.heap s.endChunk
    let s ← s.setPrev p (some s.endChunk)
    some { s with writer := .moveEnd incomplete }
  | .moveEnd incomplete => do
    let p ← next s.heap s.endChunk
    some (finishWrite incomplete { s with endChunk := p, endPos := 0 })
  | .unpushBack =>
    if s.backPos ≠ 0 then some { s with backPos := s.backPos - 1, writer := .unpushEnd }
    else do
      let p ← prev s.heap s.backChunk
      some { s with backPos := N - 1, backChunk := p, writer := .unpushEnd }
  | .unpushEnd =>
    if s.endPos ≠ 0 then some { s with endPos := s.endPos - 1, writer := .load }
    else do
      let p ← prev s.heap s.endChunk
      some { s with endPos := N - 1, endChunk := p, writer := .freeEnd }
  | .freeEnd => do
    let p ← next s.heap s.endChunk
    let s ← s.free (some p)
    some { s with writer := .clearNext }
  | .clearNext => do
    let s ← s.setNext s.endChunk none
    some { s with writer := .load }
  | .load => do
    let x ← value N s.heap s.back
    some { s with written := s.written.dropLast, writer := .unwrote (some x) }
  | .casC =>
    if s.c = some s.w then
      some { s with c := some s.f, w := s.f, visible := s.complete, writer := .flushed true }
    else some { s with writer := .setC }
  | .setC =>
    some { s with
      c := some s.f, w := s.f, visible := s.complete, asleep := false, writer := .flushed false }
  | _ => none

/-- Where `check_read`, or `read` after it, goes on. -/
def available (reads : Bool) (b : Bool) : Reader α :=
  if reads then if b then .load else .got none else .checked b

def checkRead (s : Pipe α) (reads : Bool) : Pipe α :=
  if some s.front ≠ s.r ∧ s.r ≠ none then { s with reader := available reads true }
  else { s with reader := .casC reads }

def runReader (N : Nat) (s : Pipe α) : Reader α → Option (Pipe α)
  | .casC reads =>
    let s :=
      if s.c = some s.front then { s with r := s.c, c := none, asleep := true }
      else { s with r := s.c }
    if some s.front = s.r ∨ s.r = none then some { s with reader := available reads false }
    else some { s with reader := available reads true }
  | .load => do
    let x ← value N s.heap s.front
    some { s with taken := s.taken ++ [x], reader := .pop x }
  | .pop value =>
    let s := { s with beginPos := s.beginPos + 1 }
    if s.beginPos = N then some { s with reader := .moveBegin value }
    else some { s with reader := .got (some value) }
  | .moveBegin value => do
    let p ← next s.heap s.beginChunk
    some { s with beginChunk := p, reader := .clearPrev value s.beginChunk }
  | .clearPrev value o => do
    let s ← s.setPrev s.beginChunk none
    some { s with beginPos := 0, reader := .giveSpare value o }
  | .giveSpare value o =>
    some { s with spareChunk := some o, reader := .freeSpare value s.spareChunk }
  | .freeSpare value cs => do
    let s ← s.free cs
    some { s with reader := .got (some value) }
  | _ => none

def grant (s : Pipe α) (incomplete : Bool) : Option (Ptr × Chunk α) → Option (Pipe α)
  | some (p, chunk) => do
    let s := { s with heap := Function.update s.heap p (some chunk) }
    let s ← s.setNext s.endChunk (some p)
    some { s with writer := .backNew incomplete }
  | none => do
    -- `alloc_assert` only prints
    let s ← s.setNext s.endChunk none
    some { s with writer := .backNew incomplete }

def Enabled (s : Pipe α) : Action α → Prop
  | .write _ _ => s.writer.returned
  | .unwrite => s.writer.returned
  | .flush => s.writer.returned
  | .writer => ¬s.writer.returned ∧ ¬s.writer.asks
  | .malloc granted => s.writer.asks ∧ granted.all fun chunk => (s.heap chunk.1).isNone
  | .checkRead => s.reader.returned
  | .read => s.reader.returned
  | .reader => ¬s.reader.returned

instance (s : Pipe α) : DecidablePred (Enabled s)
  | .write _ _ => inferInstanceAs (Decidable (s.writer.returned = true))
  | .unwrite => inferInstanceAs (Decidable (s.writer.returned = true))
  | .flush => inferInstanceAs (Decidable (s.writer.returned = true))
  | .writer => inferInstanceAs (Decidable (¬s.writer.returned = true ∧ ¬s.writer.asks = true))
  | .malloc granted => inferInstanceAs (Decidable (s.writer.asks = true ∧
      (granted.all fun chunk => (s.heap chunk.1).isNone) = true))
  | .checkRead => inferInstanceAs (Decidable (s.reader.returned = true))
  | .read => inferInstanceAs (Decidable (s.reader.returned = true))
  | .reader => inferInstanceAs (Decidable (¬s.reader.returned = true))

def step (N : Nat) (s : Pipe α) : Action α → Option (Pipe α)
  | .write value incomplete => some { s with writer := .store value incomplete }
  | .unwrite =>
    if s.f = s.back then some { s with writer := .unwrote none }
    else some { s with writer := .unpushBack }
  | .flush =>
    if s.w = s.f then some { s with writer := .flushed true } else some { s with writer := .casC }
  | .writer => runWriter N s s.writer
  | .malloc granted =>
    match s.writer with
    | .malloc incomplete => grant s incomplete granted
    | _ => none
  | .checkRead => some (checkRead s false)
  | .read => some (checkRead s true)
  | .reader => runReader N s s.reader

/-- The constructors of `yqueue_t` and `ypipe_t`, with the chunks that `malloc`
returned; the second is for the `push` of the terminator that fills the first. -/
def construct (N : Nat) (p q : Ptr) (first second : Chunk α) : Pipe α :=
  let full := N = 1
  { heap := fun x =>
      if x = p then some (if full then { first with next := some q } else first)
      else if full ∧ x = q then some { second with prev := some p }
      else none
    spareChunk := none
    c := some (p, 0)
    beginChunk := p, beginPos := 0, r := some (p, 0)
    backChunk := p, backPos := 0
    endChunk := if full then q else p, endPos := if full then 0 else 1
    w := (p, 0), f := (p, 0)
    writer := .idle, reader := .idle
    written := [], complete := [], visible := [], taken := [], asleep := false }

def destruct : (turns : Nat) → Pipe α → Option (Pipe α)
  | 0, _ => none
  | turns + 1, s =>
    if s.beginChunk = s.endChunk then do
      let s ← s.free (some s.beginChunk)
      let sc := s.spareChunk
      { s with spareChunk := none }.free sc
    else do
      let o := s.beginChunk
      let p ← next s.heap s.beginChunk
      let s ← { s with beginChunk := p }.free (some o)
      destruct turns s

def pipe (α : Type) (N : Nat) : Transition (Pipe α) (Action α) where
  init s := ∃ p q first second, p ≠ q ∧ s = construct N p q first second
  step s a s' := Enabled s a ∧ step N s a = some s'

/-- `malloc` does not fail. -/
def Granted (_ : Pipe α) (a : Action α) : Prop := a ≠ .malloc none

end LearningCode.Yqueue
