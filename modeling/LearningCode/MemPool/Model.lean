import Mathlib.Algebra.Group.Nat.Defs
import LearningCode.Lib.Span

/-!
# The memory pool

`mempoll.c`. The chains of nodes and of large headers are lists in the order of
their `next` fields, and every record keeps the address where it lies; what the
blocks contain is left out. What `posix_memalign` answers is an argument, and
the regions it has given out and `free` has not taken back are kept in a list.
A `NULL` that is dereferenced has no result.
-/

namespace LearningCode.MemPool

abbrev uint64 (x : Nat) : Nat := x % 2 ^ 64

abbrev pageSize : Nat := 4096
abbrev mpAlignment : Nat := 16
abbrev sizeofPool : Nat := 24
abbrev sizeofNode : Nat := 32
abbrev sizeofLarge : Nat := 24

/-- Clearing the low bits rounds down to a multiple. -/
def mpAlignPtr (p : Nat) : Nat := uint64 (p + (mpAlignment - 1)) / mpAlignment * mpAlignment

structure MpLarge where
  addr : Nat
  size : Int
  alloc : Option Nat

structure MpNode where
  addr : Nat
  stop : Nat
  last : Nat
  quote : Int
  failed : Int

structure MpPool where
  addr : Nat
  large : List MpLarge
  nodes : List MpNode
  current : Nat

abbrev Regions := List Span

def free (regions : Regions) (p : Nat) : Regions := regions.filter fun r => r.addr ≠ p

/-- A `size_t` kept in an `int`. -/
def int32 (size : Nat) : Int := (size : Int).bmod (2 ^ 32)

def poolSize (size : Nat) : Nat :=
  if size < pageSize ∨ size % pageSize ≠ 0 then pageSize else size

def mpCreatePool (regions : Regions) (size : Nat) (answer : Option Nat) :
    Regions × Option MpPool :=
  let size := poolSize size
  match answer with
  | none => (regions, none)
  | some pool =>
    let head := pool + sizeofPool
    (⟨pool, size⟩ :: regions, some {
      addr := pool
      large := []
      nodes := [⟨head, pool + pageSize, pool + sizeofPool + sizeofNode, 0, 0⟩]
      current := head })

/-- The loop of `mp_malloc_block` over the nodes from `current` on, and the
`current` it ends with. -/
def passOver : (current : Nat) → List MpNode → Option (Nat × List MpNode)
  | _, [] => none
  | current, [cur] => some (current, [cur])
  | current, cur :: next :: rest => do
    let (current, rest) ← passOver (if cur.failed > 4 then next.addr else current) (next :: rest)
    some (current, { cur with failed := cur.failed + 1 } :: rest)

def mpMallocBlock (pool : MpPool) (regions : Regions) (size : Nat) (answer : Option Nat) :
    Option (MpPool × Regions × Option Nat) :=
  match answer with
  | none => some (pool, regions, none)
  | some block => do
    let retAddr := mpAlignPtr (block + sizeofNode)
    -- `quote` counts up from the zero it finds in a fresh page
    let newNode : MpNode := ⟨block, block + pageSize, retAddr + size, 1, 0⟩
    let (before, rest) := pool.nodes.span fun cur => cur.addr ≠ pool.current
    let (current, rest) ← passOver pool.current rest
    some ({ pool with nodes := before ++ rest ++ [newNode], current := current },
      ⟨block, pageSize⟩ :: regions, some retAddr)

def carve (size : Nat) : List MpNode → Option (Nat × List MpNode)
  | [] => none
  | cur :: rest =>
    let memAddr := mpAlignPtr cur.last
    -- the difference of the pointers is compared as a `size_t`
    if uint64 (cur.stop + 2 ^ 64 - memAddr) ≥ size then
      some (memAddr, { cur with quote := cur.quote + 1, last := memAddr + size } :: rest)
    else (carve size rest).map fun r => (r.1, cur :: r.2)

/-- The branch of `mp_malloc` for what fits in a page. -/
def mpMallocSmall (pool : MpPool) (regions : Regions) (size : Nat) (answer : Option Nat) :
    Option (MpPool × Regions × Option Nat) :=
  let (before, rest) := pool.nodes.span fun cur => cur.addr ≠ pool.current
  match carve size rest with
  | some (memAddr, rest) => some ({ pool with nodes := before ++ rest }, regions, some memAddr)
  | none => mpMallocBlock pool regions size answer

/-- The loop of `mp_malloc_large`: one of the first headers, if it is unused. -/
def reuse (size bigAddr : Nat) : (n : Nat) → List MpLarge → Option (List MpLarge)
  | _, [] => none
  | n, large :: rest =>
    if large.alloc = none then
      some ({ large with size := int32 size, alloc := some bigAddr } :: rest)
    else if n > 3 then none
    else (reuse size bigAddr (n + 1) rest).map (large :: ·)

/-- A header is small, so `mp_malloc` takes its small branch. -/
def mpMallocLarge (pool : MpPool) (regions : Regions) (size : Nat) (answer answer' : Option Nat) :
    Option (MpPool × Regions × Option Nat) :=
  match answer with
  | none => some (pool, regions, none)
  | some bigAddr =>
    let regions := ⟨bigAddr, size⟩ :: regions
    match reuse size bigAddr 0 pool.large with
    | some large => some ({ pool with large := large }, regions, some bigAddr)
    | none => do
      match ← mpMallocSmall pool regions sizeofLarge answer' with
      | (pool, regions, none) => some (pool, free regions bigAddr, none)
      | (pool, regions, some large) =>
        some ({ pool with large := ⟨large, int32 size, some bigAddr⟩ :: pool.large }, regions,
          some bigAddr)

/-- `answer` is for a large block, `answer'` for a page. -/
def mpMalloc (pool : MpPool) (regions : Regions) (size : Nat) (answer answer' : Option Nat) :
    Option (MpPool × Regions × Option Nat) :=
  if size = 0 then some (pool, regions, none)
  else if size > pageSize - sizeofNode then mpMallocLarge pool regions size answer answer'
  else mpMallocSmall pool regions size answer'

/-- The bytes it clears are those of the block. -/
def mpCalloc (pool : MpPool) (regions : Regions) (size : Nat) (answer answer' : Option Nat) :
    Option (MpPool × Regions × Option Nat) :=
  mpMalloc pool regions size answer answer'

def freeLarge (p : Nat) : List MpLarge → Option (List MpLarge)
  | [] => none
  | large :: rest =>
    if some p = large.alloc then some ({ large with size := 0, alloc := none } :: rest)
    else (freeLarge p rest).map (large :: ·)

/-- The second loop of `mp_free`, and whether it rewinds a node. -/
def release (pool head p : Nat) : List MpNode → Option (Bool × List MpNode)
  | [] => none
  | cur :: rest =>
    if cur.addr ≤ p ∧ p ≤ cur.stop then
      if cur.quote - 1 = 0 then
        let last := if cur.addr = head then pool + sizeofPool + sizeofNode else cur.addr + sizeofNode
        some (true, { cur with quote := cur.quote - 1, last := last, failed := 0 } :: rest)
      else some (false, { cur with quote := cur.quote - 1 } :: rest)
    else (release pool head p rest).map fun r => (r.1, cur :: r.2)

def MpPool.head (pool : MpPool) : Option Nat := pool.nodes.head?.map MpNode.addr

def mpFree (pool : MpPool) (regions : Regions) (p : Nat) : Option (MpPool × Regions) :=
  match freeLarge p pool.large with
  | some large => some ({ pool with large := large }, free regions p)
  | none => do
    let head ← pool.head
    match release pool.addr head p pool.nodes with
    | none => some (pool, regions)
    | some (rewound, nodes) =>
      some ({ pool with nodes := nodes, current := if rewound then head else pool.current }, regions)

def mpResetPool (pool : MpPool) (regions : Regions) : Option (MpPool × Regions) := do
  let head ← pool.head
  let regions := (pool.large.filterMap MpLarge.alloc).foldl free regions
  let rewind (cur : MpNode) : MpNode :=
    { cur with last := cur.addr + sizeofNode, failed := 0, quote := 0 }
  some ({ pool with large := [], current := head, nodes := pool.nodes.map rewind }, regions)

end LearningCode.MemPool
