import LearningCode.MemPool.Model

/-!
# Fields of the memory pool before they are written

The pool again, over the memory its nodes and headers lie in. A region comes from
`posix_memalign` with whatever its bytes held before, so a pool is created where none of
its fields is written; what reads such a field stops with a fault. Loops are given turns.
-/

namespace LearningCode.MemPool.Written

inductive Fault
  /-- A field is read that nobody has written. -/
  | unwritten
  /-- A `NULL` is dereferenced. -/
  | null
  | turns
deriving DecidableEq

abbrev Ptr := Option Nat

structure MpLarge where
  next : Option Ptr
  size : Option Int
  alloc : Option Ptr

structure MpNode where
  stop : Option Nat
  last : Option Nat
  next : Option Ptr
  quote : Option Int
  failed : Option Int

def MpLarge.raw : MpLarge := ⟨none, none, none⟩

def MpNode.raw : MpNode := ⟨none, none, none, none, none⟩

structure Memory where
  regions : Regions
  /-- What the bytes of a new region are to a node. -/
  found : MpNode
  node : Nat → MpNode
  large : Nat → MpLarge

structure MpPool where
  addr : Nat
  large : Ptr
  head : Nat
  current : Nat

def read {α : Type} : Option α → Except Fault α
  | none => .error .unwritten
  | some x => .ok x

namespace Memory

def set (m : Memory) (p : Nat) (n : MpNode) : Memory :=
  { m with node := Function.update m.node p n }

def setLarge (m : Memory) (p : Nat) (l : MpLarge) : Memory :=
  { m with large := Function.update m.large p l }

def fill (m : Memory) (n : MpNode) (r : Span) : Memory :=
  { m with
    node := fun p => if r.addr ≤ p ∧ p < r.stop then n else m.node p
    large := fun p => if r.addr ≤ p ∧ p < r.stop then .raw else m.large p }

def obtain (m : Memory) (r : Span) : Memory :=
  { m.fill m.found r with regions := r :: m.regions }

def free (m : Memory) : Ptr → Memory
  | none => m
  | some p => { (m.regions.filter fun r => r.addr = p).foldl (fill · .raw) m with
      regions := MemPool.free m.regions p }

end Memory

def mpCreatePool (m : Memory) (size : Nat) (answer : Ptr) : Memory × Option MpPool :=
  match answer with
  | none => (m, none)
  | some pool =>
    let m := m.obtain ⟨pool, poolSize size⟩
    let head := pool + sizeofPool
    -- `next` and `quote` are not among the fields it writes
    (m.set head { m.node head with
      last := some (pool + sizeofPool + sizeofNode)
      stop := some (pool + pageSize)
      failed := some 0 }, some ⟨pool, none, head, head⟩)

/-- The loop of `mp_malloc_block`: the memory, the last node, and `current`. -/
def passOver : (turns : Nat) → Memory → (cur current : Nat) →
    Except Fault (Memory × Nat × Nat)
  | 0, _, _, _ => .error .turns
  | turns + 1, m, cur, current => do
    match ← read (m.node cur).next with
    | none => .ok (m, cur, current)
    | some next =>
      let failed ← read (m.node cur).failed
      passOver turns (m.set cur { m.node cur with failed := some (failed + 1) }) next
        (if failed > 4 then next else current)

def mpMallocBlock (turns : Nat) (m : Memory) (pool : MpPool) (size : Nat) (answer : Ptr) :
    Except Fault (Memory × MpPool × Ptr) :=
  match answer with
  | none => .ok (m, pool, none)
  | some block => do
    let m := m.obtain ⟨block, pageSize⟩
    let retAddr := mpAlignPtr (block + sizeofNode)
    let m := m.set block { m.node block with
      stop := some (block + pageSize), next := some none, last := some (retAddr + size) }
    let quote ← read (m.node block).quote
    let m := m.set block { m.node block with quote := some (quote + 1) }
    let (m, cur, current) ← passOver turns m pool.current pool.current
    .ok (m.set cur { m.node cur with next := some (some block) },
      { pool with current := current }, some retAddr)

def carve (size : Nat) : (turns : Nat) → Memory → (cur : Ptr) →
    Except Fault (Option (Memory × Nat))
  | 0, _, _ => .error .turns
  | _ + 1, _, none => .ok none
  | turns + 1, m, some cur => do
    let last ← read (m.node cur).last
    let memAddr := mpAlignPtr last
    let stop ← read (m.node cur).stop
    if uint64 (stop + 2 ^ 64 - memAddr) ≥ size then
      let quote ← read (m.node cur).quote
      .ok (some (m.set cur
        { m.node cur with quote := some (quote + 1), last := some (memAddr + size) }, memAddr))
    else carve size turns m (← read (m.node cur).next)

def mpMallocSmall (turns : Nat) (m : Memory) (pool : MpPool) (size : Nat) (answer : Ptr) :
    Except Fault (Memory × MpPool × Ptr) := do
  match ← carve size turns m (some pool.current) with
  | some (m, memAddr) => .ok (m, pool, some memAddr)
  | none => mpMallocBlock turns m pool size answer

def reuse (size bigAddr : Nat) : (turns n : Nat) → Memory → (large : Ptr) →
    Except Fault (Option Memory)
  | 0, _, _, _ => .error .turns
  | _ + 1, _, _, none => .ok none
  | turns + 1, n, m, some large => do
    match ← read (m.large large).alloc with
    | none => .ok (some (m.setLarge large { m.large large with
        size := some (int32 size), alloc := some (some bigAddr) }))
    | some _ =>
      if n > 3 then .ok none
      else reuse size bigAddr turns (n + 1) m (← read (m.large large).next)

def mpMallocLarge (turns : Nat) (m : Memory) (pool : MpPool) (size : Nat)
    (answer answer' : Ptr) : Except Fault (Memory × MpPool × Ptr) :=
  match answer with
  | none => .ok (m, pool, none)
  | some bigAddr => do
    let m := m.obtain ⟨bigAddr, size⟩
    match ← reuse size bigAddr turns 0 m pool.large with
    | some m => .ok (m, pool, some bigAddr)
    | none =>
      match ← mpMallocSmall turns m pool sizeofLarge answer' with
      | (m, pool, none) => .ok (m.free bigAddr, pool, none)
      | (m, pool, some large) =>
        .ok (m.setLarge large ⟨some pool.large, some (int32 size), some (some bigAddr)⟩,
          { pool with large := some large }, some bigAddr)

/-- `answer` is for a large block, `answer'` for a page. -/
def mpMalloc (turns : Nat) (m : Memory) (pool : MpPool) (size : Nat) (answer answer' : Ptr) :
    Except Fault (Memory × MpPool × Ptr) :=
  if size = 0 then .ok (m, pool, none)
  else if size > pageSize - sizeofNode then mpMallocLarge turns m pool size answer answer'
  else mpMallocSmall turns m pool size answer'

def mpCalloc (turns : Nat) (m : Memory) (pool : MpPool) (size : Nat) (answer answer' : Ptr) :
    Except Fault (Memory × MpPool × Ptr) :=
  mpMalloc turns m pool size answer answer'

def freeLarge (p : Ptr) : (turns : Nat) → Memory → (large : Ptr) →
    Except Fault (Option Memory)
  | 0, _, _ => .error .turns
  | _ + 1, _, none => .ok none
  | turns + 1, m, some large => do
    let alloc ← read (m.large large).alloc
    if p = alloc then
      let m := m.free alloc
      .ok (some (m.setLarge large { m.large large with size := some 0, alloc := some none }))
    else freeLarge p turns m (← read (m.large large).next)

/-- Whether `p` points into a node; the end is read only if `p` is not before it. -/
def inside (m : Memory) (p cur : Nat) : Except Fault Bool :=
  if cur ≤ p then (read (m.node cur).stop).map fun stop => p ≤ stop else .ok false

def release (pool : MpPool) (p : Nat) : (turns : Nat) → Memory → (cur : Ptr) →
    Except Fault (Memory × Bool)
  | 0, _, _ => .error .turns
  | _ + 1, m, none => .ok (m, false)
  | turns + 1, m, some cur => do
    if ← inside m p cur then
      let quote ← read (m.node cur).quote
      let m := m.set cur { m.node cur with quote := some (quote - 1) }
      if quote - 1 = 0 then
        let last := if cur = pool.head then pool.addr + sizeofPool + sizeofNode
          else cur + sizeofNode
        .ok (m.set cur { m.node cur with last := some last, failed := some 0 }, true)
      else .ok (m, false)
    else release pool p turns m (← read (m.node cur).next)

/-- As an address `NULL` is below every node. -/
def mpFree (turns : Nat) (m : Memory) (pool : MpPool) (p : Ptr) :
    Except Fault (Memory × MpPool) := do
  match ← freeLarge p turns m pool.large with
  | some m => .ok (m, pool)
  | none =>
    let (m, rewound) ← release pool (p.getD 0) turns m (some pool.head)
    .ok (m, { pool with current := if rewound then pool.head else pool.current })

/-- The loop over the headers in `mp_reset_pool` and `mp_destroy_pool`. -/
def freeAll : (turns : Nat) → Memory → (large : Ptr) → Except Fault Memory
  | 0, _, _ => .error .turns
  | _ + 1, m, none => .ok m
  | turns + 1, m, some large => do
    let m := m.free (← read (m.large large).alloc)
    freeAll turns m (← read (m.large large).next)

def rewind : (turns : Nat) → Memory → (cur : Ptr) → Except Fault Memory
  | 0, _, _ => .error .turns
  | _ + 1, m, none => .ok m
  | turns + 1, m, some cur => do
    let m := m.set cur { m.node cur with
      last := some (cur + sizeofNode), failed := some 0, quote := some 0 }
    rewind turns m (← read (m.node cur).next)

def mpResetPool (turns : Nat) (m : Memory) (pool : MpPool) :
    Except Fault (Memory × MpPool) := do
  let m ← freeAll turns m pool.large
  let m ← rewind turns m (some pool.head)
  .ok (m, { pool with large := none, current := pool.head })

def freeNodes : (turns : Nat) → Memory → (cur : Ptr) → Except Fault Memory
  | 0, _, _ => .error .turns
  | _ + 1, m, none => .ok m
  | turns + 1, m, some cur => do
    let next ← read (m.node cur).next
    freeNodes turns (m.free cur) next

def mpDestroyPool (turns : Nat) (m : Memory) (pool : MpPool) : Except Fault Memory := do
  let m ← freeAll turns m pool.large
  let m ← freeNodes turns m (← read (m.node pool.head).next)
  .ok (m.free pool.addr)

structure Usage where
  isCurrent : Bool
  used : Int
  room : Int
  quote : Int
  failed : Int

/-- The first loop of `monitor_mp_poll`; the first block is counted from the pool on. -/
def monitorNodes (pool : MpPool) : (turns : Nat) → (start : Nat → Nat) → Memory → (head : Ptr) →
    Except Fault (List Usage)
  | 0, _, _, _ => .error .turns
  | _ + 1, _, _, none => .ok []
  | turns + 1, start, m, some head => do
    let last ← read (m.node head).last
    let stop ← read (m.node head).stop
    let quote ← read (m.node head).quote
    let failed ← read (m.node head).failed
    let rest ← monitorNodes pool turns id m (← read (m.node head).next)
    .ok (⟨pool.current == head, last - start head, stop - last, quote, failed⟩ :: rest)

def monitorLarge : (turns : Nat) → Memory → (large : Ptr) → Except Fault (List Int)
  | 0, _, _ => .error .turns
  | _ + 1, _, none => .ok []
  | turns + 1, m, some large => do
    let sizes ← match ← read (m.large large).alloc with
      | none => .ok []
      | some _ => (read (m.large large).size).map ([·])
    let rest ← monitorLarge turns m (← read (m.large large).next)
    .ok (sizes ++ rest)

def monitorMpPoll (turns : Nat) (m : Memory) (pool : MpPool) :
    Except Fault (List Usage × List Int) := do
  let nodes ← monitorNodes pool turns (fun _ => pool.addr) m (some pool.head)
  let large ← monitorLarge turns m pool.large
  .ok (nodes, large)

-- ---------------------------------------------------------------------------
-- Sequences of operations
-- ---------------------------------------------------------------------------

inductive Op
  | malloc (size : Nat) (answer answer' : Ptr)
  | calloc (size : Nat) (answer answer' : Ptr)
  | free (p : Ptr)
  | reset
  | monitor
  | destroy

structure State where
  memory : Memory
  pool : Option MpPool

def call (turns : Nat) (m : Memory) (pool : MpPool) : Op → Except Fault State
  | .malloc size answer answer' => do
    let (m, pool, _) ← mpMalloc turns m pool size answer answer'
    .ok ⟨m, some pool⟩
  | .calloc size answer answer' => do
    let (m, pool, _) ← mpCalloc turns m pool size answer answer'
    .ok ⟨m, some pool⟩
  | .free p => do
    let (m, pool) ← mpFree turns m pool p
    .ok ⟨m, some pool⟩
  | .reset => do
    let (m, pool) ← mpResetPool turns m pool
    .ok ⟨m, some pool⟩
  | .monitor => do
    let _ ← monitorMpPoll turns m pool
    .ok ⟨m, some pool⟩
  | .destroy => do
    let m ← mpDestroyPool turns m pool
    .ok ⟨m, none⟩

def run (turns : Nat) : State → List Op → Except Fault State
  | st, [] => .ok st
  | ⟨_, none⟩, _ :: _ => .error .null
  | ⟨m, some pool⟩, op :: ops => do run turns (← call turns m pool op) ops

/-- No operation reads a field that is not written. -/
def Defined (st : State) (ops : List Op) : Prop :=
  ∀ turns, run turns st ops ≠ .error .unwritten

/-- The pool `mp_create_pool` makes of the region at `pool`, where regions read as `n`. -/
def createdFrom (n : MpNode) (m : Memory) (size pool : Nat) : State :=
  let r := mpCreatePool { m with found := n } size (some pool)
  ⟨r.1, r.2⟩

def created (m : Memory) (size pool : Nat) : State := createdFrom .raw m size pool

def Op.Refused : Op → Prop
  | .malloc size answer _ | .calloc size answer _ =>
    size = 0 ∨ pageSize - sizeofNode < size ∧ answer = none
  | _ => False

-- ---------------------------------------------------------------------------
-- The head as it was created
-- ---------------------------------------------------------------------------

variable {m : Memory} {pool : MpPool} {op : Op} {ops : List Op} {p cur size turns : Nat}
  {answer answer' : Ptr}

structure Bare (m : Memory) (cur : Nat) : Prop where
  next : (m.node cur).next = none
  quote : (m.node cur).quote = none
  found : m.found = .raw

theorem Bare.obtain (h : Bare m cur) (r : Span) : Bare (m.obtain r) cur := by
  by_cases hin : r.addr ≤ cur ∧ cur < r.stop
  · refine ⟨?_, ?_, h.found⟩ <;> simp [Memory.obtain, Memory.fill, hin, h.found, MpNode.raw]
  · have hnode : (m.obtain r).node cur = m.node cur := by
      simp [Memory.obtain, Memory.fill, hin]
    exact ⟨by rw [hnode, h.next], by rw [hnode, h.quote], h.found⟩

@[simp] theorem read_none {α : Type} : read (none : Option α) = .error .unwritten := rfl

@[simp] theorem error_bind {α β : Type} (f : Fault) (k : α → Except Fault β) :
    (Except.error f >>= k) = .error f := rfl

@[simp] theorem ok_bind {α β : Type} (x : α) (k : α → Except Fault β) :
    (Except.ok x >>= k) = k x := rfl

/-- A read may fail, and what comes behind it fails anyway. -/
theorem read_bind {α β : Type} {x : Option α} {k : α → Except Fault β}
    (h : ∀ y, k y = .error .unwritten) : (read x >>= k) = .error .unwritten := by
  cases x with
  | none => rfl
  | some y => exact h y

theorem carve_bare (h : Bare m cur) : carve size (turns + 1) m (some cur) = .error .unwritten := by
  refine read_bind fun last => read_bind fun stop => ?_
  split
  · rw [h.quote]
    rfl
  · rw [h.next]
    rfl

theorem release_bare (h : Bare m cur) :
    release pool p (turns + 1) m (some cur) = .error .unwritten := by
  have hread : inside m p cur = .error .unwritten ∨ ∃ found, inside m p cur = .ok found := by
    unfold inside
    split
    · cases (m.node cur).stop with
      | none => exact .inl rfl
      | some stop => exact .inr ⟨_, rfl⟩
    · exact .inr ⟨_, rfl⟩
  unfold release
  rcases hread with hread | ⟨found, hread⟩
  · rw [hread]
    rfl
  · rw [hread, ok_bind]
    cases found with
    | true => simp only [h.quote, read_none, error_bind, ↓reduceIte]
    | false => simp only [h.next, read_none, error_bind, Bool.false_eq_true, ↓reduceIte]

theorem rewind_bare (h : Bare m cur) : rewind (turns + 1) m (some cur) = .error .unwritten := by
  simp [rewind, Memory.set, h.next]

theorem monitorNodes_bare (h : Bare m cur) (start : Nat → Nat) :
    monitorNodes pool (turns + 1) start m (some cur) = .error .unwritten := by
  refine read_bind fun last => read_bind fun stop => ?_
  rw [h.quote]
  rfl

-- ---------------------------------------------------------------------------
-- Every operation
-- ---------------------------------------------------------------------------

structure Pristine (m : Memory) (pool : MpPool) : Prop where
  large : pool.large = none
  current : pool.current = pool.head
  bare : Bare m pool.head

theorem Pristine.create (m : Memory) (size a : Nat) : ∃ pool,
    (created m size a).pool = some pool ∧ Pristine (created m size a).memory pool := by
  refine ⟨_, rfl, rfl, rfl, ?_⟩
  have hin : a ≤ a + sizeofPool ∧ a + sizeofPool < a + poolSize size := by
    have hsize : pageSize ≤ poolSize size := by
      unfold poolSize
      split
      · exact Nat.le_refl _
      · next h => exact Nat.le_of_not_lt fun hlt => h (.inl hlt)
    simp only [pageSize, sizeofPool] at hsize ⊢
    omega
  refine ⟨?_, ?_, rfl⟩ <;>
    simp [created, createdFrom, mpCreatePool, Memory.set, Memory.obtain, Memory.fill, Span.stop,
      hin, MpNode.raw]

theorem mpMallocSmall_bare (hcur : pool.current = cur) (h : Bare m cur) :
    mpMallocSmall (turns + 1) m pool size answer = .error .unwritten := by
  simp only [mpMallocSmall, hcur, carve_bare h, error_bind]

theorem mpMalloc_refused (h : (Op.malloc size answer answer').Refused) :
    mpMalloc turns m pool size answer answer' = .ok (m, pool, none) := by
  unfold mpMalloc
  rcases h with h | ⟨h, rfl⟩
  · rw [if_pos h]
  · split
    · rfl
    · rfl

theorem mpMalloc_pristine (hp : Pristine m pool) (h : ¬(Op.malloc size answer answer').Refused) :
    mpMalloc (turns + 1) m pool size answer answer' = .error .unwritten := by
  simp only [Op.Refused, not_or, not_and] at h
  unfold mpMalloc
  rw [if_neg h.1]
  split
  · next hlarge =>
    cases answer with
    | none => exact absurd rfl (h.2 hlarge)
    | some big =>
      -- there is no header to use again, so one is asked for
      have hnone : reuse size big (turns + 1) 0 (m.obtain ⟨big, size⟩) pool.large = .ok none := by
        rw [hp.large]
        rfl
      simp only [mpMallocLarge, hnone, ok_bind, mpMallocSmall_bare hp.current (hp.bare.obtain _),
        error_bind]
  · exact mpMallocSmall_bare hp.current hp.bare

theorem call_refused (h : op.Refused) : call turns m pool op = .ok ⟨m, some pool⟩ := by
  cases op with
  | malloc => simp only [call, mpMalloc_refused h, ok_bind]
  | calloc => simp only [call, mpCalloc, mpMalloc_refused h, ok_bind]
  | free => cases h
  | reset => cases h
  | monitor => cases h
  | destroy => cases h

theorem call_pristine (hp : Pristine m pool) (h : ¬op.Refused) :
    call (turns + 1) m pool op = .error .unwritten := by
  have hfreed : freeAll (turns + 1) m pool.large = .ok m := by
    rw [hp.large]
    rfl
  cases op with
  | malloc => simp only [call, mpMalloc_pristine hp h, error_bind]
  | calloc => simp only [call, mpCalloc, mpMalloc_pristine hp h, error_bind]
  | free p =>
    have hnone : freeLarge p (turns + 1) m pool.large = .ok none := by
      rw [hp.large]
      rfl
    simp only [call, mpFree, hnone, ok_bind, release_bare hp.bare, error_bind]
  | reset => simp only [call, mpResetPool, hfreed, ok_bind, rewind_bare hp.bare, error_bind]
  | monitor => simp only [call, monitorMpPoll, monitorNodes_bare hp.bare, error_bind]
  | destroy =>
    simp only [call, mpDestroyPool, hfreed, ok_bind, hp.bare.next, read_none, error_bind]

theorem defined_iff (hp : Pristine m pool) :
    Defined ⟨m, some pool⟩ ops ↔ ∀ op ∈ ops, op.Refused := by
  induction ops with
  | nil =>
    refine iff_of_true (fun turns h => ?_) (by simp)
    cases h
  | cons op ops ih =>
    rw [List.forall_mem_cons]
    by_cases h : op.Refused
    · -- the pool is left as it is
      have hrun (turns : Nat) :
          run turns ⟨m, some pool⟩ (op :: ops) = run turns ⟨m, some pool⟩ ops := by
        simp only [run, call_refused h, ok_bind]
      rw [Defined, forall_congr' fun turns => by rw [hrun turns]]
      exact ih.trans (and_iff_right h).symm
    · refine iff_of_false (fun hdef => hdef 1 ?_) fun hall => h hall.1
      simp only [run, call_pristine hp h, error_bind]

/-- The first request that is granted, the first `mp_free`, `mp_reset_pool` or
`mp_destroy_pool`: each reads the link or the count of the head. -/
theorem defined_created_iff (m : Memory) (size a : Nat) (ops : List Op) :
    Defined (created m size a) ops ↔ ∀ op ∈ ops, op.Refused := by
  obtain ⟨pool, hpool, hp⟩ := Pristine.create m size a
  have hst : created m size a = ⟨(created m size a).memory, some pool⟩ := by rw [← hpool]
  rw [hst]
  exact defined_iff hp

/-- A hundred bytes from a pool that was just created. -/
theorem malloc_unwritten : ¬Defined (created ⟨[], .raw, fun _ => .raw, fun _ => .raw⟩ pageSize 65536)
    [.malloc 100 none none] := by
  intro h
  exact h 1 rfl

end LearningCode.MemPool.Written
