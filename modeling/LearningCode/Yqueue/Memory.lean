import Mathlib.Data.List.Basic
import Mathlib.Algebra.Order.Group.Nat
import LearningCode.Yqueue.Model

/-!
# Who a chunk belongs to

Every chunk that is allocated is in the list from `begin_chunk` to `end_chunk`,
is the spare one, or is in the hands of one of the two threads. A step hands one
chunk on and leaves the others where they are.
-/

namespace LearningCode.Yqueue

variable {α : Type}

-- ---------------------------------------------------------------------------
-- One chunk changed
-- ---------------------------------------------------------------------------

def amend (heap : Heap α) (p : Ptr) (f : Chunk α → Chunk α) : Heap α :=
  Function.update heap p ((heap p).map f)

section
variable {N : Nat} {heap : Heap α} {p q : Ptr} {f : Chunk α → Chunk α} {v : Option Ptr}

theorem Pipe.modify_eq {s : Pipe α} (h : s.heap p ≠ none) :
    s.modify p f = some { s with heap := amend s.heap p f } := by
  obtain ⟨chunk, hchunk⟩ := Option.ne_none_iff_exists'.mp h
  simp [Pipe.modify, amend, hchunk]

theorem amend_of_ne (h : q ≠ p) : amend heap p f q = heap q := Function.update_of_ne h ..

@[simp] theorem amend_eq_none : amend heap p f q = none ↔ heap q = none := by
  rcases eq_or_ne q p with rfl | hne
  · simp [amend]
  · rw [amend_of_ne hne]

theorem next_amend (hf : ∀ chunk, (f chunk).next = chunk.next) :
    next (amend heap p f) q = next heap q := by
  rcases eq_or_ne q p with rfl | hne
  · cases h : heap q <;> simp [next, amend, h, hf]
  · rw [next, amend_of_ne hne, next]

theorem prev_amend (hf : ∀ chunk, (f chunk).prev = chunk.prev) :
    prev (amend heap p f) q = prev heap q := by
  rcases eq_or_ne q p with rfl | hne
  · cases h : heap q <;> simp [prev, amend, h, hf]
  · rw [prev, amend_of_ne hne, prev]

theorem next_amend_of_ne (h : q ≠ p) : next (amend heap p f) q = next heap q := by
  rw [next, amend_of_ne h, next]

theorem prev_amend_of_ne (h : q ≠ p) : prev (amend heap p f) q = prev heap q := by
  rw [prev, amend_of_ne h, prev]

theorem value_amend (hf : ∀ chunk, (f chunk).values = chunk.values) (a : Slot) :
    value N (amend heap p f) a = value N heap a := by
  rcases eq_or_ne a.1 p with hp | hne
  · cases h : heap a.1 <;> simp [value, amend, ← hp, h, hf]
  · rw [value, amend_of_ne hne, value]

theorem next_setNext (h : heap p ≠ none) : next (amend heap p ({ · with next := v })) p = v := by
  obtain ⟨chunk, hchunk⟩ := Option.ne_none_iff_exists'.mp h
  simp [next, amend, hchunk]

theorem prev_setPrev (h : heap p ≠ none) : prev (amend heap p ({ · with prev := v })) p = v := by
  obtain ⟨chunk, hchunk⟩ := Option.ne_none_iff_exists'.mp h
  simp [prev, amend, hchunk]

theorem value_store {a b : Slot} {x : α} (ha : heap a.1 ≠ none) (hN : a.2 < N) :
    value N (amend heap a.1 fun chunk =>
      { chunk with values := Function.update chunk.values a.2 x }) b =
      if b = a then some x else value N heap b := by
  obtain ⟨chunk, hchunk⟩ := Option.ne_none_iff_exists'.mp ha
  obtain ⟨p, i⟩ := a
  obtain ⟨q, j⟩ := b
  rcases eq_or_ne q p with rfl | hne
  · rcases eq_or_ne j i with rfl | hij
    · simp_all [value, amend]
    · simp_all [value, amend]
  · simp [value, amend_of_ne hne, hne]

theorem Pipe.store_eq {s : Pipe α} {a : Slot} {x : α} (h : s.heap a.1 ≠ none) (hN : a.2 < N) :
    s.store N a x = some { s with heap := amend s.heap a.1 fun chunk =>
      { chunk with values := Function.update chunk.values a.2 x } } := by
  rw [Pipe.store, if_pos hN, Pipe.modify_eq h]

theorem Pipe.setNext_eq {s : Pipe α} (h : s.heap p ≠ none) : s.setNext p v =
    some { s with heap := amend s.heap p ({ · with next := v }) } := Pipe.modify_eq h

theorem Pipe.setPrev_eq {s : Pipe α} (h : s.heap p ≠ none) : s.setPrev p v =
    some { s with heap := amend s.heap p ({ · with prev := v }) } := Pipe.modify_eq h

theorem Pipe.free_eq {s : Pipe α} (h : s.heap p ≠ none) : s.free (some p) =
    some { s with heap := Function.update s.heap p none } :=
  if_pos (Option.isSome_iff_ne_none.mpr h)

end

-- ---------------------------------------------------------------------------
-- The chunks by owner
-- ---------------------------------------------------------------------------

inductive Role
  | free
  /-- The place in the list of all chunks that were ever in line. -/
  | chain (k : Nat)
  | spare
  | writer
  | reader
deriving DecidableEq

/-- What the proof keeps beside the memory; a position counts the values in front
of it from the start of the pipe. -/
structure Ghost where
  role : Ptr → Role
  chunk : Nat → Ptr
  first : Nat
  last : Nat
  mine : Option Ptr
  theirs : Option Ptr
  front : Nat
  back : Nat
  r : Nat
  w : Nat
  f : Nat

def Ghost.slot (N : Nat) (g : Ghost) (i : Nat) : Slot := (g.chunk (i / N), i % N)

structure Memory (N : Nat) (g : Ghost) (heap : Heap α) (spare : Option Ptr) (written : List α) :
    Prop where
  pos : 0 < N
  low : g.first * N ≤ g.front
  high : written.length ≤ (g.last + 1) * N
  free : ∀ p, heap p = none ↔ g.role p = .free
  chain : ∀ p k, g.role p = .chain k ↔ g.first ≤ k ∧ k ≤ g.last ∧ g.chunk k = p
  spare : ∀ p, g.role p = .spare ↔ spare = some p
  mine : ∀ p, g.role p = .writer ↔ g.mine = some p
  theirs : ∀ p, g.role p = .reader ↔ g.theirs = some p
  next : ∀ k, g.first ≤ k → k < g.last → next heap (g.chunk k) = some (g.chunk (k + 1))
  prev : ∀ k, g.first ≤ k → k < g.last → prev heap (g.chunk (k + 1)) = some (g.chunk k)
  value : ∀ i, g.front ≤ i → i < written.length → value N heap (g.slot N i) = written[i]?

variable {N : Nat} {g : Ghost} {heap : Heap α} {spare : Option Ptr} {written : List α} {p q : Ptr}
  {k i j : Nat} {v : Option Ptr} {f : Chunk α → Chunk α} {x : α}

theorem Memory.role_chunk (h : Memory N g heap spare written) (hk : g.first ≤ k) (hk' : k ≤ g.last) :
    g.role (g.chunk k) = .chain k := (h.chain _ k).mpr ⟨hk, hk', rfl⟩

theorem Memory.chunk_ne_none (h : Memory N g heap spare written) (hk : g.first ≤ k)
    (hk' : k ≤ g.last) : heap (g.chunk k) ≠ none := by
  rw [ne_eq, h.free, h.role_chunk hk hk']
  exact Role.noConfusion

theorem Memory.chunk_inj (h : Memory N g heap spare written) (hj : g.first ≤ j)
    (hj' : j ≤ g.last) (hk : g.first ≤ k) (hk' : k ≤ g.last) (heq : g.chunk j = g.chunk k) :
    j = k := by
  have hrole := h.role_chunk hj hj'
  rw [heq, h.role_chunk hk hk'] at hrole
  exact (Role.chain.inj hrole).symm

theorem Memory.div (h : Memory N g heap spare written) (hi : g.first * N ≤ i)
    (hi' : i < (g.last + 1) * N) : g.first ≤ i / N ∧ i / N ≤ g.last :=
  ⟨(Nat.le_div_iff_mul_le h.pos).mpr hi,
    Nat.lt_succ_iff.mp (Nat.div_lt_of_lt_mul (Nat.mul_comm N _ ▸ hi'))⟩

theorem Memory.slot_inj (h : Memory N g heap spare written) (hi : g.first * N ≤ i)
    (hi' : i < (g.last + 1) * N) (hj : g.first * N ≤ j) (hj' : j < (g.last + 1) * N)
    (heq : g.slot N i = g.slot N j) : i = j := by
  obtain ⟨hchunk, hmod⟩ := Prod.ext_iff.mp heq
  have hdiv := h.chunk_inj (h.div hi hi').1 (h.div hi hi').2 (h.div hj hj').1 (h.div hj hj').2 hchunk
  rw [← Nat.div_add_mod i N, ← Nat.div_add_mod j N, hdiv, (show i % N = j % N from hmod)]

theorem Ghost.slot_eq (h : k * N + j = i) (hj : j < N) : g.slot N i = (g.chunk k, j) := by
  have hN : 0 < N := Nat.zero_lt_of_lt hj
  subst h
  rw [Ghost.slot, Nat.mul_comm, Nat.mul_add_div hN, Nat.div_eq_of_lt hj, Nat.mul_add_mod,
    Nat.mod_eq_of_lt hj, Nat.add_zero]

-- ---------------------------------------------------------------------------
-- A field of a chunk is written
-- ---------------------------------------------------------------------------

theorem Memory.setNext (h : Memory N g heap spare written) (hlast : g.first ≤ g.last) :
    Memory N g (amend heap (g.chunk g.last) ({ · with next := v })) spare written := by
  refine { h with
    free := fun q => amend_eq_none.trans (h.free q), next := fun k hk hk' => ?_
    prev := fun k hk hk' => (prev_amend (by simp)).trans (h.prev k hk hk')
    value := fun i hi hi' => (value_amend (by simp) _).trans (h.value i hi hi') }
  have hne : g.chunk k ≠ g.chunk g.last := fun heq =>
    Nat.ne_of_lt hk' (h.chunk_inj hk hk'.le hlast le_rfl heq)
  exact (next_amend_of_ne hne).trans (h.next k hk hk')

theorem Memory.setPrev (h : Memory N g heap spare written)
    (hp : ∀ k, g.first ≤ k → k < g.last → g.chunk (k + 1) ≠ p) :
    Memory N g (amend heap p ({ · with prev := v })) spare written := by
  exact { h with
    free := fun q => amend_eq_none.trans (h.free q)
    next := fun k hk hk' => (next_amend (by simp)).trans (h.next k hk hk')
    prev := fun k hk hk' => (prev_amend_of_ne (hp k hk hk')).trans (h.prev k hk hk')
    value := fun i hi hi' => (value_amend (by simp) _).trans (h.value i hi hi') }

theorem Memory.store (h : Memory N g heap spare written) (hfront : g.front ≤ written.length)
    (hlast : written.length < (g.last + 1) * N) :
    Memory N g (amend heap (g.slot N written.length).1 fun chunk =>
        { chunk with values := Function.update chunk.values (g.slot N written.length).2 x })
      spare (written ++ [x]) := by
  have hlow : g.first * N ≤ written.length := h.low.trans hfront
  have hheap : heap (g.slot N written.length).1 ≠ none :=
    h.chunk_ne_none (h.div hlow hlast).1 (h.div hlow hlast).2
  refine { h with
    high := by simpa using Nat.succ_le_of_lt hlast, free := fun q => amend_eq_none.trans (h.free q)
    next := fun k hk hk' => (next_amend (by simp)).trans (h.next k hk hk')
    prev := fun k hk hk' => (prev_amend (by simp)).trans (h.prev k hk hk')
    value := fun i hi hi' => ?_ }
  rw [value_store hheap (Nat.mod_lt _ h.pos)]
  rw [List.length_append, List.length_singleton, Nat.lt_succ_iff] at hi'
  rcases eq_or_lt_of_le hi' with rfl | hlt
  · simp
  · have hne : g.slot N i ≠ g.slot N written.length := fun heq => Nat.ne_of_lt hlt
      (h.slot_inj (h.low.trans hi) (hlt.trans hlast) hlow hlast heq)
    rw [if_neg hne, h.value i hi hlt, List.getElem?_append_left hlt]

theorem Memory.dropLast (h : Memory N g heap spare written) :
    Memory N g heap spare written.dropLast := by
  have hle : written.dropLast.length ≤ written.length := by simp
  refine { h with high := hle.trans h.high, value := fun i hi hi' => ?_ }
  rw [List.getElem?_dropLast, if_pos (by simpa using hi')]
  exact h.value i hi (hi'.trans_le hle)

theorem Memory.advance (h : Memory N g heap spare written) :
    Memory N { g with front := g.front + 1 } heap spare written :=
  { h with
    low := h.low.trans (Nat.le_succ _)
    value := fun i hi hi' => h.value i (Nat.le_of_succ_le hi) hi' }

-- ---------------------------------------------------------------------------
-- A chunk is handed on
-- ---------------------------------------------------------------------------

section
variable {o : Option (Chunk α)}

theorem Memory.off (h : Memory N g heap spare written) (hp : ∀ k, g.role p ≠ .chain k) :
    (∀ k, g.first ≤ k → k < g.last →
      Yqueue.next (Function.update heap p o) (g.chunk k) = some (g.chunk (k + 1))) ∧
    (∀ k, g.first ≤ k → k < g.last →
      Yqueue.prev (Function.update heap p o) (g.chunk (k + 1)) = some (g.chunk k)) ∧
    ∀ i, g.front ≤ i → i < written.length →
      Yqueue.value N (Function.update heap p o) (g.slot N i) = written[i]? := by
  have hne : ∀ k, g.first ≤ k → k ≤ g.last → g.chunk k ≠ p := by
    rintro k hk hk' rfl
    exact hp k (h.role_chunk hk hk')
  refine ⟨fun k hk hk' => ?_, fun k hk hk' => ?_, fun i hi hi' => ?_⟩
  · rw [Yqueue.next, Function.update_of_ne (hne k hk hk'.le)]
    exact h.next k hk hk'
  · rw [Yqueue.prev, Function.update_of_ne (hne _ (Nat.le_succ_of_le hk) hk')]
    exact h.prev k hk hk'
  · have hdiv := h.div (h.low.trans hi) (hi'.trans_le h.high)
    rw [Yqueue.value, Ghost.slot, Function.update_of_ne (hne _ hdiv.1 hdiv.2)]
    exact h.value i hi hi'

end

theorem Memory.takeSpare (h : Memory N g heap (some p) written) (hmine : g.mine = none) :
    Memory N { g with role := Function.update g.role p .writer, mine := some p } heap none
      written := by
  have hp : g.role p = .spare := (h.spare p).mpr rfl
  refine { h with free := fun q => ?_, chain := fun q k => ?_, spare := fun q => ?_
                  mine := fun q => ?_, theirs := fun q => ?_ }
  all_goals rcases eq_or_ne q p with rfl | hne
  all_goals grind [h.free q, h.chain q, h.spare q, h.mine q, h.theirs q, Function.update_apply]

theorem Memory.malloc (h : Memory N g heap spare written) (hmine : g.mine = none)
    (hp : heap p = none) {chunk : Chunk α} :
    Memory N { g with role := Function.update g.role p .writer, mine := some p }
      (Function.update heap p (some chunk)) spare written := by
  have hrole : g.role p = .free := (h.free p).mp hp
  obtain ⟨hnext, hprev, hvalue⟩ := h.off (p := p) (o := some chunk) (by simp [hrole])
  refine { h with free := fun q => ?_, chain := fun q k => ?_, spare := fun q => ?_
                  mine := fun q => ?_, theirs := fun q => ?_
                  next := hnext, prev := hprev, value := hvalue }
  all_goals rcases eq_or_ne q p with rfl | hne
  all_goals grind [h.free q, h.chain q, h.spare q, h.mine q, h.theirs q, Function.update_apply]

theorem Memory.freeMine (h : Memory N g heap spare written) (hp : g.mine = some p) :
    Memory N { g with role := Function.update g.role p .free, mine := none }
      (Function.update heap p none) spare written := by
  have hrole : g.role p = .writer := (h.mine p).mpr hp
  obtain ⟨hnext, hprev, hvalue⟩ := h.off (p := p) (o := none) (by simp [hrole])
  refine { h with free := fun q => ?_, chain := fun q k => ?_, spare := fun q => ?_
                  mine := fun q => ?_, theirs := fun q => ?_
                  next := hnext, prev := hprev, value := hvalue }
  all_goals rcases eq_or_ne q p with rfl | hne
  all_goals grind [h.free q, h.chain q, h.spare q, h.mine q, h.theirs q, Function.update_apply]

theorem Memory.freeTheirs (h : Memory N g heap spare written) (hp : g.theirs = some p) :
    Memory N { g with role := Function.update g.role p .free, theirs := none }
      (Function.update heap p none) spare written := by
  have hrole : g.role p = .reader := (h.theirs p).mpr hp
  obtain ⟨hnext, hprev, hvalue⟩ := h.off (p := p) (o := none) (by simp [hrole])
  refine { h with free := fun q => ?_, chain := fun q k => ?_, spare := fun q => ?_
                  mine := fun q => ?_, theirs := fun q => ?_
                  next := hnext, prev := hprev, value := hvalue }
  all_goals rcases eq_or_ne q p with rfl | hne
  all_goals grind [h.free q, h.chain q, h.spare q, h.mine q, h.theirs q, Function.update_apply]

theorem Memory.giveSpare (h : Memory N g heap spare written) (hp : g.theirs = some p) :
    ∃ role, Memory N { g with role := role, theirs := spare } heap (some p) written := by
  have hrole : g.role p = .reader := (h.theirs p).mpr hp
  refine ⟨fun q => if q = p then .spare else if spare = some q then .reader else g.role q, ?_⟩
  refine { h with free := fun q => ?_, chain := fun q k => ?chain, spare := fun q => ?_
                  mine := fun q => ?_, theirs := fun q => ?_ }
  case chain =>
    rcases eq_or_ne q p with rfl | hne
    · grind [h.chain q k]
    · grind [h.chain q k, h.spare q]
  all_goals rcases eq_or_ne q p with rfl | hne
  all_goals grind [h.free q, h.spare q, h.mine q, h.theirs q]

theorem Memory.moveEnd (h : Memory N g heap spare written) (hmine : g.mine = some p)
    (hlast : g.first ≤ g.last) (hnext : Yqueue.next heap (g.chunk g.last) = some p)
    (hprev : Yqueue.prev heap p = some (g.chunk g.last)) :
    Memory N { g with
      role := Function.update g.role p (.chain (g.last + 1))
      chunk := Function.update g.chunk (g.last + 1) p
      last := g.last + 1, mine := none } heap spare written := by
  have hrole : g.role p = .writer := (h.mine p).mpr hmine
  have hold : ∀ k, k ≤ g.last → Function.update g.chunk (g.last + 1) p k = g.chunk k :=
    fun k hk => Function.update_of_ne (Nat.ne_of_lt (Nat.lt_succ_of_le hk)) ..
  refine { h with high := h.high.trans (Nat.mul_le_mul_right N (Nat.le_succ _))
                  free := fun q => ?_, chain := fun q k => ?_, spare := fun q => ?_
                  mine := fun q => ?_, theirs := fun q => ?_
                  next := fun k hk hk' => ?next, prev := fun k hk hk' => ?prev
                  value := fun i hi hi' => ?value }
  case next =>
    rcases eq_or_lt_of_le (Nat.lt_succ_iff.mp hk') with rfl | hlt
    · simpa [hold _ le_rfl] using hnext
    · simpa [hold _ hlt.le, hold _ hlt] using h.next k hk hlt
  case prev =>
    rcases eq_or_lt_of_le (Nat.lt_succ_iff.mp hk') with rfl | hlt
    · simpa [hold _ le_rfl] using hprev
    · simpa [hold _ hlt.le, hold _ hlt] using h.prev k hk hlt
  case value =>
    have hdiv := h.div (h.low.trans hi) (hi'.trans_le h.high)
    simpa [Ghost.slot, hold _ hdiv.2] using h.value i hi hi'
  all_goals rcases eq_or_ne q p with rfl | hne
  all_goals grind [h.free q, h.chain q, h.spare q, h.mine q, h.theirs q, Function.update_apply]

theorem Memory.unpushEnd (h : Memory N g heap spare written) (hmine : g.mine = none)
    (hlast : g.first < g.last) (hhigh : written.length ≤ g.last * N) :
    Memory N { g with
      role := Function.update g.role (g.chunk g.last) .writer
      last := g.last - 1, mine := some (g.chunk g.last) } heap spare written := by
  have hrole : g.role (g.chunk g.last) = .chain g.last := h.role_chunk hlast.le le_rfl
  refine { h with high := by simpa [Nat.sub_add_cancel (Nat.one_le_of_lt hlast)] using hhigh
                  free := fun q => ?_, chain := fun q k => ?_, spare := fun q => ?_
                  mine := fun q => ?_, theirs := fun q => ?_
                  next := fun k hk hk' => h.next k hk (hk'.trans_le (Nat.sub_le _ _))
                  prev := fun k hk hk' => h.prev k hk (hk'.trans_le (Nat.sub_le _ _)) }
  all_goals rcases eq_or_ne q (g.chunk g.last) with heq | hne
  all_goals grind [h.free q, h.chain q, h.spare q, h.mine q, h.theirs q, Function.update_apply]

theorem Memory.moveBegin (h : Memory N g heap spare written) (htheirs : g.theirs = none)
    (hlast : g.first < g.last) (hlow : (g.first + 1) * N ≤ g.front) :
    Memory N { g with
      role := Function.update g.role (g.chunk g.first) .reader
      first := g.first + 1, theirs := some (g.chunk g.first) } heap spare written := by
  have hrole : g.role (g.chunk g.first) = .chain g.first := h.role_chunk le_rfl hlast.le
  refine { h with low := hlow
                  free := fun q => ?_, chain := fun q k => ?_, spare := fun q => ?_
                  mine := fun q => ?_, theirs := fun q => ?_
                  next := fun k hk hk' => h.next k (Nat.le_of_succ_le hk) hk'
                  prev := fun k hk hk' => h.prev k (Nat.le_of_succ_le hk) hk' }
  all_goals rcases eq_or_ne q (g.chunk g.first) with heq | hne
  all_goals grind [h.free q, h.chain q, h.spare q, h.mine q, h.theirs q, Function.update_apply]

end LearningCode.Yqueue

/-!
## Where the two threads stand

The marks `r`, `w`, `f`, front and back are positions in one sequence of values,
in this order, and the addresses the code compares tell them apart. What a
thread knows between two of its steps is not disturbed by the other.
-/

namespace LearningCode.Yqueue

variable {α : Type} {N : Nat} {g g' : Ghost} {s s' : Pipe α} {p : Ptr} {i j : Nat}

structure Marks (N : Nat) (g : Ghost) (s : Pipe α) : Prop where
  front_le : g.front ≤ g.r
  r_le : g.r ≤ g.w
  w_le : g.w ≤ g.f
  f_le : g.f ≤ g.back
  back_le : g.back ≤ s.written.length
  back_lt : g.back < (g.last + 1) * N
  back : s.back = g.slot N g.back
  f : s.f = g.slot N g.f
  w : s.w = g.slot N g.w
  c : s.c = if s.asleep then none else some (g.slot N g.w)
  r : ∀ a, s.r = some a → a = g.slot N g.r
  begin : s.beginChunk = g.chunk g.first
  asleep : s.asleep = true → g.w = g.front
  complete : s.complete = s.written.take g.f
  visible : s.visible = s.written.take g.w

/-- The end of the chunks, one place behind the back and `past` more; `ahead`
values are written behind the back. -/
structure End (N : Nat) (g : Ghost) (s : Pipe α) (ahead past : Nat) (mine : Option Ptr) : Prop where
  chunk : s.endChunk = g.chunk g.last
  pos : g.last * N + s.endPos = g.back + 1 + past
  mine : g.mine = mine
  length : s.written.length = g.back + ahead

def Writing (N : Nat) (g : Ghost) (s : Pipe α) : Writer α → Prop
  | .push _ => End N g s 1 0 none ∧ s.endPos < N
  | .takeSpare _ => End N g s 0 0 none ∧ s.endPos = N
  | .linkSpare _ sc => End N g s 0 0 (some sc) ∧ s.endPos = N
  | .backSpare _ sc =>
    (End N g s 0 0 (some sc) ∧ s.endPos = N) ∧ next s.heap (g.chunk g.last) = some sc
  | .malloc _ => End N g s 0 0 none ∧ s.endPos = N
  | .backNew _ => ∃ p, (End N g s 0 0 (some p) ∧ s.endPos = N) ∧
      next s.heap (g.chunk g.last) = some p
  | .moveEnd _ => ∃ p, (End N g s 0 0 (some p) ∧ s.endPos = N) ∧
      next s.heap (g.chunk g.last) = some p ∧ prev s.heap p = some (g.chunk g.last)
  | .unpushBack => (End N g s 0 0 none ∧ s.endPos < N) ∧ g.f < g.back
  | .unpushEnd => End N g s 1 1 none ∧ s.endPos < N
  | .freeEnd => ∃ p, (End N g s 1 0 (some p) ∧ s.endPos < N) ∧
      next s.heap (g.chunk g.last) = some p
  | .clearNext => End N g s 1 0 none ∧ s.endPos < N
  | .load => End N g s 1 0 none ∧ s.endPos < N
  | .setC => (End N g s 0 0 none ∧ s.endPos < N) ∧ s.asleep = true
  | _ => End N g s 0 0 none ∧ s.endPos < N

/-- The front, with one more value taken where `ahead` is 1. -/
structure Front (N : Nat) (g : Ghost) (s : Pipe α) (ahead : Nat) (theirs : Option Ptr) : Prop where
  pos : g.first * N + s.beginPos = g.front
  lt : s.beginPos < N
  theirs : g.theirs = theirs
  taken : s.taken = s.written.take (g.front + ahead)

def Reading (N : Nat) (g : Ghost) (s : Pipe α) : Reader α → Prop
  | .load => Front N g s 0 none ∧ g.front < g.r
  | .pop _ => Front N g s 1 none ∧ g.front < g.r
  | .moveBegin _ => g.theirs = none ∧ s.taken = s.written.take g.front ∧
      (g.first + 1) * N = g.front
  | .clearPrev _ o => g.theirs = some o ∧ s.taken = s.written.take g.front ∧
      g.first * N = g.front
  | .giveSpare _ o => Front N g s 0 (some o)
  | .freeSpare _ cs => Front N g s 0 cs
  | _ => Front N g s 0 none

def Reader.value : Reader α → Option α
  | .pop x => some x
  | .moveBegin x => some x
  | .clearPrev x _ => some x
  | .giveSpare x _ => some x
  | .freeSpare x _ => some x
  | .got value => value
  | _ => none

structure Inv (N : Nat) (g : Ghost) (s : Pipe α) : Prop where
  memory : Memory N g s.heap s.spareChunk s.written
  marks : Marks N g s
  writing : Writing N g s s.writer
  reading : Reading N g s s.reader
  returns : ∀ x, s.reader.value = some x → s.taken.getLast? = some x

-- ---------------------------------------------------------------------------
-- What a thread knows is not disturbed
-- ---------------------------------------------------------------------------

theorem End.frame {ahead past : Nat} {mine : Option Ptr} (h : End N g s ahead past mine)
    (hchunk : g'.chunk = g.chunk) (hlast : g'.last = g.last) (hback : g'.back = g.back)
    (hmine : g'.mine = g.mine) (hend : s'.endChunk = s.endChunk) (hpos : s'.endPos = s.endPos)
    (hwritten : s'.written = s.written) : End N g' s' ahead past mine where
  chunk := by rw [hend, hchunk, hlast, h.chunk]
  pos := by rw [hlast, hpos, hback, h.pos]
  mine := by rw [hmine, h.mine]
  length := by rw [hwritten, hback, h.length]

theorem Writing.frame {k : Writer α} (h : Writing N g s k) (hchunk : g'.chunk = g.chunk)
    (hlast : g'.last = g.last) (hback : g'.back = g.back) (hmine : g'.mine = g.mine)
    (hf : g'.f = g.f) (hend : s'.endChunk = s.endChunk) (hpos : s'.endPos = s.endPos)
    (hwritten : s'.written = s.written) (hasleep : s.asleep = true → s'.asleep = true)
    (hnext : next s'.heap (g.chunk g.last) = next s.heap (g.chunk g.last))
    (hprev : ∀ p, g.mine = some p → prev s'.heap p = prev s.heap p) : Writing N g' s' k := by
  have hframe : ∀ {ahead past : Nat} {mine : Option Ptr}, End N g s ahead past mine →
      End N g' s' ahead past mine :=
    fun h => h.frame hchunk hlast hback hmine hend hpos hwritten
  cases k
  case backSpare => exact ⟨⟨hframe h.1.1, hpos ▸ h.1.2⟩, by rw [hchunk, hlast, hnext, h.2]⟩
  case backNew =>
    obtain ⟨p, ⟨hend, hfull⟩, hp⟩ := h
    exact ⟨p, ⟨hframe hend, hpos ▸ hfull⟩, by rw [hchunk, hlast, hnext, hp]⟩
  case moveEnd =>
    obtain ⟨p, ⟨hend, hfull⟩, hp, hback⟩ := h
    refine ⟨p, ⟨hframe hend, hpos ▸ hfull⟩, by rw [hchunk, hlast, hnext, hp], ?_⟩
    rw [hprev p hend.mine, hback, hchunk, hlast]
  case unpushBack => exact ⟨⟨hframe h.1.1, hpos ▸ h.1.2⟩, by rw [hf, hback]; exact h.2⟩
  case freeEnd =>
    obtain ⟨p, ⟨hend, hlt⟩, hp⟩ := h
    exact ⟨p, ⟨hframe hend, hpos ▸ hlt⟩, by rw [hchunk, hlast, hnext, hp]⟩
  case setC => exact ⟨⟨hframe h.1.1, hpos ▸ h.1.2⟩, hasleep h.2⟩
  all_goals exact ⟨hframe h.1, hpos ▸ h.2⟩

theorem Front.frame {ahead : Nat} {theirs : Option Ptr} (h : Front N g s ahead theirs)
    (hfirst : g'.first = g.first) (hfront : g'.front = g.front) (htheirs : g'.theirs = g.theirs)
    (hpos : s'.beginPos = s.beginPos) (htaken : s'.taken = s.taken)
    (hwritten : s'.written.take (g.front + ahead) = s.written.take (g.front + ahead)) :
    Front N g' s' ahead theirs where
  pos := by rw [hfirst, hpos, hfront, h.pos]
  lt := hpos ▸ h.lt
  theirs := by rw [htheirs, h.theirs]
  taken := by rw [htaken, h.taken, hfront, hwritten]

theorem Reading.frame {k : Reader α} (h : Reading N g s k) (hle : g.front ≤ g.r)
    (hfirst : g'.first = g.first) (hfront : g'.front = g.front) (htheirs : g'.theirs = g.theirs)
    (hr : g'.r = g.r) (hpos : s'.beginPos = s.beginPos) (htaken : s'.taken = s.taken)
    (hwritten : ∀ i, i ≤ g.r → s'.written.take i = s.written.take i) : Reading N g' s' k := by
  have hframe : ∀ {theirs : Option Ptr}, Front N g s 0 theirs → Front N g' s' 0 theirs :=
    fun h => h.frame hfirst hfront htheirs hpos htaken (hwritten _ hle)
  cases k
  case load => exact ⟨hframe h.1, by rw [hfront, hr]; exact h.2⟩
  case pop =>
    exact ⟨h.1.frame hfirst hfront htheirs hpos htaken (hwritten _ h.2),
      by rw [hfront, hr]; exact h.2⟩
  case moveBegin =>
    obtain ⟨h₁, h₂, h₃⟩ := h
    exact ⟨htheirs.trans h₁, by rw [htaken, h₂, hfront, hwritten _ hle], by rw [hfirst, h₃, hfront]⟩
  case clearPrev =>
    obtain ⟨h₁, h₂, h₃⟩ := h
    exact ⟨htheirs.trans h₁, by rw [htaken, h₂, hfront, hwritten _ hle], by rw [hfirst, h₃, hfront]⟩
  all_goals exact hframe h

-- ---------------------------------------------------------------------------
-- The comparisons of addresses
-- ---------------------------------------------------------------------------

theorem Inv.slot_inj (h : Inv N g s) (hi : g.front ≤ i) (hi' : i ≤ g.back) (hj : g.front ≤ j)
    (hj' : j ≤ g.back) : g.slot N i = g.slot N j ↔ i = j := by
  refine ⟨fun heq => ?_, fun heq => heq ▸ rfl⟩
  have hlow := h.memory.low
  have hlt := h.marks.back_lt
  exact h.memory.slot_inj (hlow.trans hi) (hi'.trans_lt hlt) (hlow.trans hj) (hj'.trans_lt hlt) heq

theorem Inv.first_le (h : Inv N g s) : g.first ≤ g.last := by
  have hm := h.marks
  have hle : g.first * N ≤ g.back :=
    h.memory.low.trans (hm.front_le.trans (hm.r_le.trans (hm.w_le.trans hm.f_le)))
  exact Nat.lt_succ_iff.mp (Nat.lt_of_mul_lt_mul_right (hle.trans_lt hm.back_lt))

theorem Inv.f_eq_back (h : Inv N g s) : s.f = s.back ↔ g.f = g.back := by
  have hm := h.marks
  have hf := hm.front_le.trans (hm.r_le.trans hm.w_le)
  rw [hm.f, hm.back]
  exact h.slot_inj hf hm.f_le (hf.trans hm.f_le) le_rfl

theorem Inv.front_eq {theirs : Option Ptr} {ahead : Nat} (h : Inv N g s)
    (hfront : Front N g s ahead theirs) : s.front = g.slot N g.front := by
  rw [Ghost.slot_eq hfront.pos hfront.lt, Pipe.front, h.marks.begin]

theorem Inv.c_eq_w (h : Inv N g s) : s.c = some s.w ↔ s.asleep = false := by
  rw [h.marks.c, h.marks.w]
  cases s.asleep <;> simp

end LearningCode.Yqueue
