import LearningCode.Yqueue.Delivery

/-!
# The chunks of the pipe

The two threads do not get at one cell of a chunk at the same time, one of them
to write it, and the destructor frees every chunk that is left.
-/

namespace LearningCode.Yqueue

open Transition

variable {α : Type} {N : Nat} {g : Ghost} {s : Pipe α} {p : Ptr}

-- ---------------------------------------------------------------------------
-- Accesses to one cell
-- ---------------------------------------------------------------------------

inductive Cell
  | value (a : Slot)
  | next (p : Ptr)
  | prev (p : Ptr)
deriving DecidableEq

def Cell.chunk : Cell → Ptr
  | .value a => a.1
  | .next p => p
  | .prev p => p

def writerWrites (s : Pipe α) (cell : Cell) : Writer α → Prop
  | .store _ _ => cell = .value s.back
  | .linkSpare _ _ => cell = .next s.endChunk
  | .backSpare _ sc => cell = .prev sc
  | .malloc _ => cell = .next s.endChunk
  | .backNew _ => ∃ p, next s.heap s.endChunk = some p ∧ cell = .prev p
  | .freeEnd => ∃ p, next s.heap s.endChunk = some p ∧ cell.chunk = p
  | .clearNext => cell = .next s.endChunk
  | _ => False

def writerReads (s : Pipe α) (cell : Cell) : Writer α → Prop
  | .backNew _ => cell = .next s.endChunk
  | .moveEnd _ => cell = .next s.endChunk
  | .unpushBack => s.backPos = 0 ∧ cell = .prev s.backChunk
  | .unpushEnd => s.endPos = 0 ∧ cell = .prev s.endChunk
  | .freeEnd => cell = .next s.endChunk
  | .load => cell = .value s.back
  | _ => False

def readerWrites (s : Pipe α) (cell : Cell) : Reader α → Prop
  | .clearPrev _ _ => cell = .prev s.beginChunk
  | .freeSpare _ cs => cs = some cell.chunk
  | _ => False

def readerReads (s : Pipe α) (cell : Cell) : Reader α → Prop
  | .load => cell = .value s.front
  | .moveBegin _ => cell = .next s.beginChunk
  | _ => False

/-- Both threads are about to access one cell, and one of them writes it. -/
def Race (s : Pipe α) : Prop :=
  ∃ cell, writerWrites s cell s.writer ∧ (readerReads s cell s.reader ∨ readerWrites s cell s.reader) ∨
    writerReads s cell s.writer ∧ readerWrites s cell s.reader

/-- The cells the writer is at: its own chunk, the place behind the values that
can be read, the last link, and the links back from chunks that are not first. -/
inductive WriterAt (N : Nat) (g : Ghost) : Cell → Prop
  | own (cell : Cell) : g.role cell.chunk = .writer → WriterAt N g cell
  | back : WriterAt N g (.value (g.slot N g.back))
  | next : WriterAt N g (.next (g.chunk g.last))
  | prev (k : Nat) : g.first < k → k ≤ g.last → WriterAt N g (.prev (g.chunk k))

inductive ReaderAt (N : Nat) (g : Ghost) : Cell → Prop
  | own (cell : Cell) : g.role cell.chunk = .reader → ReaderAt N g cell
  | front : g.front < g.back → ReaderAt N g (.value (g.slot N g.front))
  | next : g.first < g.last → ReaderAt N g (.next (g.chunk g.first))
  | prev : ReaderAt N g (.prev (g.chunk g.first))

theorem Inv.slot_chunk (h : Inv N g s) {i : Nat} (hi : g.front ≤ i) (hi' : i ≤ g.back) :
    g.role (g.slot N i).1 = .chain (i / N) := by
  have hdiv := h.memory.div (h.memory.low.trans hi) (hi'.trans_lt h.marks.back_lt)
  exact h.memory.role_chunk hdiv.1 hdiv.2

theorem Inv.apart (h : Inv N g s) {cell : Cell} (hw : WriterAt N g cell) (hr : ReaderAt N g cell) :
    False := by
  have hfirst := h.memory.role_chunk le_rfl h.first_le
  have hlast := h.memory.role_chunk h.first_le le_rfl
  have hle := h.front_le_f.trans h.marks.f_le
  cases hw with
  | own _ hrole =>
    cases hr with
    | own _ hrole' => rw [hrole] at hrole'; cases hrole'
    | front => simp [Cell.chunk, h.slot_chunk le_rfl hle] at hrole
    | next => simp [Cell.chunk, hfirst] at hrole
    | prev => simp [Cell.chunk, hfirst] at hrole
  | back =>
    generalize hcell : Cell.value (g.slot N g.back) = cell at hr
    cases hr with
    | own _ hrole =>
      subst hcell
      simp [Cell.chunk, h.slot_chunk hle le_rfl] at hrole
    | front hlt => exact Nat.ne_of_gt hlt ((h.slot_inj hle le_rfl le_rfl hle).mp (Cell.value.inj hcell))
    | next => cases hcell
    | prev => cases hcell
  | next =>
    generalize hcell : Cell.next (g.chunk g.last) = cell at hr
    cases hr with
    | own _ hrole =>
      subst hcell
      simp [Cell.chunk, hlast] at hrole
    | front => cases hcell
    | next hlt =>
      exact Nat.ne_of_gt hlt
        (h.memory.chunk_inj h.first_le le_rfl le_rfl h.first_le (Cell.next.inj hcell))
    | prev => cases hcell
  | prev k hk hk' =>
    generalize hcell : Cell.prev (g.chunk k) = cell at hr
    cases hr with
    | own _ hrole =>
      subst hcell
      simp [Cell.chunk, h.memory.role_chunk hk.le hk'] at hrole
    | front => cases hcell
    | next => cases hcell
    | prev =>
      exact Nat.ne_of_gt hk
        (h.memory.chunk_inj hk.le hk' le_rfl h.first_le (Cell.prev.inj hcell))

theorem Inv.writerAt (h : Inv N g s) {cell : Cell}
    (hcell : writerWrites s cell s.writer ∨ writerReads s cell s.writer) : WriterAt N g cell := by
  have hw := h.writing
  have hback := h.marks.back
  have hown : ∀ p, g.mine = some p → g.role p = .writer := fun p hp => (h.memory.mine p).mpr hp
  cases hpc : s.writer <;> rw [hpc] at hw hcell <;>
    simp only [writerWrites, writerReads, or_false, false_or] at hcell
  case store =>
    subst hcell
    exact hback ▸ .back
  case linkSpare =>
    subst hcell
    exact hw.1.chunk ▸ .next
  case backSpare =>
    subst hcell
    exact .own _ (hown _ hw.1.1.mine)
  case malloc =>
    subst hcell
    exact hw.1.chunk ▸ .next
  case backNew =>
    obtain ⟨p, ⟨hend, -⟩, hnext⟩ := hw
    rcases hcell with ⟨q, hq, rfl⟩ | rfl
    · rw [hend.chunk, hnext, Option.some.injEq] at hq
      exact .own _ (hown _ (hq ▸ hend.mine))
    · exact hend.chunk ▸ .next
  case moveEnd =>
    obtain ⟨p, ⟨hend, -⟩, -⟩ := hw
    subst hcell
    exact hend.chunk ▸ .next
  case unpushBack =>
    obtain ⟨hzero, rfl⟩ := hcell
    obtain ⟨hchunk, -⟩ := Prod.ext_iff.mp hback
    have hat : WriterAt N g (.prev (g.chunk (g.back / N))) :=
      .prev _ (h.first_lt_back hw.2 hzero) h.back_le_last
    rwa [← show s.backChunk = g.chunk (g.back / N) from hchunk] at hat
  case unpushEnd =>
    obtain ⟨hzero, rfl⟩ := hcell
    exact hw.1.chunk ▸ .prev _ (h.first_lt_last hw.1 hzero) le_rfl
  case freeEnd =>
    obtain ⟨p, ⟨hend, -⟩, hnext⟩ := hw
    rcases hcell with ⟨q, hq, hcell⟩ | rfl
    · rw [hend.chunk, hnext, Option.some.injEq] at hq
      exact .own _ (hown _ (by rw [hcell, ← hq, hend.mine]))
    · exact hend.chunk ▸ .next
  case clearNext =>
    subst hcell
    exact hw.1.chunk ▸ .next
  case load =>
    subst hcell
    exact hback ▸ .back

theorem Inv.readerAt (h : Inv N g s) {cell : Cell}
    (hcell : readerWrites s cell s.reader ∨ readerReads s cell s.reader) : ReaderAt N g cell := by
  have hr := h.reading
  cases hpc : s.reader <;> rw [hpc] at hr hcell <;>
    simp only [readerWrites, readerReads, or_false, false_or] at hcell
  case load =>
    subst hcell
    rw [h.front_eq hr.1]
    exact .front (hr.2.trans_le (h.marks.r_le.trans (h.marks.w_le.trans h.marks.f_le)))
  case moveBegin =>
    subst hcell
    rw [h.marks.begin]
    refine .next (Nat.lt_of_succ_lt_succ (Nat.lt_of_mul_lt_mul_right (a := N) ?_))
    rw [Nat.succ_eq_add_one, hr.2.2]
    exact (h.front_le_f.trans h.marks.f_le).trans_lt h.marks.back_lt
  case clearPrev =>
    subst hcell
    exact h.marks.begin ▸ .prev
  case freeSpare =>
    exact .own _ ((h.memory.theirs _).mpr (Front.theirs hr |>.trans hcell))

/-- In no interleaving are both threads at one cell of a chunk while one of them
writes or frees it. -/
theorem pipe_no_race (hN : 0 < N) (h : Reach (pipe α N) Granted s) : ¬Race s := by
  obtain ⟨g, hinv⟩ := inv_of_reach hN h
  rintro ⟨cell, ⟨hw, hr⟩ | ⟨hw, hr⟩⟩
  · exact hinv.apart (hinv.writerAt (.inl hw)) (hinv.readerAt hr.symm)
  · exact hinv.apart (hinv.writerAt (.inr hw)) (hinv.readerAt (.inl hr))

theorem pipe_no_race_oneItem : ∃ s : Pipe Nat, s.taken = [7] ∧ ¬Race s := by
  obtain ⟨s, -, hreach, htaken⟩ := reach_oneItem
  exact ⟨s, htaken, pipe_no_race (by decide) hreach⟩

-- ---------------------------------------------------------------------------
-- The destructor
-- ---------------------------------------------------------------------------

structure Left (N : Nat) (g : Ghost) (s : Pipe α) : Prop where
  memory : Memory N g s.heap s.spareChunk s.written
  mine : g.mine = none
  theirs : g.theirs = none
  front : (g.last + 1) * N ≤ g.front
  first_le : g.first ≤ g.last
  begin : s.beginChunk = g.chunk g.first
  last : s.endChunk = g.chunk g.last

theorem Inv.left (h : Inv N g s) (hw : s.writer.returned) (hr : s.reader.returned) :
    ∃ g', Left N g' s := by
  obtain ⟨hend, -⟩ := h.steady hw
  have hfront := h.settled hr
  refine ⟨{ g with front := (g.last + 1) * N }, { h.memory with low := ?_, value := ?_ },
    hend.mine, hfront.theirs, le_rfl, h.first_le, h.marks.begin, hend.chunk⟩
  · exact Nat.mul_le_mul_right N (Nat.le_succ_of_le h.first_le)
  · exact fun i hi hi' => absurd (hi.trans_lt hi') (Nat.not_lt_of_le h.memory.high)

theorem Left.begin_ne_none (h : Left N g s) : s.heap s.beginChunk ≠ none :=
  h.begin ▸ h.memory.chunk_ne_none le_rfl h.first_le

theorem Left.pop (h : Left N g s) (hlt : g.first < g.last) : ∃ p g',
    next s.heap s.beginChunk = some p ∧ g'.first = g.first + 1 ∧ g'.last = g.last ∧
      Left N g' { s with beginChunk := p, heap := Function.update s.heap s.beginChunk none } := by
  have hnext := h.memory.next _ le_rfl hlt
  have hlow : (g.first + 1) * N ≤ g.front :=
    (Nat.mul_le_mul_right N (Nat.succ_le_succ h.first_le)).trans h.front
  have hmoved := (h.memory.moveBegin h.theirs hlt hlow).freeTheirs rfl
  rw [← h.begin] at hnext hmoved
  refine ⟨g.chunk (g.first + 1), { g with
    role := Function.update (Function.update g.role s.beginChunk .reader) s.beginChunk .free
    first := g.first + 1, theirs := none }, hnext, rfl, rfl, ?_⟩
  exact ⟨hmoved, h.mine, rfl, h.front, hlt, rfl, h.last⟩

theorem Left.finish (h : Left N g s) (heq : g.first = g.last) (turns : Nat) :
    ∃ s', destruct (turns + 1) s = some s' ∧ ∀ p, s'.heap p = none := by
  have hbegin : s.beginChunk = s.endChunk := by rw [h.begin, h.last, heq]
  have hrole : g.role s.beginChunk = .chain g.first := h.begin ▸ h.memory.role_chunk le_rfl h.first_le
  -- a chunk has one of the two addresses, or is free already
  have hrest : ∀ p, p ≠ s.beginChunk → s.spareChunk ≠ some p → s.heap p = none := by
    intro p hp hspare
    rw [h.memory.free]
    cases hpr : g.role p with
    | free => rfl
    | chain k =>
      obtain ⟨hk, hk', rfl⟩ := (h.memory.chain p k).mp hpr
      exact absurd (by rw [h.begin, Nat.le_antisymm (heq ▸ hk') hk]) hp
    | spare => exact absurd ((h.memory.spare p).mp hpr) hspare
    | writer => exact absurd (((h.memory.mine p).mp hpr).symm.trans h.mine) (Option.some_ne_none p)
    | reader => exact absurd (((h.memory.theirs p).mp hpr).symm.trans h.theirs) (Option.some_ne_none p)
  have hrun : destruct (turns + 1) s = Pipe.free
      { s with heap := Function.update s.heap s.beginChunk none, spareChunk := none } s.spareChunk := by
    rw [destruct, if_pos hbegin, Pipe.free_eq h.begin_ne_none]
    rfl
  rw [hrun]
  cases hspare : s.spareChunk with
  | none =>
    refine ⟨_, rfl, fun p => ?_⟩
    by_cases hp : p = s.beginChunk
    · exact hp ▸ Function.update_self ..
    · exact (Function.update_of_ne hp ..).trans (hrest p hp (by simp [hspare]))
  | some sc =>
    have hsc : g.role sc = .spare := (h.memory.spare sc).mpr hspare
    have hne : sc ≠ s.beginChunk := by
      rintro rfl
      rw [hrole] at hsc
      cases hsc
    have hheap : Function.update s.heap s.beginChunk none sc ≠ none := by
      rw [Function.update_of_ne hne, ne_eq, h.memory.free, hsc]
      exact Role.noConfusion
    refine ⟨_, Pipe.free_eq hheap, fun p => ?_⟩
    by_cases hpsc : p = sc
    · exact hpsc ▸ Function.update_self ..
    refine (Function.update_of_ne hpsc ..).trans ?_
    by_cases hp : p = s.beginChunk
    · exact hp ▸ Function.update_self ..
    · refine (Function.update_of_ne hp ..).trans (hrest p hp ?_)
      rw [hspare]
      exact fun heq => hpsc (Option.some.inj heq).symm

theorem Left.destruct (n : Nat) (h : Left N g s) (hn : g.first + n = g.last) :
    ∃ s', destruct (n + 1) s = some s' ∧ ∀ p, s'.heap p = none := by
  induction n generalizing g s with
  | zero => exact h.finish hn 0
  | succ n ih =>
    have hlt : g.first < g.last := by omega
    have hne : s.beginChunk ≠ s.endChunk := by
      rw [h.begin, h.last]
      exact fun heq => Nat.ne_of_lt hlt (h.memory.chunk_inj le_rfl h.first_le h.first_le le_rfl heq)
    obtain ⟨p, g', hnext, hfirst, hlast, hleft⟩ := h.pop hlt
    have hfree : Pipe.free { s with beginChunk := p } (some s.beginChunk) =
        some { s with beginChunk := p, heap := Function.update s.heap s.beginChunk none } :=
      Pipe.free_eq h.begin_ne_none
    obtain ⟨s', hrun, hnone⟩ := ih hleft (by omega)
    refine ⟨s', ?_, hnone⟩
    rw [Yqueue.destruct, if_neg hne, hnext, Option.bind_eq_bind, Option.bind_some]
    simp only [hfree]
    exact hrun

/-- Between calls, the destructor frees all that is allocated, and each chunk once. -/
theorem pipe_destruct (hN : 0 < N) (h : Reach (pipe α N) Granted s) (hw : s.writer.returned)
    (hr : s.reader.returned) : ∃ turns s', destruct turns s = some s' ∧ ∀ p, s'.heap p = none := by
  obtain ⟨g, hinv⟩ := inv_of_reach hN h
  obtain ⟨g', hleft⟩ := hinv.left hw hr
  obtain ⟨n, hn⟩ := Nat.exists_eq_add_of_le hleft.first_le
  obtain ⟨s', hrun, hnone⟩ := hleft.destruct n hn.symm
  exact ⟨n + 1, s', hrun, hnone⟩

theorem pipe_destruct_oneItem : ∃ s turns s', s.taken = [7] ∧ destruct turns s = some s' ∧
    ∀ p, s'.heap p = none := by
  obtain ⟨s, hrun, hreach, htaken⟩ := reach_oneItem
  have hidle : s.writer.returned ∧ s.reader.returned := by
    obtain rfl := Option.some.inj hrun
    decide
  obtain ⟨turns, s', hdestruct, hnone⟩ := pipe_destruct (by decide) hreach hidle.1 hidle.2
  exact ⟨s, turns, s', htaken, hdestruct, hnone⟩

end LearningCode.Yqueue
