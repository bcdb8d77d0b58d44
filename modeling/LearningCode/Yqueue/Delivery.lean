import LearningCode.Yqueue.Steps

/-!
# What the pipe delivers

The reader gets what was flushed, in order, and no access of either thread
faults; a reader that found nothing has read everything that was flushed, and
the flush that adds to it says so.
-/

namespace LearningCode.Yqueue

open Transition

variable {α : Type} {N : Nat} {g : Ghost} {s s' : Pipe α} {a : Action α} {p q : Ptr}
  {first second : Chunk α} {x : α} {reads : Bool}

-- ---------------------------------------------------------------------------
-- The invariant of all runs
-- ---------------------------------------------------------------------------

theorem Memory.construct_one (hpq : p ≠ q) (first second : Chunk α) :
    Memory 1 { role := fun x => if x = p then .chain 0 else if x = q then .chain 1 else .free
               chunk := fun k => if k = 0 then p else q
               first := 0, last := 1, mine := none, theirs := none
               front := 0, back := 0, r := 0, w := 0, f := 0 }
      (construct 1 p q first second).heap none [] where
  pos := Nat.one_pos
  low := Nat.zero_le _
  high := Nat.zero_le _
  free x := by grind [construct]
  chain x k := by grind
  spare x := by grind
  mine x := by grind
  theirs x := by grind
  next k _ hk := by
    obtain rfl := Nat.lt_one_iff.mp hk
    simp [construct, Yqueue.next]
  prev k _ hk := by
    obtain rfl := Nat.lt_one_iff.mp hk
    simp [construct, Yqueue.prev, hpq.symm]
  value i _ hi := absurd hi (Nat.not_lt_zero i)

theorem Memory.construct_many (hN : 0 < N) (hone : N ≠ 1) (first second : Chunk α) :
    Memory N { role := fun x => if x = p then .chain 0 else .free
               chunk := fun _ => p
               first := 0, last := 0, mine := none, theirs := none
               front := 0, back := 0, r := 0, w := 0, f := 0 }
      (construct N p q first second).heap none [] where
  pos := hN
  low := by simp
  high := Nat.zero_le _
  free x := by grind [construct]
  chain x k := by grind
  spare x := by grind
  mine x := by grind
  theirs x := by grind
  next k _ hk := absurd hk (Nat.not_lt_zero k)
  prev k _ hk := absurd hk (Nat.not_lt_zero k)
  value i _ hi := absurd hi (Nat.not_lt_zero i)

theorem Inv.construct (hN : 0 < N) (hpq : p ≠ q) (first second : Chunk α) :
    ∃ g, Inv N g (construct N p q first second) := by
  have hnone : ∀ x : α, (Reader.idle : Reader α).value = some x → ([] : List α).getLast? = some x := by
    rintro x ⟨⟩
  by_cases hone : N = 1
  · subst hone
    refine ⟨_, Memory.construct_one hpq first second, ?_, ?_, ?_, ?_⟩
    · constructor <;> simp [Yqueue.construct, Pipe.back, Ghost.slot]
    · refine ⟨⟨?_, ?_, rfl, rfl⟩, ?_⟩ <;> simp [Yqueue.construct]
    · refine ⟨?_, ?_, rfl, rfl⟩ <;> simp [Yqueue.construct]
    · exact hnone
  · refine ⟨_, Memory.construct_many (p := p) (q := q) hN hone first second, ?_, ?_, ?_, ?_⟩
    · constructor <;> simp [Yqueue.construct, Pipe.back, Ghost.slot, hN]
    · refine ⟨⟨?_, ?_, rfl, rfl⟩, ?_⟩ <;> simp [Yqueue.construct, hone]
      omega
    · refine ⟨?_, ?_, rfl, rfl⟩ <;> simp [Yqueue.construct, hN]
    · exact hnone

theorem Inv.steady (h : Inv N g s) (hret : s.writer.returned) :
    End N g s 0 0 none ∧ s.endPos < N := by
  have hw := h.writing
  cases hpc : s.writer <;> simp [hpc, Writer.returned] at hret <;> simpa [hpc, Writing] using hw

theorem Inv.settled (h : Inv N g s) (hret : s.reader.returned) : Front N g s 0 none := by
  have hr := h.reading
  cases hpc : s.reader <;> simp [hpc, Reader.returned] at hret <;> simpa [hpc, Reading] using hr

theorem Inv.runWriter (h : Inv N g s) (hret : ¬s.writer.returned) (hasks : ¬s.writer.asks) :
    ∃ s' g', runWriter N s s.writer = some s' ∧ Inv N g' s' := by
  have hsame : ∀ {k : Writer α}, (∃ s', Yqueue.runWriter N s k = some s' ∧ Inv N g s') →
      ∃ s' g', Yqueue.runWriter N s k = some s' ∧ Inv N g' s' :=
    fun ⟨s', hrun, hinv⟩ => ⟨s', g, hrun, hinv⟩
  cases hpc : s.writer with
  | store => exact hsame (h.store hpc)
  | push => exact h.push hpc
  | takeSpare => exact h.takeSpare hpc
  | linkSpare => exact hsame (h.linkSpare hpc)
  | backSpare => exact hsame (h.backSpare hpc)
  | malloc => exact absurd (by rw [hpc]; rfl) hasks
  | backNew => exact hsame (h.backNew hpc)
  | moveEnd => exact h.moveEnd hpc
  | unpushBack => exact h.unpushBack hpc
  | unpushEnd => exact h.unpushEnd hpc
  | freeEnd => exact h.freeEnd hpc
  | clearNext => exact hsame (h.clearNext hpc)
  | load =>
    obtain ⟨s', -, hrun, -, -, -, hinv⟩ := h.load hpc
    exact ⟨s', g, hrun, hinv⟩
  | casC =>
    obtain ⟨s', g', hrun, hinv, -⟩ := h.casC hpc
    exact ⟨s', g', hrun, hinv⟩
  | setC => exact h.setC hpc
  | _ => simp [hpc, Writer.returned] at hret

theorem Inv.runReader (h : Inv N g s) (hret : ¬s.reader.returned) :
    ∃ s' g', runReader N s s.reader = some s' ∧ Inv N g' s' := by
  cases hpc : s.reader with
  | casC reads =>
    obtain ⟨s', g', hrun, hinv, -⟩ := h.casRead reads (by simpa [hpc, Reading] using h.reading)
    exact ⟨s', g', hrun, hinv⟩
  | load =>
    obtain ⟨s', -, hrun, -, -, hinv⟩ := h.loadFront hpc
    exact ⟨s', g, hrun, hinv⟩
  | pop => exact h.pop hpc
  | moveBegin => exact h.moveBegin hpc
  | clearPrev =>
    obtain ⟨s', hrun, hinv⟩ := h.clearPrev hpc
    exact ⟨s', g, hrun, hinv⟩
  | giveSpare => exact h.giveSpare hpc
  | freeSpare => exact h.freeSpare hpc
  | _ => simp [hpc, Reader.returned] at hret

theorem Inv.step (h : Inv N g s) (ha : Enabled s a) (hgranted : Granted s a) :
    ∃ s' g', step N s a = some s' ∧ Inv N g' s' := by
  cases a with
  | write value incomplete => exact ⟨_, g, rfl, h.at_writer (h.steady ha)⟩
  | unwrite =>
    have hend := h.steady ha
    by_cases hf : s.f = s.back
    · exact ⟨_, g, if_pos hf, h.at_writer hend⟩
    · have hlt := Nat.lt_of_le_of_ne h.marks.f_le (mt h.f_eq_back.mpr hf)
      exact ⟨_, g, if_neg hf, h.at_writer (k := .unpushBack) ⟨hend, hlt⟩⟩
  | flush =>
    have hend := h.steady ha
    by_cases hw : s.w = s.f
    · exact ⟨_, g, if_pos hw, h.at_writer hend⟩
    · exact ⟨_, g, if_neg hw, h.at_writer hend⟩
  | writer => exact h.runWriter ha.1 ha.2
  | malloc granted =>
    obtain ⟨hasks, hfresh⟩ := ha
    cases granted with
    | none => exact absurd rfl hgranted
    | some granted =>
      cases hpc : s.writer <;> simp [hpc, Writer.asks] at hasks
      obtain ⟨s', g', hrun, hinv⟩ := h.grant hpc (Option.isNone_iff_eq_none.mp hfresh) granted.2
      exact ⟨s', g', by rw [Yqueue.step, hpc]; exact hrun, hinv⟩
  | checkRead => exact ⟨_, g, rfl, h.checkRead (h.settled ha)⟩
  | read => exact ⟨_, g, rfl, h.checkRead (h.settled ha)⟩
  | reader => exact h.runReader ha

theorem inv_of_reach (hN : 0 < N) (h : Reach (pipe α N) Granted s) : ∃ g, Inv N g s := by
  refine h.invariant (P := fun s => ∃ g, Inv N g s) ?_ ?_
  · rintro s ⟨p, q, first, second, hpq, rfl⟩
    exact Inv.construct hN hpq first second
  · rintro s a s' ⟨g, hinv⟩ hgranted ⟨ha, hstep⟩
    obtain ⟨s₁, g', hrun, hinv'⟩ := hinv.step ha hgranted
    obtain rfl := Option.some.inj (hrun.symm.trans hstep)
    exact ⟨g', hinv'⟩

-- ---------------------------------------------------------------------------
-- What the calls return
-- ---------------------------------------------------------------------------

structure Right (N : Nat) (s : Pipe α) : Prop where
  safe : ∀ a, Enabled s a → Granted s a → (step N s a).isSome
  taken : s.taken <+: s.visible
  visible : s.visible <+: s.complete
  complete : s.complete <+: s.written
  read : ∀ x, s.reader = .got (some x) → s.taken.getLast? = some x
  /-- What `unwrite` is about to return is the last value written. -/
  unwrite : s.writer = .load → ∃ x s', s.written.getLast? = some x ∧
    step N s .writer = some s' ∧ s'.writer = .unwrote (some x) ∧ s'.written = s.written.dropLast

theorem Inv.taken_eq (h : Inv N g s) : ∃ n, n ≤ g.w ∧ s.taken = s.written.take n := by
  have hm := h.marks
  have hr := h.reading
  have hle := hm.front_le.trans hm.r_le
  cases hpc : s.reader <;> rw [hpc] at hr
  case load => exact ⟨_, hle, hr.1.taken⟩
  case pop => exact ⟨_, (Nat.succ_le_of_lt hr.2).trans hm.r_le, hr.1.taken⟩
  case moveBegin => exact ⟨_, hle, hr.2.1⟩
  case clearPrev => exact ⟨_, hle, hr.2.1⟩
  all_goals exact ⟨_, hle, Front.taken hr⟩

theorem Inv.right (h : Inv N g s) : Right N s where
  safe a ha hgranted := by
    obtain ⟨s', -, hrun, -⟩ := h.step ha hgranted
    rw [hrun]
    rfl
  taken := by
    obtain ⟨n, hn, htaken⟩ := h.taken_eq
    rw [htaken, h.marks.visible]
    exact List.take_prefix_take_left hn
  visible := by
    rw [h.marks.visible, h.marks.complete]
    exact List.take_prefix_take_left h.marks.w_le
  complete := h.marks.complete ▸ List.take_prefix _ _
  read x hx := h.returns x (by rw [hx]; rfl)
  unwrite hpc := by
    obtain ⟨s', x, hrun, hx, hwriter, hwritten, -⟩ := h.load hpc
    exact ⟨x, s', hx, by rw [Yqueue.step, hpc, hrun], hwriter, hwritten⟩

/-- In every interleaving no access faults; the values read are the first of
those flushed, in their order, and those the first of the complete ones. -/
theorem pipe_right (hN : 0 < N) (h : Reach (pipe α N) Granted s) : Right N s := by
  obtain ⟨g, hinv⟩ := inv_of_reach hN h
  exact hinv.right

def run (N : Nat) : Pipe α → List (Action α) → Option (Pipe α)
  | s, [] => some s
  | s, a :: as => if Enabled s a then (step N s a).bind fun s => run N s as else none

theorem reach_run {as : List (Action α)} (h : Reach (pipe α N) Granted s)
    (hgranted : .malloc none ∉ as) (hrun : run N s as = some s') : Reach (pipe α N) Granted s' := by
  induction as generalizing s with
  | nil =>
    cases hrun
    exact h
  | cons a as ih =>
    rw [List.mem_cons, not_or] at hgranted
    rw [run] at hrun
    split at hrun
    · next ha =>
      obtain ⟨u, hu, hrun⟩ := Option.bind_eq_some_iff.mp hrun
      exact ih (h.step (Ne.symm hgranted.1) ⟨ha, hu⟩) hgranted.2 hrun
    · cases hrun

def blank : Chunk Nat := ⟨fun _ => 0, none, none⟩

/-- One item is written, flushed and read; it fills the first chunk. -/
def oneItem : List (Action Nat) :=
  [.write 7 false, .writer, .writer, .writer, .malloc (some (3, blank)), .writer, .writer,
    .flush, .writer, .read, .reader, .reader, .reader]

theorem reach_oneItem : ∃ s, run 2 (construct 2 1 2 blank blank) oneItem = some s ∧
    Reach (pipe Nat 2) Granted s ∧ s.taken = [7] := by
  obtain ⟨s, hrun, htaken⟩ : ∃ s, run 2 (construct 2 1 2 blank blank) oneItem = some s ∧
      s.taken = [7] := ⟨_, rfl, rfl⟩
  refine ⟨s, hrun, reach_run (.init ⟨1, 2, blank, blank, by decide, rfl⟩) ?_ hrun, htaken⟩
  simp [oneItem]

theorem pipe_right_oneItem : ∃ s, s.taken = [7] ∧ Right 2 s := by
  obtain ⟨s, -, hreach, htaken⟩ := reach_oneItem
  exact ⟨s, htaken, pipe_right (by decide) hreach⟩

-- ---------------------------------------------------------------------------
-- Who is asleep
-- ---------------------------------------------------------------------------

/-- What the calls tell of one another, and what a sleeping reader has read. -/
structure Reports (N : Nat) (s : Pipe α) : Prop where
  asleep : s.asleep = true → s.taken = s.visible
  /-- `check_read` answers with what there is at its compare-and-swap. -/
  check : ∀ reads s', s.reader = .casC reads → step N s .reader = some s' →
    s'.reader = available reads (decide (s.taken.length < s.visible.length)) ∧
      (s.taken.length = s.visible.length → s'.asleep = true)
  /-- With nothing to show `flush` answers true at once, asleep or not. -/
  flush : ∀ s', step N s .flush = some s' →
    s'.writer = if s.visible.length < s.complete.length then .casC else .flushed true
  /-- With something to show it answers that the reader is asleep if and only if it is. -/
  swap : ∀ s', s.writer = .casC → step N s .writer = some s' →
    s'.writer = if s.asleep then .setC else .flushed true
  told : ∀ s', s.writer = .setC → step N s .writer = some s' →
    s'.asleep = false ∧ s'.visible = s.complete ∧ s'.writer = .flushed false

theorem Inv.visible_length (h : Inv N g s) : s.visible.length = g.w := by
  rw [h.marks.visible, List.length_take]
  exact Nat.min_eq_left (h.marks.w_le.trans (h.marks.f_le.trans h.marks.back_le))

theorem Inv.complete_length (h : Inv N g s) : s.complete.length = g.f := by
  rw [h.marks.complete, List.length_take]
  exact Nat.min_eq_left (h.marks.f_le.trans h.marks.back_le)

/-- The two pointers that `flush` compares meet when all that is complete is visible. -/
theorem Inv.w_eq_f (h : Inv N g s) : s.w = s.f ↔ ¬s.visible.length < s.complete.length := by
  have hm := h.marks
  rw [h.visible_length, h.complete_length, hm.w, hm.f,
    h.slot_inj (hm.front_le.trans hm.r_le) (hm.w_le.trans hm.f_le) h.front_le_f hm.f_le]
  exact ⟨fun heq => heq.not_lt, fun hle => hm.w_le.antisymm (Nat.le_of_not_lt hle)⟩

theorem Inv.reports (h : Inv N g s) : Reports N s where
  asleep hasleep := by
    have hle := h.marks.front_le
    have hrw := h.marks.r_le
    have hw := h.marks.asleep hasleep
    have hr := h.reading
    rw [h.marks.visible, hw]
    cases hpc : s.reader <;> rw [hpc] at hr
    case load => exact hr.1.taken
    case pop => exact absurd hr.2 (Nat.not_lt_of_le (hw ▸ hrw))
    case moveBegin => exact hr.2.1
    case clearPrev => exact hr.2.1
    all_goals exact Front.taken hr
  check reads s' hpc hstep := by
    have hfront : Front N g s 0 none := by simpa [hpc, Reading] using h.reading
    obtain ⟨s₁, g', hrun, -, hreader, hasleep⟩ := h.casRead reads hfront
    rw [Yqueue.step, hpc] at hstep
    obtain rfl := Option.some.inj (hrun.symm.trans hstep)
    have htaken : s.taken.length = g.front := by
      rw [hfront.taken, List.length_take, Nat.add_zero]
      exact Nat.min_eq_left (h.front_le_f.trans (h.marks.f_le.trans h.marks.back_le))
    rw [h.visible_length, htaken]
    exact ⟨hreader, fun heq => hasleep (Nat.not_lt_of_le heq.ge)⟩
  flush s' hstep := by
    simp only [Yqueue.step, h.w_eq_f, ite_not] at hstep
    split_ifs at hstep ⊢ <;> exact Option.some.inj hstep ▸ rfl
  swap s' hpc hstep := by
    obtain ⟨s₁, g', hrun, -, hwriter⟩ := h.casC hpc
    rw [Yqueue.step, hpc] at hstep
    obtain rfl := Option.some.inj (hrun.symm.trans hstep)
    exact hwriter
  told s' hpc hstep := by
    rw [Yqueue.step, hpc] at hstep
    obtain rfl := Option.some.inj hstep
    exact ⟨rfl, rfl, rfl⟩

/-- No wake-up is lost: a reader that found nothing has read all there is to
see, until the `flush` that makes more visible answers that it is asleep. -/
theorem pipe_reports (hN : 0 < N) (h : Reach (pipe α N) Granted s) : Reports N s := by
  obtain ⟨g, hinv⟩ := inv_of_reach hN h
  exact hinv.reports

theorem pipe_reports_oneItem : ∃ s : Pipe Nat, s.taken = [7] ∧ Reports 2 s := by
  obtain ⟨s, -, hreach, htaken⟩ := reach_oneItem
  exact ⟨s, htaken, pipe_reports (by decide) hreach⟩

end LearningCode.Yqueue
