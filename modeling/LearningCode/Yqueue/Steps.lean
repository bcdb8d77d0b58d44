import LearningCode.Yqueue.Memory

/-!
# One lemma for each step

No step of either thread faults, and each leaves the invariant.
-/

namespace LearningCode.Yqueue

variable {α : Type} {N : Nat} {g : Ghost} {s : Pipe α} {p sc o : Ptr} {x : α}
  {incomplete reads : Bool} {cs : Option Ptr} {written : List α}

-- ---------------------------------------------------------------------------
-- The writer puts a value in
-- ---------------------------------------------------------------------------

theorem Inv.at_writer (h : Inv N g s) {k : Writer α} (hk : Writing N g s k) :
    Inv N g { s with writer := k } where
  memory := h.memory
  marks := { h.marks with }
  writing := hk.frame rfl rfl rfl rfl rfl rfl rfl rfl id rfl fun _ _ => rfl
  reading := h.reading.frame h.marks.front_le rfl rfl rfl rfl rfl rfl fun _ _ => rfl
  returns := h.returns

theorem Inv.store (h : Inv N g s) (hpc : s.writer = .store x incomplete) :
    ∃ s', runWriter N s (.store x incomplete) = some s' ∧ Inv N g s' := by
  obtain ⟨hend, hlt⟩ : End N g s 0 0 none ∧ s.endPos < N := by simpa [hpc, Writing] using h.writing
  have hm := h.marks
  have hlength : s.written.length = g.back := hend.length
  have hback : s.back = g.slot N s.written.length := by rw [hlength, hm.back]
  have hfront : g.front ≤ g.back := hm.front_le.trans (hm.r_le.trans (hm.w_le.trans hm.f_le))
  have hlast : s.written.length < (g.last + 1) * N := hlength ▸ hm.back_lt
  have hdiv := h.memory.div (h.memory.low.trans hfront) hm.back_lt
  have hheap : s.heap (g.slot N s.written.length).1 ≠ none := by
    rw [hlength]
    exact h.memory.chunk_ne_none hdiv.1 hdiv.2
  have htake : ∀ i, i ≤ g.back → (s.written ++ [x]).take i = s.written.take i := fun i hi =>
    List.take_append_of_le_length (hlength ▸ hi)
  have hrun := Pipe.store_eq (x := x) hheap (Nat.mod_lt _ h.memory.pos)
  refine ⟨_, by rw [runWriter, hback, hrun]; rfl, ?_⟩
  refine ⟨h.memory.store (hlength ▸ hfront) hlast, { hm with
    back_le := by simpa using Nat.le_succ_of_le hm.back_le, complete := ?_, visible := ?_ }, ?_, ?_,
    h.returns⟩
  · rw [htake _ hm.f_le]
    exact hm.complete
  · rw [htake _ (hm.w_le.trans hm.f_le)]
    exact hm.visible
  · exact ⟨{ hend with length := by simp [hlength] }, hlt⟩
  · exact h.reading.frame hm.front_le rfl rfl rfl rfl rfl rfl fun i hi =>
      htake i (hi.trans (hm.r_le.trans (hm.w_le.trans hm.f_le)))

variable (incomplete) in
theorem Inv.finishWrite (h : Inv N g s) (hend : End N g s 0 0 none ∧ s.endPos < N) :
    ∃ g', Inv N g' (finishWrite incomplete s) := by
  cases incomplete with
  | true => exact ⟨g, h.at_writer hend⟩
  | false =>
    have hm := h.marks
    have hlength : s.written.length = g.back := hend.1.length
    refine ⟨{ g with f := g.back }, { h.memory with }, { hm with
      w_le := hm.w_le.trans hm.f_le, f_le := le_rfl, f := hm.back
      complete := (List.take_of_length_le hlength.le).symm }, ⟨{ hend.1 with }, hend.2⟩, ?_, h.returns⟩
    exact h.reading.frame hm.front_le rfl rfl rfl rfl rfl rfl fun _ _ => rfl

theorem Inv.push (h : Inv N g s) (hpc : s.writer = .push incomplete) :
    ∃ s' g', runWriter N s (.push incomplete) = some s' ∧ Inv N g' s' := by
  obtain ⟨hend, hlt⟩ : End N g s 1 0 none ∧ s.endPos < N := by simpa [hpc, Writing] using h.writing
  have hm := h.marks
  have hpos : g.last * N + s.endPos = g.back + 1 := hend.pos
  have hslot : g.slot N (g.back + 1) = (g.chunk g.last, s.endPos) := Ghost.slot_eq hpos hlt
  have hback : (s.endChunk, s.endPos) = g.slot N (g.back + 1) := by rw [hslot, hend.chunk]
  have hback_lt : g.back + 1 < (g.last + 1) * N := by
    rw [Nat.add_one_mul, ← hpos]
    exact Nat.add_lt_add_left hlt _
  let moved : Pipe α := { s with
    backChunk := s.endChunk, backPos := s.endPos, endPos := s.endPos + 1 }
  have hinv : ∀ k : Writer α, Writing N { g with back := g.back + 1 } moved k →
      Inv N { g with back := g.back + 1 } { moved with writer := k } := fun k hk =>
    { memory := { h.memory with }
      marks := { hm with
        f_le := hm.f_le.trans (Nat.le_succ _), back_le := hend.length.ge, back_lt := hback_lt
        back := hback }
      writing := hk.frame rfl rfl rfl rfl rfl rfl rfl rfl id rfl fun _ _ => rfl
      reading := h.reading.frame hm.front_le rfl rfl rfl rfl rfl rfl fun _ _ => rfl
      returns := h.returns }
  have hnew : End N { g with back := g.back + 1 } moved 0 0 none :=
    { hend with pos := by simpa [moved, ← Nat.add_assoc] using hpos, length := hend.length }
  by_cases hfull : s.endPos + 1 = N
  · exact ⟨_, _, by rw [runWriter, if_neg (not_not.mpr hfull)], hinv (.takeSpare incomplete) ⟨hnew, hfull⟩⟩
  · have hroom : s.endPos + 1 < N := Nat.lt_of_le_of_ne hlt hfull
    have hsteady : Inv N { g with back := g.back + 1 } { moved with writer := .wrote } :=
      hinv .wrote ⟨hnew, hroom⟩
    obtain ⟨g', hg'⟩ := hsteady.finishWrite incomplete ⟨{ hnew with }, hroom⟩
    refine ⟨_, g', by rw [runWriter, if_pos hfull], ?_⟩
    cases incomplete <;> exact hg'

-- ---------------------------------------------------------------------------
-- A chunk is put behind the last one
-- ---------------------------------------------------------------------------

theorem Inv.takeSpare (h : Inv N g s) (hpc : s.writer = .takeSpare incomplete) :
    ∃ s' g', runWriter N s (.takeSpare incomplete) = some s' ∧ Inv N g' s' := by
  obtain ⟨hend, hfull⟩ : End N g s 0 0 none ∧ s.endPos = N := by simpa [hpc, Writing] using h.writing
  have hm := h.marks
  cases hspare : s.spareChunk with
  | none =>
    have hinv := h.at_writer (k := .malloc incomplete) ⟨hend, hfull⟩
    exact ⟨_, g, by rw [runWriter, hspare], { hinv with memory := hspare ▸ h.memory }⟩
  | some sc =>
    have hmemory := h.memory
    rw [hspare] at hmemory
    refine ⟨_, { g with role := Function.update g.role sc .writer, mine := some sc },
      by rw [runWriter, hspare], ?_⟩
    exact {
      memory := hmemory.takeSpare hend.mine
      marks := { hm with }
      writing := ⟨{ hend with mine := rfl }, hfull⟩
      reading := h.reading.frame hm.front_le rfl rfl rfl rfl rfl rfl fun _ _ => rfl
      returns := h.returns }

theorem Inv.setNext (h : Inv N g s) (hend : s.endChunk = g.chunk g.last) (v : Option Ptr) :
    ∃ heap, (∀ t : Pipe α, t.heap = s.heap →
        t.setNext s.endChunk v = some { t with heap := heap }) ∧
      next heap (g.chunk g.last) = v ∧ (∀ q, prev heap q = prev s.heap q) ∧
      ∀ k, Writing N g { s with heap := heap } k → Inv N g { s with heap := heap, writer := k } := by
  have hheap : s.heap (g.chunk g.last) ≠ none := h.memory.chunk_ne_none h.first_le le_rfl
  refine ⟨amend s.heap s.endChunk ({ · with next := v }), fun t ht => ?_, ?_,
    fun q => prev_amend (by simp), fun k hk => ?_⟩
  · rw [Pipe.setNext_eq (by rw [ht, hend]; exact hheap), ht]
  · rw [hend]
    exact next_setNext hheap
  · refine ⟨?_, { h.marks with }, hk.frame rfl rfl rfl rfl rfl rfl rfl rfl id rfl fun _ _ => rfl,
      h.reading.frame h.marks.front_le rfl rfl rfl rfl rfl rfl fun _ _ => rfl, h.returns⟩
    rw [hend]
    exact h.memory.setNext h.first_le

theorem Inv.setPrev (h : Inv N g s) (hp : g.mine = some p) (v : Option Ptr) :
    ∃ heap, s.setPrev p v = some { s with heap := heap } ∧ prev heap p = v ∧
      (∀ q, next heap q = next s.heap q) ∧
      ∀ k, Writing N g { s with heap := heap } k → Inv N g { s with heap := heap, writer := k } := by
  have hrole : g.role p = .writer := (h.memory.mine p).mpr hp
  have hheap : s.heap p ≠ none := by
    rw [ne_eq, h.memory.free, hrole]
    exact Role.noConfusion
  refine ⟨amend s.heap p ({ · with prev := v }), Pipe.setPrev_eq hheap, prev_setPrev hheap,
    fun q => next_amend (by simp), fun k hk => ⟨h.memory.setPrev ?_, { h.marks with },
      hk.frame rfl rfl rfl rfl rfl rfl rfl rfl id rfl fun _ _ => rfl,
      h.reading.frame h.marks.front_le rfl rfl rfl rfl rfl rfl fun _ _ => rfl, h.returns⟩⟩
  rintro j hj hj' rfl
  rw [h.memory.role_chunk (Nat.le_succ_of_le hj) hj'] at hrole
  cases hrole

theorem Inv.linkSpare (h : Inv N g s) (hpc : s.writer = .linkSpare incomplete sc) :
    ∃ s', runWriter N s (.linkSpare incomplete sc) = some s' ∧ Inv N g s' := by
  obtain ⟨hend, hfull⟩ : End N g s 0 0 (some sc) ∧ s.endPos = N := by
    simpa [hpc, Writing] using h.writing
  obtain ⟨heap, hset, hnext, -, hinv⟩ := h.setNext hend.chunk (some sc)
  exact ⟨_, by rw [runWriter, hset s rfl]; rfl,
    hinv (.backSpare incomplete sc) ⟨⟨{ hend with }, hfull⟩, hnext⟩⟩

theorem Inv.backSpare (h : Inv N g s) (hpc : s.writer = .backSpare incomplete sc) :
    ∃ s', runWriter N s (.backSpare incomplete sc) = some s' ∧ Inv N g s' := by
  obtain ⟨⟨hend, hfull⟩, hnext⟩ : (End N g s 0 0 (some sc) ∧ s.endPos = N) ∧
      next s.heap (g.chunk g.last) = some sc := by simpa [hpc, Writing] using h.writing
  obtain ⟨heap, hset, hprev, hsame, hinv⟩ := h.setPrev hend.mine (some s.endChunk)
  refine ⟨_, by rw [runWriter, hset]; rfl, hinv (.moveEnd incomplete) ?_⟩
  exact ⟨sc, ⟨{ hend with }, hfull⟩, (hsame _).trans hnext, hprev.trans (by rw [hend.chunk])⟩

theorem Inv.grant (h : Inv N g s) (hpc : s.writer = .malloc incomplete) (hp : s.heap p = none)
    (chunk : Chunk α) :
    ∃ s' g', grant s incomplete (some (p, chunk)) = some s' ∧ Inv N g' s' := by
  obtain ⟨hend, hfull⟩ : End N g s 0 0 none ∧ s.endPos = N := by simpa [hpc, Writing] using h.writing
  have hmalloc : Inv N { g with role := Function.update g.role p .writer, mine := some p }
      { s with heap := Function.update s.heap p (some chunk), writer := .linkSpare incomplete p } :=
    { memory := h.memory.malloc hend.mine hp
      marks := { h.marks with }
      writing := ⟨{ hend with mine := rfl }, hfull⟩
      reading := h.reading.frame h.marks.front_le rfl rfl rfl rfl rfl rfl fun _ _ => rfl
      returns := h.returns }
  obtain ⟨heap, hset, hnext, -, hinv⟩ := hmalloc.setNext hend.chunk (some p)
  refine ⟨_, _, ?_, hinv (.backNew incomplete) ⟨p, ⟨{ hend with mine := rfl }, hfull⟩, hnext⟩⟩
  exact congrArg (Option.bind · _) (hset { s with heap := Function.update s.heap p (some chunk) } rfl)

theorem Inv.backNew (h : Inv N g s) (hpc : s.writer = .backNew incomplete) :
    ∃ s', runWriter N s (.backNew incomplete) = some s' ∧ Inv N g s' := by
  obtain ⟨p, ⟨hend, hfull⟩, hnext⟩ : ∃ p, (End N g s 0 0 (some p) ∧ s.endPos = N) ∧
      next s.heap (g.chunk g.last) = some p := by simpa [hpc, Writing] using h.writing
  obtain ⟨heap, hset, hprev, hsame, hinv⟩ := h.setPrev hend.mine (some s.endChunk)
  refine ⟨_, by rw [runWriter, hend.chunk, hnext, ← hend.chunk]; exact congrArg (Option.bind · _) hset,
    hinv (.moveEnd incomplete) ?_⟩
  exact ⟨p, ⟨{ hend with }, hfull⟩, (hsame _).trans hnext, hprev.trans (by rw [hend.chunk])⟩

theorem Inv.moveEnd (h : Inv N g s) (hpc : s.writer = .moveEnd incomplete) :
    ∃ s' g', runWriter N s (.moveEnd incomplete) = some s' ∧ Inv N g' s' := by
  obtain ⟨p, ⟨hend, hfull⟩, hnext, hprev⟩ : ∃ p, (End N g s 0 0 (some p) ∧ s.endPos = N) ∧
      next s.heap (g.chunk g.last) = some p ∧ prev s.heap p = some (g.chunk g.last) := by
    simpa [hpc, Writing] using h.writing
  have hm := h.marks
  have hpos := hend.pos
  rw [hfull, ← Nat.add_one_mul, Nat.add_zero] at hpos
  let g' : Ghost := { g with
    role := Function.update g.role p (.chain (g.last + 1))
    chunk := Function.update g.chunk (g.last + 1) p
    last := g.last + 1, mine := none }
  have hslot : ∀ i, g.front ≤ i → i ≤ g.back → g'.slot N i = g.slot N i := by
    intro i hi hi'
    have hdiv := h.memory.div (h.memory.low.trans hi) (hi'.trans_lt hm.back_lt)
    exact Prod.ext (Function.update_of_ne (Nat.ne_of_lt (Nat.lt_succ_of_le hdiv.2)) ..) rfl
  have hw := hm.front_le.trans hm.r_le
  have hf := hw.trans hm.w_le
  have hinv : Inv N g' { s with endChunk := p, endPos := 0, writer := .wrote } :=
    { memory := h.memory.moveEnd hend.mine h.first_le hnext hprev
      marks := { hm with
        back_lt := hm.back_lt.trans_le (Nat.mul_le_mul_right N (Nat.le_succ _))
        back := hm.back.trans (hslot _ (hf.trans hm.f_le) le_rfl).symm
        f := hm.f.trans (hslot _ hf hm.f_le).symm
        w := hm.w.trans (hslot _ hw (hm.w_le.trans hm.f_le)).symm
        c := by rw [hslot _ hw (hm.w_le.trans hm.f_le)]; exact hm.c
        r := fun a ha => (hm.r a ha).trans
          (hslot _ hm.front_le (hm.r_le.trans (hm.w_le.trans hm.f_le))).symm
        begin := hm.begin.trans
          (Function.update_of_ne (Nat.ne_of_lt (Nat.lt_succ_of_le h.first_le)) ..).symm }
      writing := ⟨⟨(Function.update_self (g.last + 1) p g.chunk).symm, by simpa [g'] using hpos, rfl,
          hend.length⟩,
        h.memory.pos⟩
      reading := h.reading.frame hm.front_le rfl rfl rfl rfl rfl rfl fun _ _ => rfl
      returns := h.returns }
  obtain ⟨g'', hg⟩ := hinv.finishWrite incomplete hinv.writing
  refine ⟨_, g'', by rw [runWriter, hend.chunk, hnext]; rfl, ?_⟩
  cases incomplete <;> exact hg

-- ---------------------------------------------------------------------------
-- The writer takes a value back
-- ---------------------------------------------------------------------------

theorem Inv.front_le_f (h : Inv N g s) : g.front ≤ g.f :=
  h.marks.front_le.trans (h.marks.r_le.trans h.marks.w_le)

theorem Inv.moveBack (h : Inv N g s) {b : Nat} (hb : g.back = b + 1) (hf : g.f ≤ b)
    (hend : End N g s 0 0 none ∧ s.endPos < N) {a : Slot} (ha : a = g.slot N b) :
    Inv N { g with back := b } { s with backChunk := a.1, backPos := a.2, writer := .unpushEnd } := by
  have hle : b ≤ g.back := hb ▸ Nat.le_succ b
  exact {
    memory := { h.memory with }
    marks := { h.marks with
      f_le := hf, back := ha, back_le := hle.trans h.marks.back_le
      back_lt := hle.trans_lt h.marks.back_lt }
    writing := ⟨{ hend.1 with
      pos := hend.1.pos.trans (by rw [hb]), length := hend.1.length.trans hb }, hend.2⟩
    reading := h.reading.frame h.marks.front_le rfl rfl rfl rfl rfl rfl fun _ _ => rfl
    returns := h.returns }

theorem Inv.first_lt_back (h : Inv N g s) (hf : g.f < g.back) (hzero : s.backPos = 0) :
    g.first < g.back / N := by
  obtain ⟨-, hpos⟩ := Prod.ext_iff.mp h.marks.back
  have hmod : g.back % N = 0 := hpos.symm.trans hzero
  have hdiv : g.back / N * N = g.back := Nat.div_mul_cancel (Nat.dvd_of_mod_eq_zero hmod)
  refine Nat.lt_of_mul_lt_mul_right (a := N) ?_
  rw [hdiv]
  exact (h.memory.low.trans h.front_le_f).trans_lt hf

theorem Inv.back_le_last (h : Inv N g s) : g.back / N ≤ g.last :=
  (h.memory.div (h.memory.low.trans (h.front_le_f.trans h.marks.f_le)) h.marks.back_lt).2

theorem Inv.unpushBack (h : Inv N g s) (hpc : s.writer = .unpushBack) :
    ∃ s' g', runWriter N s .unpushBack = some s' ∧ Inv N g' s' := by
  obtain ⟨hend, hf⟩ : (End N g s 0 0 none ∧ s.endPos < N) ∧ g.f < g.back := by
    simpa [hpc, Writing] using h.writing
  obtain ⟨b, hb⟩ := Nat.exists_eq_succ_of_ne_zero (Nat.ne_zero_of_lt hf)
  have hfb : g.f ≤ b := Nat.lt_succ_iff.mp (hb ▸ hf)
  obtain ⟨hchunk, hpos⟩ : s.backChunk = g.chunk (g.back / N) ∧ s.backPos = g.back % N :=
    Prod.ext_iff.mp h.marks.back
  have hdiv : g.back / N * N + s.backPos = b + 1 := by rw [hpos, Nat.div_add_mod', hb]
  by_cases hzero : s.backPos = 0
  · have hfirst := h.first_lt_back hf hzero
    obtain ⟨q, hq⟩ := Nat.exists_eq_succ_of_ne_zero (Nat.ne_zero_of_lt hfirst)
    have hprev : prev s.heap s.backChunk = some (g.chunk q) := by
      rw [hchunk, hq]
      exact h.memory.prev q (Nat.lt_succ_iff.mp (hq ▸ hfirst)) (Nat.lt_of_succ_le (hq ▸ h.back_le_last))
    have hslot : g.slot N b = (g.chunk q, N - 1) := by
      refine Ghost.slot_eq ?_ (Nat.sub_lt h.memory.pos Nat.one_pos)
      rw [hzero, hq, Nat.succ_mul] at hdiv
      have hN := h.memory.pos
      omega
    exact ⟨_, _, by rw [runWriter, if_neg (not_not.mpr hzero), hprev]; rfl,
      h.moveBack hb hfb hend hslot.symm⟩
  · have hslot : g.slot N b = (s.backChunk, s.backPos - 1) := by
      rw [hchunk]
      refine Ghost.slot_eq ?_ ((Nat.sub_le _ _).trans_lt (hpos ▸ Nat.mod_lt _ h.memory.pos))
      omega
    exact ⟨_, _, by rw [runWriter, if_pos hzero], h.moveBack hb hfb hend hslot.symm⟩

theorem Inv.first_lt_last (h : Inv N g s) (hend : End N g s 1 1 none) (hzero : s.endPos = 0) :
    g.first < g.last := by
  have hpos := hend.pos
  have hle := (h.memory.low.trans h.front_le_f).trans h.marks.f_le
  refine Nat.lt_of_mul_lt_mul_right (a := N) ?_
  omega

theorem Inv.unpushEnd (h : Inv N g s) (hpc : s.writer = .unpushEnd) :
    ∃ s' g', runWriter N s .unpushEnd = some s' ∧ Inv N g' s' := by
  obtain ⟨hend, hlt⟩ : End N g s 1 1 none ∧ s.endPos < N := by simpa [hpc, Writing] using h.writing
  have hm := h.marks
  have hpos := hend.pos
  by_cases hzero : s.endPos = 0
  · rw [hzero, Nat.add_zero] at hpos
    have hfirst := h.first_lt_last hend hzero
    obtain ⟨l, hl⟩ := Nat.exists_eq_succ_of_ne_zero (Nat.ne_zero_of_lt hfirst)
    have hfl : g.first ≤ l := Nat.lt_succ_iff.mp (hl ▸ hfirst)
    have hll : l < g.last := hl ▸ Nat.lt_succ_self l
    have hprev : prev s.heap s.endChunk = some (g.chunk l) := by
      rw [hend.chunk, hl]
      exact h.memory.prev l hfl hll
    have hmul : l * N + N = g.back + 2 := by rw [← Nat.succ_mul, ← Nat.succ_eq_add_one, ← hl, hpos]
    have hlength : s.written.length = g.back + 1 := hend.length
    have hN := h.memory.pos
    have hmemory := h.memory.unpushEnd hend.mine hfirst (by rw [hpos, hlength]; exact Nat.le_succ _)
    have hsub : g.last - 1 = l := by rw [hl, Nat.succ_sub_one]
    let g' : Ghost := { g with
      role := Function.update g.role (g.chunk g.last) .writer
      last := g.last - 1, mine := some (g.chunk g.last) }
    refine ⟨_, g', by rw [runWriter, if_neg (not_not.mpr hzero), hprev]; rfl, ?_⟩
    refine ⟨hmemory, { hm with back_lt := ?_ }, ?_, ?_, h.returns⟩
    · simp only [g', hsub]
      rw [Nat.succ_mul, hmul]
      exact Nat.lt_succ_of_lt (Nat.lt_succ_self _)
    · refine ⟨g.chunk g.last, ⟨⟨congrArg g.chunk hsub.symm, ?_, rfl, hlength⟩,
        Nat.sub_lt hN Nat.one_pos⟩, ?_⟩
      · simp only [g', hsub]
        omega
      · simp only [g', hsub]
        rw [h.memory.next l hfl hll, hl]
    · exact h.reading.frame hm.front_le rfl rfl rfl rfl rfl rfl fun _ _ => rfl
  · refine ⟨_, g, by rw [runWriter, if_pos hzero], ?_⟩
    refine ⟨h.memory, { hm with }, ⟨{ hend with pos := ?_ }, ?_⟩,
      h.reading.frame hm.front_le rfl rfl rfl rfl rfl rfl fun _ _ => rfl, h.returns⟩
    · simp only
      omega
    · exact (Nat.sub_le _ _).trans_lt hlt

theorem Inv.freeEnd (h : Inv N g s) (hpc : s.writer = .freeEnd) :
    ∃ s' g', runWriter N s .freeEnd = some s' ∧ Inv N g' s' := by
  obtain ⟨p, ⟨hend, hlt⟩, hnext⟩ : ∃ p, (End N g s 1 0 (some p) ∧ s.endPos < N) ∧
      next s.heap (g.chunk g.last) = some p := by simpa [hpc, Writing] using h.writing
  have hrole : g.role p = .writer := (h.memory.mine p).mpr hend.mine
  have hheap : s.heap p ≠ none := by
    rw [ne_eq, h.memory.free, hrole]
    exact Role.noConfusion
  refine ⟨_, { g with role := Function.update g.role p .free, mine := none },
    by rw [runWriter, hend.chunk, hnext, Option.bind_eq_bind, Option.bind_some, Pipe.free_eq hheap]; rfl, ?_⟩
  exact {
    memory := h.memory.freeMine hend.mine
    marks := { h.marks with }
    writing := ⟨{ hend with mine := rfl }, hlt⟩
    reading := h.reading.frame h.marks.front_le rfl rfl rfl rfl rfl rfl fun _ _ => rfl
    returns := h.returns }

theorem Inv.clearNext (h : Inv N g s) (hpc : s.writer = .clearNext) :
    ∃ s', runWriter N s .clearNext = some s' ∧ Inv N g s' := by
  obtain ⟨hend, hlt⟩ : End N g s 1 0 none ∧ s.endPos < N := by simpa [hpc, Writing] using h.writing
  obtain ⟨heap, hset, -, -, hinv⟩ := h.setNext hend.chunk none
  exact ⟨_, by rw [runWriter, hset s rfl]; rfl, hinv .load ⟨{ hend with }, hlt⟩⟩

theorem Inv.load (h : Inv N g s) (hpc : s.writer = .load) :
    ∃ s' x, runWriter N s .load = some s' ∧ s.written.getLast? = some x ∧
      s'.writer = .unwrote (some x) ∧ s'.written = s.written.dropLast ∧ Inv N g s' := by
  obtain ⟨hend, hlt⟩ : End N g s 1 0 none ∧ s.endPos < N := by simpa [hpc, Writing] using h.writing
  have hm := h.marks
  have hlength : s.written.length = g.back + 1 := hend.length
  have hvalue : value N s.heap s.back = s.written.getLast? := by
    rw [hm.back, h.memory.value _ (h.front_le_f.trans hm.f_le) (hlength ▸ Nat.lt_succ_self _),
      List.getLast?_eq_getElem?, hlength, Nat.succ_sub_one]
  have hne : s.written ≠ [] := List.ne_nil_of_length_eq_add_one hlength
  have hx := List.getLast?_eq_some_getLast hne
  have htake : ∀ i, i ≤ g.back → s.written.dropLast.take i = s.written.take i := fun i hi => by
    rw [List.dropLast_eq_take, List.take_take, hlength, Nat.succ_sub_one, Nat.min_eq_left hi]
  refine ⟨_, _, by rw [runWriter, hvalue, hx]; rfl, hx, rfl, rfl, ?_⟩
  refine ⟨h.memory.dropLast, { hm with back_le := ?_, complete := ?_, visible := ?_ },
    ⟨{ hend with length := ?_ }, hlt⟩, ?_, h.returns⟩
  · simp [hlength]
  · exact hm.complete.trans (htake _ hm.f_le).symm
  · exact hm.visible.trans (htake _ (hm.w_le.trans hm.f_le)).symm
  · simp [hlength]
  · exact h.reading.frame hm.front_le rfl rfl rfl rfl rfl rfl fun i hi =>
      htake i (hi.trans (hm.r_le.trans (hm.w_le.trans hm.f_le)))

-- ---------------------------------------------------------------------------
-- The writer flushes
-- ---------------------------------------------------------------------------

theorem Inv.flushed (h : Inv N g s) (hend : End N g s 0 0 none ∧ s.endPos < N) (awake : Bool) :
    Inv N { g with w := g.f } { s with
      c := some s.f, w := s.f, visible := s.complete, asleep := false, writer := .flushed awake } where
  memory := { h.memory with }
  marks := { h.marks with
    r_le := h.marks.r_le.trans h.marks.w_le, w_le := le_rfl, w := h.marks.f
    c := congrArg some h.marks.f, asleep := Bool.noConfusion, visible := h.marks.complete }
  writing := ⟨{ hend.1 with }, hend.2⟩
  reading := h.reading.frame h.marks.front_le rfl rfl rfl rfl rfl rfl fun _ _ => rfl
  returns := h.returns

/-- The compare-and-swap of `flush` fails if and only if the reader is asleep. -/
theorem Inv.casC (h : Inv N g s) (hpc : s.writer = .casC) :
    ∃ s' g', runWriter N s .casC = some s' ∧ Inv N g' s' ∧
      s'.writer = if s.asleep then .setC else .flushed true := by
  have hend : End N g s 0 0 none ∧ s.endPos < N := by simpa [hpc, Writing] using h.writing
  cases hasleep : s.asleep with
  | false =>
    have hc : s.c = some s.w := h.c_eq_w.mpr hasleep
    have hinv := h.flushed hend true
    rw [← hasleep] at hinv
    exact ⟨_, _, by rw [runWriter, if_pos hc], hinv, rfl⟩
  | true =>
    have hc : s.c ≠ some s.w := by simp [h.c_eq_w, hasleep]
    exact ⟨_, g, by rw [runWriter, if_neg hc], h.at_writer (k := .setC) ⟨hend, hasleep⟩, rfl⟩

theorem Inv.setC (h : Inv N g s) (hpc : s.writer = .setC) :
    ∃ s' g', runWriter N s .setC = some s' ∧ Inv N g' s' := by
  obtain ⟨hend, -⟩ : (End N g s 0 0 none ∧ s.endPos < N) ∧ s.asleep = true := by
    simpa [hpc, Writing] using h.writing
  exact ⟨_, _, by rw [runWriter], h.flushed hend false⟩

-- ---------------------------------------------------------------------------
-- The reader looks for values
-- ---------------------------------------------------------------------------

theorem Inv.at_reader (h : Inv N g s) {k : Reader α} (hk : Reading N g s k)
    (hvalue : ∀ x, k.value = some x → s.taken.getLast? = some x) :
    Inv N g { s with reader := k } where
  memory := h.memory
  marks := { h.marks with }
  writing := h.writing.frame rfl rfl rfl rfl rfl rfl rfl rfl id rfl fun _ _ => rfl
  reading := hk.frame h.marks.front_le rfl rfl rfl rfl rfl rfl fun _ _ => rfl
  returns := hvalue

theorem value_available (x : α) (b : Bool) : (available reads b).value ≠ some x := by
  cases reads <;> cases b <;> simp [available, Reader.value]

theorem Reading.available (h : Front N g s 0 none) {b : Bool} (hb : b = true → g.front < g.r) :
    Reading N g s (available reads b) := by
  cases reads with
  | false => exact h
  | true =>
    cases b with
    | false => exact h
    | true => exact ⟨h, hb rfl⟩

theorem Inv.checkRead (h : Inv N g s) (hfront : Front N g s 0 none) :
    Inv N g (checkRead s reads) := by
  unfold Yqueue.checkRead
  split
  · next hr =>
    refine h.at_reader (Reading.available hfront fun _ => ?_)
      fun x hx => (value_available x true hx).elim
    obtain ⟨a, ha⟩ := Option.ne_none_iff_exists'.mp hr.2
    refine Nat.lt_of_le_of_ne h.marks.front_le fun heq => hr.1 ?_
    rw [ha, h.front_eq hfront, heq, h.marks.r a ha]
  · exact h.at_reader hfront fun x hx => (Option.some_ne_none x hx.symm).elim

theorem runReader_casC_none (hc : s.c = none) : runReader N s (.casC reads) =
    some { s with r := none, reader := available reads false } := by
  simp [runReader, hc]

theorem runReader_casC_front (hc : s.c = some s.front) : runReader N s (.casC reads) =
    some { s with r := s.c, c := none, asleep := true, reader := available reads false } := by
  simp [runReader, hc, Pipe.front]

theorem runReader_casC_ne {a : Slot} (hc : s.c = some a) (ha : s.front ≠ a) :
    runReader N s (.casC reads) = some { s with r := s.c, reader := available reads true } := by
  have hne : (s.beginChunk, s.beginPos) ≠ a := ha
  simp [runReader, hc, Pipe.front, hne, hne.symm]

variable (reads) in
/-- The compare-and-swap of `check_read` finds a value if and only if one was
flushed that has not been read; else the reader is asleep. -/
theorem Inv.casRead (h : Inv N g s) (hfront : Front N g s 0 none) :
    ∃ s' g', runReader N s (.casC reads) = some s' ∧ Inv N g' s' ∧
      s'.reader = available reads (decide (g.front < g.w)) ∧
      (¬g.front < g.w → s'.asleep = true) := by
  have hm := h.marks
  have hle : g.front ≤ g.w := hm.front_le.trans hm.r_le
  have hsame : ∀ c r b k m, Front N { g with r := m }
      { s with c := c, r := r, asleep := b, reader := k } 0 none := fun _ _ _ _ _ => { hfront with }
  have hnone : ∀ {P : Prop}, false = true → P := fun h => (Bool.false_ne_true h).elim
  cases hasleep : s.asleep with
  | true =>
    have hc : s.c = none := by rw [hm.c, hasleep, if_pos rfl]
    have hw : g.w = g.front := hm.asleep hasleep
    refine ⟨_, g, runReader_casC_none hc, ?_, by simp [hw], fun _ => hasleep⟩
    exact {
      memory := h.memory
      marks := { hm with r := fun a ha => (Option.some_ne_none a ha.symm).elim }
      writing := h.writing.frame rfl rfl rfl rfl rfl rfl rfl rfl id rfl fun _ _ => rfl
      reading := Reading.available (hsame s.c none s.asleep _ g.r) hnone
      returns := fun x hx => (value_available x false hx).elim }
  | false =>
    have hc : s.c = some (g.slot N g.w) := by rw [hm.c, hasleep]; rfl
    have hcmp : s.front = g.slot N g.w ↔ g.front = g.w := by
      rw [h.front_eq hfront]
      exact h.slot_inj le_rfl (h.front_le_f.trans hm.f_le) hle (hm.w_le.trans hm.f_le)
    rcases eq_or_lt_of_le hle with heq | hlt
    · refine ⟨_, { g with r := g.w }, runReader_casC_front (hc.trans (congrArg some (hcmp.mpr heq).symm)),
        ?_, by simp [heq], fun _ => rfl⟩
      exact {
        memory := { h.memory with }
        marks := { hm with
          front_le := hle, r_le := le_rfl, c := rfl, asleep := fun _ => heq.symm
          r := fun a ha => Option.some.inj (ha.symm.trans hc) }
        writing := h.writing.frame rfl rfl rfl rfl rfl rfl rfl rfl (fun _ => rfl) rfl fun _ _ => rfl
        reading := Reading.available (hsame none s.c true _ g.w) hnone
        returns := fun x hx => (value_available x false hx).elim }
    · have hne : s.front ≠ g.slot N g.w := fun heq => Nat.ne_of_lt hlt (hcmp.mp heq)
      refine ⟨_, { g with r := g.w }, runReader_casC_ne hc hne, ?_, by simp [hlt],
        fun hnot => absurd hlt hnot⟩
      exact {
        memory := { h.memory with }
        marks := { hm with
          front_le := hle, r_le := le_rfl, r := fun a ha => Option.some.inj (ha.symm.trans hc) }
        writing := h.writing.frame rfl rfl rfl rfl rfl rfl rfl rfl id rfl fun _ _ => rfl
        reading := Reading.available (hsame s.c s.c s.asleep _ g.w) fun _ => hlt
        returns := fun x hx => (value_available x true hx).elim }

-- ---------------------------------------------------------------------------
-- The reader takes a value out
-- ---------------------------------------------------------------------------

theorem Inv.loadFront (h : Inv N g s) (hpc : s.reader = .load) :
    ∃ s' x, runReader N s .load = some s' ∧ s'.taken = s.taken ++ [x] ∧ s'.reader = .pop x ∧
      Inv N g s' := by
  obtain ⟨hfront, hlt⟩ : Front N g s 0 none ∧ g.front < g.r := by simpa [hpc, Reading] using h.reading
  have hm := h.marks
  have hlength : g.front < s.written.length :=
    hlt.trans_le (hm.r_le.trans (hm.w_le.trans (hm.f_le.trans hm.back_le)))
  have hvalue : value N s.heap s.front = some s.written[g.front] := by
    rw [h.front_eq hfront, h.memory.value _ le_rfl hlength, List.getElem?_eq_getElem hlength]
  refine ⟨_, _, by rw [runReader, hvalue]; rfl, rfl, rfl, ?_⟩
  refine ⟨h.memory, { hm with }, ?_, ⟨{ hfront with taken := ?_ }, hlt⟩, fun x hx => ?_⟩
  · exact h.writing.frame rfl rfl rfl rfl rfl rfl rfl rfl id rfl fun _ _ => rfl
  · rw [List.take_add_one, List.getElem?_eq_getElem hlength]
    exact congrArg (· ++ [_]) hfront.taken
  · rw [List.getLast?_concat]
    exact hx

theorem Inv.returns_of (h : Inv N g s) {k m : Reader α} (hpc : s.reader = k)
    (hvalue : m.value = k.value) : ∀ x, m.value = some x → s.taken.getLast? = some x := by
  intro x hx
  exact h.returns x (by rw [hpc, ← hvalue, hx])

theorem Inv.pop (h : Inv N g s) (hpc : s.reader = .pop x) :
    ∃ s' g', runReader N s (.pop x) = some s' ∧ Inv N g' s' := by
  obtain ⟨hfront, hlt⟩ : Front N g s 1 none ∧ g.front < g.r := by simpa [hpc, Reading] using h.reading
  have hm := h.marks
  have hasleep : s.asleep = true → g.w = g.front + 1 := fun hasleep =>
    absurd (hm.asleep hasleep) (Nat.ne_of_gt (hlt.trans_le hm.r_le))
  have hinv : ∀ k : Reader α, Reading N { g with front := g.front + 1 }
      { s with beginPos := s.beginPos + 1, reader := k } k → k.value = some x →
      Inv N { g with front := g.front + 1 } { s with beginPos := s.beginPos + 1, reader := k } :=
    fun k hk hvalue =>
    { memory := h.memory.advance
      marks := { hm with front_le := hlt, asleep := hasleep }
      writing := h.writing.frame rfl rfl rfl rfl rfl rfl rfl rfl id rfl fun _ _ => rfl
      reading := hk
      returns := h.returns_of hpc hvalue }
  have hpos : g.first * N + (s.beginPos + 1) = g.front + 1 := by rw [← Nat.add_assoc, hfront.pos]
  by_cases hfull : s.beginPos + 1 = N
  · refine ⟨_, _, by rw [runReader, if_pos hfull], hinv (.moveBegin x) ⟨hfront.theirs, hfront.taken, ?_⟩ rfl⟩
    rw [← hpos, hfull, Nat.add_one_mul]
  · exact ⟨_, _, by rw [runReader, if_neg hfull], hinv (.got (some x))
      ⟨hpos, Nat.lt_of_le_of_ne hfront.lt hfull, hfront.theirs, hfront.taken⟩ rfl⟩

theorem Inv.moveBegin (h : Inv N g s) (hpc : s.reader = .moveBegin x) :
    ∃ s' g', runReader N s (.moveBegin x) = some s' ∧ Inv N g' s' := by
  obtain ⟨htheirs, htaken, hpos⟩ : g.theirs = none ∧ s.taken = s.written.take g.front ∧
      (g.first + 1) * N = g.front := by simpa [hpc, Reading] using h.reading
  have hm := h.marks
  have hfirst : g.first < g.last := by
    refine Nat.lt_of_succ_lt_succ (Nat.lt_of_mul_lt_mul_right (a := N) ?_)
    rw [Nat.succ_eq_add_one, hpos]
    exact (h.front_le_f.trans hm.f_le).trans_lt hm.back_lt
  have hnext : next s.heap s.beginChunk = some (g.chunk (g.first + 1)) := by
    rw [hm.begin]
    exact h.memory.next _ le_rfl hfirst
  refine ⟨_, { g with
    role := Function.update g.role (g.chunk g.first) .reader
    first := g.first + 1, theirs := some (g.chunk g.first) }, by rw [runReader, hnext]; rfl, ?_⟩
  exact {
    memory := h.memory.moveBegin htheirs hfirst hpos.le
    marks := { hm with begin := rfl }
    writing := h.writing.frame rfl rfl rfl rfl rfl rfl rfl rfl id rfl fun _ _ => rfl
    reading := ⟨congrArg some hm.begin.symm, htaken, hpos⟩
    returns := h.returns_of (m := .clearPrev x s.beginChunk) hpc rfl }

theorem Inv.clearPrev (h : Inv N g s) (hpc : s.reader = .clearPrev x o) :
    ∃ s', runReader N s (.clearPrev x o) = some s' ∧ Inv N g s' := by
  obtain ⟨htheirs, htaken, hpos⟩ : g.theirs = some o ∧ s.taken = s.written.take g.front ∧
      g.first * N = g.front := by simpa [hpc, Reading] using h.reading
  have hm := h.marks
  have hheap : s.heap s.beginChunk ≠ none := hm.begin ▸ h.memory.chunk_ne_none le_rfl h.first_le
  refine ⟨_, by rw [runReader, Pipe.setPrev_eq hheap]; rfl, ?_⟩
  refine ⟨h.memory.setPrev ?_, { hm with }, ?_, ⟨hpos, h.memory.pos, htheirs, htaken⟩,
    h.returns_of (m := .giveSpare x o) hpc rfl⟩
  · intro k hk hk' heq
    rw [hm.begin] at heq
    have := h.memory.chunk_inj (Nat.le_succ_of_le hk) hk' le_rfl h.first_le heq
    omega
  · refine h.writing.frame rfl rfl rfl rfl rfl rfl rfl rfl id (next_amend (by simp)) fun p hp => ?_
    have hne : p ≠ s.beginChunk := by
      rintro rfl
      have hrole := (h.memory.mine _).mpr hp
      rw [hm.begin, h.memory.role_chunk le_rfl h.first_le] at hrole
      cases hrole
    exact prev_amend_of_ne hne

theorem Inv.giveSpare (h : Inv N g s) (hpc : s.reader = .giveSpare x o) :
    ∃ s' g', runReader N s (.giveSpare x o) = some s' ∧ Inv N g' s' := by
  have hfront : Front N g s 0 (some o) := by simpa [hpc, Reading] using h.reading
  obtain ⟨role, hmemory⟩ := h.memory.giveSpare hfront.theirs
  refine ⟨_, { g with role := role, theirs := s.spareChunk }, by rw [runReader], ?_⟩
  exact {
    memory := hmemory
    marks := { h.marks with }
    writing := h.writing.frame rfl rfl rfl rfl rfl rfl rfl rfl id rfl fun _ _ => rfl
    reading := { hfront with theirs := rfl }
    returns := h.returns_of (m := .freeSpare x s.spareChunk) hpc rfl }

theorem Inv.freeSpare (h : Inv N g s) (hpc : s.reader = .freeSpare x cs) :
    ∃ s' g', runReader N s (.freeSpare x cs) = some s' ∧ Inv N g' s' := by
  have hfront : Front N g s 0 cs := by simpa [hpc, Reading] using h.reading
  cases cs with
  | none => exact ⟨_, g, by rw [runReader]; rfl, h.at_reader (k := .got (some x)) hfront (h.returns_of hpc rfl)⟩
  | some p =>
    have hrole : g.role p = .reader := (h.memory.theirs p).mpr hfront.theirs
    have hheap : s.heap p ≠ none := by
      rw [ne_eq, h.memory.free, hrole]
      exact Role.noConfusion
    refine ⟨_, { g with role := Function.update g.role p .free, theirs := none },
      by rw [runReader, Pipe.free_eq hheap]; rfl, ?_⟩
    refine ⟨h.memory.freeTheirs hfront.theirs, { h.marks with }, ?_, { hfront with theirs := rfl },
      h.returns_of (m := .got (some x)) hpc rfl⟩
    have hkeep : ∀ q, g.role q ≠ .reader → Function.update s.heap p none q = s.heap q := by
      rintro q hq
      refine Function.update_of_ne ?_ ..
      rintro rfl
      exact hq hrole
    refine h.writing.frame rfl rfl rfl rfl rfl rfl rfl rfl id ?_ fun q hq => ?_
    · refine congrArg (Option.bind · Chunk.next) (hkeep _ ?_)
      rw [h.memory.role_chunk h.first_le le_rfl]
      exact Role.noConfusion
    · refine congrArg (Option.bind · Chunk.prev) (hkeep _ ?_)
      rw [(h.memory.mine q).mpr hq]
      exact Role.noConfusion

end LearningCode.Yqueue
