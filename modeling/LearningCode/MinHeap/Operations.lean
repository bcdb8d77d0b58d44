import LearningCode.MinHeap.Sift

/-!
# What each heap operation does to the set of entries

Every operation of a heap in order with room for its indices succeeds, keeps
the heap in order, and changes the set of its entries by one entry at most.
-/

namespace LearningCode.MinHeap

open BinaryHeap

variable {s s' : Heap} {e q x : Ptr}

/-- The heap is in order and every entry in it knows its slot. -/
structure InOrder (s : Heap) : Prop where
  room : s.n ≤ s.a
  cap : s.a < 2 ^ 32
  slots : ∀ i < s.n, ∃ q, Slotted s i q
  ordered : Ordered s.key s.n

/-- `e` came in, and no entry outside the heap was written. -/
structure Added (s s' : Heap) (e : Ptr) : Prop where
  inOrder : InOrder s'
  n : s'.n = s.n + 1
  time : ∀ x, (s'.entry x).time = (s.entry x).time
  held : ∀ x, Held s' x ↔ Held s x ∨ x = e
  other : ∀ x, ¬ Held s x → x ≠ e → s'.entry x = s.entry x

/-- `e` went out and carries the index -1. -/
structure Removed (s s' : Heap) (e : Ptr) : Prop where
  inOrder : InOrder s'
  n : s'.n + 1 = s.n
  time : ∀ x, (s'.entry x).time = (s.entry x).time
  held : ∀ x, Held s' x ↔ Held s x ∧ x ≠ e
  idx : (s'.entry e).minHeapIdx = minusOne
  other : ∀ x, ¬ Held s x → s'.entry x = s.entry x

structure Moved (s s' : Heap) : Prop where
  inOrder : InOrder s'
  n : s'.n = s.n
  time : ∀ x, (s'.entry x).time = (s.entry x).time
  held : ∀ x, Held s' x ↔ Held s x
  other : ∀ x, ¬ Held s x → s'.entry x = s.entry x

theorem InOrder.slotted (h : InOrder s) (hi : i < s.n) (hp : s.p i = some q) : Slotted s i q := by
  obtain ⟨q', hq'⟩ := h.slots i hi
  obtain rfl := Option.some.inj (hp.symm.trans hq'.1)
  exact hq'

theorem InOrder.slot_unique (h : InOrder s) (hi : i < s.n) (hj : j < s.n) (hpi : s.p i = some q)
    (hpj : s.p j = some q) : i = j :=
  (h.slotted hi hpi).2.symm.trans (h.slotted hj hpj).2

theorem Held.slotted (h : InOrder s) (hx : Held s x) :
    ∃ i < s.n, Slotted s i x ∧ (s.entry x).minHeapIdx = i := by
  obtain ⟨i, hi, hp⟩ := hx
  have := h.slotted hi hp
  exact ⟨i, hi, this, this.2⟩

theorem Held.idx_ne (h : InOrder s) (hx : Held s x) : (s.entry x).minHeapIdx ≠ minusOne := by
  obtain ⟨i, hi, -, hidx⟩ := hx.slotted h
  have := h.room
  have := h.cap
  unfold minusOne
  omega

-- ---------------------------------------------------------------------------
-- min_heap_push_
-- ---------------------------------------------------------------------------

theorem reserve_cases (granted : Bool) (h : InOrder s) (hn : s.n < 2 ^ 32 - 1) :
    minHeapReserve s (uint32 (s.n + 1)) granted = (s, false) ∨
      ∃ a, s.n + 1 ≤ a ∧ a < 2 ^ 32 ∧
        minHeapReserve s (uint32 (s.n + 1)) granted = ({ s with a := a }, true) := by
  have hwrap : uint32 (s.n + 1) = s.n + 1 := by unfold uint32; omega
  have hcap := h.cap
  rw [hwrap, minHeapReserve]
  split
  · cases granted with
    | false => exact .inl rfl
    | true =>
      refine .inr ⟨_, ?_, ?_, rfl⟩
      · unfold uint32
        split_ifs <;> omega
      · unfold uint32
        split_ifs <;> omega
  · next hroom => exact .inr ⟨s.a, by omega, hcap, rfl⟩

theorem push_spec (granted : Bool) (h : InOrder s) (hn : s.n < 2 ^ 32 - 1) (he : ¬ Held s e) :
    minHeapPush s e granted = some (s, -1) ∨
      ∃ s', minHeapPush s e granted = some (s', 0) ∧ Added s s' e := by
  have hwrap : uint32 (s.n + 1) = s.n + 1 := by unfold uint32; omega
  rcases reserve_cases granted h hn with hr | ⟨a, hroom, hcap, hr⟩
  · exact .inl (by rw [minHeapPush, hr])
  · right
    -- the array has grown, and its last slot is the hole
    let g : Heap := { s with a := a, n := s.n + 1 }
    have hoff : ∀ x, HeldOff g s.n x ↔ Held s x := by
      intro x
      constructor
      · rintro ⟨i, hi, hne, hx⟩
        exact ⟨i, Nat.lt_of_le_of_ne (Nat.le_of_lt_succ hi) hne, hx⟩
      · rintro ⟨i, hi, hx⟩
        exact ⟨i, Nat.lt_succ_of_lt hi, Nat.ne_of_lt hi, hx⟩
    have hsift : Sifting g s.n e := by
      refine ⟨hroom, hroom, fun i hi hne => ?_⟩
      have hi : i < s.n := Nat.lt_of_le_of_ne (Nat.le_of_lt_succ hi) hne
      obtain ⟨q, hq⟩ := h.slots i hi
      exact ⟨q, hq, fun hqe => he ⟨i, hi, hqe ▸ hq.1⟩⟩
    have hchild : ∀ c, ¬ IsChild (s.n + 1) s.n c := fun c hc => by
      have := hc.lt
      have := hc.2.1
      omega
    have hhole : Hole g.key (s.n + 1) s.n := by
      refine ⟨fun i h0 hi hne _ => ?_, fun c hc => absurd hc (hchild c)⟩
      exact h.ordered i h0 (Nat.lt_of_le_of_ne (Nat.le_of_lt_succ hi) hne)
    obtain ⟨s', hs', hres⟩ := shiftUp_sifted hsift (Nat.lt_succ_self _)
      (Nat.lt_of_le_of_lt hroom hcap) hhole fun c hc => absurd hc (hchild c)
    refine ⟨s', ?_, ⟨?_, ?_, ?_, ?_⟩, hres.n, hres.time, fun x => ?_, fun x hx hxe => ?_⟩
    · rw [minHeapPush, hr]
      simp only [hwrap]
      rw [hs']
      rfl
    · rw [hres.n, hres.a]; exact hroom
    · rw [hres.a]; exact hcap
    · rw [hres.n]; exact hres.slots
    · rw [hres.n]; exact hres.ordered
    · rw [hres.held, hoff]
    · exact hres.other x (fun hx' => hx ((hoff x).mp hx')) hxe

-- ---------------------------------------------------------------------------
-- Taking an entry out
-- ---------------------------------------------------------------------------

@[simp] theorem setIdx_n : (setIdx s e i).n = s.n := rfl
@[simp] theorem setIdx_a : (setIdx s e i).a = s.a := rfl
@[simp] theorem setIdx_p : (setIdx s e i).p = s.p := rfl
theorem setIdx_entry_of_ne (h : x ≠ e) : (setIdx s e i).entry x = s.entry x :=
  Function.update_of_ne h ..

@[simp] theorem setIdx_time : ((setIdx s e i).entry x).time = (s.entry x).time := by
  by_cases h : x = e
  · subst h; simp [setIdx]
  · rw [setIdx_entry_of_ne h]

@[simp] theorem setIdx_key : (setIdx s e i).key = s.key := by
  funext j
  simp only [Heap.key, setIdx_p, setIdx_time]

def shrunk (s : Heap) : Heap := { s with n := s.n - 1 }

theorem removed_of_sifted (h : InOrder s) (hi : i < s.n - 1) (hq : Slotted s i e)
    (hlast : s.p (s.n - 1) = some last) (hs : Sifted (shrunk s) s' i last) :
    Removed s (setIdx s' e minusOne) e := by
  have hlt : s.n - 1 < s.n := by omega
  have hne : last ≠ e := by
    rintro rfl
    have := h.slot_unique hlt (by omega) hlast hq.1
    omega
  have hoff : ∀ x, HeldOff (shrunk s) i x ∨ x = last ↔ Held s x ∧ x ≠ e := by
    intro x
    constructor
    · rintro (⟨j, hj, hji, hx⟩ | rfl)
      · have hj : j < s.n - 1 := hj
        refine ⟨⟨j, by omega, hx⟩, ?_⟩
        rintro rfl
        exact hji (h.slot_unique (by omega) (by omega) hx hq.1)
      · exact ⟨⟨_, hlt, hlast⟩, hne⟩
    · rintro ⟨⟨j, hj, hx⟩, hxe⟩
      by_cases hjl : j = s.n - 1
      · subst hjl
        exact .inr (Option.some.inj (hx.symm.trans hlast))
      · refine .inl ⟨j, show j < s.n - 1 by omega, ?_, hx⟩
        rintro rfl
        exact hxe (Option.some.inj (hx.symm.trans hq.1))
  have hheld : ∀ x, Held s' x ↔ Held s x ∧ x ≠ e := fun x => (hs.held x).trans (hoff x)
  refine ⟨⟨?_, ?_, fun j hj => ?_, ?_⟩, ?_, fun x => ?_, hheld, ?_, fun x hx => ?_⟩
  · rw [setIdx_n, setIdx_a, hs.n, hs.a]
    exact (Nat.sub_le _ _).trans h.room
  · rw [setIdx_a, hs.a]
    exact h.cap
  · rw [setIdx_n, hs.n] at hj
    obtain ⟨q, hq', hidx⟩ := hs.slots j hj
    have hqe := ((hheld q).mp ⟨j, hs.n ▸ hj, hq'⟩).2
    exact ⟨q, hq', by rw [setIdx_entry_of_ne hqe]; exact hidx⟩
  · rw [setIdx_key, setIdx_n, hs.n]
    exact hs.ordered
  · rw [setIdx_n, hs.n]
    show s.n - 1 + 1 = s.n
    omega
  · rw [setIdx_time, hs.time]
    rfl
  · simp [setIdx]
  · have hxe : x ≠ e := by
      rintro rfl
      exact hx ⟨i, by omega, hq.1⟩
    rw [setIdx_entry_of_ne hxe]
    refine hs.other x (fun hx' => hx ((hoff x).mp (.inl hx')).1) ?_
    rintro rfl
    exact hx ⟨_, hlt, hlast⟩

theorem removed_last (h : InOrder s) (hn : 0 < s.n) (hq : Slotted s (s.n - 1) e) :
    Removed s (setIdx (placed (shrunk s) (s.n - 1) e) e minusOne) e := by
  have hp : ∀ j < s.n - 1, (placed (shrunk s) (s.n - 1) e).p j = s.p j :=
    fun j hj => placed_p_of_ne (Nat.ne_of_lt hj)
  have hheld : ∀ x, Held (placed (shrunk s) (s.n - 1) e) x ↔ Held s x ∧ x ≠ e := by
    intro x
    constructor
    · rintro ⟨j, hj, hx⟩
      have hj : j < s.n - 1 := hj
      rw [hp j hj] at hx
      refine ⟨⟨j, by omega, hx⟩, ?_⟩
      rintro rfl
      have := h.slot_unique (by omega) (by omega) hx hq.1
      omega
    · rintro ⟨⟨j, hj, hx⟩, hxe⟩
      have hjl : j ≠ s.n - 1 := by
        rintro rfl
        exact hxe (Option.some.inj (hx.symm.trans hq.1))
      have hj' : j < s.n - 1 := by omega
      exact ⟨j, hj', (hp j hj').trans hx⟩
  have hidx : ∀ x, x ≠ e →
      (setIdx (placed (shrunk s) (s.n - 1) e) e minusOne).entry x = s.entry x := fun x hx => by
    rw [setIdx_entry_of_ne hx, placed_entry_of_ne hx]
    rfl
  refine ⟨⟨?_, h.cap, fun j hj => ?_, ?_⟩, ?_, fun x => ?_, hheld, ?_, fun x hx => hidx x ?_⟩
  · exact (Nat.sub_le _ _).trans h.room
  · obtain ⟨q, hq'⟩ := h.slots j (Nat.lt_of_lt_of_le hj (Nat.sub_le _ _))
    have hx := (hp j hj).trans hq'.1
    have hqe := ((hheld q).mp ⟨j, hj, hx⟩).2
    exact ⟨q, hx, by rw [hidx q hqe]; exact hq'.2⟩
  · refine (h.ordered.mono (Nat.sub_le _ _)).congr fun j hj => ?_
    rw [setIdx_key, placed_key, Function.update_of_ne (Nat.ne_of_lt hj)]
    rfl
  · show s.n - 1 + 1 = s.n
    omega
  · rw [setIdx_time, placed_time]
    rfl
  · simp [setIdx]
  · rintro rfl
    exact hx ⟨_, by omega, hq.1⟩

theorem shrunk_sifting (h : InOrder s) (hi : i < s.n - 1) (hlast : s.p (s.n - 1) = some last) :
    Sifting (shrunk s) i last := by
  have hroom := h.room
  refine ⟨(Nat.sub_le _ _).trans hroom, show i < s.a by omega, fun j hj _ => ?_⟩
  have hj : j < s.n - 1 := hj
  obtain ⟨q, hq⟩ := h.slots j (by omega)
  refine ⟨q, hq, ?_⟩
  rintro rfl
  have := h.slot_unique (by omega) (by omega) hq.1 hlast
  omega

theorem shrunk_hole (h : InOrder s) (hi : i < s.n - 1) : Hole (shrunk s).key (shrunk s).n i :=
  (h.ordered.mono (Nat.sub_le _ _)).hole hi

-- ---------------------------------------------------------------------------
-- min_heap_pop_ and min_heap_erase_
-- ---------------------------------------------------------------------------

theorem pop_empty (hn : s.n = 0) : minHeapPop s = some (s, none) := by
  rw [minHeapPop, if_neg (not_not_intro hn)]

theorem pop_spec (h : InOrder s) (hn : 0 < s.n) (hlt : s.n < 2 ^ 31) :
    ∃ s' e, minHeapPop s = some (s', some e) ∧ Held s e ∧
      (∀ x, Held s x → (s.entry e).time ≤ (s.entry x).time) ∧ Removed s s' e := by
  have hroom := h.room
  obtain ⟨e, he⟩ := h.slots 0 hn
  obtain ⟨last, hlast⟩ := h.slots (s.n - 1) (by omega)
  have hmin : ∀ x, Held s x → (s.entry e).time ≤ (s.entry x).time := by
    rintro x ⟨i, hi, hx⟩
    have := h.ordered.top_le hi
    rwa [key_of_slot he.1, key_of_slot hx] at this
  have hload : load s 0 = some e := load_eq (by omega) he.1
  have hload' : load (shrunk s) (s.n - 1) = some last := load_eq (show s.n - 1 < s.a by omega) hlast.1
  have hpop : ∀ s', minHeapShiftDown (shrunk s) 0 last = some s' →
      minHeapPop s = some (setIdx s' e minusOne, some e) := by
    intro s' hs'
    rw [minHeapPop, if_pos (Nat.pos_iff_ne_zero.mp hn), hload]
    show (load (shrunk s) (s.n - 1) >>= fun last => minHeapShiftDown (shrunk s) 0 last >>= _) = _
    rw [hload']
    show (minHeapShiftDown (shrunk s) 0 last >>= _) = _
    rw [hs']
    rfl
  rcases Nat.eq_or_lt_of_le (show 1 ≤ s.n from hn) with hone | hmore
  · -- the only entry goes back to slot 0, past the end
    have hzero : s.n - 1 = 0 := by omega
    have hel : last = e := Option.some.inj (hlast.1.symm.trans (hzero ▸ he.1))
    subst hel
    refine ⟨_, last, hpop _ (shiftDown_past (show s.n - 1 ≤ 0 by omega) (show 0 < s.a by omega)
      (show s.n - 1 < 2 ^ 31 by omega) (by omega)), ⟨0, hn, he.1⟩, hmin, ?_⟩
    have := removed_last h hn hlast
    rwa [hzero] at this
  · obtain ⟨s', hs', hres⟩ := shiftDown_sifted (shrunk_sifting h (by omega) hlast.1)
      (show 0 < s.n - 1 by omega) (show s.n - 1 < 2 ^ 31 by omega) (shrunk_hole h (by omega))
      fun h0 => absurd h0 (Nat.lt_irrefl 0)
    exact ⟨_, e, hpop s' hs', ⟨0, hn, he.1⟩, hmin, removed_of_sifted h (by omega) he hlast.1 hres⟩

theorem erase_absent (he : (s.entry e).minHeapIdx = minusOne) :
    minHeapErase s e = some (s, -1) := by
  rw [minHeapErase, if_neg (not_not_intro he)]

theorem shiftEither_sifted (hs : Sifting s h e) (hh : h < s.n) (hn : s.n < 2 ^ 31)
    (hk : Hole s.key s.n h) : ∃ s', shiftEither s h e = some s' ∧ Sifted s s' h e := by
  rcases Nat.eq_zero_or_pos h with rfl | h0
  · obtain ⟨s', hs', hres⟩ := shiftDown_sifted hs hh hn hk fun h0 => absurd h0 (Nat.lt_irrefl 0)
    exact ⟨s', hs', hres⟩
  · have hlt := parent_lt h0
    have hroom := hs.room
    obtain ⟨q, hq, -⟩ := hs.slots (parent h) (by omega) hlt.ne
    have hload := load_eq (show parent h < s.a by omega) hq.1
    by_cases hgt : (s.entry e).time < (s.entry q).time
    · obtain ⟨s', hs', hres⟩ := shiftUpUnconditional_sifted hs h0 hh (by omega) hk
        (by rw [key_of_slot hq.1]; exact hgt)
      refine ⟨s', ?_, hres⟩
      simp only [shiftEither, if_pos h0, parentIndex_eq h0 (by omega), hload, Option.map_some,
        minHeapElemGreater, hgt, Option.bind_eq_bind, Option.bind_some, decide_true, ↓reduceIte, hs']
    · obtain ⟨s', hs', hres⟩ := shiftDown_sifted hs hh hn hk fun _ => by
        rw [key_of_slot hq.1]
        exact not_lt.mp hgt
      refine ⟨s', ?_, hres⟩
      simp only [shiftEither, if_pos h0, parentIndex_eq h0 (by omega), hload, Option.map_some,
        minHeapElemGreater, hgt, Option.bind_eq_bind, Option.bind_some, decide_false,
        Bool.false_eq_true, ↓reduceIte, hs']

theorem shiftEither_past (hh : s.n ≤ h) (ha : h < s.a) (hn : s.n < 2 ^ 31) (hlt : h < 2 ^ 31 - 1)
    (hup : 0 < h → ∃ q, s.p (parent h) = some q ∧ (s.entry q).time ≤ (s.entry e).time) :
    shiftEither s h e = some (placed s h e) := by
  rcases Nat.eq_zero_or_pos h with rfl | h0
  · exact shiftDown_past hh ha hn hlt
  · have hp := parent_lt h0
    obtain ⟨q, hq, hle⟩ := hup h0
    have hload := load_eq (show parent h < s.a by omega) hq
    simp only [shiftEither, if_pos h0, parentIndex_eq h0 (by omega), hload, Option.map_some,
      minHeapElemGreater, not_lt.mpr hle, Option.bind_eq_bind, Option.bind_some, decide_false,
      Bool.false_eq_true, ↓reduceIte, shiftDown_past hh ha hn hlt]

theorem erase_eq (h : InOrder s) (he : Held s e) (hlast : s.p (s.n - 1) = some last) :
    minHeapErase s e =
      (shiftEither (shrunk s) (s.entry e).minHeapIdx last).map (setIdx · e minusOne, 0) := by
  have hpos : 0 < s.n := by
    obtain ⟨i, hi, -⟩ := he
    omega
  have hroom := h.room
  have hcap := h.cap
  have hwrap : uint32 (s.n + (2 ^ 32 - 1)) = s.n - 1 := by unfold uint32; omega
  have hload : load (shrunk s) (s.n - 1) = some last := load_eq (show s.n - 1 < s.a by omega) hlast
  rw [minHeapErase, if_pos (he.idx_ne h), hwrap]
  show (load (shrunk s) (s.n - 1) >>= _) = _
  rw [hload]
  show (shiftEither (shrunk s) _ last >>= _) = _
  cases shiftEither (shrunk s) (s.entry e).minHeapIdx last <;> rfl

theorem erase_spec (h : InOrder s) (he : Held s e) (hlt : s.n < 2 ^ 31) :
    ∃ s', minHeapErase s e = some (s', 0) ∧ Removed s s' e := by
  have hroom := h.room
  obtain ⟨i, hi, hq, hidx⟩ := he.slotted h
  obtain ⟨last, hlast⟩ := h.slots (s.n - 1) (by omega)
  rw [erase_eq h he hlast.1, hidx]
  rcases Nat.eq_or_lt_of_le (show i ≤ s.n - 1 by omega) with rfl | hmid
  · obtain rfl := Option.some.inj (hlast.1.symm.trans hq.1)
    refine ⟨_, ?_, removed_last h (by omega) hq⟩
    rw [shiftEither_past (s := shrunk s) (show s.n - 1 ≤ s.n - 1 from le_rfl)
      (show s.n - 1 < s.a by omega) (show s.n - 1 < 2 ^ 31 by omega) (by omega)]
    · rfl
    · intro h0
      have hp := parent_lt h0
      obtain ⟨q, hq'⟩ := h.slots (parent (s.n - 1)) (by omega)
      have := h.ordered _ h0 hi
      rw [key_of_slot hq'.1, key_of_slot hq.1] at this
      exact ⟨q, hq'.1, this⟩
  · obtain ⟨s', hs', hres⟩ := shiftEither_sifted (shrunk_sifting h hmid hlast.1) hmid
      (show s.n - 1 < 2 ^ 31 by omega) (shrunk_hole h hmid)
    exact ⟨_, by rw [hs']; rfl, removed_of_sifted h hmid hq hlast.1 hres⟩

-- ---------------------------------------------------------------------------
-- min_heap_adjust_
-- ---------------------------------------------------------------------------

/-- The write `e->time = time` a caller makes before `min_heap_adjust_`. -/
def setTime (s : Heap) (e : Ptr) (time : Nat) : Heap :=
  { s with entry := Function.update s.entry e { s.entry e with time := time } }

theorem setTime_idx : ((setTime s e t).entry x).minHeapIdx = (s.entry x).minHeapIdx := by
  by_cases h : x = e
  · subst h; simp [setTime]
  · simp [setTime, h]

theorem setTime_entry_of_ne (h : x ≠ e) : (setTime s e t).entry x = s.entry x :=
  Function.update_of_ne h ..

theorem setTime_slotted : Slotted (setTime s e t) i q ↔ Slotted s i q := by
  unfold Slotted
  rw [setTime_idx]
  rfl

/-- What an entry outside the heap holds is nobody's business. -/
theorem InOrder.write (h : InOrder s) (he : ¬ Held s e) (te : TimerEntry) :
    InOrder { s with entry := Function.update s.entry e te } := by
  have hne : ∀ i < s.n, ∀ q, s.p i = some q → q ≠ e := by
    rintro i hi q hq rfl
    exact he ⟨i, hi, hq⟩
  refine ⟨h.room, h.cap, fun i hi => ?_, h.ordered.congr fun i hi => ?_⟩
  · obtain ⟨q, hq, hidx⟩ := h.slots i hi
    exact ⟨q, hq, by simpa [hne i hi q hq] using hidx⟩
  · obtain ⟨q, hq, -⟩ := h.slots i hi
    simp [Heap.key, hq, hne i hi q hq]

theorem setTime_inOrder (h : InOrder s) (he : ¬ Held s e) : InOrder (setTime s e t) :=
  h.write he _

theorem adjust_held (granted : Bool) (h : InOrder s) (he : Held s e) (hlt : s.n < 2 ^ 31) :
    ∃ s', minHeapAdjust (setTime s e t) e granted = some (s', 0) ∧ Moved (setTime s e t) s' := by
  have hroom := h.room
  obtain ⟨i, hi, hq, hidx⟩ := he.slotted h
  have hslots : ∀ j < s.n, j ≠ i → ∃ q, Slotted (setTime s e t) j q ∧ q ≠ e := by
    intro j hj hji
    obtain ⟨q, hq'⟩ := h.slots j hj
    refine ⟨q, setTime_slotted.mpr hq', ?_⟩
    rintro rfl
    exact hji (h.slot_unique hj hi hq'.1 hq.1)
  have hhole : Hole (setTime s e t).key s.n i := by
    refine (h.ordered.hole hi).congr (fun j hj hji => ?_) hi
    obtain ⟨q, hq', hqe⟩ := hslots j hj hji
    rw [key_of_slot hq'.1, key_of_slot (s := s) hq'.1, setTime_entry_of_ne hqe]
  have hoff : ∀ x, HeldOff (setTime s e t) i x ∨ x = e ↔ Held (setTime s e t) x := by
    intro x
    constructor
    · rintro (⟨j, hj, -, hx⟩ | rfl)
      · exact ⟨j, hj, hx⟩
      · exact ⟨i, hi, hq.1⟩
    · rintro ⟨j, hj, hx⟩
      by_cases hji : j = i
      · subst hji
        exact .inr (Option.some.inj (hx.symm.trans hq.1))
      · exact .inl ⟨j, hj, hji, hx⟩
  obtain ⟨s', hs', hres⟩ := shiftEither_sifted (s := setTime s e t)
    ⟨hroom, show i < s.a by omega, hslots⟩ hi hlt hhole
  refine ⟨s', ?_, ⟨?_, ?_, ?_, ?_⟩, hres.n, hres.time, fun x => (hres.held x).trans (hoff x),
    fun x hx => ?_⟩
  · have hne : ((setTime s e t).entry e).minHeapIdx ≠ minusOne := by
      rw [setTime_idx]
      exact he.idx_ne h
    rw [minHeapAdjust, if_neg hne, setTime_idx, hidx, hs']
    rfl
  · rw [hres.n, hres.a]; exact hroom
  · rw [hres.a]; exact h.cap
  · rw [hres.n]; exact hres.slots
  · rw [hres.n]; exact hres.ordered
  · exact hres.other x (fun hx' => hx ((hoff x).mp (.inl hx'))) fun hxe => hx ((hoff x).mp (.inr hxe))

end LearningCode.MinHeap
