import LearningCode.Lib.BinaryHeap
import LearningCode.MinHeap.Model

/-!
# The sifts put an entry down in order

While a sift runs, every slot but the hole holds an entry that knows its slot,
and the carried entry is in none of them. Moving the hole keeps both this and
the set of entries in the slots.
-/

namespace LearningCode.MinHeap

open BinaryHeap

variable {s s' : Heap} {e q x : Ptr}

def Heap.key (s : Heap) (i : Nat) : Nat :=
  match s.p i with
  | some q => (s.entry q).time
  | none => 0

def Held (s : Heap) (x : Ptr) : Prop := ∃ i < s.n, s.p i = some x

def HeldOff (s : Heap) (h : Nat) (x : Ptr) : Prop := ∃ i < s.n, i ≠ h ∧ s.p i = some x

def Slotted (s : Heap) (i : Nat) (q : Ptr) : Prop :=
  s.p i = some q ∧ (s.entry q).minHeapIdx = i

structure Sifting (s : Heap) (h : Nat) (e : Ptr) : Prop where
  room : s.n ≤ s.a
  hole : h < s.a
  slots : ∀ i < s.n, i ≠ h → ∃ q, Slotted s i q ∧ q ≠ e

/-- What a sift of `e` from the hole `h` leaves. -/
structure Sifted (s s' : Heap) (h : Nat) (e : Ptr) : Prop where
  n : s'.n = s.n
  a : s'.a = s.a
  time : ∀ q, (s'.entry q).time = (s.entry q).time
  slots : ∀ i < s.n, ∃ q, Slotted s' i q
  held : ∀ x, Held s' x ↔ HeldOff s h x ∨ x = e
  other : ∀ x, ¬ HeldOff s h x → x ≠ e → s'.entry x = s.entry x
  ordered : Ordered s'.key s.n

-- ---------------------------------------------------------------------------
-- Reading and writing slots
-- ---------------------------------------------------------------------------

theorem key_of_slot (h : s.p i = some q) : s.key i = (s.entry q).time := by
  simp only [Heap.key, h]

theorem load_eq (hi : i < s.a) (h : s.p i = some q) : load s i = some q := by
  rw [load, if_pos hi, h]

theorem greater_iff : minHeapElemGreater s a b = true ↔ (s.entry b).time < (s.entry a).time :=
  decide_eq_true_iff

def placed (s : Heap) (i : Nat) (q : Ptr) : Heap :=
  { s with
    p := Function.update s.p i (some q)
    entry := Function.update s.entry q { s.entry q with minHeapIdx := i } }

theorem place_eq (hi : i < s.a) : place s i q = some (placed s i q) := if_pos hi

@[simp] theorem placed_n : (placed s i q).n = s.n := rfl
@[simp] theorem placed_a : (placed s i q).a = s.a := rfl
@[simp] theorem placed_p_self : (placed s i q).p i = some q := Function.update_self ..
theorem placed_p_of_ne (h : j ≠ i) : (placed s i q).p j = s.p j := Function.update_of_ne h ..
@[simp] theorem placed_idx : ((placed s i q).entry q).minHeapIdx = i := by simp [placed]
theorem placed_entry_of_ne (h : x ≠ q) : (placed s i q).entry x = s.entry x :=
  Function.update_of_ne h ..

@[simp] theorem placed_time : ((placed s i q).entry x).time = (s.entry x).time := by
  by_cases h : x = q
  · subst h; simp [placed]
  · rw [placed_entry_of_ne h]

theorem placed_key : (placed s i q).key = Function.update s.key i (s.entry q).time := by
  funext j
  by_cases h : j = i
  · subst h
    rw [Function.update_self, key_of_slot placed_p_self, placed_time]
  · rw [Function.update_of_ne h]
    simp only [Heap.key, placed_p_of_ne h, placed_time]

-- ---------------------------------------------------------------------------
-- Moving the hole and putting the entry down
-- ---------------------------------------------------------------------------

theorem Sifting.move (hs : Sifting s h e) (hj : j < s.n) (hjh : j ≠ h) (hq : Slotted s j q)
    (hqe : q ≠ e) : Sifting (placed s h q) j e := by
  refine ⟨hs.room, Nat.lt_of_lt_of_le hj hs.room, fun i hi hij => ?_⟩
  by_cases hih : i = h
  · subst hih
    exact ⟨q, ⟨placed_p_self, placed_idx⟩, hqe⟩
  · obtain ⟨x, ⟨hx, hidx⟩, hxe⟩ := hs.slots i hi hih
    have hxq : x ≠ q := by
      rintro rfl
      exact hij (hidx.symm.trans hq.2)
    exact ⟨x, ⟨(placed_p_of_ne hih).trans hx, by rw [placed_entry_of_ne hxq, hidx]⟩, hxe⟩

theorem heldOff_move (hh : h < s.n) (hj : j < s.n) (hjh : j ≠ h) (hq : s.p j = some q) :
    HeldOff (placed s h q) j x ↔ HeldOff s h x := by
  constructor
  · rintro ⟨i, hi, hij, hx⟩
    by_cases hih : i = h
    · subst hih
      rw [placed_p_self] at hx
      exact ⟨j, hj, hjh, hq.trans hx⟩
    · exact ⟨i, hi, hih, (placed_p_of_ne hih).symm.trans hx⟩
  · rintro ⟨i, hi, hih, hx⟩
    by_cases hij : i = j
    · subst hij
      exact ⟨h, hh, hjh.symm, placed_p_self.trans (hq.symm.trans hx)⟩
    · exact ⟨i, hi, hij, (placed_p_of_ne hih).trans hx⟩

theorem Sifted.of_move (hh : h < s.n) (hj : j < s.n) (hjh : j ≠ h) (hq : s.p j = some q)
    (hsift : Sifted (placed s h q) s' j e) : Sifted s s' h e := by
  obtain ⟨hn, ha, htime, hslots, hheld, hother, hord⟩ := hsift
  refine ⟨hn, ha, fun x => (htime x).trans placed_time, hslots, fun x => ?_, fun x hx hxe => ?_, hord⟩
  · rw [hheld, heldOff_move hh hj hjh hq]
  · have hxq : x ≠ q := by
      rintro rfl
      exact hx ⟨j, hj, hjh, hq⟩
    rw [hother x (fun hx' => hx ((heldOff_move hh hj hjh hq).mp hx')) hxe, placed_entry_of_ne hxq]

theorem Sifting.finish (hs : Sifting s h e) (hh : h < s.n) (hk : Hole s.key s.n h)
    (ha : Above s.key h (s.entry e).time) (hb : Below s.key s.n h (s.entry e).time) :
    ∃ s', place s h e = some s' ∧ Sifted s s' h e := by
  refine ⟨placed s h e, place_eq hs.hole, rfl, rfl, fun q => placed_time, fun i hi => ?_,
    fun x => ⟨?_, ?_⟩, fun x _ hx => placed_entry_of_ne hx, ?_⟩
  · by_cases hih : i = h
    · subst hih
      exact ⟨e, placed_p_self, placed_idx⟩
    · obtain ⟨q, ⟨hq, hidx⟩, hqe⟩ := hs.slots i hi hih
      exact ⟨q, (placed_p_of_ne hih).trans hq, by rw [placed_entry_of_ne hqe, hidx]⟩
  · rintro ⟨i, hi, hx⟩
    by_cases hih : i = h
    · subst hih
      exact .inr (Option.some.inj (placed_p_self.symm.trans hx)).symm
    · exact .inl ⟨i, hi, hih, (placed_p_of_ne hih).symm.trans hx⟩
  · rintro (⟨i, hi, hih, hx⟩ | rfl)
    · exact ⟨i, hi, (placed_p_of_ne hih).trans hx⟩
    · exact ⟨h, hh, placed_p_self⟩
  · rw [placed_key]
    exact hk.fill ha hb

-- ---------------------------------------------------------------------------
-- Sifting up
-- ---------------------------------------------------------------------------

theorem parentIndex_eq (h0 : 0 < h) (hlt : h < 2 ^ 32) : parentIndex h = parent h := by
  unfold parentIndex parent uint32
  omega

theorem Sifting.up (hs : Sifting s h e) (h0 : 0 < h) (hh : h < s.n) (hk : Hole s.key s.n h)
    (hq : Slotted s (parent h) q) (hqe : q ≠ e) (hgt : (s.entry e).time < (s.entry q).time) :
    Sifting (placed s h q) (parent h) e ∧ Hole (placed s h q).key s.n (parent h) ∧
      Below (placed s h q).key s.n (parent h) (s.entry e).time := by
  have hlt := parent_lt h0
  have hkey : (s.entry q).time = s.key (parent h) := (key_of_slot hq.1).symm
  refine ⟨hs.move (Nat.lt_trans hlt hh) hlt.ne hq hqe, ?_, ?_⟩
  · rw [placed_key, hkey]
    exact hk.up h0 hh
  · rw [placed_key, hkey]
    exact Below.up hk h0 (hkey ▸ hgt.le)

theorem shiftUp_sifted (hs : Sifting s h e) (hh : h < s.n) (hn : s.n < 2 ^ 32)
    (hk : Hole s.key s.n h) (hb : Below s.key s.n h (s.entry e).time) :
    ∃ s', minHeapShiftUp s h e = some s' ∧ Sifted s s' h e := by
  induction h using Nat.strongRecOn generalizing s with
  | ind h ih =>
    rw [minHeapShiftUp]
    split
    · next h0 =>
      have h0 : 0 < h := Nat.pos_of_ne_zero h0
      have hlt := parent_lt h0
      rw [parentIndex_eq h0 (by omega)]
      obtain ⟨q, hq, hqe⟩ := hs.slots (parent h) (by omega) hlt.ne
      have hload := load_eq (by have := hs.room; omega) hq.1
      simp only [hload, Option.bind_eq_bind, Option.bind_some]
      split
      · next hgt =>
        rw [greater_iff] at hgt
        rw [place_eq hs.hole, Option.bind_some]
        obtain ⟨hsifting, hhole, hbelow⟩ := hs.up h0 hh hk hq hqe hgt
        obtain ⟨s', hs', hsift⟩ := ih (parent h) hlt hsifting (Nat.lt_trans hlt hh) hn hhole
          (placed_time.symm ▸ hbelow)
        exact ⟨s', hs', hsift.of_move hh (by omega) hlt.ne hq.1⟩
      · next hle =>
        refine hs.finish hh hk (fun _ => ?_) hb
        rw [key_of_slot hq.1]
        exact not_lt.mp (mt greater_iff.mpr hle)
    · next h0 =>
      exact hs.finish hh hk (fun h0' => absurd h0'.ne' h0) hb

/-- The unconditional sift differs in making the first move untested. -/
theorem shiftUpUnconditional_sifted (hs : Sifting s h e) (h0 : 0 < h) (hh : h < s.n)
    (hn : s.n < 2 ^ 32) (hk : Hole s.key s.n h) (hgt : (s.entry e).time < s.key (parent h)) :
    ∃ s', minHeapShiftUpUnconditional s h e = some s' ∧ Sifted s s' h e := by
  have hlt := parent_lt h0
  obtain ⟨q, hq, hqe⟩ := hs.slots (parent h) (by omega) hlt.ne
  rw [key_of_slot hq.1] at hgt
  obtain ⟨hsifting, hhole, hbelow⟩ := hs.up h0 hh hk hq hqe hgt
  obtain ⟨s', hs', hsift⟩ := shiftUp_sifted hsifting (Nat.lt_trans hlt hh) hn hhole
    (placed_time.symm ▸ hbelow)
  refine ⟨s', ?_, hsift.of_move hh (by omega) hlt.ne hq.1⟩
  have hload := load_eq (by have := hs.room; omega) hq.1
  simp only [minHeapShiftUpUnconditional, parentIndex_eq h0 (by omega), hload, place_eq hs.hole,
    Option.bind_eq_bind, Option.bind_some, hs']

-- ---------------------------------------------------------------------------
-- Sifting down
-- ---------------------------------------------------------------------------

theorem pickChild_eq (hs : Sifting s h e) (hchild : 2 * (h + 1) ≤ s.n) (hn : s.n < 2 ^ 32) :
    ∃ c, pickChild s (2 * (h + 1)) = some c ∧ IsMinChild s.key s.n h c := by
  have hroom := hs.room
  have hleft : IsChild s.n h (2 * h + 1) := ⟨by omega, by omega, by unfold parent; omega⟩
  have hwrap : uint32 (2 * (h + 1) + (2 ^ 32 - 1)) = 2 * h + 1 := by unfold uint32; omega
  have honly : ∀ d, IsChild s.n h d → d = 2 * h + 1 ∨ d = 2 * (h + 1) := by
    rintro d ⟨hd, -, hp⟩
    unfold parent at hp
    omega
  unfold pickChild
  rw [hwrap]
  split
  · next hlast =>
    refine ⟨2 * h + 1, rfl, hleft, fun d hd => ?_⟩
    rcases honly d hd with rfl | rfl
    · exact le_rfl
    · exact absurd hd.2.1 (by omega)
  · next hlast =>
    have hright : IsChild s.n h (2 * (h + 1)) := ⟨by omega, by omega, by unfold parent; omega⟩
    obtain ⟨r, hr, -⟩ := hs.slots _ hright.2.1 hright.lt.ne'
    obtain ⟨l, hl, -⟩ := hs.slots _ hleft.2.1 hleft.lt.ne'
    have hgreater : minHeapElemGreater s r l = true ↔ s.key (2 * h + 1) < s.key (2 * (h + 1)) := by
      rw [greater_iff, key_of_slot hr.1, key_of_slot hl.1]
    simp only [load_eq (by omega) hr.1, load_eq (by omega) hl.1, Option.bind_eq_bind,
      Option.bind_some, hgreater]
    split
    · next hgt =>
      refine ⟨_, rfl, hleft, fun d hd => ?_⟩
      rcases honly d hd with rfl | rfl
      · exact le_rfl
      · exact hgt.le
    · next hle =>
      refine ⟨_, rfl, hright, fun d hd => ?_⟩
      rcases honly d hd with rfl | rfl
      · exact not_lt.mp hle
      · exact le_rfl

theorem shiftDownLoop_sifted (hs : Sifting s h e) (hh : h < s.n) (hn : s.n < 2 ^ 31)
    (hk : Hole s.key s.n h) (ha : Above s.key h (s.entry e).time) (hturns : s.n < h + turns) :
    ∃ s', minHeapShiftDownLoop s h e turns = some s' ∧ Sifted s s' h e := by
  induction turns generalizing s h with
  | zero => omega
  | succ turns ih =>
    have hroom := hs.room
    have hwrap : uint32 (2 * (h + 1)) = 2 * (h + 1) := by unfold uint32; omega
    simp only [minHeapShiftDownLoop, hwrap]
    split
    · next hchild =>
      obtain ⟨c, hpick, hmin⟩ := pickChild_eq hs hchild (by omega)
      have hlt := hmin.1.lt
      have hcn := hmin.1.2.1
      obtain ⟨q, hq, hqe⟩ := hs.slots c hcn hlt.ne'
      have hkey : (s.entry q).time = s.key c := (key_of_slot hq.1).symm
      simp only [hpick, load_eq (by omega) hq.1, Option.bind_eq_bind, Option.bind_some]
      split
      · next hgt =>
        -- the smaller child comes up into the hole
        rw [greater_iff] at hgt
        rw [place_eq hs.hole, Option.bind_some]
        obtain ⟨s', hs', hsift⟩ := ih (hs.move hcn hlt.ne' hq hqe) hcn hn
          (by rw [placed_key, placed_n, hkey]; exact hk.down hmin)
          (by rw [placed_key, placed_time, hkey]; exact Above.down hmin.1 (hkey ▸ hgt.le))
          (by rw [placed_n]; omega)
        exact ⟨s', hs', hsift.of_move hh hcn hlt.ne' hq.1⟩
      · next hle =>
        refine hs.finish hh hk ha fun d hd => ?_
        have := not_lt.mp (mt greater_iff.mpr hle)
        rw [hkey] at this
        exact this.trans (hmin.2 d hd)
    · next hleaf =>
      refine hs.finish hh hk ha fun d hd => ?_
      obtain ⟨hd0, hdn, hp⟩ := hd
      unfold parent at hp
      omega

theorem shiftDown_sifted (hs : Sifting s h e) (hh : h < s.n) (hn : s.n < 2 ^ 31)
    (hk : Hole s.key s.n h) (ha : Above s.key h (s.entry e).time) :
    ∃ s', minHeapShiftDown s h e = some s' ∧ Sifted s s' h e :=
  shiftDownLoop_sifted hs hh hn hk ha (by omega)

theorem shiftDown_past (hh : s.n ≤ h) (ha : h < s.a) (hn : s.n < 2 ^ 31) (hlt : h < 2 ^ 31 - 1) :
    minHeapShiftDown s h e = some (placed s h e) := by
  have hwrap : uint32 (2 * (h + 1)) = 2 * (h + 1) := by unfold uint32; omega
  rw [minHeapShiftDown, minHeapShiftDownLoop]
  simp only [hwrap]
  rw [if_neg (by omega), place_eq ha]

end LearningCode.MinHeap
