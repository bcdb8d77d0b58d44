import LearningCode.MinHeap.Operations

/-!
# The entry on top

An entry that is no later than the others leaves slot 0 only when it is taken out: the
sifts move entries over strictly later ones only.
-/

namespace LearningCode.MinHeap

open BinaryHeap

variable {s s' : Heap} {e q te : Ptr} {i j : Nat}

structure Under (s : Heap) (te e : Ptr) : Prop where
  root : s.p 0 = some te
  le : (s.entry te).time ≤ (s.entry e).time

theorem place_some (h : place s i q = some s') : placed s i q = s' := by
  unfold place at h
  split_ifs at h
  exact Option.some.inj h

theorem place_root (h : place s i q = some s') (hi : i ≠ 0) : s'.p 0 = s.p 0 := by
  rw [← place_some h, placed_p_of_ne hi.symm]

theorem Under.placed (h : Under s te e) (hi : i ≠ 0) : Under (placed s i q) te e :=
  ⟨(placed_p_of_ne hi.symm).trans h.root, by rw [placed_time, placed_time]; exact h.le⟩

theorem load_some (h : load s i = some q) : s.p i = some q := by
  unfold load at h
  split_ifs at h
  exact h

theorem Under.parent_ne (h : Under s te e) (hload : load s (parentIndex i) = some q)
    (hgt : minHeapElemGreater s q e = true) : parentIndex i ≠ 0 := by
  intro hzero
  rw [hzero] at hload
  obtain rfl := Option.some.inj (h.root.symm.trans (load_some hload))
  exact absurd (greater_iff.mp hgt) (Nat.not_lt.mpr h.le)

theorem shiftUp_root (h : Under s te e) (hi : i ≠ 0) (hup : minHeapShiftUp s i e = some s') :
    s'.p 0 = some te := by
  induction i using Nat.strong_induction_on generalizing s with
  | _ i ih =>
    rw [minHeapShiftUp, if_pos hi] at hup
    obtain ⟨q, hload, hup⟩ := Option.bind_eq_some_iff.mp hup
    split_ifs at hup with hgt
    · obtain ⟨s₁, hplace, hup⟩ := Option.bind_eq_some_iff.mp hup
      obtain rfl := place_some hplace
      exact ih _ (parentIndex_lt hi) (h.placed hi) (h.parent_ne hload hgt) hup
    · rw [place_root hup hi, h.root]

theorem pickChild_pos (hle : 2 * (i + 1) ≤ s.n) (hn : s.n < 2 ^ 32)
    (h : pickChild s (2 * (i + 1)) = some j) : j ≠ 0 ∧ j ≤ s.n := by
  have hwrap : uint32 (2 * (i + 1) + (2 ^ 32 - 1)) = 2 * i + 1 := by
    unfold uint32
    omega
  unfold pickChild at h
  rw [hwrap] at h
  split_ifs at h
  · obtain rfl := Option.some.inj h
    omega
  · obtain ⟨right, -, h⟩ := Option.bind_eq_some_iff.mp h
    obtain ⟨left, -, h⟩ := Option.bind_eq_some_iff.mp h
    split_ifs at h
    · obtain rfl := Option.some.inj h
      omega
    · obtain rfl := Option.some.inj h
      omega

theorem shiftDownLoop_root (hi : i ≠ 0) (hle : i ≤ s.n) (hn : s.n < 2 ^ 31 - 1) {turns : Nat}
    (hdown : minHeapShiftDownLoop s i e turns = some s') : s'.p 0 = s.p 0 := by
  induction turns generalizing s i with
  | zero => cases hdown
  | succ turns ih =>
    have hwrap : uint32 (2 * (i + 1)) = 2 * (i + 1) := by
      unfold uint32
      omega
    simp only [minHeapShiftDownLoop, hwrap] at hdown
    split_ifs at hdown with hchild
    · obtain ⟨j, hpick, hdown⟩ := Option.bind_eq_some_iff.mp hdown
      obtain ⟨hj, hjle⟩ := pickChild_pos hchild (by omega) hpick
      obtain ⟨c, -, hdown⟩ := Option.bind_eq_some_iff.mp hdown
      split_ifs at hdown
      · obtain ⟨s₁, hplace, hdown⟩ := Option.bind_eq_some_iff.mp hdown
        have hroot := place_root hplace hi
        obtain rfl := place_some hplace
        exact (ih (s := placed s i c) hj hjle hn hdown).trans hroot
      · exact place_root hdown hi
    · exact place_root hdown hi

theorem shiftEither_root (h : Under s te e) (hi : i ≠ 0) (hle : i ≤ s.n) (hn : s.n < 2 ^ 31 - 1)
    (hshift : shiftEither s i e = some s') : s'.p 0 = some te := by
  rw [shiftEither, if_pos (Nat.pos_of_ne_zero hi)] at hshift
  obtain ⟨up, hup, hshift⟩ := Option.bind_eq_some_iff.mp hshift
  obtain ⟨q, hload, rfl⟩ := Option.map_eq_some_iff.mp hup
  dsimp only at hshift
  split_ifs at hshift with hgt
  · obtain ⟨q', hload', hshift⟩ := Option.bind_eq_some_iff.mp hshift
    obtain rfl := Option.some.inj (hload.symm.trans hload')
    obtain ⟨s₁, hplace, hshift⟩ := Option.bind_eq_some_iff.mp hshift
    obtain rfl := place_some hplace
    exact shiftUp_root (h.placed hi) (h.parent_ne hload hgt) hshift
  · rw [shiftDownLoop_root hi hle hn hshift, h.root]

theorem push_root (h : Under s te e) (hn : 0 < s.n) {granted : Bool} {code : Code}
    (hpush : minHeapPush s e granted = some (s', code)) : s'.p 0 = some te := by
  have hkeep : (minHeapReserve s (uint32 (s.n + 1)) granted).1.p = s.p ∧
      (minHeapReserve s (uint32 (s.n + 1)) granted).1.n = s.n ∧
      (minHeapReserve s (uint32 (s.n + 1)) granted).1.entry = s.entry := by
    unfold minHeapReserve
    dsimp only
    split_ifs <;> exact ⟨rfl, rfl, rfl⟩
  obtain ⟨hp, hsn, hentry⟩ := hkeep
  unfold minHeapPush at hpush
  split at hpush
  · next g hg =>
    rw [hg] at hp
    obtain ⟨rfl, -⟩ := Prod.mk.inj (Option.some.inj hpush)
    rw [hp, h.root]
  · next g hg =>
    rw [hg] at hp hsn hentry
    obtain ⟨s₁, hup, hpush⟩ := Option.bind_eq_some_iff.mp hpush
    obtain ⟨rfl, -⟩ := Prod.mk.inj (Option.some.inj hpush)
    refine shiftUp_root (e := e) ⟨by rw [← h.root, ← hp], ?_⟩ ?_ hup
    · show (g.entry te).time ≤ (g.entry e).time
      rw [hentry]
      exact h.le
    · rw [hsn]
      exact Nat.pos_iff_ne_zero.mp hn

theorem erase_root (hs : InOrder s) (hroot : s.p 0 = some te) (he : Held s e) (hne : e ≠ te)
    (hn : s.n < 2 ^ 31) {code : Code} (herase : minHeapErase s e = some (s', code)) :
    s'.p 0 = some te := by
  obtain ⟨i, hi, hslot, hidx⟩ := he.slotted hs
  obtain ⟨last, hlast⟩ := hs.slots (s.n - 1) (by omega)
  have hi0 : i ≠ 0 := by
    rintro rfl
    exact hne (Option.some.inj (hslot.1.symm.trans hroot))
  have hmin : (s.entry te).time ≤ (s.entry last).time := by
    have := hs.ordered.top_le (show s.n - 1 < s.n by omega)
    rwa [key_of_slot hroot, key_of_slot hlast.1] at this
  rw [erase_eq hs he hlast.1, hidx] at herase
  obtain ⟨s₁, hshift, heq⟩ := Option.map_eq_some_iff.mp herase
  obtain ⟨rfl, -⟩ := Prod.mk.inj heq
  show s₁.p 0 = some te
  exact shiftEither_root (s := shrunk s) ⟨hroot, hmin⟩ hi0 (show i ≤ s.n - 1 by omega)
    (show s.n - 1 < 2 ^ 31 - 1 by omega) hshift

end LearningCode.MinHeap
