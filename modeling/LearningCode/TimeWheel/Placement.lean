import LearningCode.TimeWheel.Model

/-!
# Where a node is linked, and when its slot is emptied

`add_node` picks a slot from the remaining delay, `timer_shift` picks the one
slot it empties from the bits of the clock. Here both choices are numbers, and
`WellPlaced` is what a slot has to satisfy for the two to meet in time.
-/

namespace LearningCode.TimeWheel

inductive Slot
  | near (idx : Nat)
  | level (level idx : Nat)
  deriving DecidableEq, Repr

def Timer.list (T : Timer) : Slot → List Addr
  | .near idx => T.near idx
  | .level level idx => T.t level idx

def linkAt (T : Timer) (s : Slot) (node : Addr) : Timer :=
  match s with
  | .near idx => linkNear T idx node
  | .level level idx => linkLevel T level idx node

def delay (expire now : BitVec 32) : Nat := (expire - now).toNat

def span (level : Nat) : Nat := 2 ^ (TIME_NEAR_SHIFT + level * TIME_LEVEL_SHIFT)

@[simp] theorem span_zero : span 0 = 256 := rfl
@[simp] theorem span_one : span 1 = 16384 := rfl
@[simp] theorem span_two : span 2 = 1048576 := rfl
@[simp] theorem span_three : span 3 = 67108864 := rfl

theorem near_eq : TIME_NEAR = 256 := rfl
theorem level_eq : TIME_LEVEL = 64 := rfl

def slotOf (expire now : BitVec 32) : Slot :=
  if delay expire now < span 0 then .near (expire.toNat % TIME_NEAR)
  else if delay expire now < span 1 then .level 0 (expire.toNat / span 0 % TIME_LEVEL)
  else if delay expire now < span 2 then .level 1 (expire.toNat / span 1 % TIME_LEVEL)
  else if delay expire now < span 3 then .level 2 (expire.toNat / span 2 % TIME_LEVEL)
  else .level 3 (expire.toNat / span 3 % TIME_LEVEL)

theorem toNat_and_near (x : BitVec 32) : (x &&& TIME_NEAR_MASK).toNat = x.toNat % TIME_NEAR :=
  Nat.and_two_pow_sub_one_eq_mod x.toNat 8

theorem toNat_and_level (x : BitVec 32) : (x &&& TIME_LEVEL_MASK).toNat = x.toNat % TIME_LEVEL :=
  Nat.and_two_pow_sub_one_eq_mod x.toNat 6

theorem toNat_shift_and (x : BitVec 32) (k : Nat) :
    ((x >>> k) &&& TIME_LEVEL_MASK).toNat = x.toNat / 2 ^ k % TIME_LEVEL := by
  rw [toNat_and_level, BitVec.toNat_ushiftRight, Nat.shiftRight_eq_div_pow]

theorem addNode_eq (T : Timer) (node : Addr) :
    addNode T node = linkAt T (slotOf (T.node node).expire T.time) node := by
  have h0 : (BitVec.ofNat 32 TIME_NEAR).toNat = span 0 := rfl
  have h1 : (BitVec.ofNat 32 (1 <<< (TIME_NEAR_SHIFT + TIME_LEVEL_SHIFT))).toNat = span 1 := rfl
  have h2 : (BitVec.ofNat 32 (1 <<< (TIME_NEAR_SHIFT + 2 * TIME_LEVEL_SHIFT))).toNat = span 2 := rfl
  have h3 : (BitVec.ofNat 32 (1 <<< (TIME_NEAR_SHIFT + 3 * TIME_LEVEL_SHIFT))).toNat = span 3 := rfl
  simp only [addNode, slotOf, delay, BitVec.lt_def, h0, h1, h2, h3, toNat_and_near, toNat_shift_and]
  split_ifs <;> simp only [*, ↓reduceIte] <;> rfl

-- ---------------------------------------------------------------------------
-- The slot a tick empties
-- ---------------------------------------------------------------------------

def cascade (ct : Nat) : Option Slot :=
  if ct = 0 then some (.level 3 0)
  else if ct % span 0 ≠ 0 then none
  else if ct / span 0 % TIME_LEVEL ≠ 0 then some (.level 0 (ct / span 0 % TIME_LEVEL))
  else if ct / span 1 % TIME_LEVEL ≠ 0 then some (.level 1 (ct / span 1 % TIME_LEVEL))
  else if ct / span 2 % TIME_LEVEL ≠ 0 then some (.level 2 (ct / span 2 % TIME_LEVEL))
  else some (.level 3 (ct / span 3 % TIME_LEVEL))

theorem cascade_ne_near : cascade ct ≠ some (.near idx) := by
  unfold cascade
  split_ifs <;> simp

/-- The slot will be emptied at the tick where the delay has come down to the
part of `expire` below the slot, and at no tick before. Slot 0 of the levels
below the last is never emptied. -/
def WellPlaced (expire now : BitVec 32) : Slot → Prop
  | .near idx => idx = expire.toNat % TIME_NEAR ∧ delay expire now < TIME_NEAR
  | .level level idx =>
    level < 4 ∧ idx = expire.toNat / span level % TIME_LEVEL ∧ (level = 3 ∨ idx ≠ 0) ∧
      expire.toNat % span level < delay expire now ∧
      delay expire now ≤ expire.toNat % span level + span level * TIME_LEVEL

def Parked : Slot → Prop
  | .near _ => False
  | .level level idx => level < 3 ∧ idx = 0

theorem slotOf_wellPlaced_or_parked (expire now : BitVec 32) :
    WellPlaced expire now (slotOf expire now) ∨ Parked (slotOf expire now) := by
  have he := expire.isLt
  have hd := (expire - now).isLt
  unfold slotOf delay
  split_ifs <;> simp [WellPlaced, Parked, delay, near_eq, level_eq] at * <;> omega

theorem delay_tick (h : 0 < delay expire now) :
    delay expire (now + 1) = delay expire now - 1 := by
  unfold delay at *
  bv_omega

theorem delay_zero_iff : delay expire now = 0 ↔ now = expire := by
  unfold delay
  bv_omega

theorem cascade_eq_some (_ : ct < 2 ^ 32) (hl : level < 4) (hi : level = 3 ∨ idx ≠ 0) :
    cascade ct = some (.level level idx) ↔ ct % span level = 0 ∧ ct / span level % TIME_LEVEL = idx := by
  unfold cascade
  obtain rfl | rfl | rfl | rfl : level = 0 ∨ level = 1 ∨ level = 2 ∨ level = 3 := by omega
  all_goals split_ifs <;> simp [level_eq] at * <;> omega

theorem cascade_ne_parked (hl : level < 3) : cascade ct ≠ some (.level level 0) := by
  unfold cascade
  split_ifs <;> simp only [ne_eq, Option.some.injEq, Slot.level.injEq, reduceCtorEq,
    not_false_eq_true, not_and] <;> grind

theorem tick_due (hw : WellPlaced expire now (.level level idx))
    (hc : cascade (now + 1).toNat = some (.level level idx)) :
    delay expire (now + 1) = expire.toNat % span level := by
  obtain ⟨hl, rfl, hi, hlo, hhi⟩ := hw
  have he := expire.isLt
  obtain ⟨h0, hj⟩ := (cascade_eq_some (now + 1).isLt hl hi).mp hc
  rw [delay_tick (by omega)]
  unfold delay at *
  obtain rfl | rfl | rfl | rfl : level = 0 ∨ level = 1 ∨ level = 2 ∨ level = 3 := by omega
  all_goals simp [level_eq] at *; omega

theorem tick_not_due (hw : WellPlaced expire now (.level level idx))
    (hc : cascade (now + 1).toNat ≠ some (.level level idx)) :
    WellPlaced expire (now + 1) (.level level idx) := by
  obtain ⟨hl, rfl, hi, hlo, hhi⟩ := hw
  have he := expire.isLt
  have hd := (expire - now).isLt
  rw [Ne, cascade_eq_some (now + 1).isLt hl hi] at hc
  refine ⟨hl, rfl, hi, ?_⟩
  rw [delay_tick (by omega)]
  unfold delay at *
  obtain rfl | rfl | rfl | rfl : level = 0 ∨ level = 1 ∨ level = 2 ∨ level = 3 := by omega
  all_goals simp [level_eq] at *; omega

/-- A node moved down lands where it will be emptied in time: the bits of
`expire` above the remaining delay are those of the clock. -/
theorem slotOf_due (hl : level < 4) (hd : delay expire now = expire.toNat % span level) :
    WellPlaced expire now (slotOf expire now) := by
  have he := expire.isLt
  unfold slotOf
  rw [hd]
  obtain rfl | rfl | rfl | rfl : level = 0 ∨ level = 1 ∨ level = 2 ∨ level = 3 := by omega
  all_goals split_ifs <;> simp [WellPlaced, near_eq, level_eq] at * <;> omega

theorem tick_near (hw : WellPlaced expire now (.near idx)) (h : 0 < delay expire now) :
    WellPlaced expire (now + 1) (.near idx) := by
  refine ⟨hw.1, ?_⟩
  rw [delay_tick h]
  exact Nat.lt_of_le_of_lt (Nat.sub_le _ _) hw.2

end LearningCode.TimeWheel
