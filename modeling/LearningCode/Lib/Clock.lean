import Mathlib.Data.BitVec
import Mathlib.Data.Int.Order.Basic

/-!
# Instants read from a clock of `w` bits

The clock counts on and shows the count modulo `2 ^ w`. Two readings less than
half a turn apart give back their distance as a signed number; compared as
unsigned numbers they only tell the order of instants of the same turn.
-/

namespace LearningCode.Clock

variable {w s t : Nat}

def reading (w t : Nat) : BitVec w := BitVec.ofNat w t

def turn (w t : Nat) : Nat := t / 2 ^ w

/-- Less than half a turn lies between the instants. -/
def Near (w s t : Nat) : Prop := 2 * s < 2 * t + 2 ^ w ∧ 2 * t < 2 * s + 2 ^ w

theorem toNat_reading : (reading w t).toNat = t % 2 ^ w := BitVec.toNat_ofNat ..

theorem Near.toInt_sub (h : Near w t s) : (reading w t - reading w s).toInt = (t : Int) - s := by
  have hwrap : reading w t = reading w s + BitVec.ofInt w ((t : Int) - s) := by
    have hadd := BitVec.ofInt_add (n := w) (s : Int) ((t : Int) - s)
    have hcancel : (s : Int) + ((t : Int) - s) = t := by omega
    rwa [hcancel, BitVec.ofInt_natCast, BitVec.ofInt_natCast] at hadd
  obtain ⟨hlt, hgt⟩ := h
  rw [hwrap, BitVec.add_comm, BitVec.add_sub_cancel, BitVec.toInt_ofInt]
  generalize 2 ^ w = m at *
  apply Int.bmod_eq_of_le_mul_two <;> omega

theorem le_iff_of_turn (h : turn w s = turn w t) :
    s ≤ t ↔ (reading w s).toNat ≤ (reading w t).toNat := by
  have hs := Nat.div_add_mod s (2 ^ w)
  have ht := Nat.div_add_mod t (2 ^ w)
  rw [turn, turn] at h
  rw [h] at hs
  rw [toNat_reading, toNat_reading]
  omega

/-- The unsigned order of two readings is the order of the instants exactly
within one turn. -/
theorem Near.le_iff_turn (h : Near w t s) :
    ((reading w t).toNat ≤ (reading w s).toNat ↔ t ≤ s) ↔ turn w t = turn w s := by
  obtain ⟨hlt, hgt⟩ := h
  have ht := Nat.div_add_mod t (2 ^ w)
  have hs := Nat.div_add_mod s (2 ^ w)
  have hpos := Nat.two_pow_pos w
  have htm := Nat.mod_lt t hpos
  have hsm := Nat.mod_lt s hpos
  rw [toNat_reading, toNat_reading, turn, turn]
  generalize 2 ^ w = m at *
  obtain hlow | heq | hhigh := Nat.lt_trichotomy (t / m) (s / m)
  · have hstep := Nat.mul_le_mul_left m hlow
    rw [Nat.mul_succ] at hstep
    omega
  · rw [heq] at ht
    omega
  · have hstep := Nat.mul_le_mul_left m hhigh
    rw [Nat.mul_succ] at hstep
    omega

end LearningCode.Clock
