import Mathlib.Logic.Function.Basic
import Mathlib.Data.Nat.Find

/-!
# Memory of a fixed size

Reads and writes by index, and the search for the first element with a property.
What is outside the memory is a fault, so a search ends.
-/

namespace LearningCode.Scan

universe u v

variable {ε : Type u} {α : Type v} {size i j left : Nat} {fault : ε} {m m' : Nat → α} {a : α}
  {p : α → Bool}

def get (size : Nat) (fault : ε) (m : Nat → α) (i : Nat) : Except ε α :=
  if i < size then .ok (m i) else .error fault

def set (size : Nat) (fault : ε) (m : Nat → α) (i : Nat) (a : α) : Except ε (Nat → α) :=
  if i < size then .ok (Function.update m i a) else .error fault

/-- From `i` on, with as many elements as the memory has left there. -/
def find (p : α → Bool) (fault : ε) (m : Nat → α) : (left i : Nat) → Except ε Nat
  | 0, _ => .error fault
  | left + 1, i => if p (m i) then .ok i else find p fault m left (i + 1)

theorem bind_eq_ok {β γ : Type v} {x : Except ε β} {f : β → Except ε γ} {r : γ} :
    x >>= f = .ok r ↔ ∃ b, x = .ok b ∧ f b = .ok r := by
  cases x with
  | error fault => exact ⟨fun h => (nomatch h), fun ⟨_, h, _⟩ => (nomatch h)⟩
  | ok b =>
    constructor
    · exact fun h => ⟨b, rfl, h⟩
    · rintro ⟨_, ⟨⟩, h⟩
      exact h

@[simp] theorem ok_bind {β γ : Type v} {b : β} {f : β → Except ε γ} :
    (Except.ok b >>= f) = f b := rfl

theorem get_of_lt (h : i < size) : get size fault m i = .ok (m i) := if_pos h

theorem set_of_lt (h : i < size) : set size fault m i a = .ok (Function.update m i a) := if_pos h

theorem set_eq_ok : set size fault m i a = .ok m' ↔ i < size ∧ Function.update m i a = m' := by
  unfold set
  split
  · rename_i h
    exact ⟨fun heq => ⟨h, Except.ok.inj heq⟩, fun heq => congrArg _ heq.2⟩
  · rename_i h
    exact ⟨fun heq => (nomatch heq), fun heq => absurd heq.1 h⟩

theorem find_eq_ok : find p fault m left i = .ok j ↔
    i ≤ j ∧ j < i + left ∧ p (m j) = true ∧ ∀ k, i ≤ k → k < j → p (m k) = false := by
  induction left generalizing i with
  | zero =>
    constructor
    · exact fun h => (nomatch h)
    · rintro ⟨hle, hlt, -⟩
      omega
  | succ left ih =>
    rw [find]
    split
    · rename_i hi
      rw [Except.ok.injEq]
      constructor
      · rintro rfl
        exact ⟨Nat.le_refl _, by omega, hi, fun k hle hlt => by omega⟩
      · rintro ⟨hle, -, -, hnone⟩
        by_contra hne
        simp [hnone i (Nat.le_refl _) (by omega)] at hi
    · rename_i hi
      rw [ih]
      constructor
      · rintro ⟨hle, hlt, hj, hnone⟩
        refine ⟨by omega, by omega, hj, fun k hik hkj => ?_⟩
        by_cases hk : k = i
        · subst hk
          exact Bool.eq_false_iff.mpr hi
        · exact hnone k (by omega) hkj
      · rintro ⟨hle, hlt, hj, hnone⟩
        have hij : j ≠ i := by
          rintro rfl
          exact hi hj
        exact ⟨by omega, by omega, hj, fun k hik hkj => hnone k (by omega) hkj⟩

theorem exists_find : (∃ j, find p fault m left i = .ok j) ↔
    ∃ j, i ≤ j ∧ j < i + left ∧ p (m j) = true := by
  constructor
  · rintro ⟨j, h⟩
    obtain ⟨hle, hlt, hj, -⟩ := find_eq_ok.mp h
    exact ⟨j, hle, hlt, hj⟩
  · intro h
    obtain ⟨hle, hlt, hj⟩ := Nat.find_spec h
    refine ⟨Nat.find h, find_eq_ok.mpr ⟨hle, hlt, hj, fun k hik hkj => ?_⟩⟩
    rw [← Bool.not_eq_true]
    exact fun hk => Nat.find_min h hkj ⟨hik, by omega, hk⟩

end LearningCode.Scan
