import Mathlib.Data.Option.Basic

/-!
# Loops given a number of turns

A loop of the code takes the turns it may run as an argument, and has no result
when they run out. What the loop returns is what it returns for all large
enough numbers of turns.
-/

namespace LearningCode

universe u

/-- With enough turns the result is `a`. -/
def Returns {α : Type u} (f : Nat → Option α) (a : α) : Prop :=
  ∃ enough, ∀ turns, enough ≤ turns → f turns = some a

namespace Returns

variable {α : Type u} {β : Type u} {f g : Nat → Option α} {a b : α} {c : β}

theorem unique (h : Returns f a) (h' : Returns f b) : a = b := by
  obtain ⟨n, hn⟩ := h
  obtain ⟨m, hm⟩ := h'
  have ha := hn (max n m) (Nat.le_max_left n m)
  have hb := hm (max n m) (Nat.le_max_right n m)
  exact Option.some.inj (ha.symm.trans hb)

theorem of_add (n : Nat) (h : ∀ turns, f (turns + n) = some a) : Returns f a := by
  refine ⟨n, fun turns hle => ?_⟩
  obtain ⟨k, rfl⟩ := Nat.exists_eq_add_of_le' hle
  exact h k

theorem const (h : ∀ turns, f turns = some a) : Returns f a := of_add 0 h

theorem congr (h : Returns f a) (heq : ∀ turns, g turns = f turns) : Returns g a := by
  obtain ⟨n, hn⟩ := h
  exact ⟨n, fun turns hle => (heq turns).trans (hn turns hle)⟩

theorem last (h : ∀ turns, f (turns + 1) = some a) : Returns f a := of_add 1 h

theorem turn (h : Returns g a) (hstep : ∀ turns, f (turns + 1) = g turns) : Returns f a := by
  obtain ⟨n, hn⟩ := h
  refine ⟨n + 1, fun turns hle => ?_⟩
  cases turns with
  | zero => cases hle
  | succ turns => exact (hstep turns).trans (hn turns (Nat.le_of_succ_le_succ hle))

theorem turn_iff (hstep : ∀ turns, f (turns + 1) = g turns) : Returns f a ↔ Returns g a := by
  refine ⟨?_, fun h => h.turn hstep⟩
  rintro ⟨n, hn⟩
  exact ⟨n, fun turns hle => (hstep turns).symm.trans (hn (turns + 1) (Nat.le_succ_of_le hle))⟩

theorem not_of_none (h : ∀ turns, f turns = none) : ¬Returns f a := by
  rintro ⟨n, hn⟩
  cases (h n).symm.trans (hn n (Nat.le_refl n))

theorem bind {k : Nat → α → Option β} (h : Returns f a) (hk : Returns (fun turns => k turns a) c) :
    Returns (fun turns => f turns >>= k turns) c := by
  obtain ⟨n, hn⟩ := h
  obtain ⟨m, hm⟩ := hk
  refine ⟨max n m, fun turns hle => ?_⟩
  show (f turns).bind (k turns) = some c
  rw [hn turns (Nat.le_trans (Nat.le_max_left n m) hle)]
  exact hm turns (Nat.le_trans (Nat.le_max_right n m) hle)

theorem map (h : Returns f a) (k : α → β) : Returns (fun turns => (f turns).map k) (k a) := by
  obtain ⟨n, hn⟩ := h
  refine ⟨n, fun turns hle => ?_⟩
  show (f turns).map k = some (k a)
  rw [hn turns hle]
  rfl

end Returns

end LearningCode
