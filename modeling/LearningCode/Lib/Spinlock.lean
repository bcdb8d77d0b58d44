import Mathlib.Logic.Function.Basic
import Mathlib.Data.List.Count

/-!
# A lock and the calls made under it

A thread is the stack of its calls under way, the last one first; `locked` says at which
places a call is under the lock. A step of a thread replaces the calls on top of its
stack. It may take the lock when it is free and give it back, so that the stacks tell who
holds it.
-/

namespace LearningCode.Spinlock

universe u v

variable {τ : Type u} {φ : Type v} [DecidableEq τ] {locked : φ → Bool}
  {holder holder' : Option τ} {stack : τ → List φ} {t t' : τ} {old new rest l : List φ} {f : φ}

/-- The thread that holds the lock has one call under it, every other thread none. -/
def Owned (locked : φ → Bool) (holder : Option τ) (stack : τ → List φ) : Prop :=
  ∀ t, (stack t).countP locked = if holder = some t then 1 else 0

/-- What a step of the thread `t` does to the lock, with the calls `old` on top of its
stack before and `new` after. -/
inductive Move (locked : φ → Bool) (t : τ) : Option τ → List φ → Option τ → List φ → Prop
  | keep {holder : Option τ} {old new : List φ} :
    old.countP locked = new.countP locked → Move locked t holder old holder new
  | take {old new : List φ} :
    old.countP locked = 0 → new.countP locked = 1 → Move locked t none old (some t) new
  | give {holder : Option τ} {old new : List φ} :
    old.countP locked = 1 → new.countP locked = 0 → Move locked t holder old none new

theorem Owned.holder_eq (h : Owned locked holder stack) (hf : f ∈ stack t) (hl : locked f) :
    holder = some t := by
  by_contra hne
  have hzero : (stack t).countP locked = 0 := by rw [h t, if_neg hne]
  exact List.countP_eq_zero.mp hzero f hf hl

theorem Owned.not_holder (h : Owned locked holder stack) (hf : ∀ f ∈ stack t, ¬ locked f) :
    holder ≠ some t := by
  intro hholder
  have hone := h t
  rw [if_pos hholder, List.countP_eq_zero.mpr hf] at hone
  exact absurd hone (by decide)

theorem Owned.holder_of_give (h : Owned locked holder stack) (ht : stack t = old ++ rest)
    (hold : old.countP locked = 1) : holder = some t := by
  obtain ⟨f, hf, hl⟩ := List.countP_pos_iff.mp (by rw [hold]; decide : 0 < old.countP locked)
  exact h.holder_eq (by rw [ht]; exact List.mem_append_left _ hf) hl

theorem Owned.move (h : Owned locked holder stack) (ht : stack t = old ++ rest)
    (hm : Move locked t holder old holder' new) :
    Owned locked holder' (Function.update stack t (new ++ rest)) := by
  intro t'
  have hcount := h t
  rw [ht, List.countP_append] at hcount
  by_cases heq : t' = t
  · subst heq
    rw [Function.update_self, List.countP_append]
    cases hm with
    | keep hsame => rw [← hsame, hcount]
    | take hold hnew =>
      rw [hold] at hcount
      rw [hnew]
      simpa using hcount
    | give hold hnew =>
      have hholder := h.holder_of_give ht hold
      rw [hold, if_pos hholder] at hcount
      simp only [hnew, reduceCtorEq, if_false]
      omega
  · rw [Function.update_of_ne heq, h t']
    cases hm with
    | keep => rfl
    | take => simp [Ne.symm heq]
    | give hold => simp [h.holder_of_give ht hold, Ne.symm heq]

theorem Owned.holder_of_move (h : Owned locked holder stack) (ht : stack t = old ++ rest)
    (hm : Move locked t holder old holder' new) (hholder : holder = some t') (hne : t' ≠ t) :
    holder' = some t' := by
  cases hm with
  | keep => exact hholder
  | take => cases hholder
  | give hold =>
    have := (h.holder_of_give ht hold).symm.trans hholder
    exact absurd (Option.some.inj this).symm hne

def Flat (locked : φ → Bool) (l : List φ) : Prop := ∀ f ∈ l.tail, ¬ locked f

theorem Flat.tail (h : Flat locked (f :: l)) : Flat locked l :=
  fun x hx => h x (List.mem_of_mem_tail hx)

theorem Flat.replace (h : Flat locked (f :: l)) (hnew : Flat locked new) :
    Flat locked (new ++ l) := by
  cases new with
  | nil => exact h.tail
  | cons g new =>
    intro x hx
    rcases List.mem_append.mp hx with hx | hx
    · exact hnew x hx
    · exact h x hx

theorem Flat.not_holder (h : Flat locked (f :: l)) (hf : ¬ locked f)
    (ho : Owned locked holder stack) (ht : stack t = f :: l) : holder ≠ some t := by
  refine ho.not_holder fun x hx => ?_
  rw [ht] at hx
  rcases List.mem_cons.mp hx with rfl | hx
  · exact hf
  · exact h x hx

end LearningCode.Spinlock
