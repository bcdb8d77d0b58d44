import Mathlib.Computability.StateTransition

/-!
# Where a machine goes through

The states of a run in order, without the one it ends in, for what is counted on the
way or holds throughout.
-/

namespace LearningCode

open StateTransition

universe u

variable {σ : Type u} {f : σ → Option σ} {s t u out : σ} {l l' : List σ} {inside : σ → Prop}

inductive Visits (f : σ → Option σ) : List σ → σ → σ → Prop
  | nil (s : σ) : Visits f [] s s
  | cons {s t u : σ} {l : List σ} (hstep : f s = some t) (h : Visits f l t u) : Visits f (s :: l) s u

namespace Visits

theorem append (h : Visits f l s t) (h' : Visits f l' t u) : Visits f (l ++ l') s u := by
  induction h with
  | nil s => exact h'
  | cons hstep _ ih => exact .cons hstep (ih h')

theorem reaches (h : Visits f l s t) : Reaches f s t := by
  induction h with
  | nil s => exact .refl
  | cons hstep _ ih => exact .head hstep ih

theorem rest (h : Visits f l s t) (hl : ∀ x ∈ l, inside x) (ht : inside t)
    (h' : Visits f l' s u) (hu : f u = some out) (hout : ¬inside out) :
    ∃ later, l' = l ++ later ∧ Visits f later t u := by
  induction h generalizing l' with
  | nil s => exact ⟨l', rfl, h'⟩
  | @cons s s' t l hstep h ih =>
    have hs' : inside s' := by
      cases h with
      | nil => exact ht
      | cons => exact hl _ (by simp)
    cases h' with
    | nil =>
      cases hstep.symm.trans hu
      exact absurd hs' hout
    | cons hstep' hlater =>
      cases hstep.symm.trans hstep'
      obtain ⟨later, rfl, hrest⟩ := ih (fun x hx => hl x (List.mem_cons_of_mem _ hx)) ht hlater
      exact ⟨later, rfl, hrest⟩

theorem eq_of_leaves (h : Visits f l s t) (hs : f s = some out) (hout : ¬inside out)
    (hl : ∀ x ∈ l, inside x) (ht : inside t) : l = [] ∧ t = s := by
  cases h with
  | nil => exact ⟨rfl, rfl⟩
  | cons hstep h =>
    cases hstep.symm.trans hs
    cases h with
    | nil => exact absurd ht hout
    | cons => exact absurd (hl out (by simp)) hout

end Visits

end LearningCode
