import Mathlib.Logic.Basic

/-!
# Guarded runs of a transition system

States, labels, and a relation saying which label leads from which state to
which. A guard limits the labels a run may take; the guard that allows
everything gives all runs.
-/

namespace LearningCode

universe u v

structure Transition (σ : Type u) (ι : Type v) where
  init : σ → Prop
  step : σ → ι → σ → Prop

namespace Transition

variable {σ : Type u} {ι : Type v} {M : Transition σ ι} {guard : σ → ι → Prop} {s : σ}

/-- The states of the runs whose every step meets the guard. -/
inductive Reach (M : Transition σ ι) (guard : σ → ι → Prop) : σ → Prop
  | init {t : σ} : M.init t → Reach M guard t
  | step {t t' : σ} {i : ι} : Reach M guard t → guard t i → M.step t i t' → Reach M guard t'

def free (_ : σ) (_ : ι) : Prop := True

/-- What holds at the start and survives every guarded step holds throughout. -/
theorem Reach.invariant {P : σ → Prop} (h : Reach M guard s) (hinit : ∀ s, M.init s → P s)
    (hstep : ∀ s i s', P s → guard s i → M.step s i s' → P s') : P s := by
  induction h with
  | init h => exact hinit _ h
  | step _ hg hs ih => exact hstep _ _ _ ih hg hs

theorem Reach.mono {guard' : σ → ι → Prop} (h : Reach M guard s)
    (hg : ∀ s i, guard s i → guard' s i) : Reach M guard' s := by
  induction h with
  | init h => exact .init h
  | step _ hi hs ih => exact .step ih (hg _ _ hi) hs

/-- A run from one state to another, with its labels in order. -/
inductive Path (M : Transition σ ι) : σ → List ι → σ → Prop
  | nil (s : σ) : Path M s [] s
  | cons {s t s' : σ} {i : ι} {l : List ι} (hstep : M.step s i t) (hpath : Path M t l s') :
    Path M s (i :: l) s'

theorem Path.snoc {l : List ι} {i : ι} {t s' : σ} (h : Path M s l t) (hstep : M.step t i s') :
    Path M s (l ++ [i]) s' := by
  induction h with
  | nil s => exact .cons hstep (.nil s')
  | cons hfirst _ ih => exact .cons hfirst (ih hstep)

theorem Path.split {l₁ l₂ : List ι} {i : ι} {s' : σ} (h : Path M s (l₁ ++ i :: l₂) s') :
    ∃ t t', Path M s l₁ t ∧ M.step t i t' ∧ Path M t' l₂ s' := by
  induction l₁ generalizing s with
  | nil =>
    cases h with
    | cons hstep hpath => exact ⟨s, _, .nil s, hstep, hpath⟩
  | cons j l₁ ih =>
    cases h with
    | cons hstep hpath =>
      obtain ⟨t, t', hbefore, hi, hafter⟩ := ih hpath
      exact ⟨t, t', .cons hstep hbefore, hi, hafter⟩

theorem Reach.path {l : List ι} {s' : σ} (h : Reach M guard s) (hpath : Path M s l s')
    (hguard : ∀ i ∈ l, ∀ t, guard t i) : Reach M guard s' := by
  induction hpath with
  | nil s => exact h
  | cons hstep _ ih =>
    exact ih (h.step (hguard _ List.mem_cons_self _) hstep) fun i hi =>
      hguard i (List.mem_cons_of_mem _ hi)

end Transition

end LearningCode
