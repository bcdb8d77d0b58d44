import LearningCode.Lib.Transition
import Mathlib.Logic.Function.Basic

/-!
# Threads over shared memory

Any number of threads run one program, each from its own control state, and
interleave their steps on one shared memory. A proof outline annotates the
memory, every control state and every pair of control states, with auxiliary
state of its own; it is valid when a step of one thread reestablishes its own
annotation and does not interfere with the annotation of another.
-/

namespace LearningCode.Threads

open Transition

universe u v w x

/-- One thread: its steps on the shared memory `σ`, by control states `κ`. -/
structure Program (σ : Type u) (κ : Type v) (ι : Type w) where
  start : σ → Prop
  idle : κ → Prop
  step : σ → κ → ι → σ → κ → Prop

variable {σ : Type u} {κ : Type v} {ι : Type w} {γ τ : Type x} [DecidableEq τ]
  {P : Program σ κ ι} {st : σ × (τ → κ)}

/-- The threads `τ`, one step of one thread at a time. -/
def Program.threads (P : Program σ κ ι) (τ : Type x) [DecidableEq τ] :
    Transition (σ × (τ → κ)) (τ × ι) where
  init st := P.start st.1 ∧ ∀ t, P.idle (st.2 t)
  step st i st' := ∃ k, P.step st.1 (st.2 i.1) i.2 st'.1 k ∧ st'.2 = Function.update st.2 i.1 k

theorem reach_step {guard : σ × (τ → κ) → τ × ι → Prop} {s s' : σ} {pc : τ → κ} {k : κ} {t : τ}
    {i : ι} (h : Reach (P.threads τ) guard (s, pc)) (hg : guard (s, pc) (t, i))
    (hstep : P.step s (pc t) i s' k) :
    Reach (P.threads τ) guard (s', Function.update pc t k) := h.step hg ⟨k, hstep, rfl⟩

/-- The steps to which the control state of no other thread objects. -/
def spares (allows : σ → κ → ι → κ → Prop) (st : σ × (τ → κ)) (i : τ × ι) : Prop :=
  ∀ u, u ≠ i.1 → allows st.1 (st.2 i.1) i.2 (st.2 u)

def Program.upTo (P : Program σ κ ι) (B : σ → Prop) : Program σ κ ι :=
  { P with step := fun s k i s' k' => P.step s k i s' k' ∧ B s' }

theorem reach_upTo {B : σ → Prop} {guard : σ × (τ → κ) → τ × ι → Prop}
    (hback : ∀ s k i s' k', P.step s k i s' k' → B s' → B s) (h : Reach (P.threads τ) guard st)
    (hB : B st.1) : Reach ((P.upTo B).threads τ) guard st := by
  induction h with
  | init h => exact .init h
  | step _ hg hs ih =>
    obtain ⟨k, hstep, hk⟩ := hs
    exact .step (ih (hback _ _ _ _ _ hstep hB)) hg ⟨k, ⟨hstep, hB⟩, hk⟩

def Program.only (P : Program σ κ ι) (ok : κ → ι → Prop) : Program σ κ ι :=
  { P with step := fun s k i s' k' => P.step s k i s' k' ∧ ok k i }

/-- A guard that looks at the thread that moves can be made part of the program. -/
theorem reach_only {ok : κ → ι → Prop}
    (h : Reach (P.threads τ) (fun st i => ok (st.2 i.1) i.2) st) :
    Reach ((P.only ok).threads τ) free st := by
  induction h with
  | init h => exact .init h
  | step _ hg hs ih =>
    obtain ⟨k, hstep, hk⟩ := hs
    exact ih.step trivial ⟨k, ⟨hstep, hg⟩, hk⟩

def schedule (f : σ → κ → ι → Option (σ × κ)) :
    σ × (τ → κ) → List (τ × ι) → Option (σ × (τ → κ))
  | st, [] => some st
  | st, (t, i) :: is =>
    (f st.1 (st.2 t) i).bind fun (s, k) => schedule f (s, Function.update st.2 t k) is

theorem reach_schedule {f : σ → κ → ι → Option (σ × κ)} {st' : σ × (τ → κ)} {is : List (τ × ι)}
    (hf : ∀ s k i s' k', f s k i = some (s', k') → P.step s k i s' k')
    (h : Reach (P.threads τ) free st) (hrun : schedule f st is = some st') :
    Reach (P.threads τ) free st' := by
  induction is generalizing st with
  | nil =>
    cases hrun
    exact h
  | cons i is ih =>
    obtain ⟨⟨s, k⟩, hstep, hrun⟩ := Option.bind_eq_some_iff.mp hrun
    exact ih (.step h trivial ⟨k, hf _ _ _ _ _ hstep, rfl⟩) hrun

/-- `schedule`, as long as none of the threads `us` objects. -/
def scheduleSparing (f : σ → κ → ι → Option (σ × κ)) (allows : σ → κ → ι → κ → Bool) (us : List τ) :
    σ × (τ → κ) → List (τ × ι) → Option (σ × (τ → κ))
  | st, [] => some st
  | st, (t, i) :: is =>
    if us.all fun u => u = t || allows st.1 (st.2 t) i (st.2 u) then
      (f st.1 (st.2 t) i).bind fun (s, k) =>
        scheduleSparing f allows us (s, Function.update st.2 t k) is
    else none

theorem reach_scheduleSparing {f : σ → κ → ι → Option (σ × κ)} {check : σ → κ → ι → κ → Bool}
    {allows : σ → κ → ι → κ → Prop} {us : List τ} {st' : σ × (τ → κ)} {is : List (τ × ι)}
    (hf : ∀ s k i s' k', f s k i = some (s', k') → P.step s k i s' k')
    (hcheck : ∀ s k i m, check s k i m = true → allows s k i m) (hus : ∀ u, u ∈ us)
    (h : Reach (P.threads τ) (spares allows) st)
    (hrun : scheduleSparing f check us st is = some st') :
    Reach (P.threads τ) (spares allows) st' := by
  induction is generalizing st with
  | nil =>
    cases hrun
    exact h
  | cons i is ih =>
    obtain ⟨hall, hrun⟩ := Option.ite_none_right_eq_some.mp hrun
    obtain ⟨⟨s, k⟩, hstep, hrun⟩ := Option.bind_eq_some_iff.mp hrun
    refine ih (.step h (fun u hu => hcheck _ _ _ _ ?_) ⟨k, hf _ _ _ _ _ hstep, rfl⟩) hrun
    simpa [hu] using List.all_eq_true.mp hall u (hus u)

structure Outline (σ : Type u) (κ : Type v) (γ : Type x) where
  shared : γ → σ → Prop
  here : γ → σ → κ → Prop
  apart : κ → κ → Prop

structure Outline.Valid (A : Outline σ κ γ) (P : Program σ κ ι)
    (allows : σ → κ → ι → κ → Prop) : Prop where
  start : ∀ s, P.start s → ∃ g, A.shared g s ∧ ∀ k, P.idle k → A.here g s k
  idle : ∀ k m, P.idle k → P.idle m → A.apart k m
  symm : ∀ k m, A.apart k m → A.apart m k
  step : ∀ g s k i s' k', A.shared g s → A.here g s k → P.step s k i s' k' →
    ∃ g', A.shared g' s' ∧ A.here g' s' k' ∧
      ∀ m, A.here g s m → A.apart k m → allows s k i m → A.here g' s' m ∧ A.apart k' m

/-- The annotations that hold between the steps. -/
structure Outline.Holds (A : Outline σ κ γ) (g : γ) (st : σ × (τ → κ)) : Prop where
  shared : A.shared g st.1
  here : ∀ t, A.here g st.1 (st.2 t)
  apart : ∀ t u, t ≠ u → A.apart (st.2 t) (st.2 u)

variable {A : Outline σ κ γ} {allows : σ → κ → ι → κ → Prop}

theorem Outline.Valid.holds_step (h : A.Valid P allows) {g : γ} {i : τ × ι}
    {st' : σ × (τ → κ)} (hst : A.Holds g st) (hguard : spares allows st i)
    (hstep : (P.threads τ).step st i st') : ∃ g', A.Holds g' st' := by
  obtain ⟨s, pc⟩ := st
  obtain ⟨s', pc'⟩ := st'
  obtain ⟨t, i⟩ := i
  obtain ⟨k, hstep, rfl⟩ := hstep
  obtain ⟨g', hshared, hk, hrest⟩ := h.step g s (pc t) i s' k hst.shared (hst.here t) hstep
  have hother (u : τ) (hu : u ≠ t) : A.here g' s' (pc u) ∧ A.apart k (pc u) :=
    hrest (pc u) (hst.here u) (hst.apart t u hu.symm) (hguard u hu)
  refine ⟨g', hshared, ?_, ?_⟩
  · intro u
    by_cases hu : u = t
    · subst hu
      simpa using hk
    · simpa [hu] using (hother u hu).1
  · intro u v huv
    by_cases hu : u = t
    · subst hu
      simpa [huv.symm] using (hother v huv.symm).2
    · by_cases hv : v = t
      · subst hv
        simpa [hu] using h.symm _ _ (hother u hu).2
      · simpa [hu, hv] using hst.apart u v huv

/-- The annotations of a valid outline hold throughout every run. -/
theorem Outline.Valid.holds (h : A.Valid P allows)
    (hr : Reach (P.threads τ) (spares allows) st) : ∃ g, A.Holds g st := by
  refine hr.invariant (P := fun st => ∃ g, A.Holds g st) ?_ ?_
  · rintro s ⟨hstart, hidle⟩
    obtain ⟨g, hshared, hhere⟩ := h.start _ hstart
    exact ⟨g, hshared, fun t => hhere _ (hidle t), fun t u _ => h.idle _ _ (hidle t) (hidle u)⟩
  · rintro s i s' ⟨g, hst⟩ hguard hstep
    exact h.holds_step hst hguard hstep

theorem Outline.Valid.holds_free (h : A.Valid P fun _ _ _ _ => True)
    (hr : Reach (P.threads τ) free st) : ∃ g, A.Holds g st :=
  h.holds (hr.mono fun _ _ _ _ _ => trivial)

end LearningCode.Threads
