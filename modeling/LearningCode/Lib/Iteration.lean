import Mathlib.Logic.Relation
import Mathlib.Order.Preorder.Finite
import Mathlib.Data.Set.Finite.Basic

/-!
# Loops that go from place to place

A loop is the partial function that takes it on. Among finitely many places it ends
if and only if it does not get to one that it comes back to, and where the places
only grow, except at a jump, it is a jump that brings it back.
-/

namespace LearningCode.Iteration

universe u

open Relation

variable {α : Type u}

def Step (next : α → Option α) (a b : α) : Prop := next a = some b

def Leads (next : α → Option α) : α → α → Prop := ReflTransGen (Step next)

/-- The loop comes to a place from which it does not go on. -/
inductive Ends (next : α → Option α) : α → Prop
  | stop {a : α} (h : next a = none) : Ends next a
  | turn {a b : α} (h : next a = some b) (hends : Ends next b) : Ends next a

variable {next : α → Option α} {jump : α → α → Prop} {a b c : α}

theorem Ends.step (h : Ends next a) (hnext : next a = some b) : Ends next b := by
  cases h with
  | stop hstop => cases hstop.symm.trans hnext
  | turn hturn hends => exact Option.some.inj (hturn.symm.trans hnext) ▸ hends

theorem Ends.of_leads (h : Ends next a) (hleads : Leads next a b) : Ends next b := by
  induction hleads with
  | refl => exact h
  | tail _ hstep ih => exact ih.step hstep

theorem Ends.not_back (h : Ends next a) : ¬TransGen (Step next) a a := by
  induction h with
  | stop hstop =>
    intro hback
    obtain ⟨b, hstep, -⟩ := TransGen.head'_iff.mp hback
    cases hstop.symm.trans hstep
  | @turn a b hturn _ ih =>
    intro hback
    obtain ⟨c, hstep, hrest⟩ := TransGen.head'_iff.mp hback
    obtain rfl : b = c := Option.some.inj (hturn.symm.trans hstep)
    exact ih (TransGen.tail' hrest hturn)

theorem exists_next_of_not_ends (h : ¬Ends next a) : ∃ b, next a = some b ∧ ¬Ends next b := by
  cases hnext : next a with
  | none => exact absurd (.stop hnext) h
  | some b => exact ⟨b, rfl, fun hends => h (.turn hnext hends)⟩

theorem exists_run (h : ¬Ends next a) :
    ∃ run : Nat → α, run 0 = a ∧ ∀ k, Step next (run k) (run (k + 1)) := by
  have hnext : ∀ place : {b // ¬Ends next b}, ∃ later : {b // ¬Ends next b},
      Step next place.1 later.1 := by
    intro place
    obtain ⟨b, hstep, hb⟩ := exists_next_of_not_ends place.2
    exact ⟨⟨b, hb⟩, hstep⟩
  choose later hlater using hnext
  refine ⟨fun k => ((later^[k]) ⟨a, h⟩).1, rfl, fun k => ?_⟩
  show Step next _ (later^[k + 1] ⟨a, h⟩).1
  rw [Function.iterate_succ_apply']
  exact hlater _

theorem leads_of_run {run : Nat → α} (h : ∀ k, Step next (run k) (run (k + 1))) (i k : Nat) :
    Leads next (run i) (run (i + k)) := by
  induction k with
  | zero => exact .refl
  | succ k ih => exact ih.tail (h (i + k))

theorem ends_iff (hfinite : {a | ∃ b, Step next a b}.Finite) :
    Ends next a ↔ ¬∃ b, Leads next a b ∧ TransGen (Step next) b b := by
  constructor
  · rintro hends ⟨b, hleads, hback⟩
    exact (hends.of_leads hleads).not_back hback
  · intro hnone
    by_contra hends
    obtain ⟨run, hzero, hstep⟩ := exists_run hends
    have hmem : ∀ k, run k ∈ {a | ∃ b, Step next a b} := fun k => ⟨_, hstep k⟩
    obtain ⟨i, j, hlt, hsame⟩ := Set.Finite.exists_lt_map_eq_of_forall_mem hmem hfinite
    obtain ⟨k, rfl⟩ := Nat.exists_eq_add_of_lt hlt
    refine hnone ⟨run i, ?_, ?_⟩
    · have hleads := leads_of_run hstep 0 i
      rwa [Nat.zero_add, hzero] at hleads
    · have hback := TransGen.tail' (leads_of_run hstep i k) (hstep (i + k))
      rwa [Nat.add_assoc, ← Nat.add_assoc i k 1, ← hsame] at hback

/-- Without a jump that leads back the places would grow. -/
theorem exists_jump [Preorder α] (hstep : ∀ a b, Step next a b → a < b ∨ jump a b)
    (hback : TransGen (Step next) a a) :
    ∃ b c, Leads next a b ∧ jump b c ∧ Leads next c a := by
  have hforward : ∀ c, TransGen (Step next) a c →
      a < c ∨ ∃ b d, Leads next a b ∧ jump b d ∧ Leads next d c := by
    intro c hc
    induction hc with
    | single h =>
      obtain hlt | hjump := hstep _ _ h
      · exact .inl hlt
      · exact .inr ⟨_, _, .refl, hjump, .refl⟩
    | tail hpath h ih =>
      obtain hlt | ⟨b, d, hb, hjump, hd⟩ := ih
      · obtain hlt' | hjump := hstep _ _ h
        · exact .inl (hlt.trans hlt')
        · exact .inr ⟨_, _, hpath.to_reflTransGen, hjump, .refl⟩
      · exact .inr ⟨b, d, hb, hjump, hd.tail h⟩
  obtain hlt | hjump := hforward a hback
  · exact absurd hlt (lt_irrefl a)
  · exact hjump

/-- Some jump on the way leads back to where it is. -/
theorem ends_iff_of_forward [Preorder α] (jump : α → α → Prop)
    (hfinite : {a | ∃ b, Step next a b}.Finite)
    (hstep : ∀ a b, Step next a b → a < b ∨ jump a b)
    (hjump : ∀ a b, jump a b → Step next a b) :
    Ends next a ↔ ¬∃ b c, Leads next a b ∧ jump b c ∧ Leads next c b := by
  rw [ends_iff hfinite]
  refine not_congr ⟨?_, ?_⟩
  · rintro ⟨b, hleads, hback⟩
    obtain ⟨p, t, hp, hpt, ht⟩ := exists_jump hstep hback
    exact ⟨p, t, hleads.trans hp, hpt, ht.trans hp⟩
  · rintro ⟨b, c, hb, hbc, hc⟩
    exact ⟨b, hb, TransGen.head' (hjump b c hbc) hc⟩

end LearningCode.Iteration
