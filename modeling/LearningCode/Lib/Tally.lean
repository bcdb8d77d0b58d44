import Mathlib.Data.Finset.Card

/-!
# Counting

An integer that counts the elements with a property, kept up to date as one
element at a time gains or loses it.
-/

namespace LearningCode

universe u

variable {α : Type u} {P P' : α → Prop} {d : Int} {x : α}

/-- Finitely many elements have the property, `d` of them. -/
def Tally (P : α → Prop) (d : Int) : Prop := ∃ s : Finset α, (∀ x, x ∈ s ↔ P x) ∧ d = s.card

theorem Tally.congr (h : Tally P d) (hP : ∀ x, P' x ↔ P x) : Tally P' d := by
  obtain ⟨s, hs, hd⟩ := h
  exact ⟨s, fun x => (hs x).trans (hP x).symm, hd⟩

theorem Tally.none (h : ∀ x, ¬ P x) : Tally P 0 :=
  ⟨∅, fun x => iff_of_false (Finset.notMem_empty x) (h x), rfl⟩

theorem Tally.insert [DecidableEq α] (h : Tally P d) (hx : ¬ P x) (hP : ∀ y, P' y ↔ P y ∨ y = x) :
    Tally P' (d + 1) := by
  obtain ⟨s, hs, rfl⟩ := h
  refine ⟨Insert.insert x s, fun y => ?_, ?_⟩
  · rw [Finset.mem_insert, hs, hP]
    exact or_comm
  · rw [Finset.card_insert_of_notMem fun h => hx ((hs x).mp h)]
    rfl

theorem Tally.erase [DecidableEq α] (h : Tally P d) (hx : P x) (hP : ∀ y, P' y ↔ P y ∧ y ≠ x) :
    Tally P' (d - 1) := by
  obtain ⟨s, hs, rfl⟩ := h
  have hmem := (hs x).mpr hx
  refine ⟨s.erase x, fun y => ?_, ?_⟩
  · rw [Finset.mem_erase, hs, hP]
    exact and_comm
  · have := Finset.card_erase_add_one hmem
    omega

theorem Tally.eq_zero (h : Tally P 0) (x : α) : ¬ P x := by
  obtain ⟨s, hs, hd⟩ := h
  have hempty : s = ∅ := Finset.card_eq_zero.mp (Int.ofNat_eq_zero.mp hd.symm)
  intro hx
  exact Finset.notMem_empty x (hempty ▸ (hs x).mpr hx)

theorem Tally.exists_of_ne (h : Tally P d) (hd : d ≠ 0) : ∃ x, P x := by
  obtain ⟨s, hs, rfl⟩ := h
  have hne : s.card ≠ 0 := fun h0 => hd (by rw [h0]; rfl)
  obtain ⟨x, hx⟩ := Finset.card_pos.mp (Nat.pos_of_ne_zero hne)
  exact ⟨x, (hs x).mp hx⟩

end LearningCode

/-!
## Threads asleep on a condition

Threads sleep until a unit of something is there, and whoever adds a unit
notifies one of them. A thread that has been notified is awake, and has yet to
look. As long as somebody sleeps, there are no more units to take than threads
awake to take them.
-/

namespace LearningCode

universe u

variable {τ : Type u} {asleep asleep' awake awake' : τ → Prop} {n n' : Int} {t : τ}

/-- `n` units, or fewer than that, have nobody awake on their way to them. -/
def Covered (asleep awake : τ → Prop) (n : Int) : Prop :=
  ∃ d, Tally awake d ∧ ((∃ t, asleep t) → n ≤ d)

namespace Covered

theorem start (hawake : ∀ t, ¬awake t) (hasleep : ∀ t, ¬asleep t) : Covered asleep awake n :=
  ⟨0, Tally.none hawake, fun ⟨t, ht⟩ => absurd ht (hasleep t)⟩

theorem mono (h : Covered asleep awake n) (hasleep : ∀ t, asleep' t → asleep t)
    (hawake : ∀ t, awake' t ↔ awake t) (hn : (∃ t, asleep' t) → n' ≤ n) :
    Covered asleep' awake' n' := by
  obtain ⟨d, htally, hle⟩ := h
  refine ⟨d, htally.congr hawake, fun hex => (hn hex).trans ?_⟩
  obtain ⟨t, ht⟩ := hex
  exact hle ⟨t, hasleep t ht⟩

theorem sleep (h : Covered asleep awake n) (hawake : ∀ t, awake' t ↔ awake t) (hn : n' ≤ 0) :
    Covered asleep' awake' n' := by
  obtain ⟨d, htally, -⟩ := h
  refine ⟨d, htally.congr hawake, fun _ => ?_⟩
  obtain ⟨s, -, rfl⟩ := htally
  omega

theorem wake [DecidableEq τ] (h : Covered asleep awake n) (ht : asleep t) (hnot : ¬awake t)
    (hawake : ∀ u, awake' u ↔ awake u ∨ u = t) (hn : n' ≤ n + 1) : Covered asleep' awake' n' := by
  obtain ⟨d, htally, hle⟩ := h
  have hd := hle ⟨t, ht⟩
  exact ⟨d + 1, htally.insert hnot hawake, fun _ => by omega⟩

theorem look [DecidableEq τ] (h : Covered asleep awake n) (ht : awake t)
    (hasleep : ∀ u, asleep' u → asleep u) (hawake : ∀ u, awake' u ↔ awake u ∧ u ≠ t)
    (hn : n' ≤ n - 1) : Covered asleep' awake' n' := by
  obtain ⟨d, htally, hle⟩ := h
  refine ⟨d - 1, htally.erase ht hawake, fun ⟨u, hu⟩ => ?_⟩
  have hd := hle ⟨u, hasleep u hu⟩
  omega

theorem nothing_missed (h : Covered asleep awake n) (hawake : ∀ t, ¬awake t) (ht : asleep t) :
    n ≤ 0 := by
  obtain ⟨d, htally, hle⟩ := h
  by_contra hpos
  have hd := hle ⟨t, ht⟩
  obtain ⟨u, hu⟩ := htally.exists_of_ne (by omega)
  exact hawake u hu

end Covered

end LearningCode
