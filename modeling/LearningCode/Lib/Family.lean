import Mathlib.Logic.Function.Basic
import LearningCode.Lib.Chain

/-!
# Lists that share their links

Several chains, each with a header of its own and a pointer to its last node.
A node is on one of them at most, so writing one chain leaves the others alone.
A chain that was cut off its header is followed from its first node.
-/

namespace LearningCode.Chain

universe u v

variable {α : Type u} {σ : Type v} {valid : σ → Prop} {head : σ → α}
  {next next' : α → Option (Option α)} {tail : σ → Option α} {lists : σ → List α}
  {a w : α} {s t : σ} {l : List α}

def Follows (next : α → Option (Option α)) : List α → Prop
  | [] => True
  | a :: l => Linked next a l

theorem Linked.read (h : Linked next a l) (hw : w ∈ l) : ∃ o, next w = some o := by
  obtain ⟨m, -, hm, -⟩ := Linked.enter (m := []) (by simpa using h) (.inr hw)
  exact ⟨_, hm.next_head⟩

theorem Follows.read (h : Follows next l) (hw : w ∈ l) : ∃ o, next w = some o := by
  cases l with
  | nil => cases hw
  | cons b l =>
    rcases List.mem_cons.mp hw with rfl | hw
    · exact ⟨_, Linked.next_head h⟩
    · exact Linked.read h hw

theorem Linked.follows (h : Linked next a l) : Follows next l := by
  cases l with
  | nil => trivial
  | cons b l => exact h.2

theorem Follows.congr (h : Follows next l) (hagree : ∀ w ∈ l, next' w = next w) :
    Follows next' l := by
  cases l with
  | nil => trivial
  | cons b l => exact Linked.congr h fun w hw => hagree w (List.mem_cons.mpr hw)

/-- The chains of a family, each with its header in front. -/
structure Family (valid : σ → Prop) (head : σ → α) (next : α → Option (Option α))
    (tail : σ → Option α) (lists : σ → List α) : Prop where
  linked : ∀ s, valid s → Linked next (head s) (lists s)
  tails : ∀ s, valid s → tail s = some ((lists s).getLastD (head s))
  nodup : ∀ s, valid s → (head s :: lists s).Nodup
  apart : ∀ s t, valid s → valid t → s ≠ t → ∀ w ∈ head s :: lists s, w ∉ head t :: lists t

def Outside (valid : σ → Prop) (head : σ → α) (lists : σ → List α) (a : α) : Prop :=
  ∀ s, valid s → a ∉ head s :: lists s

theorem Family.congr (h : Family valid head next tail lists)
    (hagree : ∀ s, valid s → ∀ w ∈ head s :: lists s, next' w = next w) :
    Family valid head next' tail lists :=
  { h with
    linked := fun s hs => (h.linked s hs).congr fun w hw => hagree s hs w (List.mem_cons.mpr hw) }

theorem Family.last_mem (h : Family valid head next tail lists) (hs : valid s)
    (hw : tail s = some w) : w ∈ head s :: lists s := by
  rw [h.tails s hs] at hw
  cases hw
  exact List.getLastD_mem_cons

variable [DecidableEq σ]

theorem Family.link (h : Family valid head next tail lists) (hs : valid s)
    (ha : Outside valid head lists a) (hw : tail s = some w) (hlast : next' w = some (some a))
    (hnew : next' a = some none) (hagree : ∀ b, b ≠ w → b ≠ a → next' b = next b) :
    Family valid head next' (Function.update tail s (some a))
      (Function.update lists s (lists s ++ [a])) := by
  have hlw : (lists s).getLastD (head s) = w := Option.some.inj ((h.tails s hs).symm.trans hw)
  have hblock : ∀ t, valid t → ∀ b ∈ head t :: Function.update lists s (lists s ++ [a]) t,
      b ∈ head t :: lists t ∨ t = s ∧ b = a := by
    intro t ht b hb
    by_cases hts : t = s
    · subst hts
      simp only [Function.update_self] at hb
      simpa [or_assoc] using hb
    · rw [Function.update_of_ne hts] at hb
      exact .inl hb
  constructor
  · intro t ht
    by_cases hts : t = s
    · subst hts
      have hend : next w = some none := by
        have hlinked := h.linked t ht
        rw [← List.append_nil (lists t)] at hlinked
        rw [← hlw]
        exact hlinked.next_last
      rw [Function.update_self]
      have hlinked : Linked next (head t) (lists t ++ []) := by simpa using h.linked t ht
      refine hlinked.insert (by simpa using h.nodup t ht) ?_ ?_ ?_
      · rw [hlw, hlast]
      · rw [hlw, hend, hnew]
      · intro b hb hmem
        rw [hlw] at hb
        refine hagree b hb ?_
        rintro rfl
        exact ha t ht (List.mem_cons.mpr (by simpa using hmem))
    · rw [Function.update_of_ne hts]
      refine (h.linked t ht).congr fun b hb => hagree b ?_ ?_
      · rintro rfl
        exact h.apart t s ht hs hts b (List.mem_cons.mpr hb) (h.last_mem hs hw)
      · rintro rfl
        exact ha t ht (List.mem_cons.mpr hb)
  · intro t ht
    by_cases hts : t = s
    · subst hts
      simp
    · rw [Function.update_of_ne hts, Function.update_of_ne hts]
      exact h.tails t ht
  · intro t ht
    by_cases hts : t = s
    · subst hts
      rw [Function.update_self, ← List.cons_append]
      refine List.nodup_append.mpr ⟨h.nodup t ht, List.pairwise_singleton .., ?_⟩
      intro b hb c hc hbc
      rw [List.mem_singleton] at hc
      exact ha t ht (hc ▸ hbc ▸ hb)
    · rw [Function.update_of_ne hts]
      exact h.nodup t ht
  · intro t t' ht ht' hne b hb hb'
    rcases hblock t ht b hb with hb | ⟨hts, hba⟩ <;> rcases hblock t' ht' b hb' with hb' | ⟨hts', hba'⟩
    · exact h.apart t t' ht ht' hne b hb hb'
    · exact ha t ht (hba' ▸ hb)
    · exact ha t' ht' (hba ▸ hb')
    · exact hne (hts.trans hts'.symm)

theorem Family.clear (h : Family valid head next tail lists)
    (hhead : next' (head s) = some none)
    (hagree : ∀ t, valid t → t ≠ s → ∀ b ∈ head t :: lists t, next' b = next b) :
    Family valid head next' (Function.update tail s (some (head s)))
      (Function.update lists s []) := by
  have hblock : ∀ t, ∀ b ∈ head t :: Function.update lists s [] t, b ∈ head t :: lists t := by
    intro t b hb
    by_cases hts : t = s
    · subst hts
      simp only [Function.update_self, List.mem_singleton] at hb
      simp [hb]
    · rwa [Function.update_of_ne hts] at hb
  constructor
  · intro t ht
    by_cases hts : t = s
    · subst hts
      rw [Function.update_self]
      exact hhead
    · rw [Function.update_of_ne hts]
      exact (h.linked t ht).congr fun b hb => hagree t ht hts b (List.mem_cons.mpr hb)
  · intro t ht
    by_cases hts : t = s
    · subst hts
      simp
    · rw [Function.update_of_ne hts, Function.update_of_ne hts]
      exact h.tails t ht
  · intro t ht
    refine (h.nodup t ht).sublist ?_
    by_cases hts : t = s
    · subst hts
      simp
    · rw [Function.update_of_ne hts]
  · intro t t' ht ht' hne b hb hb'
    exact h.apart t t' ht ht' hne b (hblock t b hb) (hblock t' b hb')

end LearningCode.Chain
