import Mathlib.Algebra.Ring.Nat
import Mathlib.Data.List.TakeWhile
import Mathlib.Algebra.BigOperators.Group.List.Basic

/-!
# Strings cut at a separator

`strtok` with one separator, as a function of what is left of the string. It gives the
pieces between the separators in order, but for the empty ones.
-/

namespace LearningCode.Tokens

universe u

variable {α : Type u} [DecidableEq α] {sep : α} {s t rest : List α}

/-- Separators in front are skipped. The token ends at the next separator, which is
overwritten, and behind it the string goes on. -/
def strtok (sep : α) (s : List α) : Option (List α × List α) :=
  match s.dropWhile (· = sep) with
  | [] => none
  | c :: s => some ((c :: s).takeWhile (· ≠ sep), ((c :: s).dropWhile (· ≠ sep)).drop 1)

def tokens (sep : α) (s : List α) : List (List α) := (s.splitOn sep).filter (· ≠ [])

@[simp] theorem tokens_nil : tokens sep [] = [] := by simp [tokens, List.splitOn_nil]

theorem tokens_cons_sep : tokens sep (sep :: s) = tokens sep s := by
  simp [tokens, List.splitOn_cons_eq_if_modifyHead]

theorem tokens_dropWhile : tokens sep (s.dropWhile (· = sep)) = tokens sep s := by
  induction s with
  | nil => rfl
  | cons c s ih =>
    by_cases hc : c = sep
    · subst hc
      rw [List.dropWhile_cons_of_pos (by simp), tokens_cons_sep]
      exact ih
    · rw [List.dropWhile_cons_of_neg (by simpa using hc)]

theorem tokens_piece (ht : sep ∉ t) (hne : t ≠ []) : tokens sep t = [t] := by
  simp [tokens, List.splitOn_eq_singleton ht, hne]

theorem tokens_piece_sep (ht : sep ∉ t) (hne : t ≠ []) :
    tokens sep (t ++ sep :: rest) = t :: tokens sep rest := by
  simp [tokens, List.splitOn_append_cons_self_of_not_mem ht, hne]

theorem length_splitOn : (s.splitOn sep).length = s.count sep + 1 := by
  induction s with
  | nil => rfl
  | cons c s ih =>
    rw [List.splitOn_cons_eq_if_modifyHead]
    by_cases hc : c = sep
    · subst hc
      simp [ih]
    · simp [hc, ih]

theorem notMem_of_mem_splitOn (h : t ∈ s.splitOn sep) : sep ∉ t := by
  induction s generalizing t with
  | nil =>
    rw [List.splitOn_nil, List.mem_singleton] at h
    simp [h]
  | cons c s ih =>
    rw [List.splitOn_cons_eq_if_modifyHead] at h
    by_cases hc : c = sep
    · subst hc
      simp only [beq_self_eq_true, if_true, List.mem_cons] at h
      rcases h with rfl | h
      · exact List.not_mem_nil
      · exact ih h
    · obtain ⟨u, pieces, hu⟩ := List.exists_cons_of_ne_nil (List.splitOn_ne_nil sep s)
      rw [hu] at h ih
      simp only [beq_iff_eq, hc, if_false, List.modifyHead_cons, List.mem_cons] at h
      rcases h with rfl | h
      · simpa [Ne.symm hc] using ih List.mem_cons_self
      · exact ih (List.mem_cons_of_mem _ h)

theorem ne_sep_of_dropWhile {c : α} (h : s.dropWhile (· = sep) = c :: rest) : c ≠ sep := by
  have hhead := List.head?_dropWhile_not (fun a => decide (a = sep)) s
  rw [h] at hhead
  simpa using hhead

theorem tokens_cut {c : α} (hc : c ≠ sep) :
    tokens sep (c :: s) = (c :: s).takeWhile (· ≠ sep) ::
      tokens sep (((c :: s).dropWhile (· ≠ sep)).drop 1) := by
  have hne : (c :: s).takeWhile (· ≠ sep) ≠ [] := by simp [hc]
  have hsep : sep ∉ (c :: s).takeWhile (· ≠ sep) := by
    intro hmem
    simpa using List.mem_takeWhile_imp hmem
  have hsplit := List.takeWhile_append_dropWhile (p := fun a => decide (a ≠ sep)) (l := c :: s)
  have hhead := List.head?_dropWhile_not (fun a => decide (a ≠ sep)) (c :: s)
  generalize (c :: s).takeWhile (· ≠ sep) = t at hne hsep hsplit ⊢
  generalize (c :: s).dropWhile (· ≠ sep) = rest at hsplit hhead ⊢
  rw [← hsplit]
  cases rest with
  | nil => simp [tokens_piece hsep hne]
  | cons d later =>
    obtain rfl : d = sep := by simpa using hhead
    exact tokens_piece_sep hsep hne

theorem strtok_eq_none_iff : strtok sep s = none ↔ tokens sep s = [] := by
  unfold strtok
  rw [← tokens_dropWhile]
  cases hdrop : s.dropWhile (· = sep) with
  | nil => simp
  | cons c rest => simp [tokens_cut (ne_sep_of_dropWhile hdrop)]

theorem strtok_eq_some (h : strtok sep s = some (t, rest)) :
    tokens sep s = t :: tokens sep rest ∧ rest.length < s.length := by
  unfold strtok at h
  rw [← tokens_dropWhile]
  cases hdrop : s.dropWhile (· = sep) with
  | nil =>
    rw [hdrop] at h
    cases h
  | cons c later =>
    rw [hdrop] at h
    cases h
    refine ⟨tokens_cut (ne_sep_of_dropWhile hdrop), ?_⟩
    have hdrop' := (List.dropWhile_suffix (fun a => decide (a = sep)) (l := s)).length_le
    have hrest := (List.dropWhile_suffix (fun a => decide (a ≠ sep)) (l := later)).length_le
    rw [hdrop, List.length_cons] at hdrop'
    rw [List.dropWhile_cons_of_pos (by simpa using ne_sep_of_dropWhile hdrop), List.length_drop]
    omega

-- ---------------------------------------------------------------------------
-- How long the pieces are
-- ---------------------------------------------------------------------------

def spread (l : List (List α)) : Nat := (l.map fun t => t.length + 1).sum

omit [DecidableEq α] in
@[simp] theorem spread_nil : spread ([] : List (List α)) = 0 := rfl

omit [DecidableEq α] in
@[simp] theorem spread_cons {l : List (List α)} :
    spread (t :: l) = t.length + 1 + spread l := List.sum_cons

theorem spread_splitOn : spread (s.splitOn sep) = s.length + 1 := by
  induction s with
  | nil => simp [List.splitOn_nil]
  | cons c s ih =>
    rw [List.splitOn_cons_eq_if_modifyHead]
    split
    · rw [spread_cons, ih, List.length_nil, List.length_cons]
      omega
    · obtain ⟨t, l, hl⟩ := List.exists_cons_of_ne_nil (List.splitOn_ne_nil sep s)
      rw [hl, spread_cons] at ih
      rw [hl, List.modifyHead_cons, spread_cons, List.length_cons, List.length_cons]
      omega

theorem spread_filter {l : List (List α)} :
    spread (l.filter (· ≠ [])) + l.count [] = spread l := by
  induction l with
  | nil => rfl
  | cons t l ih =>
    by_cases ht : t = []
    · subst ht
      simp only [ne_eq, decide_not, List.count_cons_self, spread_cons, List.length_nil] at ih ⊢
      rw [List.filter_cons_of_neg (by simp)]
      omega
    · rw [List.filter_cons_of_pos (by simpa using ht), List.count_cons_of_ne ht, spread_cons,
        spread_cons]
      omega

theorem spread_tokens (sep : α) (s : List α) :
    spread (tokens sep s) + (s.splitOn sep).count [] = s.length + 1 := by
  rw [tokens, spread_filter, spread_splitOn]

theorem spread_tokens_le : spread (tokens sep s) ≤ s.length + 1 :=
  Nat.le.intro (spread_tokens sep s)

/-- No places are lost if and only if no piece is empty. -/
theorem spread_tokens_eq_iff :
    spread (tokens sep s) = s.length + 1 ↔ [] ∉ s.splitOn sep := by
  rw [← List.count_eq_zero]
  have hspread := spread_tokens sep s
  omega

theorem tokens_of_notMem (h : [] ∉ s.splitOn sep) : tokens sep s = s.splitOn sep := by
  refine List.filter_eq_self.mpr fun t ht => ?_
  have hne : t ≠ [] := fun hnil => h (hnil ▸ ht)
  simpa using hne

end LearningCode.Tokens
