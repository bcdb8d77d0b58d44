import Mathlib.Data.List.Count
import Mathlib.Tactic.SplitIfs

/-!
# Placeholders

A text with marks, each of which stands for a value: the text with values in place of its
first marks, what of it ends with the last of the values, and what is behind.
-/

namespace LearningCode.Placeholders

universe u

variable {α : Type u} [DecidableEq α] {mark : α} {s t : List α} {vs ws : List (List α)} {m n : Nat}

/-- The marks from the first one on, replaced by the values. -/
def substitute (mark : α) : (text : List α) → (values : List (List α)) → List α
  | text, [] => text
  | [], _ :: _ => []
  | c :: text, v :: vs =>
    if c = mark then v ++ substitute mark text vs else c :: substitute mark text (v :: vs)

def front (mark : α) : (text : List α) → (values : List (List α)) → List α
  | _, [] => []
  | [], _ :: _ => []
  | c :: text, v :: vs =>
    if c = mark then v ++ front mark text vs else c :: front mark text (v :: vs)

def behind (mark : α) : (text : List α) → (n : Nat) → List α
  | text, 0 => text
  | [], _ + 1 => []
  | c :: text, n + 1 => if c = mark then behind mark text n else behind mark text (n + 1)

@[simp] theorem substitute_nil : substitute mark s [] = s := by cases s <;> rfl

@[simp] theorem front_nil : front mark s [] = [] := by cases s <;> rfl

@[simp] theorem behind_zero : behind mark s 0 = s := by cases s <;> rfl

theorem substitute_eq (s : List α) (vs : List (List α)) :
    substitute mark s vs = front mark s vs ++ behind mark s vs.length := by
  induction s generalizing vs with
  | nil => cases vs <;> rfl
  | cons c s ih =>
    cases vs with
    | nil => simp
    | cons v vs =>
      rw [substitute, front, List.length_cons, behind]
      split_ifs
      · rw [ih, List.append_assoc]
      · rw [ih, List.cons_append, List.length_cons]

theorem front_append (s : List α) (vs ws : List (List α)) :
    front mark s (vs ++ ws) = front mark s vs ++ front mark (behind mark s vs.length) ws := by
  induction s generalizing vs with
  | nil => cases vs <;> cases ws <;> rfl
  | cons c s ih =>
    cases vs with
    | nil => simp
    | cons v vs =>
      rw [List.cons_append, front, front, List.length_cons, behind]
      split_ifs
      · rw [ih, List.append_assoc]
      · rw [← List.cons_append, ih, List.cons_append, List.length_cons]

theorem behind_add (s : List α) (m n : Nat) :
    behind mark s (m + n) = behind mark (behind mark s m) n := by
  induction s generalizing m with
  | nil => cases m <;> cases n <;> rfl
  | cons c s ih =>
    cases m with
    | zero => simp
    | succ m =>
      rw [Nat.succ_add, behind, behind]
      split_ifs
      · exact ih m
      · rw [Nat.add_right_comm]
        exact ih (m + 1)

theorem front_cut (ht : mark ∉ t) (v : List α) : front mark (t ++ mark :: s) [v] = t ++ v := by
  induction t with
  | nil => simp [front]
  | cons c t ih =>
    obtain ⟨hc, ht⟩ := List.ne_and_not_mem_of_not_mem_cons ht
    rw [List.cons_append, front, if_neg hc.symm, ih ht, List.cons_append]

theorem behind_cut (ht : mark ∉ t) : behind mark (t ++ mark :: s) 1 = s := by
  induction t with
  | nil => simp [behind]
  | cons c t ih =>
    obtain ⟨hc, ht⟩ := List.ne_and_not_mem_of_not_mem_cons ht
    rw [List.cons_append, behind, if_neg hc.symm, ih ht]

theorem idxOf_cut (ht : mark ∉ t) : (t ++ mark :: s).idxOf? mark = some t.length := by
  induction t with
  | nil => simp [List.idxOf?_cons]
  | cons c t ih =>
    obtain ⟨hc, ht⟩ := List.ne_and_not_mem_of_not_mem_cons ht
    simp [List.idxOf?_cons, hc.symm, ih ht]

theorem count_behind (s : List α) (n : Nat) : (behind mark s n).count mark = s.count mark - n := by
  induction s generalizing n with
  | nil => cases n <;> simp [behind]
  | cons c s ih =>
    cases n with
    | zero => simp
    | succ n =>
      rw [behind]
      split_ifs with hc
      · rw [ih, hc, List.count_cons_self, Nat.add_sub_add_right]
      · rw [ih, List.count_cons_of_ne hc]

theorem exists_cut (h : n < s.count mark) :
    ∃ t, mark ∉ t ∧ behind mark s n = t ++ mark :: behind mark s (n + 1) ∧
      ∀ vs v, vs.length = n → front mark s (vs ++ [v]) = front mark s vs ++ t ++ v := by
  have hmem : mark ∈ behind mark s n := by
    rw [← List.count_pos_iff, count_behind]
    omega
  obtain ⟨t, r, hcut, ht⟩ := List.eq_append_cons_of_mem hmem
  have hr : behind mark s (n + 1) = r := by rw [behind_add, hcut, behind_cut ht]
  refine ⟨t, ht, hr ▸ hcut, fun vs v hvs => ?_⟩
  rw [front_append, hvs, hcut, front_cut ht, List.append_assoc]

theorem exists_behind (hlt : m < n) (hn : n ≤ s.count mark) :
    ∃ t, behind mark s m = t ++ mark :: behind mark s n := by
  induction n with
  | zero => omega
  | succ n ih =>
    obtain ⟨t, -, hcut, -⟩ := exists_cut (Nat.lt_of_succ_le hn)
    rcases Nat.lt_or_eq_of_le (Nat.le_of_lt_succ hlt) with hlt | rfl
    · obtain ⟨u, hu⟩ := ih hlt (Nat.le_of_succ_le hn)
      exact ⟨u ++ mark :: t, by rw [hu, hcut, List.append_assoc, List.cons_append]⟩
    · exact ⟨t, hcut⟩

theorem length_front_le (s : List α) (h : vs <+: ws) :
    (front mark s vs).length ≤ (substitute mark s ws).length := by
  obtain ⟨us, rfl⟩ := h
  rw [substitute_eq, front_append, List.length_append, List.length_append]
  omega

end LearningCode.Placeholders
