import Mathlib.Data.List.Nodup

/-!
# Lists linked both ways

A node has a link to the next one and a link to the one before; a node that does
not exist has neither. `Doubly` follows a list from its first node, whose link
back leads to `before`.
-/

namespace LearningCode.TwoWay

universe u

variable {α : Type u} {next next' prev prev' : α → Option (Option α)} {a b : α}
  {before before' : Option α} {l m : List α}

def Doubly (next prev : α → Option (Option α)) : Option α → List α → Prop
  | _, [] => True
  | before, a :: l => prev a = some before ∧ next a = some l.head? ∧ Doubly next prev (some a) l

theorem Doubly.congr (h : Doubly next prev before l) (hnext : ∀ a ∈ l, next' a = next a)
    (hprev : ∀ a ∈ l, prev' a = prev a) : Doubly next' prev' before l := by
  induction l generalizing before with
  | nil => trivial
  | cons a l ih =>
    rw [List.forall_mem_cons] at hnext hprev
    exact ⟨hprev.1.trans h.1, hnext.1.trans h.2.1, ih h.2.2 hnext.2 hprev.2⟩

theorem Doubly.suffix (h : Doubly next prev before (l ++ m)) : ∃ before', Doubly next prev before' m := by
  induction l generalizing before with
  | nil => exact ⟨before, h⟩
  | cons a l ih => exact ih h.2.2

theorem Doubly.links (h : Doubly next prev before (l ++ a :: m)) :
    prev a = some (l.getLast?.or before) ∧ next a = some m.head? := by
  induction l generalizing before with
  | nil => exact ⟨h.1, h.2.1⟩
  | cons b l ih =>
    obtain ⟨hprev, hnext⟩ := ih h.2.2
    refine ⟨?_, hnext⟩
    rw [hprev, List.getLast?_cons]
    cases l.getLast? <;> rfl

theorem Doubly.exists_links (h : Doubly next prev before l) (ha : a ∈ l) :
    ∃ p n, prev a = some p ∧ next a = some n := by
  obtain ⟨l, m, rfl⟩ := List.append_of_mem ha
  exact ⟨_, _, h.links⟩

theorem Doubly.rebase (h : Doubly next prev before l)
    (hprev : ∀ a, l.head? = some a → prev' a = some before')
    (hnext : ∀ a ∈ l, next' a = next a) (hrest : ∀ a ∈ l.tail, prev' a = prev a) :
    Doubly next' prev' before' l := by
  cases l with
  | nil => trivial
  | cons a l =>
    rw [List.forall_mem_cons] at hnext
    exact ⟨hprev a rfl, hnext.1.trans h.2.1, h.2.2.congr hnext.2 hrest⟩

theorem Doubly.push (h : Doubly next prev none l) (hpa : prev' a = some none)
    (hna : next' a = some l.head?) (hprev : ∀ b, l.head? = some b → prev' b = some (some a))
    (hnext : ∀ b ∈ l, next' b = next b) (hrest : ∀ b ∈ l.tail, prev' b = prev b) :
    Doubly next' prev' none (a :: l) := ⟨hpa, hna, h.rebase hprev hnext hrest⟩

theorem Doubly.remove (h : Doubly next prev before (l ++ a :: m)) (hnodup : (l ++ a :: m).Nodup)
    (hnext : ∀ b, l.getLast? = some b → next' b = some m.head?)
    (hprev : ∀ b, m.head? = some b → prev' b = some (l.getLast?.or before))
    (hnexts : ∀ b ∈ l ++ m, l.getLast? ≠ some b → next' b = next b)
    (hprevs : ∀ b ∈ l ++ m, m.head? ≠ some b → prev' b = prev b) :
    Doubly next' prev' before (l ++ m) := by
  induction l generalizing before with
  | nil =>
    obtain ⟨-, hm⟩ := List.nodup_cons.mp hnodup
    refine h.2.2.rebase hprev (fun b hb => hnexts b hb nofun) fun b hb => ?_
    refine hprevs b (List.mem_of_mem_tail hb) ?_
    intro hhead
    obtain ⟨m, rfl⟩ := List.head?_eq_some_iff.mp hhead
    exact (List.nodup_cons.mp hm).1 hb
  | cons c l ih =>
    obtain ⟨hc, hnodup⟩ := List.nodup_cons.mp hnodup
    have hcm : m.head? ≠ some c := by
      intro hhead
      exact hc (by simp [List.mem_of_head? hhead])
    refine ⟨(hprevs c List.mem_cons_self hcm).trans h.1, ?_, ?_⟩
    · cases l with
      | nil => exact hnext c rfl
      | cons d l =>
        refine (hnexts c List.mem_cons_self ?_).trans h.2.1
        intro hlast
        exact hc (List.mem_append_left _ (List.mem_of_getLast? (by simpa using hlast)))
    · refine ih h.2.2 hnodup ?_ ?_ ?_ fun b hb => hprevs b (List.mem_cons_of_mem _ hb)
      · intro b hb
        exact hnext b (by simp [List.getLast?_cons, hb])
      · intro b hb
        rw [hprev b hb, List.getLast?_cons]
        cases l.getLast? <;> rfl
      · intro b hb hlast
        refine hnexts b (List.mem_cons_of_mem _ hb) ?_
        rw [List.getLast?_cons]
        cases l with
        | nil =>
          rintro ⟨⟩
          exact hc (List.mem_cons_of_mem _ hb)
        | cons d l =>
          intro heq
          refine hlast ?_
          rw [List.getLast?_cons] at heq ⊢
          simpa using heq

end LearningCode.TwoWay
