import Mathlib.Data.List.Basic

/-!
# Tables of slots

Lists searched for the first slot that answers to a key, and changed in that
slot. A table holds one slot of a key when filtering by the key leaves one.
-/

namespace LearningCode.Slots

universe u

variable {α : Type u} {p q : α → Bool} {l pre suf : List α} {x y : α} {i : Nat}

theorem modify_split (f : α → α) : (pre ++ x :: suf).modify pre.length f = pre ++ f x :: suf := by
  induction pre with
  | nil => rfl
  | cons z pre ih => exact congrArg (z :: ·) ih

theorem getElem?_split : (pre ++ x :: suf)[pre.length]? = some x := by simp

theorem findIdx?_split (hpre : ∀ y ∈ pre, p y = false) (hx : p x = true) :
    (pre ++ x :: suf).findIdx? p = some pre.length := by
  induction pre with
  | nil => simp [List.findIdx?_cons, hx]
  | cons z pre ih =>
    rw [List.cons_append, List.findIdx?_cons, hpre z List.mem_cons_self,
      ih fun y hy => hpre y (List.mem_cons_of_mem z hy)]
    rfl

theorem exists_split (h : l.findIdx? p = some i) :
    ∃ pre x suf, l = pre ++ x :: suf ∧ pre.length = i ∧ p x = true ∧ ∀ y ∈ pre, p y = false := by
  induction l generalizing i with
  | nil => cases h
  | cons z l ih =>
    rw [List.findIdx?_cons] at h
    cases hz : p z with
    | true =>
      rw [hz] at h
      cases h
      exact ⟨[], z, l, rfl, rfl, hz, fun y hy => absurd hy List.not_mem_nil⟩
    | false =>
      rw [hz] at h
      obtain ⟨j, hj, rfl⟩ := Option.map_eq_some_iff.mp h
      obtain ⟨pre, x, suf, rfl, rfl, hx, hpre⟩ := ih hj
      refine ⟨z :: pre, x, suf, rfl, rfl, hx, fun y hy => ?_⟩
      exact (List.mem_cons.mp hy).elim (fun h => h ▸ hz) (hpre y)

theorem findIdx?_none_iff : l.findIdx? p = none ↔ l.filter p = [] := by
  rw [List.findIdx?_eq_none_iff, List.filter_eq_nil_iff]
  simp

theorem only_split (h : l.filter p = [x]) :
    ∃ pre suf, l = pre ++ x :: suf ∧ (∀ y ∈ pre, p y = false) ∧ p x = true ∧
      ∀ y ∈ suf, p y = false := by
  obtain ⟨pre, suf, rfl, hpre, hx, hsuf⟩ := List.filter_eq_cons_iff.mp h
  refine ⟨pre, suf, rfl, fun y hy => by simpa using hpre y hy, hx, fun y hy => ?_⟩
  simpa using List.filter_eq_nil_iff.mp hsuf y hy

theorem filter_replace (hpre : ∀ y ∈ pre, p y = false) (hsuf : ∀ y ∈ suf, p y = false) :
    (pre ++ x :: suf).filter p = if p x then [x] else [] := by
  have h₁ : pre.filter p = [] := List.filter_eq_nil_iff.mpr fun y hy => by simp [hpre y hy]
  have h₂ : suf.filter p = [] := List.filter_eq_nil_iff.mpr fun y hy => by simp [hsuf y hy]
  rw [List.filter_append, h₁, List.nil_append, List.filter_cons, h₂]

theorem filter_other (hx : q x = false) (hy : q y = false) :
    (pre ++ x :: suf).filter q = (pre ++ y :: suf).filter q := by
  simp only [List.filter_append, List.filter_cons, hx, hy, Bool.false_eq_true, ↓reduceIte]

end LearningCode.Slots
