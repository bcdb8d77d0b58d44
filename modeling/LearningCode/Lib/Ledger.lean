import Mathlib.Data.List.Nodup

/-!
# Things obtained and given back

A log of what a program obtained and gave back, by key. A key may come again after
it was given back. The log is settled when at every key the two alternate, beginning
with the first and ending with the second.
-/

namespace LearningCode.Ledger

universe u

inductive Event (κ : Type u)
  | obtained (k : κ)
  | freed (k : κ)

variable {κ : Type u} [DecidableEq κ] {held held' l : List κ} {log log' : List (Event κ)} {k : κ}

def Event.key : Event κ → κ
  | .obtained k => k
  | .freed k => k

/-- The events at one key, of which something is held now or not. -/
def Alternate : (held : Bool) → List (Event κ) → Prop
  | held, [] => held = false
  | false, .obtained _ :: log => Alternate true log
  | true, .freed _ :: log => Alternate false log
  | false, .freed _ :: _ => False
  | true, .obtained _ :: _ => False

def Settled (log : List (Event κ)) : Prop :=
  ∀ k, Alternate false (log.filter fun e => e.key = k)

/-- What is held behind a log, if each of its events is in order. -/
def replay (held : List κ) : List (Event κ) → Option (List κ)
  | [] => some held
  | .obtained k :: log => if k ∈ held then none else replay (k :: held) log
  | .freed k :: log => if k ∈ held then replay (held.filter (· ≠ k)) log else none

theorem replay_append (h : replay held log = some held') :
    replay held (log ++ log') = replay held' log' := by
  induction log generalizing held with
  | nil =>
    cases h
    rfl
  | cons e log ih =>
    cases e with
    | obtained k =>
      simp only [replay, Option.ite_none_left_eq_some] at h
      simp only [List.cons_append, replay, if_neg h.1, ih h.2]
    | freed k =>
      simp only [replay, Option.ite_none_right_eq_some] at h
      simp only [List.cons_append, replay, if_pos h.1, ih h.2]

theorem replay_freed (hnodup : l.Nodup) (hsub : l ⊆ held) :
    replay held (l.map .freed) =
      some (l.foldl (fun held k => held.filter (· ≠ k)) held) := by
  induction l generalizing held with
  | nil => rfl
  | cons k l ih =>
    obtain ⟨hk, hsub⟩ := List.cons_subset.mp hsub
    obtain ⟨hnot, hnodup⟩ := List.nodup_cons.mp hnodup
    have hrest : l ⊆ held.filter (· ≠ k) := by
      intro j hj
      refine List.mem_filter.mpr ⟨hsub hj, ?_⟩
      have hne : j ≠ k := fun h => hnot (h ▸ hj)
      exact decide_eq_true hne
    simp only [List.map_cons, replay, if_pos hk, List.foldl_cons, ih hnodup hrest]

/-- A key is looked at alone: the events at other keys do not matter to it. -/
theorem replay_alternate (h : replay held log = some []) (k : κ) :
    Alternate (decide (k ∈ held)) (log.filter fun e => e.key = k) := by
  induction log generalizing held with
  | nil =>
    cases h
    simp [Alternate]
  | cons e log ih =>
    cases e with
    | obtained j =>
      simp only [replay, Option.ite_none_left_eq_some] at h
      have hrest := ih h.2
      by_cases hjk : j = k
      · subst hjk
        simpa [Event.key, Alternate, h.1] using hrest
      · have hmem : k ∈ j :: held ↔ k ∈ held := by simp [Ne.symm hjk]
        simpa [Event.key, hjk, hmem] using hrest
    | freed j =>
      simp only [replay, Option.ite_none_right_eq_some] at h
      have hrest := ih h.2
      by_cases hjk : j = k
      · subst hjk
        simpa [Event.key, Alternate, h.1] using hrest
      · have hmem : k ∈ held.filter (· ≠ j) ↔ k ∈ held := by simp [Ne.symm hjk]
        simp only [hmem] at hrest
        simpa [Event.key, hjk] using hrest

theorem settled_of_replay (h : replay [] log = some []) : Settled log := by
  intro k
  have halt := replay_alternate h k
  simpa using halt

end LearningCode.Ledger
