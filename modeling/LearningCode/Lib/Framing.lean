import Mathlib.Data.List.Basic

/-!
# Frames in a byte stream

A frame says its own length in its first symbols. A receiver holds what has
arrived and not yet been handed out, and takes frames off its front while a
whole one is there. What it hands out does not depend on how the stream was
cut into pieces.
-/

namespace LearningCode.Framing

universe u

/-- How long the frame at the front of the input says it is. More input does
not change the answer. -/
structure Header (α : Type u) where
  size : List α → Option Nat
  size_nil : size [] = none
  size_append : ∀ l r n, size l = some n → size (l ++ r) = some n

def Header.IsFrame {α : Type u} (H : Header α) (f : List α) : Prop := H.size f = some f.length

/-- Taking frames off the front of `l` gives `fs` and leaves the last list. -/
inductive Cuts {α : Type u} (H : Header α) : List α → List (List α) → List α → Prop
  | starved {l : List α} : (∀ n, H.size l = some n → l.length < n) → Cuts H l [] l
  | frame {f l r : List α} {fs : List (List α)} :
      H.IsFrame f → Cuts H l fs r → Cuts H (f ++ l) (f :: fs) r

/-- Frames handed out while the stream arrives piece by piece. -/
inductive Feeds {α : Type u} (H : Header α) :
    List α → List (List α) → List (List α) → List α → Prop
  | done {l : List α} : Feeds H l [] [] l
  | piece {l chunk rest r : List α} {chunks fs gs : List (List α)} :
      Cuts H (l ++ chunk) fs rest → Feeds H rest chunks gs r →
        Feeds H l (chunk :: chunks) (fs ++ gs) r

variable {α : Type u} {H : Header α} {l r later f : List α} {fs chunks : List (List α)} {n : Nat}

def Short (l : List α) (fs : List (List α)) : Prop := ∀ f ∈ fs.head?, l.length < f.length

theorem Cuts.flatten_append (h : Cuts H l fs r) : l = fs.flatten ++ r := by
  induction h with
  | starved _ => rfl
  | frame _ _ ih => simp [ih]

theorem Header.IsFrame.size_eq (hf : H.IsFrame f) (hl : H.size l = some n)
    (heq : l ++ r = f ++ later) : n = f.length := by
  have hleft := H.size_append l r n hl
  have hright := H.size_append f later f.length hf
  rw [heq] at hleft
  exact Option.some.inj (hleft.symm.trans hright)

/-- Part of a stream of frames is cut at the frames that are whole. -/
theorem cuts_prefix (hfs : ∀ f ∈ fs, H.IsFrame f) (h : l ++ later = fs.flatten) :
    ∃ done todo r, fs = done ++ todo ∧ Cuts H l done r ∧ r ++ later = todo.flatten ∧
      Short r todo := by
  induction fs generalizing l with
  | nil =>
    obtain ⟨rfl, rfl⟩ := List.append_eq_nil_iff.mp h
    refine ⟨[], [], [], rfl, .starved ?_, rfl, by simp [Short]⟩
    simp [H.size_nil]
  | cons f fs ih =>
    have hf := hfs f List.mem_cons_self
    by_cases hlt : l.length < f.length
    · refine ⟨[], f :: fs, l, rfl, .starved ?_, h, by simpa [Short] using hlt⟩
      intro n hn
      rwa [hf.size_eq hn h]
    · obtain ⟨rest, rfl⟩ : f <+: l :=
        List.prefix_of_prefix_length_le ⟨fs.flatten, h.symm⟩ (List.prefix_append l later)
          (Nat.le_of_not_lt hlt)
      have hrest : rest ++ later = fs.flatten := by simpa using h
      obtain ⟨done, todo, r, rfl, hcuts, heq, hshort⟩ :=
        ih (fun g hg => hfs g (List.mem_cons_of_mem f hg)) hrest
      exact ⟨f :: done, todo, r, rfl, .frame hf hcuts, heq, hshort⟩

/-- However a stream of frames is cut into pieces, the frames are handed out in
order and nothing is left. -/
theorem feeds_flatten (hfs : ∀ f ∈ fs, H.IsFrame f) (hshort : Short l fs)
    (h : l ++ chunks.flatten = fs.flatten) : Feeds H l chunks fs [] := by
  induction chunks generalizing l fs with
  | nil =>
    cases fs with
    | nil =>
      obtain rfl : l = [] := by simpa using h
      exact .done
    | cons f fs =>
      have hlen := congrArg List.length h
      have hlt := hshort f rfl
      simp at hlen
      omega
  | cons chunk chunks ih =>
    have hcut : (l ++ chunk) ++ chunks.flatten = fs.flatten := by simpa using h
    obtain ⟨done, todo, rest, rfl, hcuts, heq, hrest⟩ := cuts_prefix hfs hcut
    refine .piece hcuts (ih ?_ hrest heq)
    intro f hf
    exact hfs f (List.mem_append_right done hf)

end LearningCode.Framing
