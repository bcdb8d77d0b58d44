import Mathlib.Data.UInt

/-!
# Percent encoding

A byte may stand for itself, or as `%` and the two hexadecimal digits of its value, in
either case; a `+` is a space.
-/

namespace LearningCode.Percent

def hexValue (c : UInt8) : Option UInt8 :=
  if 48 ≤ c ∧ c ≤ 57 then some (c - 48)
  else if 65 ≤ c ∧ c ≤ 70 then some (c - 55)
  else if 97 ≤ c ∧ c ≤ 102 then some (c - 87)
  else none

/-- Each `%` is followed by two digits. -/
def WellFormed (s : List UInt8) : Prop :=
  ∀ front behind, s = front ++ 37 :: behind → ∃ high low rest, behind = high :: low :: rest ∧
    (hexValue high).isSome ∧ (hexValue low).isSome

def plain (c : UInt8) : UInt8 := if c = 43 then 32 else c

def decode : List UInt8 → Option (List UInt8)
  | [] => some []
  | c :: rest =>
    if c = 37 then
      match rest with
      | high :: low :: rest => do
        let h ← hexValue high
        let l ← hexValue low
        let bytes ← decode rest
        return (16 * h + l) :: bytes
      | _ => none
    else (decode rest).map (plain c :: ·)

inductive Escaped : List UInt8 → Prop
  | nil : Escaped []
  | escape {high low h l rest} : hexValue high = some h → hexValue low = some l → Escaped rest →
    Escaped (37 :: high :: low :: rest)
  | other {c rest} : c ≠ 37 → Escaped rest → Escaped (c :: rest)

variable {c high low h l v : UInt8} {rest s : List UInt8}

theorem hexValue_eq (hc : hexValue c = some v) :
    c ≠ 37 ∧ v < 16 ∧ (c = v + 48 ∨ c = v + 55 ∨ c = v + 87) := by
  unfold hexValue at hc
  grind

theorem decode_escape (hhigh : hexValue high = some h) (hlow : hexValue low = some l) :
    decode (37 :: high :: low :: rest) = (decode rest).map ((16 * h + l) :: ·) := by
  rw [decode, if_pos rfl, hhigh, hlow]
  cases decode rest <;> rfl

theorem decode_other (hc : c ≠ 37) : decode (c :: rest) = (decode rest).map (plain c :: ·) := by
  cases rest with
  | nil => simp [decode, hc]
  | cons d rest => cases rest <;> simp [decode, hc]

theorem wellFormed_other (hc : c ≠ 37) : WellFormed (c :: rest) ↔ WellFormed rest := by
  constructor
  · rintro hs front behind rfl
    exact hs (c :: front) behind rfl
  · intro hs front behind heq
    cases front with
    | nil => exact absurd (List.cons.inj heq).1 hc
    | cons c' front => exact hs front behind (List.cons.inj heq).2

theorem wellFormed_escape (hhigh : hexValue high = some h) (hlow : hexValue low = some l) :
    WellFormed (37 :: high :: low :: rest) ↔ WellFormed rest := by
  refine Iff.trans ?_ ((wellFormed_other (hexValue_eq hhigh).1).trans
    (wellFormed_other (hexValue_eq hlow).1))
  constructor
  · rintro hs front behind heq
    exact hs (37 :: front) behind (by rw [heq, List.cons_append])
  · intro hs front behind heq
    cases front with
    | nil =>
      obtain ⟨-, rfl⟩ := List.cons.inj heq
      exact ⟨high, low, rest, rfl, by rw [hhigh]; rfl, by rw [hlow]; rfl⟩
    | cons c front => exact hs front behind (List.cons.inj heq).2

theorem WellFormed.escaped {s : List UInt8} (hs : WellFormed s) : Escaped s :=
  match s with
  | [] => .nil
  | c :: rest => by
    by_cases hc : c = 37
    · subst hc
      obtain ⟨high, low, rest, rfl, hhigh, hlow⟩ := hs [] rest rfl
      obtain ⟨h, hhigh⟩ := Option.isSome_iff_exists.mp hhigh
      obtain ⟨l, hlow⟩ := Option.isSome_iff_exists.mp hlow
      exact .escape hhigh hlow ((wellFormed_escape hhigh hlow).mp hs).escaped
    · exact .other hc ((wellFormed_other hc).mp hs).escaped
termination_by s.length

theorem wellFormed_iff : WellFormed s ↔ Escaped s := by
  refine ⟨WellFormed.escaped, fun hs => ?_⟩
  induction hs with
  | nil => exact fun front behind heq => nomatch List.append_eq_nil_iff.mp heq.symm
  | escape hhigh hlow _ ih => exact (wellFormed_escape hhigh hlow).mpr ih
  | other hc _ ih => exact (wellFormed_other hc).mpr ih

end LearningCode.Percent
