import Mathlib.Data.UInt
import Mathlib.Tactic.SplitIfs

/-!
# Base64

Three bytes are written as four symbols, and what is missing at the end is padded. The
encoding can be told from the bytes and the bytes from it.
-/

namespace LearningCode.Base64

def symbol (v : Nat) : UInt8 :=
  if v < 26 then UInt8.ofNat (65 + v)
  else if v < 52 then UInt8.ofNat (71 + v)
  else if v < 62 then UInt8.ofNat (v - 4)
  else if v = 62 then 43 else 47

def pad : UInt8 := 61

def encode : List UInt8 → List UInt8
  | [] => []
  | [a] => [symbol (a.toNat / 4), symbol (a.toNat % 4 * 16), pad, pad]
  | [a, b] =>
    [symbol (a.toNat / 4), symbol (a.toNat % 4 * 16 + b.toNat / 16), symbol (b.toNat % 16 * 4), pad]
  | a :: b :: c :: l =>
    symbol (a.toNat / 4) :: symbol (a.toNat % 4 * 16 + b.toNat / 16) ::
      symbol (b.toNat % 16 * 4 + c.toNat / 64) :: symbol (c.toNat % 64) :: encode l

variable {v w : Nat} {a b c a' b' c' : UInt8} {l l' : List UInt8}

theorem symbol_toNat (hv : v < 64) : (symbol v).toNat =
    if v < 26 then 65 + v else if v < 52 then 71 + v else if v < 62 then v - 4
    else if v = 62 then 43 else 47 := by
  have hall : ∀ v < 64, (symbol v).toNat =
      if v < 26 then 65 + v else if v < 52 then 71 + v else if v < 62 then v - 4
      else if v = 62 then 43 else 47 := by decide
  exact hall v hv

theorem symbol_injective (hv : v < 64) (hw : w < 64) (h : symbol v = symbol w) : v = w := by
  have hnat := congrArg UInt8.toNat h
  rw [symbol_toNat hv, symbol_toNat hw] at hnat
  split_ifs at hnat <;> omega

theorem symbol_ne_pad (hv : v < 64) : symbol v ≠ pad := by
  have hall : ∀ v < 64, symbol v ≠ pad := by decide
  exact hall v hv

theorem symbol_ne_zero (v : Nat) : symbol v ≠ 0 := by
  have hall : ∀ v < 64, symbol v ≠ 0 := by decide
  by_cases hv : v < 64
  · exact hall v hv
  · rw [symbol, if_neg (by omega), if_neg (by omega), if_neg (by omega), if_neg (by omega)]
    decide

theorem first_eq (h : symbol (a.toNat / 4) = symbol (a'.toNat / 4)) (hv : v < 16) (hw : w < 16)
    (h' : symbol (a.toNat % 4 * 16 + v) = symbol (a'.toNat % 4 * 16 + w)) : a = a' ∧ v = w := by
  have ha := a.toNat_lt
  have ha' := a'.toNat_lt
  have hhigh := symbol_injective (by omega) (by omega) h
  have hlow := symbol_injective (by omega) (by omega) h'
  refine ⟨UInt8.toNat_inj.mp ?_, ?_⟩ <;> omega

theorem second_eq (hhigh : b.toNat / 16 = b'.toNat / 16) (hv : v < 4) (hw : w < 4)
    (h : symbol (b.toNat % 16 * 4 + v) = symbol (b'.toNat % 16 * 4 + w)) : b = b' ∧ v = w := by
  have hlow := symbol_injective (by omega) (by omega) h
  refine ⟨UInt8.toNat_inj.mp ?_, ?_⟩ <;> omega

/-- Induction along the groups of three; groups that are shorter have another padding. -/
theorem encode_injective (h : encode l = encode l') : l = l' := by
  induction l using encode.induct generalizing l' with
  | case1 =>
    rcases l' with _ | ⟨a', _ | ⟨b', _ | ⟨c', l'⟩⟩⟩
    · rfl
    all_goals cases h
  | case2 a =>
    rcases l' with _ | ⟨a', _ | ⟨b', _ | ⟨c', l'⟩⟩⟩ <;>
      simp only [encode, List.cons.injEq, reduceCtorEq] at h
    · rw [(first_eq (v := 0) (w := 0) h.1 (by decide) (by decide) h.2.1).1]
    · exact absurd h.2.2.1.symm (symbol_ne_pad (by omega))
    · exact absurd h.2.2.1.symm (symbol_ne_pad (by have := c'.toNat_lt; omega))
  | case3 a b =>
    have hb := b.toNat_lt
    rcases l' with _ | ⟨a', _ | ⟨b', _ | ⟨c', l'⟩⟩⟩ <;>
      simp only [encode, List.cons.injEq, reduceCtorEq] at h
    · exact absurd h.2.2.1 (symbol_ne_pad (by omega))
    · have hb' := b'.toNat_lt
      obtain ⟨rfl, hhigh⟩ := first_eq h.1 (by omega) (by omega) h.2.1
      rw [(second_eq (v := 0) (w := 0) hhigh (by decide) (by decide) h.2.2.1).1]
    · exact absurd h.2.2.2.1.symm (symbol_ne_pad (by omega))
  | case4 a b c l ih =>
    have hb := b.toNat_lt
    have hc := c.toNat_lt
    rcases l' with _ | ⟨a', _ | ⟨b', _ | ⟨c', l'⟩⟩⟩ <;>
      simp only [encode, List.cons.injEq, reduceCtorEq] at h
    · exact absurd h.2.2.1 (symbol_ne_pad (by omega))
    · exact absurd h.2.2.2.1 (symbol_ne_pad (by omega))
    · have hb' := b'.toNat_lt
      have hc' := c'.toNat_lt
      obtain ⟨hfirst, hsecond, hthird, hfourth, hrest⟩ := h
      obtain ⟨rfl, hhigh⟩ := first_eq hfirst (by omega) (by omega) hsecond
      obtain ⟨rfl, hhigh'⟩ := second_eq hhigh (by omega) (by omega) hthird
      have hlow := symbol_injective (by omega) (by omega) hfourth
      have hbyte : c = c' := UInt8.toNat_inj.mp (by omega)
      rw [hbyte, ih hrest]

end LearningCode.Base64
