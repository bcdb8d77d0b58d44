import Mathlib.Data.Nat.Digits.Lemmas
import Mathlib.Data.Nat.Log

/-!
# Numerals

A number as it is written down: the most significant digit first, and at least one digit.
It is read back by multiplying and adding from the left.
-/

namespace LearningCode.Numeral

variable {b v : Nat}

def numeral (b v : Nat) : List Nat := if v = 0 then [0] else (Nat.digits b v).reverse

def value (b : Nat) (ds : List Nat) : Nat := ds.foldl (fun v d => v * b + d) 0

theorem numeral_of_lt (h : v < b) : numeral b v = [v] := by
  unfold numeral
  split
  next hv => rw [hv]
  next hv => rw [Nat.digits_of_lt b v hv h, List.reverse_singleton]

theorem numeral_of_le (hb : 1 < b) (h : b ≤ v) : numeral b v = numeral b (v / b) ++ [v % b] := by
  have hv : v ≠ 0 := by omega
  have hdiv : v / b ≠ 0 := by simp only [ne_eq, Nat.div_eq_zero_iff]; omega
  rw [numeral, numeral, if_neg hv, if_neg hdiv, Nat.digits_def' hb (Nat.pos_of_ne_zero hv),
    List.reverse_cons]

theorem lt_of_mem {d : Nat} (hb : 1 < b) (hd : d ∈ numeral b v) : d < b := by
  unfold numeral at hd
  split at hd
  · rw [List.mem_singleton.mp hd]
    omega
  · exact Nat.digits_lt_base hb (List.mem_reverse.mp hd)

theorem length_numeral_le {k : Nat} (hb : 1 < b) (h : v < b ^ (k + 1)) :
    (numeral b v).length ≤ k + 1 := by
  unfold numeral
  split
  · simp
  · rw [List.length_reverse]
    exact (Nat.digits_length_le_iff hb v).mpr h

theorem value_numeral (b v : Nat) : value b (numeral b v) = v := by
  unfold numeral
  split
  next hv => simp [value, hv]
  next =>
    have hfold : value b (Nat.digits b v).reverse = Nat.ofDigits b (Nat.digits b v) := by
      rw [value, List.foldl_reverse, Nat.ofDigits_eq_foldr]
      simp only [Nat.mul_comm, Nat.add_comm, Nat.cast_id]
    rw [hfold, Nat.ofDigits_digits]

end LearningCode.Numeral

/-!
## Variable-length numbers

A number in groups of seven bits, the low ones first. Every byte but the last
has its top bit set.
-/

namespace LearningCode.Varint

variable {n m : Nat} {b : UInt8} {bs rest : List UInt8}

def encode (n : Nat) : List UInt8 :=
  if n < 128 then [UInt8.ofNat n] else UInt8.ofNat (128 + n % 128) :: encode (n / 128)

def decode : List UInt8 → Option (Nat × List UInt8)
  | [] => none
  | b :: bs =>
    if b < 128 then some (b.toNat, bs)
    else (decode bs).map fun p => (b.toNat % 128 + 128 * p.1, p.2)

theorem encode_small (h : n < 128) : encode n = [UInt8.ofNat n] := by
  rw [encode, if_pos h]

theorem encode_large (h : 128 ≤ n) :
    encode n = UInt8.ofNat (128 + n % 128) :: encode (n / 128) := by
  rw [encode, if_neg (Nat.not_lt.mpr h)]

theorem last_lt (h : n < 128) : UInt8.ofNat n < 128 := by
  rw [UInt8.lt_iff_toNat_lt, UInt8.toNat_ofNat_of_lt' (Nat.lt_trans h (by decide))]
  exact h

theorem toNat_continued : (UInt8.ofNat (128 + n % 128)).toNat = 128 + n % 128 :=
  UInt8.toNat_ofNat_of_lt' (Nat.add_lt_add_left (Nat.mod_lt n (by decide)) 128)

theorem continued_not_lt : ¬ UInt8.ofNat (128 + n % 128) < 128 := by
  rw [UInt8.lt_iff_toNat_lt, toNat_continued]
  exact Nat.not_lt.mpr (Nat.le_add_right _ _)

theorem length_encode_pos : 0 < (encode n).length := by
  rcases Nat.lt_or_ge n 128 with h | h
  · simp [encode_small h]
  · simp [encode_large h]

theorem decode_cons_small (h : b < 128) : decode (b :: bs) = some (b.toNat, bs) := if_pos h

theorem decode_cons_large (h : ¬ b < 128) (htail : decode bs = some (m, rest)) :
    decode (b :: bs) = some (b.toNat % 128 + 128 * m, rest) := by
  rw [decode, if_neg h, htail, Option.map_some]

theorem decode_encode (n : Nat) (rest : List UInt8) :
    decode (encode n ++ rest) = some (n, rest) := by
  induction n using Nat.strongRecOn with
  | ind n ih =>
    rcases Nat.lt_or_ge n 128 with h | h
    · rw [encode_small h, List.singleton_append, decode_cons_small (last_lt h),
        UInt8.toNat_ofNat_of_lt' (Nat.lt_trans h (by decide))]
    · have hless : n / 128 < n := Nat.div_lt_self (Nat.lt_of_lt_of_le (by decide) h) (by decide)
      rw [encode_large h, List.cons_append, decode_cons_large continued_not_lt (ih _ hless),
        toNat_continued, Nat.add_mod_left, Nat.mod_mod, Nat.mod_add_div]

theorem decode_length (h : decode bs = some (n, rest)) : rest.length < bs.length := by
  induction bs generalizing n rest with
  | nil => cases h
  | cons b bs ih =>
    rcases Decidable.em (b < 128) with hb | hb
    · rw [decode_cons_small hb, Option.some.injEq, Prod.mk.injEq] at h
      rw [← h.2]
      exact Nat.lt_succ_self _
    · rw [decode, if_neg hb, Option.map_eq_some_iff] at h
      obtain ⟨⟨m, tail⟩, htail, hpair⟩ := h
      rw [Prod.mk.injEq] at hpair
      rw [← hpair.2]
      exact Nat.lt_succ_of_lt (ih htail)

theorem length_encode : (encode n).length = Nat.log 2 n / 7 + 1 := by
  induction n using Nat.strongRecOn with
  | ind n ih =>
    rcases Nat.lt_or_ge n 128 with h | h
    · have hlog : Nat.log 2 n / 7 = 0 :=
        Nat.div_eq_of_lt (Nat.lt_of_le_of_lt (Nat.log_mono_right (Nat.le_of_lt_succ h)) (by decide))
      rw [encode_small h, hlog]
      rfl
    · have hless : n / 128 < n := Nat.div_lt_self (Nat.lt_of_lt_of_le (by decide) h) (by decide)
      have hseven : 7 ≤ Nat.log 2 n := Nat.le_log_of_pow_le (by decide) h
      have hlog : Nat.log 2 (n / 128) = Nat.log 2 n - 7 := Nat.log_div_base_pow 2 n 7
      rw [encode_large h, List.length_cons, ih _ hless, hlog]
      omega

end LearningCode.Varint
