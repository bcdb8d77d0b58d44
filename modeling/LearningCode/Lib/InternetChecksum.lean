import Mathlib.Algebra.BigOperators.Group.List.Basic
import Mathlib.Data.UInt

/-!
# The Internet checksum

The ones' complement sum of the 16-bit words of a message, in network order, which
is all ones for a message with its checksum. Apart from the two zeros it is the sum
modulo 65535, so that the order of the bytes in a word does not matter to it, and it
can be computed with the carries put aside and added at the end.
-/

namespace LearningCode.InternetChecksum

variable {words : List Nat} {bytes : List UInt8} {s : Nat}

/-- Ones' complement addition of 16-bit words: the carry is added at the low end. -/
def add (x y : Nat) : Nat := if x + y < 65536 then x + y else x + y - 65535

def sum (words : List Nat) : Nat := words.foldr add 0

/-- A last odd byte is the high one of its word. -/
def bigEndian : List UInt8 → List Nat
  | [] => []
  | [b] => [256 * b.toNat]
  | b :: c :: bytes => (256 * b.toNat + c.toNat) :: bigEndian bytes

def littleEndian : List UInt8 → List Nat
  | [] => []
  | [b] => [b.toNat]
  | b :: c :: bytes => (b.toNat + 256 * c.toNat) :: littleEndian bytes

def Valid (bytes : List UInt8) : Prop := sum (bigEndian bytes) = 65535

def fold (s : Nat) : Nat := s / 65536 + s % 65536

/-- The checksum of words whose plain sum is `s`; the second carry is at most 1. -/
def complement (s : Nat) : Nat := 65535 - (fold s + fold s / 65536) % 65536

-- ---------------------------------------------------------------------------
-- sums
-- ---------------------------------------------------------------------------

theorem sum_lt (h : ∀ w ∈ words, w < 65536) : sum words < 65536 := by
  induction words with
  | nil => decide
  | cons w words ih =>
    have hw := h w List.mem_cons_self
    have hrest := ih fun v hv => h v (List.mem_cons_of_mem _ hv)
    change add w (sum words) < 65536
    unfold add
    split_ifs <;> omega

/-- The sum is the plain one modulo 65535, and 0 for zeros only. -/
theorem sum_spec (h : ∀ w ∈ words, w < 65536) :
    sum words % 65535 = words.sum % 65535 ∧ (sum words = 0 ↔ words.sum = 0) := by
  induction words with
  | nil => exact ⟨rfl, Iff.rfl⟩
  | cons w words ih =>
    have hrest (v : Nat) (hv : v ∈ words) : v < 65536 := h v (List.mem_cons_of_mem _ hv)
    have hw := h w List.mem_cons_self
    have hlt := sum_lt hrest
    obtain ⟨hmod, hzero⟩ := ih hrest
    change add w (sum words) % 65535 = _ ∧ (add w (sum words) = 0 ↔ _)
    rw [List.sum_cons]
    unfold add
    split_ifs <;> omega

theorem sum_eq_ones (h : ∀ w ∈ words, w < 65536) :
    sum words = 65535 ↔ words.sum ≠ 0 ∧ words.sum % 65535 = 0 := by
  obtain ⟨hmod, hzero⟩ := sum_spec h
  have hlt := sum_lt h
  omega

theorem words_lt (bytes : List UInt8) :
    (∀ w ∈ bigEndian bytes, w < 65536) ∧ ∀ w ∈ littleEndian bytes, w < 65536 := by
  induction bytes using bigEndian.induct with
  | case1 => exact ⟨nofun, nofun⟩
  | case2 b =>
    have hb := b.toNat_lt
    rw [bigEndian, littleEndian, List.forall_mem_singleton, List.forall_mem_singleton]
    omega
  | case3 b c bytes ih =>
    have hb := b.toNat_lt
    have hc := c.toNat_lt
    rw [bigEndian, littleEndian, List.forall_mem_cons, List.forall_mem_cons]
    exact ⟨⟨by omega, ih.1⟩, by omega, ih.2⟩

/-- Swapping the bytes of every word multiplies by 256. -/
theorem bigEndian_sum (bytes : List UInt8) :
    (bigEndian bytes).sum % 65535 = 256 * (littleEndian bytes).sum % 65535 ∧
      ((bigEndian bytes).sum = 0 ↔ (littleEndian bytes).sum = 0) := by
  induction bytes using bigEndian.induct with
  | case1 => exact ⟨rfl, Iff.rfl⟩
  | case2 b => simp [bigEndian, littleEndian]
  | case3 b c bytes ih =>
    obtain ⟨hmod, hzero⟩ := ih
    rw [bigEndian, littleEndian, List.sum_cons, List.sum_cons]
    omega

theorem valid_iff_littleEndian :
    Valid bytes ↔ (littleEndian bytes).sum ≠ 0 ∧ (littleEndian bytes).sum % 65535 = 0 := by
  obtain ⟨hmod, hzero⟩ := bigEndian_sum bytes
  rw [Valid, sum_eq_ones (words_lt bytes).1]
  omega

-- ---------------------------------------------------------------------------
-- the checksum field
-- ---------------------------------------------------------------------------

theorem fold_spec (h : s < 65536 * 65536) :
    s = 65535 * (s / 65536) + fold s ∧ fold s ≤ 131070 := by
  unfold fold
  omega

theorem complement_cases (h : s < 65536 * 65536) :
    complement s = 65535 - fold s ∧ fold s < 65536 ∨
      complement s = 131070 - fold s ∧ 65536 ≤ fold s := by
  have hfold := (fold_spec h).2
  unfold complement
  omega

theorem complement_spec (h : s < 65536 * 65536) : complement s < 65536 ∧ s + complement s ≠ 0 ∧
    (s + complement s) % 65535 = 0 := by
  obtain ⟨hs, hfold⟩ := fold_spec h
  rcases complement_cases h with ⟨hc, hsmall⟩ | ⟨hc, hlarge⟩
  · have hsum : s + complement s = 65535 * (s / 65536 + 1) := by omega
    refine ⟨by omega, by omega, ?_⟩
    rw [hsum, Nat.mul_mod_right]
  · have hsum : s + complement s = 65535 * (s / 65536 + 2) := by omega
    refine ⟨by omega, by omega, ?_⟩
    rw [hsum, Nat.mul_mod_right]

theorem complement_eq_ones (h : s < 65536 * 65536) : complement s = 65535 ↔ s = 0 := by
  obtain ⟨hs, hfold⟩ := fold_spec h
  have hzero : fold s = 0 ↔ s = 0 := by
    unfold fold
    omega
  rcases complement_cases h with ⟨hc, hsmall⟩ | ⟨hc, hlarge⟩ <;> omega

theorem complement_eq_zero (h : s < 65536 * 65536) (hne : s ≠ 0) (hmod : s % 65535 = 0) :
    complement s = 0 := by
  obtain ⟨hlt, -, hsum⟩ := complement_spec h
  have hones := mt (complement_eq_ones h).mp hne
  omega

/-- The folds turn the plain sum into the ones' complement one. -/
theorem complement_sum (h : ∀ w ∈ words, w < 65536) (hs : words.sum < 65536 * 65536) :
    complement words.sum = 65535 - sum words := by
  obtain ⟨hmod, hzero⟩ := sum_spec h
  obtain ⟨hlt, -, hsum⟩ := complement_spec hs
  have hones := complement_eq_ones hs
  have hsumlt := sum_lt h
  omega

theorem littleEndian_append {first second : List UInt8} (heven : first.length % 2 = 0) :
    littleEndian (first ++ second) = littleEndian first ++ littleEndian second := by
  induction first using littleEndian.induct with
  | case1 => rfl
  | case2 b => simp at heven
  | case3 b c bytes ih =>
    simp only [List.cons_append, littleEndian]
    rw [ih (by rw [List.length_cons, List.length_cons] at heven; omega)]

theorem littleEndian_sum_le (bytes : List UInt8) : (littleEndian bytes).sum ≤ 65535 * bytes.length := by
  induction bytes using littleEndian.induct with
  | case1 => exact Nat.le_refl _
  | case2 b =>
    have := b.toNat_lt
    simp only [littleEndian, List.sum_singleton, List.length_singleton]
    omega
  | case3 b c bytes ih =>
    have := b.toNat_lt
    have := c.toNat_lt
    simp only [littleEndian, List.sum_cons, List.length_cons]
    omega

theorem valid_complement {first second : List UInt8} (heven : first.length % 2 = 0)
    (hs : (littleEndian (first ++ 0 :: 0 :: second)).sum = s) (hlt : s < 65536 * 65536) :
    Valid (first ++ UInt8.ofNat (complement s) :: UInt8.ofNat (complement s / 256) :: second) := by
  obtain ⟨hc, hne, hmod⟩ := complement_spec hlt
  rw [littleEndian_append heven] at hs
  simp only [littleEndian, List.sum_append, List.sum_cons, UInt8.toNat_zero] at hs
  rw [valid_iff_littleEndian, littleEndian_append heven]
  have hfield : complement s % 2 ^ 8 + 256 * (complement s / 256 % 2 ^ 8) = complement s := by
    omega
  have hsum : (littleEndian first).sum + (complement s + (littleEndian second).sum) =
      s + complement s := by omega
  simp only [littleEndian, List.sum_append, List.sum_cons, UInt8.toNat_ofNat', hfield, hsum]
  exact ⟨hne, hmod⟩

end LearningCode.InternetChecksum
