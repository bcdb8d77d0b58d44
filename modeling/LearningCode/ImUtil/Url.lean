import Mathlib.Tactic.SplitIfs
import LearningCode.Lib.Percent
import LearningCode.ImUtil.Model

/-!
# The encoding of URLs

What is encoded is decoded again. The second digit of an escape is wrong if it is in lower
case: the bit of 32 that makes it so stays in the byte. And a `%` at the end makes the
decoder read behind the end.
-/

namespace LearningCode.ImUtil

open Percent
open WebSocket (cString)

def UpperHex (c : UInt8) : Prop := 48 ≤ c ∧ c ≤ 57 ∨ 65 ≤ c ∧ c ≤ 70

inductive Encoded : List UInt8 → Prop
  | nil : Encoded []
  | alnum {c rest} : isalnum c → Encoded rest → Encoded (c :: rest)
  | escape {high low rest} : UpperHex high → UpperHex low → Encoded rest →
    Encoded (37 :: high :: low :: rest)

/-- What is left begins with the last byte, a `%`, after some escapes and other bytes. -/
inductive Truncated : List UInt8 → Prop
  | last : Truncated [37]
  | escape {high low rest} : Truncated rest → Truncated (37 :: high :: low :: rest)
  | other {c rest} : c ≠ 37 → Truncated rest → Truncated (c :: rest)

/-- Behind a first digit without the bit of 2, the second is not in lower case. -/
def Kept (s : List UInt8) : Prop :=
  ∀ front behind high low h, s = front ++ 37 :: high :: low :: behind → hexValue high = some h →
    low < 97 ∨ h &&& 2 ≠ 0

/-- The standard decoding where there is one, and no read outside of the string and its NUL. -/
def Decodes (s : List UInt8) : Prop :=
  (WellFormed s → ∃ t, decode s = some t ∧ urlDecode s = some t) ∧ ∃ t, urlDecode s = some t

variable {c high low h l : UInt8} {rest s : List UInt8} {ix : Nat}

def decodeRest : List UInt8 → Option (List UInt8)
  | [] => some []
  | c :: rest =>
    if c = 37 then
      match rest with
      | high :: low :: rest => (decodeRest rest).map ((fromHex high <<< 4 ||| fromHex low) :: ·)
      | [high] => some [fromHex high <<< 4 ||| fromHex 0]
      | [] => none
    else (decodeRest rest).map (plain c :: ·)

theorem decodeRest_escape : decodeRest (37 :: high :: low :: rest) =
    (decodeRest rest).map ((fromHex high <<< 4 ||| fromHex low) :: ·) := by
  rw [decodeRest, if_pos rfl]

theorem decodeRest_other (hc : c ≠ 37) :
    decodeRest (c :: rest) = (decodeRest rest).map (plain c :: ·) := by
  cases rest with
  | nil => simp [decodeRest, hc]
  | cons d rest => cases rest <;> simp [decodeRest, hc]

theorem urlDecodeFrom_end (h : s.length ≤ ix) : urlDecodeFrom s ix = some [] := by
  rw [urlDecodeFrom, if_neg (Nat.not_lt.mpr h)]

theorem charAt_append (s rest : List UInt8) (n : Nat) :
    charAt (s ++ rest) (s.length + n) = charAt rest n := by
  simp [charAt, List.getElem?_append_right]

theorem charAt_cons (c : UInt8) (rest : List UInt8) (n : Nat) :
    charAt (c :: rest) (n + 1) = charAt rest n := by
  simp [charAt]

theorem urlDecodeFrom_escape (s rest : List UInt8) :
    urlDecodeFrom (s ++ 37 :: rest) s.length = do
      let high ← charAt rest 0
      let low ← charAt rest 1
      let sOut ← urlDecodeFrom (s ++ 37 :: rest) (s.length + 3)
      return (fromHex high <<< 4 ||| fromHex low) :: sOut := by
  have hc : charAt (s ++ 37 :: rest) s.length = some 37 := charAt_append s (37 :: rest) 0
  rw [urlDecodeFrom, if_pos (by simp), hc, Option.bind_eq_bind, Option.bind_some, if_pos rfl,
    charAt_append, charAt_append, charAt_cons, charAt_cons]

theorem urlDecodeFrom_other (hc : c ≠ 37) (s rest : List UInt8) :
    urlDecodeFrom (s ++ c :: rest) s.length =
      (urlDecodeFrom (s ++ c :: rest) (s.length + 1)).map (plain c :: ·) := by
  have hchar : charAt (s ++ c :: rest) s.length = some c := charAt_append s (c :: rest) 0
  rw [urlDecodeFrom, if_pos (by simp), hchar, Option.bind_eq_bind, Option.bind_some, if_neg hc,
    Option.map_eq_bind]
  rfl

theorem urlDecodeFrom_append (s rest : List UInt8) :
    urlDecodeFrom (s ++ rest) s.length = decodeRest rest := by
  induction rest using decodeRest.induct generalizing s with
  | case1 => exact urlDecodeFrom_end (by simp)
  | case2 high low rest ih =>
    have hrest := ih (s ++ [37, high, low])
    rw [List.append_assoc, List.length_append] at hrest
    rw [urlDecodeFrom_escape, decodeRest_escape, Option.map_eq_bind, ← hrest]
    rfl
  | case3 high =>
    rw [urlDecodeFrom_escape, urlDecodeFrom_end (by simp)]
    rfl
  | case4 =>
    rw [urlDecodeFrom_escape]
    rfl
  | case5 c rest hc ih =>
    have hrest := ih (s ++ [c])
    rw [List.append_assoc, List.length_append] at hrest
    rw [urlDecodeFrom_other hc, decodeRest_other hc, ← hrest]
    rfl

theorem urlDecode_eq (s : List UInt8) : urlDecode s = decodeRest s := urlDecodeFrom_append [] s

-- ---------------------------------------------------------------------------
-- What the encoder makes
-- ---------------------------------------------------------------------------

theorem UpperHex.ne_zero (h : UpperHex c) : c ≠ 0 := by
  unfold UpperHex at h
  grind

theorem toHex_upper (h : c < 16) : UpperHex (toHex c) := by
  unfold toHex UpperHex
  grind

theorem fromHex_toHex (h : c < 16) : fromHex (toHex c) = c := by
  unfold toHex fromHex isdigit
  grind

theorem nibbles (c : UInt8) : c >>> 4 < 16 ∧ c % 16 < 16 ∧ c >>> 4 <<< 4 ||| c % 16 = c := by
  have hall : ∀ n < 256, UInt8.ofNat n >>> 4 < 16 ∧ UInt8.ofNat n % 16 < 16 ∧
      UInt8.ofNat n >>> 4 <<< 4 ||| UInt8.ofNat n % 16 = UInt8.ofNat n := by decide +kernel
  have hc := hall c.toNat c.toNat_lt
  rwa [UInt8.ofNat_toNat] at hc

theorem isalnum_ne (h : isalnum c) : c ≠ 0 ∧ c ≠ 37 ∧ plain c = c := by
  unfold isalnum isdigit at h
  unfold plain
  grind

theorem cString_encodeByte (c : UInt8) : cString (encodeByte c) =
    if isalnum c then [c] else [37, toHex (c >>> 4), toHex (c % 16)] := by
  obtain ⟨hhigh, hlow, -⟩ := nibbles c
  unfold cString encodeByte
  split_ifs with hc
  · simp [isalnum_ne hc]
  · simp [(toHex_upper hhigh).ne_zero, (toHex_upper hlow).ne_zero]

/-- What is encoded is decoded again, and in between there are alphanumerics and escapes
in upper case only. -/
theorem urlDecode_urlEncode (s : List UInt8) :
    urlDecode (urlEncode s) = some s ∧ Encoded (urlEncode s) := by
  rw [urlDecode_eq]
  induction s with
  | nil => exact ⟨rfl, .nil⟩
  | cons c s ih =>
    obtain ⟨hdecode, hencoded⟩ := ih
    rw [urlEncode, List.flatMap_cons, cString_encodeByte, ← urlEncode]
    split_ifs with hc
    · obtain ⟨-, hescape, hplain⟩ := isalnum_ne hc
      refine ⟨?_, .alnum hc hencoded⟩
      rw [List.singleton_append, decodeRest_other hescape, hdecode, hplain]
      rfl
    · obtain ⟨hhigh, hlow, hbyte⟩ := nibbles c
      refine ⟨?_, .escape (toHex_upper hhigh) (toHex_upper hlow) hencoded⟩
      rw [List.cons_append, List.cons_append, List.singleton_append, decodeRest_escape, hdecode,
        fromHex_toHex hhigh, fromHex_toHex hlow, hbyte]
      rfl

-- ---------------------------------------------------------------------------
-- What the decoder makes of other strings
-- ---------------------------------------------------------------------------

theorem fromHex_eq (hc : hexValue c = some h) : fromHex c = if c < 97 then h else h + 32 := by
  unfold hexValue at hc
  unfold fromHex isdigit
  grind

/-- The bit of 32 is lost from the first digit, and is one of the value's own in the second. -/
theorem escape_eq_iff (hhigh : hexValue high = some h) (hlow : hexValue low = some l) :
    fromHex high <<< 4 ||| fromHex low = 16 * h + l ↔ low < 97 ∨ h &&& 2 ≠ 0 := by
  have hall : ∀ m < 16, ∀ n < 16,
      let h := UInt8.ofNat m
      let l := UInt8.ofNat n
      (h + 32) <<< 4 = h <<< 4 ∧ h <<< 4 ||| l = 16 * h + l ∧
        (h <<< 4 ||| (l + 32) = 16 * h + l ↔ h &&& 2 ≠ 0) := by decide +kernel
  obtain ⟨-, hh, -⟩ := hexValue_eq hhigh
  obtain ⟨-, hl, -⟩ := hexValue_eq hlow
  obtain ⟨hshift, hsame, hlower⟩ :=
    hall h.toNat (UInt8.lt_iff_toNat_lt.mp hh) l.toNat (UInt8.lt_iff_toNat_lt.mp hl)
  rw [UInt8.ofNat_toNat, UInt8.ofNat_toNat] at hsame hlower
  rw [UInt8.ofNat_toNat] at hshift
  have hfirst : fromHex high <<< 4 = h <<< 4 := by
    rw [fromHex_eq hhigh]
    split_ifs
    · rfl
    · exact hshift
  rw [hfirst, fromHex_eq hlow]
  split_ifs with hcase
  · exact iff_of_true hsame (.inl hcase)
  · exact hlower.trans (or_iff_right hcase).symm

theorem kept_other (hc : c ≠ 37) : Kept (c :: rest) ↔ Kept rest := by
  constructor
  · rintro hs front behind high low h rfl
    exact hs (c :: front) behind high low h rfl
  · intro hs front behind high low h heq
    cases front with
    | nil => exact absurd (List.cons.inj heq).1 hc
    | cons c' front => exact hs front behind high low h (List.cons.inj heq).2

theorem kept_escape (hhigh : hexValue high = some h) (hlow : hexValue low = some l) :
    Kept (37 :: high :: low :: rest) ↔ (low < 97 ∨ h &&& 2 ≠ 0) ∧ Kept rest := by
  have hskip : Kept (high :: low :: rest) ↔ Kept rest :=
    (kept_other (hexValue_eq hhigh).1).trans (kept_other (hexValue_eq hlow).1)
  rw [← hskip]
  constructor
  · intro hs
    refine ⟨hs [] rest high low h rfl hhigh, ?_⟩
    rintro front behind high' low' h' heq
    exact hs (37 :: front) behind high' low' h' (by rw [heq, List.cons_append])
  · rintro ⟨hfirst, hs⟩ front behind high' low' h' heq hhigh'
    cases front with
    | nil =>
      cases heq
      cases hhigh.symm.trans hhigh'
      exact hfirst
    | cons c front => exact hs front behind high' low' h' (List.cons.inj heq).2 hhigh'

theorem map_cons_iff {o o' : Option (List UInt8)} {a b : UInt8} :
    (∃ t, o.map (a :: ·) = some t ∧ o'.map (b :: ·) = some t) ↔
      b = a ∧ ∃ t, o = some t ∧ o' = some t := by
  constructor
  · rintro ⟨t, h, h'⟩
    obtain ⟨u, rfl, rfl⟩ := Option.map_eq_some_iff.mp h
    obtain ⟨v, rfl, hcons⟩ := Option.map_eq_some_iff.mp h'
    obtain ⟨rfl, rfl⟩ := List.cons.inj hcons
    exact ⟨rfl, v, rfl, rfl⟩
  · rintro ⟨rfl, t, rfl, rfl⟩
    exact ⟨_, rfl, rfl⟩

/-- Induction on the escapes and the bytes between them. -/
theorem decodeRest_eq_iff (hs : Escaped s) :
    (∃ t, decode s = some t ∧ decodeRest s = some t) ↔ Kept s := by
  induction hs with
  | nil => exact iff_of_true ⟨[], rfl, rfl⟩ fun front behind _ _ _ h => by simp at h
  | escape hhigh hlow hrest ih =>
    rw [kept_escape hhigh hlow, ← ih, decode_escape hhigh hlow, decodeRest_escape, map_cons_iff,
      escape_eq_iff hhigh hlow]
  | other hc hrest ih =>
    rw [kept_other hc, ← ih, decode_other hc, decodeRest_other hc, map_cons_iff]
    exact and_iff_right rfl

theorem truncated_escape : Truncated (37 :: high :: low :: rest) ↔ Truncated rest := by
  refine ⟨fun h => ?_, .escape⟩
  cases h with
  | escape h => exact h
  | other hc _ => exact absurd rfl hc

theorem truncated_other (hc : c ≠ 37) : Truncated (c :: rest) ↔ Truncated rest := by
  refine ⟨fun h => ?_, .other hc⟩
  cases h with
  | last => exact absurd rfl hc
  | escape _ => exact absurd rfl hc
  | other _ h => exact h

theorem decodeRest_defined_iff (s : List UInt8) :
    (∃ t, decodeRest s = some t) ↔ ¬ Truncated s := by
  induction s using decodeRest.induct with
  | case1 => exact iff_of_true ⟨[], rfl⟩ nofun
  | case2 high low rest ih =>
    rw [truncated_escape, ← ih, decodeRest_escape]
    simp
  | case3 high =>
    refine iff_of_true ⟨_, rfl⟩ fun h => ?_
    cases h with
    | other hc _ => exact hc rfl
  | case4 => exact iff_of_false nofun (not_not.mpr .last)
  | case5 c rest hc ih =>
    rw [truncated_other hc, ← ih, decodeRest_other hc]
    simp

/-- The decoder is right and stays inside the string if and only if no escape of a string of
escapes has its second digit in lower case behind a first one without the bit of 2, and the
loop does not come to a `%` at the end. -/
theorem urlDecode_decodes_iff (s : List UInt8) :
    Decodes s ↔ (WellFormed s → Kept s) ∧ ¬ Truncated s := by
  rw [Decodes, urlDecode_eq, decodeRest_defined_iff]
  refine and_congr_left fun _ => forall_congr' fun hs => decodeRest_eq_iff hs.escaped

/-- `%4a` is `j`, and not `J`. -/
theorem urlDecode_lower : ¬ ∀ s, Decodes s := by
  intro h
  have hs : WellFormed [37, 52, 97] := wellFormed_iff.mpr (.escape rfl rfl .nil)
  obtain ⟨t, ht, hurl⟩ := (h [37, 52, 97]).1 hs
  rw [urlDecode_eq] at hurl
  obtain rfl : [74] = t := Option.some.inj ht
  exact absurd (Option.some.inj hurl) (by decide)

end LearningCode.ImUtil
