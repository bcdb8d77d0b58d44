import LearningCode.Lib.Blocks
import LearningCode.Lib.Numeral
import LearningCode.WebSocket.Model

/-!
# Short ids

`idtourl` and `urltoid` of `UtilPdu.cc`. The id is doubled in 32 bits, which loses its
highest bit; all other bits come back.
-/

namespace LearningCode.ImPdu.ShortId

open Blocks Numeral
open WebSocket (ascii cString)

def digits : List UInt8 := ascii "0123456789abcdefghijklmnopqrstuvwxyz"

/-- The loop of `idtourl`. No write is before `buf`. -/
def convert : (ptr : Nat) → (buf : List UInt8) → (value : UInt32) → Option (Nat × List UInt8)
  | 0, _, _ => none
  | ptr + 1, buf, value => do
    let digit ← digits[(value % 36).toNat]?
    let buf ← write buf ptr digit
    let value := value / 36
    if ptr > 0 ∧ value ≠ 0 then convert ptr buf value else return (ptr, buf)

/-- On the static `buf`, with what an earlier call left there. -/
def idtourl (buf : Vector UInt8 64) (id : UInt32) : Option (Nat × List UInt8) := do
  let value := id * 2 + 56
  let buf ← write buf.toList 63 0
  let (ptr, buf) ← convert 63 buf value
  match ptr with
  | 0 => none
  | ptr + 1 => do
    -- the version number `1`
    let buf ← write buf ptr 49
    return (ptr, buf)

/-- The copy of the string that the caller has to make. -/
def url (buf : Vector UInt8 64) (id : UInt32) : Option (List UInt8) := do
  let (ptr, buf) ← idtourl buf id
  let text := buf.drop ptr
  if 0 ∈ text then some (cString text) else none

/-- The value of a digit. A byte from 128 on is negative. -/
def digitValue (c : UInt8) : Option UInt8 :=
  if c ≥ 48 ∧ c ≤ 57 then some (c - 48)
  else if c ≥ 97 ∧ c ≤ 122 then some (c - (97 - 10))
  else if c ≥ 65 ∧ c ≤ 90 then some (c - (65 - 10))
  else none

def addDigit (number : UInt32) (c : UInt8) : UInt32 :=
  match digitValue c with
  | some v => number * 36 + v.toUInt32
  | none => number

def urltoid (url : List UInt8) : UInt32 :=
  let url_len := UInt32.ofNat url.length
  let number := ((url.take url_len.toNat).drop 1).foldl addDigit 0
  (number - 56) >>> 1

def symbol (d : Nat) : UInt8 := digits.getD d 0

def spelled (id : UInt32) : List UInt8 := 49 :: (numeral 36 (id * 2 + 56).toNat).map symbol

variable {p q : List UInt8} {value id : UInt32} {d k : Nat}

theorem symbol_spec (h : d < 36) : digits[d]? = some (symbol d) ∧ symbol d ≠ 0 ∧
    digitValue (symbol d) = some (UInt8.ofNat d) := by
  have hall : ∀ d < 36, digits[d]? = some (symbol d) ∧ symbol d ≠ 0 ∧
      digitValue (symbol d) = some (UInt8.ofNat d) := by decide
  exact hall d h

-- ---------------------------------------------------------------------------
-- idtourl
-- ---------------------------------------------------------------------------

theorem convert_step (x : UInt8) :
    convert (p ++ [x]).length (p ++ [x] ++ q) value =
      if p.length > 0 ∧ value / 36 ≠ 0 then
        convert p.length (p ++ symbol (value.toNat % 36) :: q) (value / 36)
      else some (p.length, p ++ symbol (value.toNat % 36) :: q) := by
  have hdigit := (symbol_spec (Nat.mod_lt value.toNat (show 0 < 36 by decide))).1
  have hmod : (value % 36).toNat = value.toNat % 36 := UInt32.toNat_mod value 36
  rw [List.length_append, List.length_singleton, convert, List.append_assoc, List.singleton_append,
    hmod, hdigit]
  simp only [Option.bind_eq_bind, Option.bind_some, write_split rfl, Option.pure_def]

theorem div_eq_zero_iff : value / 36 = 0 ↔ value.toNat < 36 := by
  rw [← UInt32.toNat_inj, UInt32.toNat_div]
  show value.toNat / 36 = 0 ↔ _
  omega

/-- Induction on the room in front, which has to be enough for the digits. -/
theorem convert_spec (hvalue : value.toNat < 36 ^ (k + 1)) (hroom : k < p.length) :
    ∃ front, convert p.length (p ++ q) value =
        some (front.length, front ++ (numeral 36 value.toNat).map symbol ++ q) ∧
      p.length ≤ front.length + (k + 1) := by
  induction p using List.reverseRecOn generalizing k q value with
  | nil => exact absurd hroom (Nat.not_lt_zero k)
  | append_singleton p x ih =>
    rw [convert_step]
    by_cases hlast : value.toNat < 36
    · refine ⟨p, ?_, by simp⟩
      rw [if_neg fun h => h.2 (div_eq_zero_iff.mpr hlast), numeral_of_lt hlast,
        Nat.mod_eq_of_lt hlast]
      simp
    · cases k with
      | zero => exact absurd hvalue hlast
      | succ k =>
        rw [List.length_append, List.length_singleton] at hroom
        have hdiv : (value / 36).toNat = value.toNat / 36 := UInt32.toNat_div value 36
        have hrest : (value / 36).toNat < 36 ^ (k + 1) := by
          rw [hdiv]
          exact Nat.div_lt_of_lt_mul (by rwa [pow_succ'] at hvalue)
        obtain ⟨front, hfront, hlen⟩ :=
          ih (q := symbol (value.toNat % 36) :: q) hrest (Nat.lt_of_succ_lt_succ hroom)
        refine ⟨front, ?_, by simp only [List.length_append, List.length_singleton]; omega⟩
        rw [if_pos ⟨by omega, mt div_eq_zero_iff.mp hlast⟩, hfront, hdiv,
          numeral_of_le (by decide) (Nat.not_lt.mp hlast)]
        simp

theorem idtourl_eq (buf : Vector UInt8 64) (id : UInt32) :
    ∃ front, idtourl buf id = some (front.length, front ++ (spelled id ++ [0])) := by
  have hne : buf.toList ≠ [] := List.ne_nil_of_length_pos (by simp)
  obtain ⟨p, x, hbuf⟩ := (List.eq_nil_or_concat' buf.toList).resolve_left hne
  have hlen : p.length = 63 := by simpa using (congrArg List.length hbuf).symm
  -- seven digits are enough, and there is room for more than seven
  have hseven : (id * 2 + 56).toNat < 36 ^ 7 := Nat.lt_trans (UInt32.toNat_lt _) (by decide)
  obtain ⟨front, hconvert, hroom⟩ := convert_spec (p := p) (q := [0]) hseven (by omega)
  obtain ⟨front, y, rfl⟩ := (List.eq_nil_or_concat' front).resolve_left
    (List.ne_nil_of_length_pos (by omega))
  refine ⟨front, ?_⟩
  rw [hlen, List.length_append, List.length_singleton] at hconvert
  unfold idtourl
  rw [hbuf, write_split hlen.symm]
  simp only [Option.bind_eq_bind, Option.bind_some, hconvert]
  rw [List.append_assoc, List.append_assoc, List.singleton_append, write_split rfl]
  simp [spelled]

theorem ne_zero_of_mem_spelled {c : UInt8} (hc : c ∈ spelled id) : c ≠ 0 := by
  simp only [spelled, List.mem_cons, List.mem_map] at hc
  obtain rfl | ⟨d, hd, rfl⟩ := hc
  · decide
  · exact (symbol_spec (lt_of_mem (by decide) hd)).2.1

theorem url_eq (buf : Vector UInt8 64) (id : UInt32) : url buf id = some (spelled id) := by
  obtain ⟨front, h⟩ := idtourl_eq buf id
  have hplain : ∀ c ∈ spelled id, decide (c ≠ 0) = true :=
    fun c hc => decide_eq_true (ne_zero_of_mem_spelled hc)
  unfold url
  rw [h]
  simp only [Option.bind_eq_bind, Option.bind_some, List.drop_left]
  rw [if_pos (by simp), cString, List.takeWhile_append_of_pos hplain]
  simp

-- ---------------------------------------------------------------------------
-- urltoid
-- ---------------------------------------------------------------------------

theorem addDigit_symbol (hd : d < 36) (n : Nat) :
    addDigit (UInt32.ofNat n) (symbol d) = UInt32.ofNat (n * 36 + d) := by
  unfold addDigit
  rw [(symbol_spec hd).2.2]
  have hwide : (UInt8.ofNat d).toUInt32 = UInt32.ofNat d := by
    apply UInt32.toNat.inj
    simp
    omega
  simp [hwide]

theorem foldl_addDigit {ds : List Nat} (hds : ∀ d ∈ ds, d < 36) (n : Nat) :
    (ds.map symbol).foldl addDigit (UInt32.ofNat n) =
      UInt32.ofNat (ds.foldl (fun v d => v * 36 + d) n) := by
  induction ds generalizing n with
  | nil => rfl
  | cons d ds ih =>
    rw [List.map_cons, List.foldl_cons, List.foldl_cons, addDigit_symbol (hds d (by simp)),
      ih fun d hd => hds d (by simp [hd])]

theorem urltoid_symbols {ds : List Nat} (hds : ∀ d ∈ ds, d < 36) (hlen : ds.length + 1 < 2 ^ 32) :
    urltoid (49 :: ds.map symbol) = (UInt32.ofNat (Numeral.value 36 ds) - 56) >>> 1 := by
  have hlength : (UInt32.ofNat (49 :: ds.map symbol).length).toNat = (49 :: ds.map symbol).length :=
    UInt32.toNat_ofNat_of_lt (by simpa using hlen)
  have hzero : (0 : UInt32) = UInt32.ofNat 0 := rfl
  unfold urltoid
  dsimp only
  rw [hlength, List.take_length, List.drop_one, List.tail_cons, hzero, foldl_addDigit hds,
    ← Numeral.value]

theorem toNat_pow : (2 ^ 31 : UInt32).toNat = 2 ^ 31 := by decide

theorem double_half (id : UInt32) : (id * 2 + 56 - 56) >>> 1 = id % 2 ^ 31 := by
  apply UInt32.toNat.inj
  rw [UInt32.add_sub_cancel, UInt32.toNat_mod, toNat_pow]
  simp [Nat.shiftRight_eq_div_pow]
  omega

theorem urltoid_url (buf : Vector UInt8 64) (id : UInt32) :
    (url buf id).map urltoid = some (id % 2 ^ 31) := by
  have hlen : (numeral 36 (id * 2 + 56).toNat).length ≤ 7 :=
    length_numeral_le (by decide) (Nat.lt_trans (UInt32.toNat_lt _) (by decide))
  have hds : ∀ d ∈ numeral 36 (id * 2 + 56).toNat, d < 36 := fun d hd => lt_of_mem (by decide) hd
  rw [url_eq, Option.map_some, spelled, urltoid_symbols hds (by omega), value_numeral,
    UInt32.ofNat_toNat, double_half]

theorem mod_eq_iff (id id' : UInt32) : id % 2 ^ 31 = id' % 2 ^ 31 ↔ id * 2 = id' * 2 := by
  constructor
  · intro h
    apply UInt32.toNat.inj
    have hmod := congrArg UInt32.toNat h
    rw [UInt32.toNat_mod, UInt32.toNat_mod, toNat_pow] at hmod
    simp
    omega
  · intro h
    rw [← double_half, ← double_half, h]

theorem mod_eq_self_iff (id : UInt32) : id % 2 ^ 31 = id ↔ id < 2 ^ 31 := by
  rw [← UInt32.toNat_inj, UInt32.toNat_mod, UInt32.lt_iff_toNat_lt, toNat_pow]
  omega

/-- The id comes back if and only if its highest bit is clear, and ids that differ in that bit
only have the same string. -/
theorem shortId_codec_iff (buf buf' : Vector UInt8 64) (id id' : UInt32) :
    ((url buf id).map urltoid = some id ↔ id < 2 ^ 31) ∧
    (url buf id = url buf' id' ↔ id % 2 ^ 31 = id' % 2 ^ 31) := by
  constructor
  · rw [urltoid_url, Option.some_inj]
    exact mod_eq_self_iff id
  · constructor
    · intro h
      have hmap := congrArg (Option.map urltoid) h
      rw [urltoid_url, urltoid_url] at hmap
      exact Option.some.inj hmap
    · intro h
      rw [url_eq, url_eq, spelled, spelled, (mod_eq_iff id id').mp h]

/-- `0x80000000` becomes `11k`, and this is 0. -/
theorem shortId_highest : ¬ ∀ buf id, (url buf id).map urltoid = some id := by
  intro h
  have hid := h (Vector.replicate 64 0) 0x80000000
  rw [urltoid_url] at hid
  exact absurd (Option.some.inj hid) (by decide)

end LearningCode.ImPdu.ShortId
