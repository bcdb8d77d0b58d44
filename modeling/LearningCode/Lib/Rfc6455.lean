import Mathlib.Data.UInt
import Mathlib.Data.List.Basic

/-!
# WebSocket frames

The base framing of RFC 6455 for a single frame: the two bytes of the header, the
length in the shortest of its three forms, the masking key if there is one, and
the payload. `decode` takes the whole of its input for the frame.
-/

namespace LearningCode.Rfc6455

structure Key where
  b0 : UInt8
  b1 : UInt8
  b2 : UInt8
  b3 : UInt8
  deriving DecidableEq

def Key.bytes (k : Key) : List UInt8 := [k.b0, k.b1, k.b2, k.b3]

def Key.at (k : Key) (i : Nat) : UInt8 :=
  match i % 4 with
  | 0 => k.b0
  | 1 => k.b1
  | 2 => k.b2
  | _ => k.b3

structure Frame where
  fin : Bool
  rsv : Nat
  opcode : Nat
  mask : Option Key
  payload : List UInt8
  deriving DecidableEq

/-- Masking, and unmasking. -/
def applyMask : Option Key → List UInt8 → List UInt8
  | none, l => l
  | some k, l => l.mapIdx fun i b => b ^^^ k.at i

@[simp] theorem length_applyMask (mask : Option Key) (l : List UInt8) :
    (applyMask mask l).length = l.length := by
  cases mask <;> simp [applyMask]

theorem applyMask_applyMask (mask : Option Key) (l : List UInt8) :
    applyMask mask (applyMask mask l) = l := by
  cases mask with
  | none => rfl
  | some k =>
    refine List.ext_getElem (by simp [applyMask]) fun i _ _ => ?_
    simp only [applyMask, List.getElem_mapIdx, UInt8.xor_assoc, UInt8.xor_self, UInt8.xor_zero]

-- ---------------------------------------------------------------------------
-- Network byte order
-- ---------------------------------------------------------------------------

def bytesOf : (k n : Nat) → List UInt8
  | 0, _ => []
  | k + 1, n => bytesOf k (n / 256) ++ [UInt8.ofNat n]

def valueOf (l : List UInt8) : Nat := l.foldl (fun n b => n * 256 + b.toNat) 0

@[simp] theorem length_bytesOf (k n : Nat) : (bytesOf k n).length = k := by
  induction k generalizing n with
  | zero => rfl
  | succ k ih => simp [bytesOf, ih]

theorem valueOf_bytesOf {k n : Nat} (h : n < 256 ^ k) : valueOf (bytesOf k n) = n := by
  induction k generalizing n with
  | zero =>
    have hn : n = 0 := by simpa using h
    simp [bytesOf, valueOf, hn]
  | succ k ih =>
    have hdiv : n / 256 < 256 ^ k := by
      rw [Nat.div_lt_iff_lt_mul (by decide)]
      rwa [← Nat.pow_succ]
    have hhead : (bytesOf k (n / 256)).foldl (fun n b => n * 256 + b.toNat) 0 = n / 256 := ih hdiv
    simp only [bytesOf, valueOf, List.foldl_append, hhead, List.foldl_cons, List.foldl_nil,
      UInt8.toNat_ofNat']
    exact Nat.div_add_mod' n 256

-- ---------------------------------------------------------------------------
-- Frames
-- ---------------------------------------------------------------------------

/-- The seven bits of the length, and what follows them. -/
def encodeLength (n : Nat) : Nat × List UInt8 :=
  if n < 126 then (n, [])
  else if n < 65536 then (126, bytesOf 2 n)
  else (127, bytesOf 8 n)

def encode (f : Frame) : List UInt8 :=
  UInt8.ofNat (f.fin.toNat * 128 + f.rsv * 16 + f.opcode) ::
    UInt8.ofNat (f.mask.isSome.toNat * 128 + (encodeLength f.payload.length).1) ::
      ((encodeLength f.payload.length).2 ++
        (f.mask.elim [] Key.bytes ++ applyMask f.mask f.payload))

/-- The length, which has to be in its shortest form, and the rest. -/
def decodeLength (n : Nat) (l : List UInt8) : Option (Nat × List UInt8) :=
  if n < 126 then some (n, l)
  else if n = 126 then
    if 2 ≤ l.length ∧ 126 ≤ valueOf (l.take 2) then some (valueOf (l.take 2), l.drop 2) else none
  else if 8 ≤ l.length ∧ 65536 ≤ valueOf (l.take 8) ∧ valueOf (l.take 8) < 2 ^ 63 then
    some (valueOf (l.take 8), l.drop 8)
  else none

def decodeMask : Bool → List UInt8 → Option (Option Key × List UInt8)
  | false, l => some (none, l)
  | true, b0 :: b1 :: b2 :: b3 :: l => some (some ⟨b0, b1, b2, b3⟩, l)
  | true, _ => none

def decode : List UInt8 → Option Frame
  | b0 :: b1 :: l => do
    let (n, l) ← decodeLength (b1.toNat % 128) l
    let (mask, l) ← decodeMask (128 ≤ b1.toNat) l
    if l.length = n then
      some ⟨128 ≤ b0.toNat, b0.toNat / 16 % 8, b0.toNat % 16, mask, applyMask mask l⟩
    else none
  | _ => none

structure Frame.Valid (f : Frame) : Prop where
  rsv : f.rsv < 8
  opcode : f.opcode < 16
  length : f.payload.length < 2 ^ 63

theorem encodeLength_short {n : Nat} (h : n < 126) : encodeLength n = (n, []) := if_pos h

theorem encodeLength_middle {n : Nat} (h : 126 ≤ n) (h' : n < 65536) :
    encodeLength n = (126, bytesOf 2 n) := by
  rw [encodeLength, if_neg (Nat.not_lt.mpr h), if_pos h']

theorem encodeLength_long {n : Nat} (h : 65536 ≤ n) : encodeLength n = (127, bytesOf 8 n) := by
  rw [encodeLength, if_neg (by omega), if_neg (Nat.not_lt.mpr h)]

theorem encodeLength_fst_lt (n : Nat) : (encodeLength n).1 < 128 := by
  unfold encodeLength
  split
  · next h => exact Nat.lt_trans h (by decide)
  · split
    · exact (by decide : 126 < 128)
    · exact (by decide : 127 < 128)

theorem decodeLength_encodeLength {n : Nat} (h : n < 2 ^ 63) (l : List UInt8) :
    decodeLength (encodeLength n).1 ((encodeLength n).2 ++ l) = some (n, l) := by
  unfold encodeLength
  split
  · next h7 => simp [decodeLength, h7]
  · next h7 =>
    have h7 : 126 ≤ n := Nat.not_lt.mp h7
    split
    · next h16 =>
      have hvalue : valueOf (bytesOf 2 n) = n := valueOf_bytesOf h16
      simp [decodeLength, List.take_left', List.drop_left', hvalue, h7]
    · next h16 =>
      have hvalue : valueOf (bytesOf 8 n) = n :=
        valueOf_bytesOf (Nat.lt_trans h (by decide))
      have h16 : 65536 ≤ n := Nat.not_lt.mp h16
      have h64 : n < 9223372036854775808 := h
      simp [decodeLength, List.take_left', List.drop_left', hvalue, h16, h64]

theorem decodeMask_bytes (mask : Option Key) (l : List UInt8) :
    decodeMask mask.isSome (mask.elim [] Key.bytes ++ l) = some (mask, l) := by
  cases mask <;> rfl

theorem decode_encode {f : Frame} (h : f.Valid) : decode (encode f) = some f := by
  obtain ⟨fin, rsv, opcode, mask, payload⟩ := f
  obtain ⟨hrsv, hopcode, hlength⟩ := h
  simp only at hrsv hopcode hlength
  have hfst := encodeLength_fst_lt payload.length
  have hb0 : (UInt8.ofNat (fin.toNat * 128 + rsv * 16 + opcode)).toNat =
      fin.toNat * 128 + rsv * 16 + opcode := by
    have hfin := fin.toNat_le
    rw [UInt8.toNat_ofNat', Nat.mod_eq_of_lt]
    omega
  have hb1 : (UInt8.ofNat (mask.isSome.toNat * 128 + (encodeLength payload.length).1)).toNat =
      mask.isSome.toNat * 128 + (encodeLength payload.length).1 := by
    have hmask := mask.isSome.toNat_le
    rw [UInt8.toNat_ofNat', Nat.mod_eq_of_lt]
    omega
  have hmod : (mask.isSome.toNat * 128 + (encodeLength payload.length).1) % 128 =
      (encodeLength payload.length).1 := by omega
  have hbit : decide (128 ≤ mask.isSome.toNat * 128 + (encodeLength payload.length).1) =
      mask.isSome := by
    cases mask.isSome
    · exact decide_eq_false (by simp; omega)
    · exact decide_eq_true (by simp)
  have hfin : decide (128 ≤ fin.toNat * 128 + rsv * 16 + opcode) = fin := by
    cases fin
    · exact decide_eq_false (by simp; omega)
    · exact decide_eq_true (by simp; omega)
  simp only [encode, decode, hb0, hb1, hmod, hbit, hfin, decodeLength_encodeLength hlength,
    decodeMask_bytes, Option.bind_eq_bind, Option.bind_some, length_applyMask, if_true,
    applyMask_applyMask]
  congr 2 <;> omega

theorem decode_long {b0 : UInt8} {l : List UInt8} {f : Frame}
    (h : decode (b0 :: 127 :: l) = some f) : l.length = f.payload.length + 8 := by
  have h127 : (127 : UInt8).toNat % 128 = 127 := rfl
  have hmask : decide (128 ≤ (127 : UInt8).toNat) = false := rfl
  simp only [decode, decodeLength, h127, hmask, decodeMask, Option.bind_eq_bind,
    Option.bind_eq_some_iff] at h
  obtain ⟨⟨n, l'⟩, hlength, ⟨mask, l''⟩, hdecode, hf⟩ := h
  cases hdecode
  obtain ⟨hn, hf⟩ := Option.ite_none_right_eq_some.mp hf
  cases hf
  obtain ⟨⟨h8, -, -⟩, hlength⟩ := Option.ite_none_right_eq_some.mp hlength
  cases hlength
  simp only [applyMask, List.length_drop]
  omega

end LearningCode.Rfc6455
