import Mathlib.Data.UInt

/-!
# Words written as bytes, most significant byte first

Arithmetic on `unsigned char` and on the 16-bit types is done in `int`:
`widen` and the conversions to `Int32` are that promotion, `narrow` is the cast
back to a byte. The equations are proved bit by bit.
-/

namespace LearningCode.BigEndian

variable {i n : Nat}

def widen (b : UInt8) : Int32 := b.toUInt32.toInt32

def narrow (x : Int32) : UInt8 := x.toUInt32.toUInt8

def join2 (b0 b1 : UInt8) : Int32 := widen b0 <<< 8 ||| widen b1

def join4 (b0 b1 b2 b3 : UInt8) : Int32 :=
  widen b0 <<< 24 ||| widen b1 <<< 16 ||| widen b2 <<< 8 ||| widen b3

def split2 (x : Int32) : List UInt8 := [narrow (x >>> 8), narrow (x &&& 0xFF)]

def split4 (x : Int32) : List UInt8 :=
  [narrow (x >>> 24), narrow ((x >>> 16) &&& 0xFF), narrow ((x >>> 8) &&& 0xFF),
    narrow (x &&& 0xFF)]

/-- The four bytes of an `unsigned int`, whose shifts bring in zeros. -/
def unsignedSplit4 (x : UInt32) : List UInt8 :=
  [(x >>> 24).toUInt8, ((x >>> 16) &&& 0xFF).toUInt8, ((x >>> 8) &&& 0xFF).toUInt8,
    (x &&& 0xFF).toUInt8]

@[simp] theorem length_split2 (x : Int32) : (split2 x).length = 2 := rfl

@[simp] theorem length_split4 (x : Int32) : (split4 x).length = 4 := rfl

@[simp] theorem length_unsignedSplit4 (x : UInt32) : (unsignedSplit4 x).length = 4 := rfl

-- --------------------------------------------------------------------------
-- Bits
-- --------------------------------------------------------------------------

def bit (x : Int32) (i : Nat) : Bool := x.toBitVec.getLsbD i

theorem eq_of_bit {x y : Int32} (h : ∀ i, i < 32 → bit x i = bit y i) : x = y := by
  apply Int32.toBitVec.inj
  apply BitVec.eq_of_getLsbD_eq
  exact h

theorem bit_widen (b : UInt8) : bit (widen b) i = b.toBitVec.getLsbD i := by
  have hwide : bit (widen b) i = (decide (i < 32) && b.toBitVec.getLsbD i) := by
    simp [bit, widen]
  cases hb : b.toBitVec.getLsbD i with
  | false => simp [hwide, hb]
  | true =>
    have hi := BitVec.lt_of_getLsbD hb
    simp only [hwide, hb, Bool.and_true, decide_eq_true_eq]
    exact Nat.lt_trans hi (by decide)

theorem bit_widen_narrow (x : Int32) : bit (widen (narrow x)) i = (decide (i < 8) && bit x i) := by
  have hnarrow : (narrow x).toBitVec = x.toBitVec.setWidth 8 := rfl
  rw [bit_widen, hnarrow, BitVec.getLsbD_setWidth]
  rfl

theorem bit_or (x y : Int32) : bit (x ||| y) i = (bit x i || bit y i) := by
  simp [bit]

theorem bit_mask (x : Int32) : bit (x &&& 0xFF) i = (bit x i && decide (i < 8)) := by
  have hmask : (255#32).getLsbD i = decide (i < 8) := by
    have hones : 255#32 = (BitVec.allOnes 8).setWidth 32 := by decide
    rw [hones, BitVec.getLsbD_setWidth, BitVec.getLsbD_allOnes]
    by_cases hi : i < 8
    · simp [hi, Nat.lt_trans hi (by decide : 8 < 32)]
    · simp [hi]
  simp [bit, hmask]

theorem bit_shiftLeft (x : Int32) {s : Int32} (hs : (s.toBitVec.smod 32#32).toNat = n) :
    bit (x <<< s) i = (decide (i < 32) && !decide (i < n) && bit x (i - n)) := by
  simp [bit, hs]

theorem bit_shiftRight (x : Int32) {s : Int32} (hs : (s.toBitVec.smod 32#32).toNat = n)
    (hi : n + i < 32) : bit (x >>> s) i = bit x (n + i) := by
  have hlt : i < 32 := Nat.lt_of_le_of_lt (Nat.le_add_left i n) hi
  have hshift : bit (x >>> s) i = (x.toBitVec.sshiftRight n).getLsbD i := by
    simp [bit, hs]
  rw [hshift, BitVec.getLsbD_sshiftRight]
  simp [bit, hlt, hi]

-- --------------------------------------------------------------------------
-- Joining what was split
-- --------------------------------------------------------------------------

theorem narrow_mask (x : Int32) : narrow (x &&& 0xFF) = narrow x := by
  apply UInt8.toBitVec_inj.mp
  apply BitVec.eq_of_getLsbD_eq
  intro i hi
  have hmask := bit_widen_narrow (i := i) (x &&& 0xFF)
  have hplain := bit_widen_narrow (i := i) x
  rw [bit_mask, bit_widen] at hmask
  rw [bit_widen] at hplain
  rw [hmask, hplain]
  simp [hi]

theorem bit_byte (x : Int32) {s : Int32} (hs : (s.toBitVec.smod 32#32).toNat = n) (hi : i < 32) :
    bit (widen (narrow (x >>> s)) <<< s) i = (decide (n ≤ i ∧ i < n + 8) && bit x i) := by
  rw [bit_shiftLeft _ hs, bit_widen_narrow]
  by_cases hle : n ≤ i
  · by_cases hlt : i < n + 8
    · have hback : n + (i - n) = i := Nat.add_sub_cancel' hle
      have hbyte : i - n < 8 := (Nat.sub_lt_iff_lt_add hle).mpr (by rwa [Nat.add_comm])
      rw [bit_shiftRight x hs (by rwa [hback]), hback]
      simp [hi, hle, hlt, hbyte]
    · have hbyte : ¬i - n < 8 := by
        intro hb
        exact hlt (Nat.add_comm n 8 ▸ (Nat.sub_lt_iff_lt_add hle).mp hb)
      simp [hbyte, hlt]
  · simp [hle]

theorem join4_narrow (x : Int32) :
    join4 (narrow (x >>> 24)) (narrow (x >>> 16)) (narrow (x >>> 8)) (narrow x) = x := by
  apply eq_of_bit
  intro i hi
  simp only [join4, bit_or, bit_byte x (s := 24) (n := 24) (by decide) hi,
    bit_byte x (s := 16) (n := 16) (by decide) hi, bit_byte x (s := 8) (n := 8) (by decide) hi,
    bit_widen_narrow]
  cases bit x i with
  | false => simp
  | true =>
    simp
    omega

theorem narrow_shiftRight (x : UInt32) {s : UInt32} (hs : (s.toBitVec % 32#32).toNat = n)
    (h : (s.toInt32.toBitVec.smod 32#32).toNat = n) (hn : n + 8 ≤ 32) :
    narrow (x.toInt32 >>> s.toInt32) = (x >>> s).toUInt8 := by
  apply UInt8.toBitVec_inj.mp
  apply BitVec.eq_of_getLsbD_eq
  intro i hi
  have hlt : n + i < 32 := Nat.lt_of_lt_of_le (Nat.add_lt_add_left hi n) hn
  rw [← bit_widen, bit_widen_narrow, bit_shiftRight _ h hlt]
  simp [bit, hs, hi]

/-- Read as `int`, an unsigned word has the bytes the unsigned shifts give. -/
theorem unsignedSplit4_eq (x : UInt32) : unsignedSplit4 x = split4 x.toInt32 := by
  have hmask (y : UInt32) : (y &&& 0xFF).toUInt8 = y.toUInt8 := narrow_mask y.toInt32
  have h24 := narrow_shiftRight x (s := 24) (n := 24) (by decide) (by decide) (by decide)
  have h16 := narrow_shiftRight x (s := 16) (n := 16) (by decide) (by decide) (by decide)
  have h8 := narrow_shiftRight x (s := 8) (n := 8) (by decide) (by decide) (by decide)
  simp only [unsignedSplit4, split4, narrow_mask, hmask, ← h24, ← h16, ← h8]
  rfl

theorem join4_split4 (x : Int32) {b0 b1 b2 b3 : UInt8} (h : split4 x = [b0, b1, b2, b3]) :
    join4 b0 b1 b2 b3 = x := by
  simp only [split4, narrow_mask, List.cons.injEq, and_true] at h
  obtain ⟨rfl, rfl, rfl, rfl⟩ := h
  exact join4_narrow x

theorem bit_join2_narrow (x : Int32) (hi : i < 16) :
    bit (join2 (narrow (x >>> 8)) (narrow (x &&& 0xFF))) i = bit x i := by
  have hlt : i < 32 := Nat.lt_trans hi (by decide)
  simp only [join2, bit_or, narrow_mask, bit_byte x (s := 8) (n := 8) (by decide) hlt,
    bit_widen_narrow]
  cases bit x i with
  | false => simp
  | true =>
    simp
    omega

theorem join2_split2 (x : Int32) {b0 b1 : UInt8} (h : split2 x = [b0, b1]) :
    (join2 b0 b1).toUInt32.toUInt16 = x.toUInt32.toUInt16 := by
  simp only [split2, List.cons.injEq, and_true] at h
  obtain ⟨rfl, rfl⟩ := h
  apply UInt16.toBitVec_inj.mp
  apply BitVec.eq_of_getLsbD_eq
  intro i hi
  simp only [UInt32.toBitVec_toUInt16, BitVec.getLsbD_setWidth]
  exact congrArg (decide (i < 16) && ·) (bit_join2_narrow x hi)

end LearningCode.BigEndian
