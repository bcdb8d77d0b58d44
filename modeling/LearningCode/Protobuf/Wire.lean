import LearningCode.Protobuf.Model

/-!
# The inline functions

What the headers' own functions do, on numbers in their encoding and, for what
a parser must not assume, on any bytes.
-/

namespace LearningCode.Protobuf

open Varint (encode)

variable {rt : Runtime} {cutoff tag : UInt32} {v n : Nat} {e : Bool} {rest : List UInt8}
  {s : CodedInputStream}

-- ---------------------------------------------------------------------------
-- Writing
-- ---------------------------------------------------------------------------

theorem or_top (v : Nat) : (v ||| 128) % 256 = 128 + v % 128 := by
  have hor : (v % 128) ||| 128 = 128 + v % 128 := by
    rw [Nat.or_comm]
    exact (Nat.two_pow_add_eq_or_of_lt (i := 7) (Nat.mod_lt v (by decide)) 1).symm
  rw [← hor]
  apply Nat.eq_of_testBit_eq
  intro i
  rw [show (256 : Nat) = 2 ^ 8 from rfl, show v % 128 = v % 2 ^ 7 from rfl, Nat.testBit_mod_two_pow,
    Nat.testBit_or, Nat.testBit_or, Nat.testBit_mod_two_pow,
    show (128 : Nat) = 2 ^ 7 from rfl, Nat.testBit_two_pow]
  rcases Nat.lt_trichotomy i 7 with hi | rfl | hi
  · simp [hi, Nat.lt_succ_of_lt hi]
  · simp
  · simp [Nat.not_lt.mpr (Nat.le_of_lt hi), Nat.not_lt.mpr hi, Nat.ne_of_lt hi]

theorem writeVarint32ToArray_eq (value : UInt32) :
    writeVarint32ToArray value = encode value.toNat := by
  induction value using writeVarint32ToArray.induct with
  | case1 value hlarge ih =>
    have hle : 128 ≤ value.toNat := UInt32.le_iff_toNat_le.mp hlarge
    have hrest : (value >>> 7).toNat = value.toNat / 128 := by
      simp [UInt32.toNat_shiftRight, Nat.shiftRight_eq_div_pow]
    have hbyte : (value ||| 0x80).toUInt8 = UInt8.ofNat (128 + value.toNat % 128) := by
      apply UInt8.toNat_inj.mp
      rw [Varint.toNat_continued, UInt32.toNat_toUInt8, UInt32.toNat_or]
      exact or_top _
    rw [writeVarint32ToArray, if_pos hlarge, ih, hrest, hbyte, Varint.encode_large hle]
  | case2 value hsmall =>
    have hlt : value.toNat < 128 := Nat.lt_of_not_le fun h => hsmall (UInt32.le_iff_toNat_le.mpr h)
    rw [writeVarint32ToArray, if_neg hsmall, Varint.encode_small hlt]
    rfl

theorem writeVarint64ToArray_eq (value : UInt64) :
    writeVarint64ToArray value = encode value.toNat := by
  induction value using writeVarint64ToArray.induct with
  | case1 value hlarge ih =>
    have hle : 128 ≤ value.toNat := UInt64.le_iff_toNat_le.mp hlarge
    have hrest : (value >>> 7).toNat = value.toNat / 128 := by
      simp [UInt64.toNat_shiftRight, Nat.shiftRight_eq_div_pow]
    have hbyte : (value ||| 0x80).toUInt8 = UInt8.ofNat (128 + value.toNat % 128) := by
      apply UInt8.toNat_inj.mp
      rw [Varint.toNat_continued, UInt64.toNat_toUInt8, UInt64.toNat_or]
      exact or_top _
    rw [writeVarint64ToArray, if_pos hlarge, ih, hrest, hbyte, Varint.encode_large hle]
  | case2 value hsmall =>
    have hlt : value.toNat < 128 := Nat.lt_of_not_le fun h => hsmall (UInt64.le_iff_toNat_le.mpr h)
    rw [writeVarint64ToArray, if_neg hsmall, Varint.encode_small hlt]
    rfl

/-- The multiplication stands for a division by seven. -/
theorem size_of_log (h : n < 64) : (n * 9 + 73) / 64 = n / 7 + 1 := by
  omega

theorem log_or_one (v : Nat) : Nat.log 2 (v ||| 1) = Nat.log 2 v := by
  have hhalf : (v ||| 1) / 2 = v / 2 := by
    rw [Nat.or_div_two]
    exact Nat.or_zero _
  rcases Nat.lt_or_ge v 2 with hv | hv
  · obtain rfl | rfl : v = 0 ∨ v = 1 := by omega
    · simp
    · rfl
  · have hor : 2 ≤ v ||| 1 := hv.trans Nat.left_le_or
    rw [Nat.log_of_one_lt_of_le (by decide) hor, Nat.log_of_one_lt_of_le (by decide) hv, hhalf]

theorem varintSize32_eq (value : UInt32) :
    varintSize32 value = (encode value.toNat).length := by
  have hlog : Nat.log2 (value ||| 0x1).toNat = Nat.log 2 value.toNat := by
    rw [Nat.log2_eq_log_two, UInt32.toNat_or]
    exact log_or_one _
  have hlt : Nat.log 2 value.toNat < 64 :=
    Nat.log_lt_of_lt_pow' (by decide) (value.toNat_lt.trans (by decide))
  rw [varintSize32, hlog, size_of_log hlt, Varint.length_encode]

theorem toNat_signExtended (value : Int32) : value.toInt64.toUInt64.toNat =
    value.toUInt32.toNat + if value < 0 then 2 ^ 64 - 2 ^ 32 else 0 := by
  have hneg : value.toBitVec.msb = decide (value < 0) := by
    rw [BitVec.msb_eq_toInt, decide_eq_decide, Int32.lt_iff_toInt_lt]
    rfl
  have hw : value.toBitVec.toNat % 2 ^ 64 = value.toBitVec.toNat :=
    Nat.mod_eq_of_lt (value.toBitVec.isLt.trans (by decide))
  have hext := BitVec.toNat_signExtend value.toBitVec (v := 64)
  rw [BitVec.toNat_setWidth, hneg, hw] at hext
  simp only [decide_eq_true_eq] at hext
  exact hext

theorem signExtended_lt (value : Int32) : value.toInt64.toUInt64.toNat < 2 ^ 64 :=
  value.toInt64.toUInt64.toNat_lt

theorem signExtended_mod (value : Int32) :
    value.toInt64.toUInt64.toNat % 2 ^ 32 = value.toUInt32.toNat := by
  have hlt := value.toUInt32.toNat_lt
  rw [toNat_signExtended]
  split <;> omega

theorem varintSize32SignExtended_eq (value : Int32) :
    varintSize32SignExtended value = (encode value.toInt64.toUInt64.toNat).length := by
  have hext := toNat_signExtended value
  rw [varintSize32SignExtended]
  split
  case isTrue h =>
    rw [if_pos h] at hext
    have hlog : Nat.log 2 value.toInt64.toUInt64.toNat = 63 :=
      Nat.log_eq_of_pow_le_of_lt_pow (by omega) (signExtended_lt value)
    rw [Varint.length_encode, hlog]
  case isFalse h =>
    rw [if_neg h, Nat.add_zero] at hext
    rw [hext, varintSize32_eq]

-- ---------------------------------------------------------------------------
-- Reading
-- ---------------------------------------------------------------------------

theorem result_nonneg (h : n < 2 ^ 32) : 0 ≤ Int64.ofNat n := by
  rw [Int64.le_iff_toInt_le, Int64.toInt_ofNat_of_lt (h.trans (by decide))]
  exact Int.natCast_nonneg n

theorem result_value (h : n < 2 ^ 32) : (Int64.ofNat n).toUInt64.toUInt32 = UInt32.ofNat n := by
  apply UInt32.toNat_inj.mp
  rw [Int64.toUInt64_ofNat', UInt64.toNat_toUInt32,
    UInt64.toNat_ofNat_of_lt' (h.trans (by decide)), UInt32.toNat_ofNat_of_lt' h,
    Nat.mod_eq_of_lt h]

theorem firstByteOrZero_encode (h : 128 ≤ v) :
    firstByteOrZero (encode v ++ rest) = firstByteOrZero (encode v) := by
  rw [Varint.encode_large h]
  rfl

theorem byte_toUInt32 (h : v < 128) : (UInt8.ofNat v).toUInt32 = UInt32.ofNat v := by
  apply UInt32.toNat_inj.mp
  rw [UInt8.toNat_toUInt32, UInt8.toNat_ofNat_of_lt' (h.trans (by decide)),
    UInt32.toNat_ofNat_of_lt' (h.trans (by decide))]

theorem readVarint32_length (hrt : rt.Documented) :
    (readVarint32 rt s).2.2.buffer.length ≤ s.buffer.length := by
  have hslow : (readVarint32Slow rt s).2.2.buffer.length ≤ s.buffer.length :=
    hrt.readVarint32_length _ s
  rw [readVarint32]
  split
  case h_1 => exact hslow
  case h_2 v rest hs =>
    split
    · rw [hs]
      exact Nat.le_succ _
    · exact hslow

theorem readVarint32_encode (hrt : rt.Documented) (hv : v < 2 ^ 64) :
    readVarint32 rt ⟨encode v ++ rest, e⟩ = (true, UInt32.ofNat (v % 2 ^ 32), ⟨rest, e⟩) := by
  rcases Nat.lt_or_ge v 128 with h | h
  · have hmod : v % 2 ^ 32 = v := Nat.mod_eq_of_lt (h.trans (by decide))
    rw [Varint.encode_small h, List.singleton_append, readVarint32, hmod, ← byte_toUInt32 h]
    exact if_pos (Varint.last_lt h)
  · have hlt : v % 2 ^ 32 < 2 ^ 32 := Nat.mod_lt _ (by decide)
    have hslow : readVarint32Slow rt ⟨encode v ++ rest, e⟩ =
        (true, UInt32.ofNat (v % 2 ^ 32), ⟨rest, e⟩) := by
      rw [readVarint32Slow, firstByteOrZero_encode h, hrt.readVarint32 v rest e h hv]
      simp only [result_nonneg hlt, result_value hlt, decide_true]
    rw [Varint.encode_large h, List.cons_append] at hslow ⊢
    rw [readVarint32]
    exact (if_neg Varint.continued_not_lt).trans hslow

theorem toInt8_pos (b : UInt8) : 0 < b.toInt8 ↔ 0 < b.toNat ∧ b.toNat < 128 := by
  have hlt := b.toNat_lt
  have hint : b.toInt8.toInt = if 2 * b.toNat < 256 then (b.toNat : Int) else b.toNat - 256 :=
    BitVec.toInt_eq_toNat_cond b.toBitVec
  rw [Int8.lt_iff_toInt_lt, hint, Int8.toInt_zero]
  split <;> omega

theorem testBit_top (h : n < 256) : n.testBit 7 = true ↔ 128 ≤ n := by
  rw [Nat.testBit_eq_decide_div_mod_eq, decide_eq_true_eq]
  omega

theorem two_bytes (b c : UInt8) : 0x80 ≤ b &&& ~~~c ↔ 128 ≤ b.toNat ∧ c.toNat < 128 := by
  have hc := c.toNat_lt
  have hnot : (~~~c).toNat = 255 - c.toNat := by
    rw [UInt8.toNat_not]
    rfl
  rw [UInt8.le_iff_toNat_le]
  refine (testBit_top (b &&& ~~~c).toNat_lt).symm.trans ?_
  rw [UInt8.toNat_and, Nat.testBit_and, Bool.and_eq_true, testBit_top b.toNat_lt,
    testBit_top (~~~c).toNat_lt, hnot]
  omega

variable (cutoff rest) in
theorem readTagSlow_encode (hrt : rt.Documented) (hlarge : 128 ≤ v) (hv : v < 2 ^ 32) :
    readTagSlow rt cutoff ⟨encode v ++ rest, e⟩ =
      (UInt32.ofNat v, decide (v ≤ cutoff.toNat), ⟨rest, e⟩) := by
  have hpred : (UInt32.ofNat v - 1).toNat = v - 1 := by
    rw [UInt32.toNat_sub_of_le _ _ (UInt32.le_iff_toNat_le.mpr ?_), UInt32.toNat_ofNat_of_lt' hv]
    · rfl
    · rw [UInt32.toNat_ofNat_of_lt' hv]
      exact Nat.le_trans (by decide) hlarge
  have hcut : UInt32.ofNat v - 1 < cutoff ↔ v ≤ cutoff.toNat := by
    rw [UInt32.lt_iff_toNat_lt, hpred]
    omega
  rw [readTagSlow, firstByteOrZero_encode hlarge, hrt.readTag v rest e hlarge hv]
  simp only [hcut]

theorem readTag_small {b : UInt8} (hpos : 0 < b.toNat) (hsmall : b.toNat < 128) :
    readTagWithCutoffNoLastTag rt cutoff ⟨b :: rest, e⟩ =
      (b.toUInt32, decide (0x7f ≤ cutoff ∨ b.toUInt32 ≤ cutoff), ⟨rest, e⟩) := by
  rw [readTagWithCutoffNoLastTag]
  exact if_pos ((toInt8_pos b).mpr ⟨hpos, hsmall⟩)

theorem two_byte_tag {b c : UInt8} (hlarge : 128 ≤ b.toNat) :
    ((1 : UInt32) <<< 7) * c.toUInt32 + (b.toUInt32 - 0x80) =
      UInt32.ofNat (b.toNat % 128 + 128 * c.toNat) := by
  have hb := b.toNat_lt
  have hsub : (b.toUInt32 - 0x80).toNat = b.toNat % 128 := by
    have hle : 0x80 ≤ b.toUInt32 := UInt32.le_iff_toNat_le.mpr hlarge
    rw [UInt32.toNat_sub_of_le _ _ hle, UInt8.toNat_toUInt32]
    change b.toNat - 128 = b.toNat % 128
    omega
  rw [Nat.add_comm (b.toNat % 128), ← hsub, UInt32.ofNat_add, UInt32.ofNat_mul,
    UInt32.ofNat_toNat, ← UInt8.toNat_toUInt32, UInt32.ofNat_toNat]
  rfl

theorem readTag_continued {b c : UInt8} (hneg : ¬ 0 < b.toInt8) :
    readTagWithCutoffNoLastTag rt cutoff ⟨b :: c :: rest, e⟩ =
      if 0x80 ≤ cutoff ∧ 128 ≤ b.toNat ∧ c.toNat < 128 then
        (UInt32.ofNat (b.toNat % 128 + 128 * c.toNat),
          decide (((0x7f : UInt32) <<< 7) + 0x7f ≤ cutoff ∨
            UInt32.ofNat (b.toNat % 128 + 128 * c.toNat) ≤ cutoff), ⟨rest, e⟩)
      else readTagSlow rt cutoff ⟨b :: c :: rest, e⟩ := by
  rw [readTagWithCutoffNoLastTag]
  refine (if_neg hneg).trans ?_
  simp only [two_bytes]
  split
  · rename_i htwo
    rw [two_byte_tag htwo.2.1]
  · rfl

theorem not_pos_of_large {b : UInt8} (h : 128 ≤ b.toNat) : ¬ 0 < b.toInt8 := fun hpos =>
  Nat.not_lt.mpr h ((toInt8_pos b).mp hpos).2

/-- A cutoff at the top of what a path can read needs no second test. -/
theorem cutoff_test {top : UInt32} (h : tag ≤ top) : (top ≤ cutoff ∨ tag ≤ cutoff) ↔ tag ≤ cutoff :=
  or_iff_right_of_imp (UInt32.le_trans h)

theorem ofNat_le (hv : v < 2 ^ 32) : UInt32.ofNat v ≤ tag ↔ v ≤ tag.toNat := by
  rw [UInt32.le_iff_toNat_le, UInt32.toNat_ofNat_of_lt' hv]

theorem cutoff_test_ofNat {k : UInt32} (hv : v < 2 ^ 32) (h : v ≤ k.toNat) :
    (k ≤ cutoff ∨ UInt32.ofNat v ≤ cutoff) ↔ v ≤ cutoff.toNat :=
  (cutoff_test ((ofNat_le hv).mpr h)).trans (ofNat_le hv)

variable (cutoff rest) in
theorem readTag_encode (hrt : rt.Documented) (hpos : 0 < v) (hv : v < 2 ^ 32) :
    readTagWithCutoffNoLastTag rt cutoff ⟨encode v ++ rest, e⟩ =
      (UInt32.ofNat v, decide (v ≤ cutoff.toNat), ⟨rest, e⟩) := by
  rcases Nat.lt_or_ge v 128 with h | h
  · have hbyte : (UInt8.ofNat v).toNat = v := UInt8.toNat_ofNat_of_lt' (h.trans (by decide))
    rw [Varint.encode_small h, List.singleton_append,
      readTag_small (hbyte.symm ▸ hpos) (hbyte.symm ▸ h), byte_toUInt32 h]
    simp only [cutoff_test_ofNat (k := 0x7f) hv (Nat.le_of_lt_succ h)]
  · have hslow := readTagSlow_encode cutoff rest (e := e) hrt h hv
    have hlarge : 128 ≤ (UInt8.ofNat (128 + v % 128)).toNat := by
      rw [Varint.toNat_continued]
      exact Nat.le_add_right _ _
    rcases Nat.lt_or_ge v 16384 with htwo | htwo
    · have hhigh : v / 128 < 128 := Nat.div_lt_of_lt_mul htwo
      have htop : v ≤ (((0x7f : UInt32) <<< 7) + 0x7f).toNat := Nat.le_of_lt_succ htwo
      have htag : (UInt8.ofNat (128 + v % 128)).toNat % 128 + 128 * (UInt8.ofNat (v / 128)).toNat =
          v := by
        rw [Varint.toNat_continued, UInt8.toNat_ofNat_of_lt' (hhigh.trans (by decide)),
          Nat.add_mod_left, Nat.mod_mod, Nat.mod_add_div]
      rw [Varint.encode_large h, Varint.encode_small hhigh] at hslow ⊢
      simp only [List.cons_append, List.nil_append] at hslow ⊢
      rw [readTag_continued (not_pos_of_large hlarge), htag]
      split
      · simp only [cutoff_test_ofNat hv htop]
      · exact hslow
    · have hhigh : 128 ≤ v / 128 := (Nat.le_div_iff_mul_le (by decide)).mpr htwo
      have hbyte : ¬ (UInt8.ofNat (128 + v / 128 % 128)).toNat < 128 := by
        rw [Varint.toNat_continued]
        exact Nat.not_lt.mpr (Nat.le_add_right _ _)
      rw [Varint.encode_large h, Varint.encode_large hhigh] at hslow ⊢
      simp only [List.cons_append] at hslow ⊢
      rw [readTag_continued (not_pos_of_large hlarge), if_neg fun hc => hbyte hc.2.2]
      exact hslow

variable (cutoff) in
theorem readTag_end (hrt : rt.Documented) :
    ∃ known, readTagWithCutoffNoLastTag rt cutoff ⟨[], e⟩ = (0, known, ⟨[], true⟩) := by
  refine ⟨decide ((0 : UInt32) - 1 < cutoff), ?_⟩
  rw [readTagWithCutoffNoLastTag, readTagSlow]
  simp only [firstByteOrZero, hrt.readTag_end]

theorem known_slow (hne : tag ≠ 0) : tag - 1 < cutoff ↔ tag ≤ cutoff := by
  have hpos : 0 < tag.toNat := Nat.pos_of_ne_zero fun h => hne (UInt32.toNat_inj.mp h)
  have hpred : (tag - 1).toNat = tag.toNat - 1 :=
    UInt32.toNat_sub_of_le _ _ (UInt32.le_iff_toNat_le.mpr hpos)
  rw [UInt32.lt_iff_toNat_lt, UInt32.le_iff_toNat_le, hpred]
  omega

section
variable {known : Bool} {s' : CodedInputStream}

theorem readTagSlow_any (hrt : rt.Documented) (h : readTagSlow rt cutoff s = (tag, known, s'))
    (hne : tag ≠ 0) :
    known = decide (tag ≤ cutoff) ∧ s'.buffer.length < s.buffer.length := by
  rw [readTagSlow, Prod.mk.injEq, Prod.mk.injEq] at h
  obtain ⟨rfl, rfl, rfl⟩ := h
  exact ⟨decide_eq_decide.mpr (known_slow hne), hrt.readTag_length _ _ hne⟩

theorem readTag_any (hrt : rt.Documented)
    (h : readTagWithCutoffNoLastTag rt cutoff s = (tag, known, s')) (hne : tag ≠ 0) :
    known = decide (tag ≤ cutoff) ∧ s'.buffer.length < s.buffer.length := by
  obtain ⟨buffer, e⟩ := s
  rcases buffer with _ | ⟨b, rest⟩
  · exact readTagSlow_any hrt h hne
  rcases Decidable.em (0 < b.toInt8) with hpos | hneg
  · obtain ⟨h0, hsmall⟩ := (toInt8_pos b).mp hpos
    have htop : b.toUInt32 ≤ 0x7f := UInt32.le_iff_toNat_le.mpr (Nat.le_of_lt_succ hsmall)
    rw [readTag_small h0 hsmall, Prod.mk.injEq, Prod.mk.injEq] at h
    obtain ⟨rfl, rfl, rfl⟩ := h
    exact ⟨decide_eq_decide.mpr (cutoff_test htop), Nat.lt_succ_self _⟩
  rcases rest with _ | ⟨c, rest⟩
  · rw [readTagWithCutoffNoLastTag] at h
    exact readTagSlow_any hrt ((if_neg hneg).symm.trans h) hne
  have hc := c.toNat_lt
  rw [readTag_continued hneg] at h
  split at h
  · rename_i htwo
    have htop : UInt32.ofNat (b.toNat % 128 + 128 * c.toNat) ≤ ((0x7f : UInt32) <<< 7) + 0x7f := by
      rw [ofNat_le (by omega)]
      change b.toNat % 128 + 128 * c.toNat ≤ 16383
      omega
    rw [Prod.mk.injEq, Prod.mk.injEq] at h
    obtain ⟨rfl, rfl, rfl⟩ := h
    exact ⟨decide_eq_decide.mpr (cutoff_test htop), Nat.lt_succ_of_lt (Nat.lt_succ_self _)⟩
  · exact readTagSlow_any hrt h hne

end

end LearningCode.Protobuf
