import LearningCode.ImPdu.Bounds

/-!
# The body of an accepted unit

`IsPduAvailable` excludes a length that is larger than what is there, and zero.
`GetBodyLength` subtracts the size of the header whatever the length is.
-/

namespace LearningCode.ImPdu

open LearningCode.Blocks

variable {R : Realloc} {mem : List Byte} {len pduLen k : UInt32} {p : CImPdu}

structure BodyInside (p : CImPdu) : Prop where
  header : headerLen ≤ p.getLength
  body : headerLen.toNat + p.getBodyLength.toNat ≤ p.getLength.toNat
  stored : p.getLength.toNat ≤ (p.getBuffer.getD []).length

/-- `ReadPdu` stays inside the memory it has, and a unit it returns has its body inside. -/
def Accepts (R : Realloc) (mem : List Byte) (len : UInt32) : Prop :=
  ∃ r, (CImPdu.readPdu R (some mem) len).run = some r ∧
    ∀ p, r = .ok (some p) → BodyInside p

/-- There is no whole unit, its length is zero, or it has a header and can be stored. -/
def WellFormed (mem : List Byte) (len : UInt32) : Prop :=
  len < headerLen ∨ ∀ pduLen, readUint32 mem 0 = some pduLen →
    pduLen > len ∨ pduLen = 0 ∨ headerLen ≤ pduLen ∧ Roomy pduLen.toNat

-- ---------------------------------------------------------------------------
-- Storing the unit
-- ---------------------------------------------------------------------------

theorem getUint16_at (hmem : headerLen.toNat ≤ mem.length) (hk : k.toNat + 2 ≤ headerLen.toNat) :
    ∃ v, (⟨mem, headerLen, k⟩ : CByteStream).getUint16 = pure (v, ⟨mem, headerLen, k + 2⟩) := by
  obtain ⟨d, hread, hslice⟩ :=
    CByteStream.readByte_fits (s := ⟨mem, headerLen, k⟩) (n := 2) hmem hk
  obtain ⟨v, hv⟩ := readUint16_isSome (a := d) (i := 0)
    (CByteStream.length_of_slice hslice ▸ Nat.one_lt_two)
  exact ⟨v, by simp only [CByteStream.getUint16, hread, pure_bind, hv, Throws.lift_some]⟩

theorem readPduHeader_isSome (p : CImPdu) (hmem : headerLen.toNat ≤ mem.length) :
    ∃ g, p.readPduHeader mem headerLen = pure { p with pduHeader := g } := by
  obtain ⟨length, -, hlength⟩ :=
    CByteStream.getUint32_fits (s := ⟨mem, headerLen, 0⟩) hmem (by decide : 0 + 4 ≤ 16)
  obtain ⟨version, hversion⟩ := getUint16_at (k := 0 + 4) hmem (by decide)
  obtain ⟨flag, hflag⟩ := getUint16_at (k := 0 + 4 + 2) hmem (by decide)
  obtain ⟨serviceId, hserviceId⟩ := getUint16_at (k := 0 + 4 + 2 + 2) hmem (by decide)
  obtain ⟨commandId, hcommandId⟩ := getUint16_at (k := 0 + 4 + 2 + 2 + 2) hmem (by decide)
  obtain ⟨seqNum, hseqNum⟩ := getUint16_at (k := 0 + 4 + 2 + 2 + 2 + 2) hmem (by decide)
  obtain ⟨reversed, hreversed⟩ := getUint16_at (k := 0 + 4 + 2 + 2 + 2 + 2 + 2) hmem (by decide)
  refine ⟨⟨length, version, flag, serviceId, commandId, seqNum, reversed⟩, ?_⟩
  simp only [CImPdu.readPduHeader, ge_iff_le, UInt32.le_refl, if_true, hlength, pure_bind,
    CByteStream.new, hversion, hflag, hserviceId, hcommandId, hseqNum, hreversed]

/-- A quarter more than the length wraps around to less than the length. -/
theorem write_wraps (hroom : ¬Roomy pduLen.toNat) :
    (CImPdu.new 0).write R mem pduLen = none := by
  have hlt := pduLen.toNat_lt
  unfold Roomy at hroom
  let b := CSimpleBuffer.new.extend R pduLen
  have hsize : b.allocSize.toNat < pduLen.toNat := by
    have hzero : CSimpleBuffer.new.writeOffset.toNat = 0 := rfl
    simp only [b, CSimpleBuffer.allocSize_extend, hzero, Nat.zero_add, Nat.mod_eq_of_lt hlt]
    omega
  have hput : b.put mem pduLen = none := by
    have hmem : b.buffer = some (R.run [] b.allocSize.toNat) := rfl
    simp only [CSimpleBuffer.put, hmem, Option.bind_eq_bind, Option.bind_some]
    cases hsrc : slice mem 0 pduLen.toNat with
    | none => rfl
    | some src =>
      have hlen := CByteStream.length_of_slice hsrc
      have hnot : ¬0 + src.length ≤ (R.run [] b.allocSize.toNat).length := by
        rw [R.length_run, hlen]
        omega
      have hover : overwrite (R.run [] b.allocSize.toNat) b.writeOffset.toNat src = none :=
        if_neg hnot
      simp only [Option.bind_some, hover, Option.bind_none]
  have hover : (CImPdu.new 0).buf.writeOffset + pduLen > (CImPdu.new 0).buf.allocSize := by
    show 0 + pduLen > 0
    rw [UInt32.zero_add, gt_iff_lt, UInt32.lt_iff_toNat_lt]
    exact Nat.lt_of_le_of_lt (Nat.zero_le _) hsize
  have hwrite : (CImPdu.new 0).buf.write R (some mem) pduLen = none := by
    simp only [CSimpleBuffer.write, if_pos hover]
    exact congrArg (fun r => r >>= fun b => some (b.incWriteOffset pduLen)) hput
  simp only [CImPdu.write, hwrite]
  rfl

theorem readPdu_stored (hlen : ¬len < headerLen) (hmem : len.toNat ≤ mem.length)
    (hword : readUint32 mem 0 = some pduLen) (hle : ¬pduLen > len) (hpos : pduLen ≠ 0)
    (hroom : Roomy pduLen.toNat) : ∃ p, CImPdu.readPdu R (some mem) len = pure (some p) ∧
      p.buf.Holds (mem.take pduLen.toNat) ∧ p.getLength = pduLen := by
  have hheader : headerLen.toNat ≤ mem.length := by
    rw [UInt32.lt_iff_toNat_lt, Nat.not_lt] at hlen
    exact Nat.le_trans hlen hmem
  have hlong : pduLen.toNat ≤ mem.length := by
    rw [gt_iff_lt, UInt32.lt_iff_toNat_lt, Nat.not_lt] at hle
    exact Nat.le_trans hle hmem
  have h16 : 16 ≤ mem.length := hheader
  have htake : (mem.take pduLen.toNat).length = pduLen.toNat := by simpa using hlong
  have hpos' : 0 < pduLen.toNat := by
    refine Nat.pos_of_ne_zero fun h => hpos ?_
    exact UInt32.toNat_inj.mp h
  obtain ⟨c, hwrite, hc⟩ := CSimpleBuffer.Holds.new.write (R := R) (e := mem.drop pduLen.toNat)
    htake (by simpa using hroom) (.inr hpos')
  rw [List.take_append_drop] at hwrite
  obtain ⟨g, hread⟩ := readPduHeader_isSome { CImPdu.new 0 with buf := c } hheader
  obtain ⟨v, hv⟩ := readUint16_isSome (a := mem) (i := 8) (by omega)
  obtain ⟨w, hw⟩ := readUint16_isSome (a := mem) (i := 10) (by omega)
  have hstored : (CImPdu.new 0).write R mem pduLen = some { CImPdu.new 0 with buf := c } := by
    simp only [CImPdu.write]
    rw [show (CImPdu.new 0).buf = .new from rfl, hwrite]
    rfl
  refine ⟨{ CImPdu.new 0 with buf := c, pduHeader := g }, ?_, hc, ?_⟩
  · simp only [CImPdu.readPdu, CImPdu.isPduAvailable, if_neg hlen, if_neg hle, if_neg hpos, hword,
      Throws.lift_some, pure_bind, hv, hw, hstored, hread]
  · refine UInt32.toNat_inj.mp ?_
    exact hc.offset.trans htake

/-- A length below the size of the header wraps around in `GetBodyLength`. -/
theorem bodyInside_iff (hp : p.buf.Holds (mem.take pduLen.toNat)) (hlen : p.getLength = pduLen) :
    BodyInside p ↔ headerLen ≤ pduLen := by
  refine ⟨fun h => hlen ▸ h.header, fun h => ⟨hlen ▸ h, ?_, ?_⟩⟩
  · have hle : headerLen ≤ p.getLength := hlen ▸ h
    have hbody : p.getBodyLength.toNat = p.getLength.toNat - headerLen.toNat :=
      UInt32.toNat_sub_of_le _ _ hle
    rw [UInt32.le_iff_toNat_le] at hle
    omega
  · obtain ⟨⟨slack, hbuf, -⟩, hoff⟩ := hp
    have hlength : p.getLength.toNat = (mem.take pduLen.toNat).length := hoff
    have hbuffer : p.getBuffer.getD [] = mem.take pduLen.toNat ++ slack := hbuf
    rw [hbuffer, List.length_append, hlength]
    exact Nat.le_add_right ..

/-- For every buffer and every length up to its own. -/
theorem accepts_iff (R : Realloc) (mem : List Byte) (len : UInt32)
    (hmem : len.toNat ≤ mem.length) : Accepts R mem len ↔ WellFormed mem len := by
  by_cases hshort : len < headerLen
  · refine iff_of_true ⟨.ok none, ?_, by rintro _ ⟨⟩⟩ (.inl hshort)
    simp only [CImPdu.readPdu, CImPdu.isPduAvailable, if_pos hshort, pure_bind]
    rfl
  · have hheader : 16 ≤ mem.length := by
      rw [UInt32.lt_iff_toNat_lt, Nat.not_lt] at hshort
      exact Nat.le_trans hshort hmem
    obtain ⟨pduLen, hword⟩ := readUint32_isSome (a := mem) (i := 0) (by omega)
    have hwell : WellFormed mem len ↔
        pduLen > len ∨ pduLen = 0 ∨ headerLen ≤ pduLen ∧ Roomy pduLen.toNat := by
      refine ⟨fun h => h.resolve_left hshort _ hword, fun h => .inr fun n hn => ?_⟩
      rw [hword] at hn
      cases hn
      exact h
    rw [hwell]
    by_cases hover : pduLen > len
    · refine iff_of_true ⟨.ok none, ?_, by rintro _ ⟨⟩⟩ (.inl hover)
      simp only [CImPdu.readPdu, CImPdu.isPduAvailable, if_neg hshort, hword, Throws.lift_some,
        pure_bind, if_pos hover]
      rfl
    · by_cases hzero : pduLen = 0
      · refine iff_of_true ⟨.error (.new 1 "pdu_len is 0"), ?_, by rintro _ ⟨⟩⟩ (.inr (.inl hzero))
        simp only [CImPdu.readPdu, CImPdu.isPduAvailable, if_neg hshort, hword, Throws.lift_some,
          pure_bind, if_neg hover, if_pos hzero]
        rfl
      · rw [or_iff_right hover, or_iff_right hzero]
        by_cases hroom : Roomy pduLen.toNat
        · obtain ⟨p, hread, hholds, hlength⟩ :=
            readPdu_stored (R := R) hshort hmem hword hover hzero hroom
          rw [and_iff_left hroom, ← bodyInside_iff hholds hlength]
          constructor
          · rintro ⟨r, hrun, hok⟩
            rw [hread] at hrun
            cases hrun
            exact hok p rfl
          · intro hinside
            refine ⟨.ok (some p), by rw [hread]; rfl, ?_⟩
            rintro q ⟨⟩
            exact hinside
        · refine iff_of_false ?_ fun h => hroom h.2
          rintro ⟨r, hrun, -⟩
          obtain ⟨v, hv⟩ := readUint16_isSome (a := mem) (i := 8) (by omega)
          obtain ⟨w, hw⟩ := readUint16_isSome (a := mem) (i := 10) (by omega)
          simp only [CImPdu.readPdu, CImPdu.isPduAvailable, if_neg hshort, hword,
            Throws.lift_some, pure_bind, if_neg hover, if_neg hzero, hv, hw,
            write_wraps hroom] at hrun
          cases hrun

/-- A unit without a body is accepted, and its body is inside. -/
theorem accepts_iff_header :
    Accepts zeroed [0, 0, 0, 16, 0, 1, 0, 0, 0, 7, 0, 0, 0, 0, 0, 0] 16 := by
  refine (accepts_iff zeroed _ 16 (by decide)).mpr (.inr ?_)
  rintro pduLen ⟨⟩
  exact .inr (.inr ⟨by decide, by unfold Roomy; decide⟩)

/-- A length of eight is accepted, and leaves a body of `2 ^ 32 - 8` bytes. -/
theorem accepted_half_header :
    ¬Accepts zeroed [0, 0, 0, 8, 0, 0, 0, 0, 0, 0, 0, 0, 0, 0, 0, 0] 16 := by
  rintro ⟨r, hrun, hok⟩
  cases hrun
  exact absurd (hok _ rfl).header (by decide)

end LearningCode.ImPdu
