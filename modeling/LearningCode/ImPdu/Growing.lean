import LearningCode.ImPdu.Header

/-!
# Byte streams over a growing buffer

`_ReadByte` and `_WriteByte` with both of their back ends. A stream made of a
`CSimpleBuffer` has the length zero, and `_ReadByte` compares the position with it
whatever the back end is. Over a fixed buffer they are those of `CByteStream`.
-/

namespace LearningCode.ImPdu

open LearningCode.Blocks LearningCode.BigEndian

/-- `m_pSimpBuf` or `m_pBuf` is null. -/
structure Stream where
  simpBuf : Option CSimpleBuffer
  pBuf : Option (List Byte)
  len : UInt32
  pos : UInt32

namespace Stream

def fixed (buf : List Byte) (len : UInt32) : Stream := ⟨none, some buf, len, 0⟩

def growing (b : CSimpleBuffer) (pos : UInt32) : Stream := ⟨some b, none, 0, pos⟩

/-- `CSimpleBuffer::Read` may give fewer bytes than it was asked for. -/
def readByte (s : Stream) (len : UInt32) : Throws (List Byte × Stream) :=
  if s.pos + len > s.len then throw parseFailed
  else
    match s.simpBuf with
    | some b => do
      let (out, b) ← b.read len
      return (out, { s with simpBuf := some b, pos := s.pos + len })
    | none => do
      let out ← slice (← s.pBuf) s.pos.toNat len.toNat
      return (out, { s with pos := s.pos + len })

/-- Only a fixed buffer can be too short. -/
def writeByte (R : Realloc) (s : Stream) (data : List Byte) (len : UInt32) : Option Stream :=
  if s.pBuf.isSome ∧ s.pos + len > s.len then some s
  else
    match s.simpBuf with
    | some b => do
      let b ← b.write R (some data) len
      return { s with simpBuf := some b, pos := s.pos + len }
    | none => do
      let src ← slice data 0 len.toNat
      let buf ← overwrite (← s.pBuf) s.pos.toNat src
      return { s with pBuf := some buf, pos := s.pos + len }

end Stream

inductive Integer where
  | int8 (v : Int8) | uint8 (v : UInt8) | int16 (v : Int16) | uint16 (v : UInt16)
  | int32 (v : Int32) | uint32 (v : UInt32)
deriving DecidableEq

inductive IntType where
  | int8 | uint8 | int16 | uint16 | int32 | uint32

namespace Integer

def type : Integer → IntType
  | .int8 _ => .int8
  | .uint8 _ => .uint8
  | .int16 _ => .int16
  | .uint16 _ => .uint16
  | .int32 _ => .int32
  | .uint32 _ => .uint32

def bytes : Integer → List Byte
  | .int8 v => [v.toUInt8]
  | .uint8 v => [v]
  | .int16 v => split2 v.toInt32
  | .uint16 v => split2 v.toUInt32.toInt32
  | .int32 v => split4 v
  | .uint32 v => unsignedSplit4 v

end Integer

namespace IntType

def width : IntType → UInt32
  | .int8 | .uint8 => 1
  | .int16 | .uint16 => 2
  | .int32 | .uint32 => 4

def value (buf : List Byte) : IntType → Option Integer
  | .int8 => (readUint8 buf 0).map fun b => .int8 b.toInt8
  | .uint8 => (readUint8 buf 0).map .uint8
  | .int16 => (readInt16 buf 0).map .int16
  | .uint16 => (readUint16 buf 0).map .uint16
  | .int32 => (readInt32 buf 0).map .int32
  | .uint32 => (readUint32 buf 0).map .uint32

end IntType

namespace Stream

def put (R : Realloc) (s : Stream) (v : Integer) : Option Stream :=
  s.writeByte R v.bytes v.type.width

def get (s : Stream) (k : IntType) : Throws (Integer × Stream) := do
  let (buf, s) ← s.readByte k.width
  let v ← k.value buf
  return (v, s)

def putAll (R : Realloc) : List Integer → Stream → Option Stream
  | [], s => some s
  | v :: vs, s => do putAll R vs (← s.put R v)

def getAll : List IntType → Stream → Throws (List Integer × Stream)
  | [], s => return ([], s)
  | k :: ks, s => do
    let (v, s) ← s.get k
    let (vs, s) ← getAll ks s
    return (v :: vs, s)

def RoundTrips (R : Realloc) (b : CSimpleBuffer) (wpos rpos : UInt32) (vs : List Integer) : Prop :=
  ∃ w c r d, putAll R vs (.growing b wpos) = some w ∧ w.simpBuf = some c ∧
    (getAll (vs.map Integer.type) (.growing c rpos)).run = some (.ok (vs, r)) ∧
    r.simpBuf = some d ∧ d.writeOffset = 0

-- ---------------------------------------------------------------------------
-- The fixed buffer
-- ---------------------------------------------------------------------------

variable {R : Realloc} {s : Stream} {b : CSimpleBuffer} {v : Integer} {vs : List Integer}
  {k : IntType} {ks : List IntType} {pos wpos rpos : UInt32}

def ofFixed (s : CByteStream) : Stream := ⟨none, some s.buf, s.len, s.pos⟩

theorem ofFixed_new (buf : List Byte) (len : UInt32) : ofFixed (.new buf len) = fixed buf len := rfl

theorem readByte_ofFixed (s : CByteStream) (len : UInt32) :
    (ofFixed s).readByte len = (fun r => (r.1, ofFixed r.2)) <$> s.readByte len := by
  by_cases hover : s.pos + len > s.len
  · have hleft : (ofFixed s).readByte len = throw parseFailed := if_pos hover
    have hright : s.readByte len = throw parseFailed := if_pos hover
    rw [hleft, hright]
    rfl
  · have hleft : (ofFixed s).readByte len = (do
        let out ← slice s.buf s.pos.toNat len.toNat
        return (out, { ofFixed s with pos := s.pos + len })) := if_neg hover
    have hright : s.readByte len = (do
        let out ← slice s.buf s.pos.toNat len.toNat
        return (out, { s with pos := s.pos + len })) := if_neg hover
    rw [hleft, hright, map_bind]
    rfl

theorem writeByte_ofFixed (s : CByteStream) (data : List Byte) (len : UInt32) :
    (ofFixed s).writeByte R data len = (s.writeByte data len).map ofFixed := by
  unfold writeByte CByteStream.writeByte
  simp only [ofFixed, Option.isSome_some, true_and]
  split
  · rfl
  · cases slice data 0 len.toNat with
    | none => rfl
    | some src =>
      simp only [Option.bind_eq_bind, Option.bind_some]
      cases overwrite s.buf s.pos.toNat src with
      | none => rfl
      | some buf => rfl

-- ---------------------------------------------------------------------------
-- The growing buffer
-- ---------------------------------------------------------------------------

theorem length_bytes (v : Integer) : v.bytes.length = v.type.width.toNat := by
  cases v <;> rfl

theorem width_pos (k : IntType) : 0 < k.width.toNat := by
  cases k <;> decide

theorem value_bytes (v : Integer) : v.type.value v.bytes = some v := by
  cases v with
  | int8 v => rfl
  | uint8 v => rfl
  | int16 v =>
    have hread := readInt16_split (p := []) (q := []) v rfl
    exact congrArg (Option.map Integer.int16) (by simpa using hread)
  | uint16 v =>
    have hread := readUint16_split (p := []) (q := []) v rfl
    exact congrArg (Option.map Integer.uint16) (by simpa using hread)
  | int32 v =>
    have hread := readInt32_split (p := []) (q := []) v rfl
    exact congrArg (Option.map Integer.int32) (by simpa using hread)
  | uint32 v =>
    have hread := readUint32_split (p := []) (q := []) v rfl
    exact congrArg (Option.map Integer.uint32) (by simpa using hread)

/-- The position of the stream wraps around to the length, which is zero. -/
theorem over_iff (pos : UInt32) (k : IntType) :
    pos + k.width > 0 ↔ pos.toNat + k.width.toNat ≠ 2 ^ 32 := by
  have hpos := pos.toNat_lt
  have hwidth := width_pos k
  have hlt := k.width.toNat_lt
  rw [gt_iff_lt, UInt32.lt_iff_toNat_lt, UInt32.toNat_add, UInt32.toNat_zero]
  omega

theorem get_over (h : pos.toNat + k.width.toNat ≠ 2 ^ 32) :
    (growing b pos).get k = throw parseFailed := by
  have hover : (growing b pos).pos + k.width > (growing b pos).len := (over_iff pos k).mpr h
  simp only [get, readByte, if_pos hover]
  rfl

theorem get_wraps (h : pos.toNat + k.width.toNat = 2 ^ 32) (hb : b.Holds v.bytes)
    (hk : v.type = k) :
    ∃ c, (growing b pos).get k = pure (v, growing c 0) ∧ c.Holds [] := by
  subst hk
  have hover : ¬(growing b pos).pos + v.type.width > (growing b pos).len :=
    fun hgt => (over_iff pos v.type).mp hgt h
  have hall : b.Holds (v.bytes ++ []) := by rwa [List.append_nil]
  obtain ⟨c, hread, hc⟩ := hall.read (length_bytes v)
  have hpos : pos + v.type.width = 0 := by
    refine UInt32.toNat_inj.mp ?_
    rw [UInt32.toNat_add, h]
    rfl
  refine ⟨c, ?_, hc⟩
  simp only [get, readByte, if_neg hover]
  simp only [growing, hread, Throws.lift_some, pure_bind, value_bytes, hpos]

theorem get_ok {t : Stream} (h : ((growing b pos).get k).run = some (.ok (v, t))) :
    pos.toNat + k.width.toNat = 2 ^ 32 ∧ ∃ c, t = growing c 0 := by
  by_cases hwraps : pos.toNat + k.width.toNat = 2 ^ 32
  · refine ⟨hwraps, ?_⟩
    have hpos : pos + k.width = 0 := by
      refine UInt32.toNat_inj.mp ?_
      rw [UInt32.toNat_add, hwraps]
      rfl
    obtain ⟨⟨buf, u⟩, hread, h⟩ := Throws.bind_ok h
    obtain ⟨w, -, h⟩ := Throws.bind_ok h
    cases h
    have hover : ¬(growing b pos).pos + k.width > (growing b pos).len :=
      fun hgt => (over_iff pos k).mp hgt hwraps
    rw [readByte, if_neg hover] at hread
    obtain ⟨⟨out, c⟩, -, hread⟩ := Throws.bind_ok hread
    cases hread
    exact ⟨c, by simp [growing, hpos]⟩
  · rw [get_over hwraps] at h
    cases h

theorem getAll_ok {vs : List Integer} {r : Stream}
    (h : (getAll ks (growing b pos)).run = some (.ok (vs, r))) :
    ks = [] ∨ ∃ k, ks = [k] ∧ pos.toNat + k.width.toNat = 2 ^ 32 := by
  match ks, h with
  | [], _ => exact .inl rfl
  | [k], h =>
    obtain ⟨⟨v, t⟩, hget, -⟩ := Throws.bind_ok h
    exact .inr ⟨k, rfl, (get_ok hget).1⟩
  | k :: l :: ks, h =>
    obtain ⟨⟨v, t⟩, hget, h⟩ := Throws.bind_ok h
    obtain ⟨-, c, rfl⟩ := get_ok hget
    obtain ⟨⟨us, u⟩, hrest, -⟩ := Throws.bind_ok h
    obtain ⟨⟨w, u⟩, hnext, -⟩ := Throws.bind_ok hrest
    have hwidth := (get_ok hnext).1
    rw [UInt32.toNat_zero, Nat.zero_add] at hwidth
    exact absurd hwidth (Nat.ne_of_lt l.width.toNat_lt)

theorem put_spec (hb : b.Holds []) (wpos : UInt32) (v : Integer) : ∃ c,
    (growing b wpos).put R v = some (growing c (wpos + v.type.width)) ∧ c.Holds v.bytes := by
  have hroom : Roomy (([] : List Byte).length + v.type.width.toNat) := by
    unfold Roomy
    cases v.type <;> decide
  obtain ⟨c, hwrite, hc⟩ := hb.write (R := R) (e := []) (length_bytes v) hroom
    (.inr (width_pos v.type))
  rw [List.append_nil] at hwrite
  refine ⟨c, ?_, hc⟩
  simp only [put, writeByte, growing, Option.isSome_none, Bool.false_eq_true, false_and,
    if_false, hwrite, Option.bind_eq_bind, Option.bind_some, Option.pure_def]

/-- Nothing, or one value behind which the position of the reader is `2 ^ 32`. -/
theorem roundTrips_iff (R : Realloc) (b : CSimpleBuffer) (wpos rpos : UInt32) (vs : List Integer)
    (hb : b.Holds []) : RoundTrips R b wpos rpos vs ↔
      vs = [] ∨ ∃ v, vs = [v] ∧ rpos.toNat + v.type.width.toNat = 2 ^ 32 := by
  constructor
  · rintro ⟨w, c, r, d, -, -, hread, -, -⟩
    rcases getAll_ok hread with hnil | ⟨k, hone, hwraps⟩
    · exact .inl (List.map_eq_nil_iff.mp hnil)
    · obtain ⟨v, rfl, rfl⟩ := List.map_eq_singleton_iff.mp hone
      exact .inr ⟨v, rfl, hwraps⟩
  · rintro (rfl | ⟨v, rfl, hwraps⟩)
    · refine ⟨_, b, growing b rpos, b, rfl, rfl, rfl, rfl, ?_⟩
      exact UInt32.toNat_inj.mp hb.offset
    · obtain ⟨c, hput, hc⟩ := put_spec (R := R) hb wpos v
      obtain ⟨d, hget, hd⟩ := get_wraps hwraps hc rfl
      refine ⟨growing c (wpos + v.type.width), c, growing d 0, d, ?_, rfl, ?_, rfl,
        UInt32.toNat_inj.mp hd.offset⟩
      · simp only [putAll, hput, Option.bind_eq_bind, Option.bind_some]
      · simp only [List.map_cons, List.map_nil, getAll, hget, pure_bind]
        rfl

/-- A byte, read at the last position there is. -/
theorem roundTrips_last :
    RoundTrips zeroed .new 0 (2 ^ 32 - 1) [.uint8 7] :=
  (roundTrips_iff zeroed .new 0 (2 ^ 32 - 1) _ CSimpleBuffer.Holds.new).mpr
    (.inr ⟨.uint8 7, rfl, by decide⟩)

/-- A byte, written and read from the start. -/
theorem byte_not_read : ¬RoundTrips zeroed .new 0 0 [.uint8 7] := by
  rintro ⟨w, c, r, d, hput, hc, hread, -⟩
  cases hput
  cases hc
  cases hread

end Stream

end LearningCode.ImPdu
