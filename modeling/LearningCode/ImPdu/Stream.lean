import LearningCode.ImPdu.Model

/-!
# What a byte stream holds

One lemma for each way of writing and reading, said for a buffer cut at the
position of the stream; from them the round trip of a list of typed values.
-/

namespace LearningCode.ImPdu

open LearningCode.Blocks LearningCode.BigEndian

variable {s : CByteStream} {p m q d : List Byte} {n v : UInt32}
  {i : Nat}

-- --------------------------------------------------------------------------
-- Words in memory
-- --------------------------------------------------------------------------

theorem readInt16_split (v : Int16) (hi : i = p.length) :
    readInt16 (p ++ (split2 v.toInt32 ++ q)) i = some v := by
  subst hi
  have hlow (x : Int32) : x.toInt16 = x.toUInt32.toUInt16.toInt16 := by
    apply Int16.toBitVec.inj
    rw [Int32.toBitVec_toInt16, BitVec.signExtend_eq_setWidth_of_le _ (by decide)]
    rfl
  have hjoin := congrArg UInt16.toInt16 (join2_split2 v.toInt32 rfl)
  rw [← hlow, ← hlow] at hjoin
  simp only [readInt16, split2]
  simpa using hjoin

theorem readUint16_split (v : UInt16) (hi : i = p.length) :
    readUint16 (p ++ (split2 v.toUInt32.toInt32 ++ q)) i = some v := by
  subst hi
  have hjoin := join2_split2 v.toUInt32.toInt32 rfl
  simp only [readUint16, split2]
  simpa using hjoin

theorem readInt32_split (v : Int32) (hi : i = p.length) :
    readInt32 (p ++ (split4 v ++ q)) i = some v := by
  subst hi
  have hjoin := join4_split4 v rfl
  simp only [readInt32, split4]
  simpa using hjoin

theorem readUint32_split (v : UInt32) (hi : i = p.length) :
    readUint32 (p ++ (unsignedSplit4 v ++ q)) i = some v := by
  subst hi
  have hjoin := join4_split4 v.toInt32 rfl
  simp only [readUint32, unsignedSplit4_eq, split4]
  simpa using congrArg Int32.toUInt32 hjoin

structure CByteStream.At (s : CByteStream) (p q : List Byte) : Prop where
  buf : ∃ beyond, s.buf = p ++ (q ++ beyond)
  pos : s.pos.toNat = p.length
  len : s.len.toNat = p.length + q.length

namespace CByteStream.At

theorem new (h : n.toNat = q.length) : (CByteStream.new (q ++ m) n).At [] q :=
  ⟨⟨m, rfl⟩, rfl, by simp [CByteStream.new, h]⟩

theorem fits (h : s.At p (d ++ q)) (hlen : n.toNat = d.length) :
    ¬s.pos + n > s.len ∧ (s.pos + n).toNat = (p ++ d).length := by
  have hsize := s.len.toNat_lt
  have hwhole := h.len
  rw [List.length_append] at hwhole
  have hadd : (s.pos + n).toNat = (p ++ d).length := by
    rw [UInt32.toNat_add, h.pos, hlen, List.length_append]
    apply Nat.mod_eq_of_lt
    omega
  refine ⟨?_, hadd⟩
  rw [gt_iff_lt, UInt32.lt_iff_toNat_lt, hwhole, hadd, List.length_append]
  omega

theorem move (h : s.At p (d ++ q)) (hlen : n.toNat = d.length) :
    { s with pos := s.pos + n }.At (p ++ d) q := by
  obtain ⟨beyond, hbuf⟩ := h.buf
  refine ⟨⟨beyond, by simp [hbuf]⟩, (h.fits hlen).2, ?_⟩
  rw [h.len, List.length_append, List.length_append, Nat.add_assoc]

theorem writeByte (h : s.At p (m ++ q)) (hd : d.length = m.length) (hlen : n.toNat = d.length)
    (more : List Byte) : ∃ t, s.writeByte (d ++ more) n = some t ∧ t.At (p ++ d) q := by
  obtain ⟨hfits, hpos⟩ := h.fits (hlen.trans hd)
  obtain ⟨beyond, hbuf⟩ := h.buf
  have hsrc : slice (d ++ more) 0 n.toNat = some d := slice_split (p := []) rfl hlen
  have hput : overwrite s.buf s.pos.toNat d = some (p ++ (d ++ (q ++ beyond))) := by
    rw [hbuf, List.append_assoc]
    exact overwrite_split h.pos hd
  refine ⟨{ s with buf := p ++ (d ++ (q ++ beyond)), pos := s.pos + n }, ?_, ?_⟩
  · simp [CByteStream.writeByte, hfits, hsrc, hput]
  · refine ⟨⟨beyond, by simp⟩, by simpa [hd] using hpos, ?_⟩
    simpa [hd, Nat.add_assoc] using h.len

theorem writeBytes (h : s.At p (m ++ q)) (hd : d.length = m.length) (hlen : n.toNat = d.length) :
    ∃ t, s.writeByte d n = some t ∧ t.At (p ++ d) q := by
  simpa using h.writeByte hd hlen []

theorem slice_buf (h : s.At p (d ++ q)) (hlen : n.toNat = d.length) :
    slice s.buf s.pos.toNat n.toNat = some d := by
  obtain ⟨beyond, hbuf⟩ := h.buf
  rw [hbuf, List.append_assoc]
  exact slice_split h.pos hlen

theorem readByte (h : s.At p (d ++ q)) (hlen : n.toNat = d.length) :
    ∃ t, s.readByte n = pure (d, t) ∧ t.At (p ++ d) q ∧ t.buf = s.buf := by
  refine ⟨{ s with pos := s.pos + n }, ?_, h.move hlen, rfl⟩
  simp only [CByteStream.readByte, if_neg (h.fits hlen).1, h.slice_buf hlen]
  rfl

theorem skip (h : s.At p (d ++ q)) (hlen : n.toNat = d.length) :
    ∃ t, s.skip n = pure t ∧ t.At (p ++ d) q ∧ t.buf = s.buf := by
  refine ⟨{ s with pos := s.pos + n }, ?_, h.move hlen, rfl⟩
  simp only [CByteStream.skip, if_neg (h.fits hlen).1]

end CByteStream.At

-- --------------------------------------------------------------------------
-- Typed values
-- --------------------------------------------------------------------------

inductive Kind where
  | int8 | uint8 | int16 | uint16 | int32 | uint32 | string | chars | data
deriving Repr, DecidableEq

abbrev Kind.Payload : Kind → Type
  | .int8 => Int8
  | .uint8 => UInt8
  | .int16 => Int16
  | .uint16 => UInt16
  | .int32 => Int32
  | .uint32 => UInt32
  | .string | .chars | .data => List Byte

def put (s : CByteStream) : (k : Kind) → k.Payload → Option CByteStream
  | .int8, v => s.putInt8 v
  | .uint8, v => s.putUint8 v
  | .int16, v => s.putInt16 v
  | .uint16, v => s.putUint16 v
  | .int32, v => s.putInt32 v
  | .uint32, v => s.putUint32 v
  | .string, v => s.writeString (some (v ++ [0]))
  | .chars, v => s.writeChars v (UInt32.ofNat v.length)
  | .data, v => s.writeData v (UInt32.ofNat v.length)

def block (r : Throws ((UInt32 × UInt32) × CByteStream)) : Throws (List Byte × CByteStream) := do
  let ((pData, n), s) ← r
  let bytes ← slice s.buf pData.toNat n.toNat
  return (bytes, s)

def get (s : CByteStream) : (k : Kind) → Throws (k.Payload × CByteStream)
  | .int8 => s.getInt8
  | .uint8 => s.getUint8
  | .int16 => s.getInt16
  | .uint16 => s.getUint16
  | .int32 => s.getInt32
  | .uint32 => s.getUint32
  | .string | .chars => block s.readString
  | .data => block s.readData

def encode : (k : Kind) → k.Payload → List Byte
  | .int8, v => [v.toUInt8]
  | .uint8, v => [v]
  | .int16, v => split2 v.toInt32
  | .uint16, v => split2 v.toUInt32.toInt32
  | .int32, v => split4 v
  | .uint32, v => unsignedSplit4 v
  | .string, v | .chars, v | .data, v => unsignedSplit4 (UInt32.ofNat v.length) ++ v

def Kind.Writable : (k : Kind) → k.Payload → Prop
  | .string, v => ∀ c ∈ v, c ≠ 0
  | _, _ => True

structure Value where
  kind : Kind
  payload : kind.Payload
  writable : kind.Writable payload

def Value.encoding (v : Value) : List Byte := encode v.kind v.payload

def writeAll : List Value → CByteStream → Option CByteStream
  | [], s => some s
  | v :: vs, s => do
    let s ← put s v.kind v.payload
    writeAll vs s

abbrev Item := (k : Kind) × k.Payload

def readAll : List Kind → CByteStream → Throws (List Item × CByteStream)
  | [], s => return ([], s)
  | k :: ks, s => do
    let (v, s) ← get s k
    let (vs, s) ← readAll ks s
    return (⟨k, v⟩ :: vs, s)

-- --------------------------------------------------------------------------
-- Writing one value
-- --------------------------------------------------------------------------

namespace CByteStream.At

theorem length_block (hm : m.length = (unsignedSplit4 (UInt32.ofNat d.length) ++ d).length)
    (hsize : (unsignedSplit4 (UInt32.ofNat d.length) ++ d).length < 2 ^ 32) :
    m.length = 4 + d.length ∧ d.length < 2 ^ 32 := by
  rw [List.length_append, length_unsignedSplit4] at hm hsize
  exact ⟨hm, Nat.lt_of_le_of_lt (Nat.le_add_left _ 4) hsize⟩

theorem writeData (h : s.At p (m ++ q)) (hm : m.length = 4 + d.length) (hd : d.length < 2 ^ 32)
    (more : List Byte) :
    ∃ t, s.writeData (d ++ more) (UInt32.ofNat d.length) = some t ∧
      t.At (p ++ (unsignedSplit4 (UInt32.ofNat d.length) ++ d)) q := by
  have hlen : (UInt32.ofNat d.length).toNat = d.length := UInt32.toNat_ofNat_of_lt' hd
  have hroom : s.At p (m.take 4 ++ (m.drop 4 ++ q)) := by
    simpa [← List.append_assoc] using h
  obtain ⟨t, ht, hat⟩ :=
    hroom.writeBytes (d := unsignedSplit4 (UInt32.ofNat d.length)) (n := 4) (by simp [hm]) rfl
  obtain ⟨u, hu, hau⟩ := hat.writeByte (d := d) (by simp [hm]) hlen more
  refine ⟨u, ?_, by simpa using hau⟩
  simp [CByteStream.writeData, CByteStream.putUint32, ht, hu]

theorem writeString (h : s.At p (m ++ q)) (hm : m.length = 4 + d.length) (hd : d.length < 2 ^ 32)
    (hzero : ∀ c ∈ d, c ≠ 0) :
    ∃ t, s.writeString (some (d ++ [0])) = some t ∧
      t.At (p ++ (unsignedSplit4 (UInt32.ofNat d.length) ++ d)) q := by
  obtain ⟨t, ht, hat⟩ := h.writeData hm hd [0]
  have hstrlen : (d ++ [0]).takeWhile (· ≠ 0) = d := by
    rw [List.takeWhile_append_of_pos (by simpa using hzero)]
    simp
  refine ⟨t, ?_, hat⟩
  simp only [CByteStream.writeString, Option.getD_some, hstrlen]
  exact ht

theorem put (h : s.At p (m ++ q)) (v : Value) (hm : m.length = v.encoding.length)
    (hsize : v.encoding.length < 2 ^ 32) :
    ∃ t, put s v.kind v.payload = some t ∧ t.At (p ++ v.encoding) q := by
  obtain ⟨k, v, hv⟩ := v
  cases k with
  | int8 => exact h.writeBytes (d := [v.toUInt8]) hm.symm rfl
  | uint8 => exact h.writeBytes (d := [v]) hm.symm rfl
  | int16 => exact h.writeBytes (d := split2 v.toInt32) hm.symm rfl
  | uint16 => exact h.writeBytes (d := split2 v.toUInt32.toInt32) hm.symm rfl
  | int32 => exact h.writeBytes (d := split4 v) hm.symm rfl
  | uint32 => exact h.writeBytes (d := unsignedSplit4 v) hm.symm rfl
  | string =>
    obtain ⟨hm, hd⟩ := length_block hm hsize
    exact h.writeString hm hd hv
  | chars | data =>
    obtain ⟨hm, hd⟩ := length_block hm hsize
    have hput := h.writeData hm hd []
    rwa [List.append_nil] at hput

-- --------------------------------------------------------------------------
-- Reading one value
-- --------------------------------------------------------------------------

theorem readValue {α : Type} {read : List Byte → Nat → Option α} {v : α} (h : s.At p (d ++ q))
    (hlen : n.toNat = d.length) (hread : read d 0 = some v) :
    ∃ t, (s.readByte n >>= fun r => (liftM (read r.1 0) : Throws α) >>= fun v => pure (v, r.2)) =
        pure (v, t) ∧ t.At (p ++ d) q ∧ t.buf = s.buf := by
  obtain ⟨t, ht, hat, hbuf⟩ := h.readByte hlen
  refine ⟨t, ?_, hat, hbuf⟩
  simp only [ht, pure_bind, hread]
  rfl

theorem getUint32 (h : s.At p (unsignedSplit4 v ++ q)) :
    ∃ t, s.getUint32 = pure (v, t) ∧ t.At (p ++ unsignedSplit4 v) q ∧ t.buf = s.buf := by
  have hread : readUint32 (unsignedSplit4 v) 0 = some v := by
    simpa using readUint32_split (p := []) (q := []) v rfl
  exact h.readValue rfl hread

theorem getUint16 {v : UInt16} (h : s.At p (split2 v.toUInt32.toInt32 ++ q)) :
    ∃ t, s.getUint16 = pure (v, t) ∧ t.At (p ++ split2 v.toUInt32.toInt32) q ∧
      t.buf = s.buf := by
  have hread : readUint16 (split2 v.toUInt32.toInt32) 0 = some v := by
    simpa using readUint16_split (p := []) (q := []) v rfl
  exact h.readValue rfl hread

theorem getInt16 {v : Int16} (h : s.At p (split2 v.toInt32 ++ q)) :
    ∃ t, s.getInt16 = pure (v, t) ∧ t.At (p ++ split2 v.toInt32) q ∧ t.buf = s.buf := by
  have hread : readInt16 (split2 v.toInt32) 0 = some v := by
    simpa using readInt16_split (p := []) (q := []) v rfl
  exact h.readValue rfl hread

theorem getInt32 {v : Int32} (h : s.At p (split4 v ++ q)) :
    ∃ t, s.getInt32 = pure (v, t) ∧ t.At (p ++ split4 v) q ∧ t.buf = s.buf := by
  have hread : readInt32 (split4 v) 0 = some v := by
    simpa using readInt32_split (p := []) (q := []) v rfl
  exact h.readValue rfl hread

theorem getUint8 {v : UInt8} (h : s.At p ([v] ++ q)) :
    ∃ t, s.getUint8 = pure (v, t) ∧ t.At (p ++ [v]) q ∧ t.buf = s.buf := h.readValue rfl rfl

theorem getInt8 {v : Int8} (h : s.At p ([v.toUInt8] ++ q)) :
    ∃ t, s.getInt8 = pure (v, t) ∧ t.At (p ++ [v.toUInt8]) q ∧ t.buf = s.buf := by
  obtain ⟨t, ht, hat, hbuf⟩ := h.readByte (n := 1) rfl
  refine ⟨t, ?_, hat, hbuf⟩
  simp only [CByteStream.getInt8, ht, pure_bind]
  rfl

theorem readData (h : s.At p (unsignedSplit4 (UInt32.ofNat d.length) ++ (d ++ q)))
    (hd : d.length < 2 ^ 32) :
    ∃ t, block s.readData = pure (d, t) ∧
      t.At (p ++ (unsignedSplit4 (UInt32.ofNat d.length) ++ d)) q ∧ t.buf = s.buf := by
  have hlen : (UInt32.ofNat d.length).toNat = d.length := UInt32.toNat_ofNat_of_lt' hd
  obtain ⟨t, ht, hat, hbuf⟩ := h.getUint32
  obtain ⟨u, hu, hau, hbuf'⟩ := hat.skip hlen
  have hbytes : slice u.buf t.pos.toNat (UInt32.ofNat d.length).toNat = some d := by
    rw [hbuf']
    exact hat.slice_buf hlen
  refine ⟨u, ?_, by simpa using hau, hbuf'.trans hbuf⟩
  simp only [block, CByteStream.readData, ht, hu, pure_bind, hbytes]
  rfl

theorem get {v : Value} (h : s.At p (v.encoding ++ q)) (hsize : v.encoding.length < 2 ^ 32) :
    ∃ t, get s v.kind = pure (v.payload, t) ∧ t.At (p ++ v.encoding) q ∧ t.buf = s.buf := by
  obtain ⟨k, v, hv⟩ := v
  cases k with
  | int8 => exact h.getInt8
  | uint8 => exact h.getUint8
  | int16 => exact h.getInt16
  | uint16 => exact h.getUint16
  | int32 => exact h.getInt32
  | uint32 => exact h.getUint32
  | string | chars | data =>
    obtain ⟨-, hd⟩ := length_block rfl hsize
    simp only [Value.encoding, encode, List.append_assoc] at h
    exact h.readData hd

end CByteStream.At

-- --------------------------------------------------------------------------
-- Lists of values
-- --------------------------------------------------------------------------

def encodeAll (vs : List Value) : List Byte := (vs.map Value.encoding).flatten

def Value.item (v : Value) : Item := ⟨v.kind, v.payload⟩

theorem writeAll_spec {vs : List Value} (h : s.At p (m ++ q)) (hm : m.length = (encodeAll vs).length)
    (hsize : m.length < 2 ^ 32) :
    ∃ t, writeAll vs s = some t ∧ t.At (p ++ encodeAll vs) q := by
  induction vs generalizing s p m with
  | nil =>
    obtain rfl : m = [] := by simpa [encodeAll] using hm
    exact ⟨s, rfl, by simpa [encodeAll] using h⟩
  | cons v vs ih =>
    have hroom : (encodeAll (v :: vs)).length = v.encoding.length + (encodeAll vs).length := by
      simp [encodeAll]
    have hcut : s.At p (m.take v.encoding.length ++ (m.drop v.encoding.length ++ q)) := by
      simpa [← List.append_assoc] using h
    obtain ⟨t, ht, hat⟩ := hcut.put v (by simp; omega) (by omega)
    obtain ⟨u, hu, hau⟩ := ih hat (by simp; omega) (by simp; omega)
    refine ⟨u, ?_, by simpa [encodeAll] using hau⟩
    simp [writeAll, ht, hu]

theorem readAll_spec {vs : List Value} (h : s.At p (encodeAll vs ++ q))
    (hsize : (encodeAll vs).length < 2 ^ 32) :
    ∃ t, readAll (vs.map Value.kind) s = pure (vs.map Value.item, t) ∧
      t.At (p ++ encodeAll vs) q := by
  induction vs generalizing s p with
  | nil => exact ⟨s, rfl, by simpa [encodeAll] using h⟩
  | cons v vs ih =>
    have hlen : (encodeAll (v :: vs)).length = v.encoding.length + (encodeAll vs).length := by
      simp [encodeAll]
    have hcut : s.At p (v.encoding ++ (encodeAll vs ++ q)) := by
      simpa [encodeAll] using h
    obtain ⟨t, ht, hat, -⟩ := hcut.get (by omega)
    obtain ⟨u, hu, hau⟩ := ih hat (by omega)
    refine ⟨u, ?_, by simpa [encodeAll] using hau⟩
    simp only [List.map_cons, readAll, ht, hu, pure_bind]
    rfl

/-- What is written to a fixed buffer that has room for it is read back, to the
same position and without an exception. -/
theorem stream_roundTrip (buf : List Byte) (n : UInt32) (vs : List Value)
    (hbuf : n.toNat ≤ buf.length) (hfits : (encodeAll vs).length ≤ n.toNat) :
    ∃ w r, writeAll vs (.new buf n) = some w ∧
      readAll (vs.map Value.kind) (.new w.buf n) = pure (vs.map Value.item, r) ∧
      r.pos = w.pos := by
  obtain ⟨m, q, beyond, rfl, hm, hq⟩ : ∃ m q beyond, buf = (m ++ q) ++ beyond ∧
      m.length = (encodeAll vs).length ∧ n.toNat = (m ++ q).length := by
    refine ⟨(buf.take n.toNat).take (encodeAll vs).length,
      (buf.take n.toNat).drop (encodeAll vs).length, buf.drop n.toNat, ?_, ?_, ?_⟩
    · rw [List.take_append_drop, List.take_append_drop]
    · simp [hfits, Nat.le_trans hfits hbuf]
    · simp [hbuf]
  have hsize := n.toNat_lt
  obtain ⟨w, hw, hat⟩ := writeAll_spec (CByteStream.At.new (m := beyond) hq) hm (by omega)
  have hread : (CByteStream.new w.buf n).At [] (encodeAll vs ++ q) := by
    obtain ⟨rest, hrest⟩ := hat.buf
    refine ⟨⟨rest, by simpa [CByteStream.new] using hrest⟩, rfl, ?_⟩
    simpa [CByteStream.new, hm] using hq
  obtain ⟨r, hr, har⟩ := readAll_spec hread (by omega)
  exact ⟨w, r, hw, hr, UInt32.toNat_inj.mp (har.pos.trans hat.pos.symm)⟩

def greeting : Value := ⟨.string, [72, 105], by simp [Kind.Writable]⟩

theorem stream_roundTrip_two : ∃ w r,
    writeAll [⟨.int16, -2, trivial⟩, greeting] (.new (List.replicate 10 0) 9) = some w ∧
    readAll [.int16, .string] (.new w.buf 9) = pure ([⟨.int16, -2⟩, ⟨.string, [72, 105]⟩], r) ∧
    r.pos = w.pos :=
  stream_roundTrip (List.replicate 10 0) 9 [⟨.int16, -2, trivial⟩, greeting] (by decide)
    (by decide)

end LearningCode.ImPdu
