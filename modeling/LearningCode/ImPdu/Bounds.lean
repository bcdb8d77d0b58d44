import LearningCode.ImPdu.Header

/-!
# Reads of a byte stream stay inside its buffer

The position is advanced first and compared with the length afterwards, both in 32 bits.
A sequence of reads goes on behind an exception that was caught, with the stream as the
exception leaves it.
-/

namespace LearningCode.ImPdu

open LearningCode.Blocks

inductive ReadCall where
  | int8 | uint8 | int16 | uint16 | int32 | uint32
  | readString | readData
  | skip (len : UInt32)

abbrev Range := Option (UInt32 × UInt32)

namespace CByteStream

def call (s : CByteStream) : ReadCall → Throws (Range × CByteStream)
  | .int8 => do return (none, (← s.getInt8).2)
  | .uint8 => do return (none, (← s.getUint8).2)
  | .int16 => do return (none, (← s.getInt16).2)
  | .uint16 => do return (none, (← s.getUint16).2)
  | .int32 => do return (none, (← s.getInt32).2)
  | .uint32 => do return (none, (← s.getUint32).2)
  | .readString => do
    let (range, s) ← s.readString
    return (some range, s)
  | .readData => do
    let (range, s) ← s.readData
    return (some range, s)
  | .skip len => do return (none, ← s.skip len)

/-- The stream as an exception leaves it: `Skip` has moved the position already. -/
def thrown (s : CByteStream) : ReadCall → CByteStream
  | .skip len => { s with pos := s.pos + len }
  | .readString | .readData =>
    match s.getUint32.run with
    | some (.ok (len, s)) => { s with pos := s.pos + len }
    | _ => s
  | _ => s

def next (s : CByteStream) (c : ReadCall) : CByteStream :=
  match (s.call c).run with
  | some (.ok (_, t)) => t
  | _ => s.thrown c

def EachCall (P : CByteStream → ReadCall → Prop) : CByteStream → List ReadCall → Prop
  | _, [] => True
  | s, c :: cs => P s c ∧ EachCall P (s.next c) cs

/-- The call throws, or it ends with the position in order and returns a range of the
buffer. -/
def Right (s : CByteStream) (c : ReadCall) : Prop :=
  ∃ r, (s.call c).run = some r ∧ ∀ range t, r = .ok (range, t) →
    t.pos ≤ t.len ∧ s.pos ≤ t.pos ∧
      ∀ p n, range = some (p, n) → p.toNat + n.toNat ≤ s.len.toNat

/-- The position does not wrap around, or only to behind the end. -/
def Stays (s : CByteStream) (n : UInt32) : Prop :=
  s.pos.toNat + n.toNat < 2 ^ 32 ∨ s.len.toNat + 2 ^ 32 < s.pos.toNat + n.toNat

def InBounds (s : CByteStream) : ReadCall → Prop
  | .int8 | .uint8 => s.Stays 1
  | .int16 | .uint16 => s.Stays 2
  | .int32 | .uint32 => s.Stays 4
  | .readString | .readData => s.Stays 4 ∧ (s.pos.toNat + 4 ≤ s.len.toNat →
      ∀ len, readUint32 s.buf s.pos.toNat = some len → { s with pos := s.pos + 4 }.Stays len)
  | .skip len => s.Stays len

-- ---------------------------------------------------------------------------
-- One step of the position
-- ---------------------------------------------------------------------------

variable {s t : CByteStream} {n : UInt32} {c : ReadCall} {cs : List ReadCall} {d : List Byte}

def Fits (s : CByteStream) (n : UInt32) : Prop := s.pos.toNat + n.toNat ≤ s.len.toNat

theorem Fits.toNat_pos (h : s.Fits n) : (s.pos + n).toNat = s.pos.toNat + n.toNat := by
  have hlt := s.len.toNat_lt
  unfold Fits at h
  rw [UInt32.toNat_add]
  exact Nat.mod_eq_of_lt (by omega)

theorem Fits.not_over (h : s.Fits n) : ¬s.pos + n > s.len := by
  rw [gt_iff_lt, UInt32.lt_iff_toNat_lt, h.toNat_pos, Nat.not_lt]
  exact h

theorem Fits.stays (h : s.Fits n) : s.Stays n :=
  .inl (Nat.lt_of_le_of_lt h s.len.toNat_lt)

theorem Stays.over (h : s.Stays n) (hnot : ¬s.Fits n) : s.pos + n > s.len := by
  have hp := s.pos.toNat_lt
  have hn := n.toNat_lt
  unfold Stays at h
  unfold Fits at hnot
  rw [gt_iff_lt, UInt32.lt_iff_toNat_lt, UInt32.toNat_add]
  omega

/-- A position that wraps to a place inside the buffer passes the test. -/
theorem wraps (h : ¬s.Stays n) : ¬s.pos + n > s.len ∧ s.pos + n < s.pos := by
  have hp := s.pos.toNat_lt
  have hn := n.toNat_lt
  unfold Stays at h
  rw [gt_iff_lt, UInt32.lt_iff_toNat_lt, UInt32.lt_iff_toNat_lt, UInt32.toNat_add]
  omega

-- ---------------------------------------------------------------------------
-- The two ways forward
-- ---------------------------------------------------------------------------

def Whole (s : CByteStream) : Prop := s.len.toNat = s.buf.length

theorem readByte_fits (hs : s.len.toNat ≤ s.buf.length) (h : s.Fits n) : ∃ d,
    s.readByte n = pure (d, { s with pos := s.pos + n }) ∧
      slice s.buf s.pos.toNat n.toNat = some d := by
  have hle : s.pos.toNat + n.toNat ≤ s.buf.length := Nat.le_trans h hs
  have hslice : slice s.buf s.pos.toNat n.toNat =
      some ((s.buf.drop s.pos.toNat).take n.toNat) := if_pos hle
  refine ⟨_, ?_, hslice⟩
  simp only [readByte, if_neg h.not_over, hslice, Throws.lift_some, pure_bind]

theorem readByte_over (h : s.Stays n) (hnot : ¬s.Fits n) : s.readByte n = throw parseFailed :=
  if_pos (h.over hnot)

theorem readByte_wraps (hs : s.Whole) (h : ¬s.Stays n) : (s.readByte n).run = none := by
  have hlt := s.len.toNat_lt
  have hslice : slice s.buf s.pos.toNat n.toNat = none := by
    refine if_neg ?_
    rw [← hs]
    unfold Stays at h
    omega
  simp only [readByte, if_neg (wraps h).1, hslice]
  rfl

theorem skip_fits (h : s.Fits n) : s.skip n = pure { s with pos := s.pos + n } :=
  if_neg h.not_over

theorem skip_over (h : s.Stays n) (hnot : ¬s.Fits n) : s.skip n = throw parseFailed :=
  if_pos (h.over hnot)

theorem skip_wraps (h : ¬s.Stays n) : s.skip n = pure { s with pos := s.pos + n } :=
  if_neg (wraps h).1

theorem Fits.le (h : s.Fits n) : s.pos + n ≤ s.len ∧ s.pos ≤ s.pos + n := by
  rw [UInt32.le_iff_toNat_le, UInt32.le_iff_toNat_le, h.toNat_pos]
  exact ⟨h, Nat.le_add_right ..⟩

theorem skip_right_iff (n : UInt32) : s.Right (.skip n) ↔ s.Stays n := by
  by_cases hstay : s.Stays n
  · refine iff_of_true ?_ hstay
    by_cases hfit : s.Fits n
    · refine ⟨.ok (none, { s with pos := s.pos + n }), ?_, ?_⟩
      · simp only [call, skip_fits hfit]
        rfl
      · rintro range t ⟨⟩
        exact ⟨hfit.le.1, hfit.le.2, nofun⟩
    · refine ⟨.error parseFailed, ?_, nofun⟩
      simp only [call, skip_over hstay hfit]
      rfl
  · refine iff_of_false ?_ hstay
    rintro ⟨r, hrun, hok⟩
    simp only [call, skip_wraps hstay] at hrun
    cases hrun
    have hle := (hok none _ rfl).2.1
    exact absurd (wraps hstay).2 (UInt32.not_lt.mpr hle)

-- ---------------------------------------------------------------------------
-- Integers
-- ---------------------------------------------------------------------------

/-- A call that reads `n` bytes and makes a value of them, whatever they are. -/
def Reads (c : ReadCall) (n : UInt32) : Prop :=
  ∃ (α : Type) (make : List Byte → Option α),
    (∀ d, d.length = n.toNat → ∃ v, make d = some v) ∧
    ∀ s : CByteStream, s.call c = (do
      let r ← s.readByte n
      let _ ← make r.1
      return (none, r.2))

theorem length_of_slice {l : List Byte} {i k : Nat} (h : slice l i k = some d) : d.length = k := by
  simp only [slice, Option.ite_none_right_eq_some, Option.some.injEq] at h
  obtain ⟨hle, rfl⟩ := h
  simp only [List.length_take, List.length_drop]
  omega

theorem Reads.right_iff (h : Reads c n) (hs : s.Whole) : s.Right c ↔ s.Stays n := by
  obtain ⟨α, make, hmake, hcall⟩ := h
  by_cases hstay : s.Stays n
  · refine iff_of_true ?_ hstay
    by_cases hfit : s.Fits n
    · obtain ⟨d, hread, hslice⟩ := readByte_fits (Nat.le_of_eq hs) hfit
      obtain ⟨v, hv⟩ := hmake d (length_of_slice hslice)
      refine ⟨.ok (none, { s with pos := s.pos + n }), ?_, ?_⟩
      · simp only [hcall, hread, pure_bind, hv]
        rfl
      · rintro range t ⟨⟩
        exact ⟨hfit.le.1, hfit.le.2, nofun⟩
    · refine ⟨.error parseFailed, ?_, nofun⟩
      simp only [hcall, readByte_over hstay hfit]
      rfl
  · refine iff_of_false ?_ hstay
    rintro ⟨r, hrun, -⟩
    have hnone := readByte_wraps hs hstay
    have hbind (k : List Byte × CByteStream → Throws (Range × CByteStream)) :
        (s.readByte n >>= k).run = none := by
      have hreadByte : s.readByte n = (none : Option _) := hnone
      rw [hreadByte]
      rfl
    rw [hcall, hbind] at hrun
    cases hrun

theorem reads_int8 : Reads .int8 1 := by
  refine ⟨_, fun d => readUint8 d 0, fun d hd => ?_, fun s => by simp [call, getInt8]⟩
  exact ⟨_, List.getElem?_eq_getElem (hd ▸ Nat.zero_lt_one)⟩

theorem reads_uint8 : Reads .uint8 1 := by
  refine ⟨_, fun d => readUint8 d 0, fun d hd => ?_, fun s => by simp [call, getUint8]⟩
  exact ⟨_, List.getElem?_eq_getElem (hd ▸ Nat.zero_lt_one)⟩

theorem reads_uint16 : Reads .uint16 2 :=
  ⟨_, fun d => readUint16 d 0, fun _ hd => readUint16_isSome (hd ▸ Nat.one_lt_two),
    fun s => by simp [call, getUint16]⟩

theorem reads_uint32 : Reads .uint32 4 :=
  ⟨_, fun d => readUint32 d 0, fun _ hd => readUint32_isSome (hd ▸ by decide),
    fun s => by simp [call, getUint32]⟩

theorem reads_int16 : Reads .int16 2 := by
  refine ⟨_, fun d => readInt16 d 0, fun d hd => ?_, fun s => by simp [call, getInt16]⟩
  obtain ⟨a, b, rfl⟩ := List.length_eq_two.mp hd
  exact ⟨_, rfl⟩

theorem reads_int32 : Reads .int32 4 := by
  refine ⟨_, fun d => readInt32 d 0, fun d hd => ?_, fun s => by simp [call, getInt32]⟩
  obtain ⟨a, b, e, f, rfl⟩ : ∃ a b e f, d = [a, b, e, f] := by
    match d, hd with
    | [a, b, e, f], _ => exact ⟨a, b, e, f, rfl⟩
  exact ⟨_, rfl⟩

-- ---------------------------------------------------------------------------
-- Blocks with their length in front
-- ---------------------------------------------------------------------------

theorem getElem?_slice {l : List Byte} {i j k : Nat} (h : slice l i k = some d) (hj : j < k) :
    d[j]? = l[i + j]? := by
  simp only [slice, Option.ite_none_right_eq_some, Option.some.injEq] at h
  obtain ⟨-, rfl⟩ := h
  rw [List.getElem?_take_of_lt hj, List.getElem?_drop]

theorem getUint32_fits (hs : s.len.toNat ≤ s.buf.length) (h : s.Fits 4) : ∃ len,
    readUint32 s.buf s.pos.toNat = some len ∧
      s.getUint32 = pure (len, { s with pos := s.pos + 4 }) := by
  obtain ⟨d, hread, hslice⟩ := readByte_fits hs h
  have hsame : readUint32 d 0 = readUint32 s.buf s.pos.toNat := by
    simp only [readUint32, getElem?_slice hslice (by decide : 0 < UInt32.toNat 4),
      getElem?_slice hslice (by decide : 0 + 1 < UInt32.toNat 4),
      getElem?_slice hslice (by decide : 0 + 2 < UInt32.toNat 4),
      getElem?_slice hslice (by decide : 0 + 3 < UInt32.toNat 4), Nat.add_zero, Nat.zero_add]
  obtain ⟨len, hlen⟩ := readUint32_isSome (a := d) (i := 0) (by
    rw [length_of_slice hslice]
    decide)
  refine ⟨len, hsame.symm.trans hlen, ?_⟩
  simp only [getUint32, hread, pure_bind, hlen, Throws.lift_some]

theorem getUint32_over (h : s.Stays 4) (hnot : ¬s.Fits 4) : s.getUint32 = throw parseFailed := by
  simp only [getUint32, readByte_over h hnot]
  rfl

theorem getUint32_wraps (hs : s.Whole) (h : ¬s.Stays 4) : s.getUint32 = (none : Option _) := by
  have hnone : s.readByte 4 = (none : Option _) := readByte_wraps hs h
  simp only [getUint32, hnone]
  rfl

theorem readData_right_iff (hs : s.Whole) : s.Right .readData ↔ s.InBounds .readData := by
  by_cases hstay : s.Stays 4
  · by_cases hfit : s.Fits 4
    · obtain ⟨len, hword, hget⟩ := getUint32_fits (Nat.le_of_eq hs) hfit
      let t : CByteStream := { s with pos := s.pos + 4 }
      have hcall : s.call .readData = do
          let t ← t.skip len
          return (some (s.pos + 4, len), t) := by
        simp [call, readData, hget, t]
      have hin : s.InBounds .readData ↔ t.Stays len := by
        refine ⟨fun h => h.2 hfit len hword, fun h => ⟨hstay, fun _ n hn => ?_⟩⟩
        rw [hword] at hn
        cases hn
        exact h
      rw [hin]
      by_cases hrest : t.Stays len
      · refine iff_of_true ?_ hrest
        by_cases hblock : t.Fits len
        · refine ⟨.ok (some (s.pos + 4, len), { t with pos := t.pos + len }), ?_, ?_⟩
          · simp only [hcall, skip_fits hblock, pure_bind]
            rfl
          · rintro range u ⟨⟩
            refine ⟨hblock.le.1, UInt32.le_trans hfit.le.2 hblock.le.2, ?_⟩
            rintro p n ⟨⟩
            exact hblock
        · refine ⟨.error parseFailed, ?_, by rintro _ _ ⟨⟩⟩
          simp only [hcall, skip_over hrest hblock]
          rfl
      · refine iff_of_false ?_ hrest
        rintro ⟨r, hrun, hok⟩
        simp only [hcall, skip_wraps hrest, pure_bind] at hrun
        cases hrun
        -- the range ends where the position would without the wrap
        have hrange : t.Fits len := (hok _ _ rfl).2.2 _ _ rfl
        exact hrest hrange.stays
    · refine iff_of_true ⟨.error parseFailed, ?_, by rintro _ _ ⟨⟩⟩ ⟨hstay, fun h => absurd h hfit⟩
      simp only [call, readData, getUint32_over hstay hfit]
      rfl
  · refine iff_of_false ?_ fun h => hstay h.1
    rintro ⟨r, hrun, -⟩
    simp only [call, readData, getUint32_wraps hs hstay] at hrun
    cases hrun

theorem right_iff (hs : s.Whole) (c : ReadCall) : s.Right c ↔ s.InBounds c := by
  cases c with
  | int8 => exact reads_int8.right_iff hs
  | uint8 => exact reads_uint8.right_iff hs
  | int16 => exact reads_int16.right_iff hs
  | uint16 => exact reads_uint16.right_iff hs
  | int32 => exact reads_int32.right_iff hs
  | uint32 => exact reads_uint32.right_iff hs
  | readString => exact readData_right_iff hs
  | readData => exact readData_right_iff hs
  | skip len => exact skip_right_iff len

-- ---------------------------------------------------------------------------
-- Sequences of calls
-- ---------------------------------------------------------------------------

def Moved (s t : CByteStream) : Prop := ∃ pos, t = { s with pos }

theorem Moved.trans {u : CByteStream} (h : Moved s t) (h' : Moved t u) : Moved s u := by
  obtain ⟨p, rfl⟩ := h
  obtain ⟨q, rfl⟩ := h'
  exact ⟨q, rfl⟩

theorem moved_of_readByte (h : (s.readByte n).run = some (.ok (d, t))) : Moved s t := by
  unfold readByte at h
  split at h
  · cases h
  · obtain ⟨out, -, hrest⟩ := Throws.bind_ok h
    cases hrest
    exact ⟨_, rfl⟩

theorem moved_of_skip (h : (s.skip n).run = some (.ok t)) : Moved s t := by
  dsimp only [skip] at h
  split at h
  · cases h
  · cases h
    exact ⟨_, rfl⟩

theorem moved_of_getUint32 {len : UInt32} (h : s.getUint32.run = some (.ok (len, t))) :
    Moved s t := by
  obtain ⟨⟨d, u⟩, hread, h⟩ := Throws.bind_ok h
  obtain ⟨len', -, h⟩ := Throws.bind_ok h
  cases h
  exact moved_of_readByte hread

theorem Reads.moved (h : Reads c n) {range : Range}
    (hrun : (s.call c).run = some (.ok (range, t))) : Moved s t := by
  obtain ⟨α, make, -, hcall⟩ := h
  rw [hcall] at hrun
  obtain ⟨⟨d, u⟩, hread, hrun⟩ := Throws.bind_ok hrun
  obtain ⟨v, -, hrun⟩ := Throws.bind_ok hrun
  cases hrun
  exact moved_of_readByte hread

theorem moved_of_readData {range : Range} (h : (s.call .readData).run = some (.ok (range, t))) :
    Moved s t := by
  obtain ⟨⟨r, u⟩, hread, h⟩ := Throws.bind_ok h
  cases h
  obtain ⟨⟨len, v⟩, hget, hread⟩ := Throws.bind_ok hread
  obtain ⟨w, hskip, hread⟩ := Throws.bind_ok hread
  cases hread
  exact (moved_of_getUint32 hget).trans (moved_of_skip hskip)

theorem moved_of_call {range : Range} (h : (s.call c).run = some (.ok (range, t))) :
    Moved s t := by
  cases c with
  | int8 => exact reads_int8.moved h
  | uint8 => exact reads_uint8.moved h
  | int16 => exact reads_int16.moved h
  | uint16 => exact reads_uint16.moved h
  | int32 => exact reads_int32.moved h
  | uint32 => exact reads_uint32.moved h
  | readString => exact moved_of_readData h
  | readData => exact moved_of_readData h
  | skip len =>
    obtain ⟨u, hskip, h⟩ := Throws.bind_ok h
    cases h
    exact moved_of_skip hskip

theorem moved_thrown (s : CByteStream) (c : ReadCall) : Moved s (s.thrown c) := by
  have hdata : Moved s (s.thrown .readData) := by
    simp only [thrown]
    split
    · next len t hget => exact (moved_of_getUint32 hget).trans ⟨_, rfl⟩
    · exact ⟨_, rfl⟩
  cases c with
  | readString => exact hdata
  | readData => exact hdata
  | skip len => exact ⟨_, rfl⟩
  | _ => exact ⟨_, rfl⟩

theorem moved_next (s : CByteStream) (c : ReadCall) : Moved s (s.next c) := by
  unfold next
  split
  · next range t hrun => exact moved_of_call hrun
  · exact moved_thrown s c

theorem Whole.next (h : s.Whole) (c : ReadCall) : (s.next c).Whole := by
  obtain ⟨pos, heq⟩ := moved_next s c
  rw [heq]
  exact h

theorem eachCall_iff (hs : s.Whole) : EachCall Right s cs ↔ EachCall InBounds s cs := by
  induction cs generalizing s with
  | nil => exact Iff.rfl
  | cons c cs ih => exact and_congr (right_iff hs c) (ih (hs.next c))

/-- Reads from the start of a buffer: they are in bounds exactly as long as no position
wraps around to a place inside the buffer. -/
theorem reads_in_bounds_iff (buf : List Byte) (n : UInt32) (h : n.toNat = buf.length)
    (cs : List ReadCall) :
    EachCall Right (.new buf n) cs ↔ EachCall InBounds (.new buf n) cs :=
  eachCall_iff (s := .new buf n) h

/-- A message of one byte behind its length. -/
theorem reads_in_bounds_one :
    EachCall Right (.new [0, 0, 0, 1, 7] 5) [.readData, .uint8] := by
  refine (reads_in_bounds_iff [0, 0, 0, 1, 7] 5 rfl _).mpr ⟨⟨.inl (by decide), ?_⟩, ?_, trivial⟩
  · rintro - len ⟨⟩
    exact .inl (by decide)
  · exact .inl (by decide)

/-- A length of `2 ^ 32 - 4` takes the position back to the start, and no test fails. -/
theorem readData_wraps :
    ¬EachCall Right (.new [255, 255, 255, 252] 4) [.readData] := by
  rintro ⟨⟨r, hrun, hok⟩, -⟩
  cases hrun
  exact absurd ((hok _ _ rfl).2.2 _ _ rfl) (by decide)

end CByteStream

end LearningCode.ImPdu
