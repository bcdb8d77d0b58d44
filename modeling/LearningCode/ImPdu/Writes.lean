import LearningCode.ImPdu.Bounds

/-!
# Writing a field as a whole

`WriteString` and `WriteData` write the length and then the bytes, and each of the two
writes is dropped on its own when it does not fit.
-/

namespace LearningCode.ImPdu

open LearningCode.Blocks LearningCode.BigEndian

inductive WriteCall where
  | string (str : Option (List Byte))
  | chars (str : List Byte) (len : UInt32)
  | data (buf : List Byte) (len : UInt32)

namespace WriteCall

def bytes : WriteCall → List Byte
  | .string str => (str.getD []).takeWhile (· ≠ 0)
  | .chars str len => str.take len.toNat
  | .data buf len => buf.take len.toNat

/-- What the code takes for their number. -/
def size (c : WriteCall) : UInt32 := UInt32.ofNat c.bytes.length

/-- A C string has a terminator, and a block has the bytes its length says. -/
def Valid : WriteCall → Prop
  | .string str => ∀ s, str = some s → 0 ∈ s
  | .chars str len => len.toNat ≤ str.length
  | .data buf len => len.toNat ≤ buf.length

end WriteCall

namespace CByteStream

def write (s : CByteStream) : WriteCall → Option CByteStream
  | .string str => s.writeString str
  | .chars str len => s.writeChars str len
  | .data buf len => s.writeData buf len

def written (s : CByteStream) (d : List Byte) : CByteStream :=
  { s with
    buf := s.buf.take s.pos.toNat ++ (unsignedSplit4 (UInt32.ofNat d.length) ++ d) ++
      s.buf.drop (s.pos.toNat + (4 + d.length))
    pos := s.pos + 4 + UInt32.ofNat d.length }

/-- The whole field is appended, or the stream is as it was. -/
def AllOrNothing (s : CByteStream) (c : WriteCall) : Prop := ∃ t, s.write c = some t ∧
  (t = s.written c.bytes ∧ t.pos.toNat = s.pos.toNat + (4 + c.bytes.length) ∨ t = s)

/-- The next `n` bytes do not fit, and the position does not wrap around to the buffer. -/
def Drops (s : CByteStream) (n : UInt32) : Prop := s.Stays n ∧ ¬s.Fits n

/-- The whole field fits, or neither of its parts does. -/
def Decided (s : CByteStream) (c : WriteCall) : Prop :=
  s.pos.toNat + (4 + c.bytes.length) ≤ s.len.toNat ∨
    s.Drops 4 ∧ (c.size = 0 ∨ s.Drops c.size)

-- ---------------------------------------------------------------------------
-- One write
-- ---------------------------------------------------------------------------

variable {s t : CByteStream} {n : UInt32} {c : WriteCall} {cs : List WriteCall}
  {d e : List Byte} {ds : List (List Byte)}

def behind (s : CByteStream) (d : List Byte) (n : UInt32) : CByteStream :=
  { s with
    buf := s.buf.take s.pos.toNat ++ d ++ s.buf.drop (s.pos.toNat + d.length)
    pos := s.pos + n }

theorem writeByte_fits (hs : s.len.toNat ≤ s.buf.length) (h : s.Fits n) (hd : d.length = n.toNat)
    (e : List Byte) : s.writeByte (d ++ e) n = some (s.behind d n) := by
  have hsrc : slice (d ++ e) 0 n.toNat = some d := slice_split (p := []) rfl hd.symm
  have hroom : s.pos.toNat + d.length ≤ s.buf.length := hd ▸ Nat.le_trans h hs
  have hput : overwrite s.buf s.pos.toNat d =
      some (s.buf.take s.pos.toNat ++ d ++ s.buf.drop (s.pos.toNat + d.length)) := if_pos hroom
  simp only [writeByte, if_neg h.not_over, hsrc, hput, behind, Option.bind_eq_bind,
    Option.bind_some, Option.pure_def]

theorem writeByte_drops (h : s.Drops n) (d : List Byte) : s.writeByte d n = some s :=
  if_pos (h.1.over h.2)

theorem writeByte_wraps (hs : s.Whole) (h : ¬s.Stays n) (hd : d.length = n.toNat) (e : List Byte) :
    s.writeByte (d ++ e) n = none := by
  have hlt := s.len.toNat_lt
  have hsrc : slice (d ++ e) 0 n.toNat = some d := slice_split (p := []) rfl hd.symm
  have hput : overwrite s.buf s.pos.toNat d = none := by
    refine if_neg ?_
    rw [← hs, hd]
    unfold Stays at h
    omega
  simp only [writeByte, if_neg (wraps h).1, hsrc, hput, Option.bind_eq_bind, Option.bind_some,
    Option.bind_none]

theorem write_eq (h : c.Valid) : ∃ e, s.write c = (do
    let t ← s.writeByte (unsignedSplit4 c.size) 4
    t.writeByte (c.bytes.take c.size.toNat ++ e) c.size) := by
  have hblock (data : List Byte) (len : UInt32) (hle : len.toNat ≤ data.length) :
      UInt32.ofNat (data.take len.toNat).length = len ∧
        (data.take len.toNat).take len.toNat ++ data.drop len.toNat = data := by
    rw [List.length_take, Nat.min_eq_left hle, List.take_take, Nat.min_self,
      List.take_append_drop]
    exact ⟨UInt32.ofNat_toNat, rfl⟩
  cases c with
  | string str =>
    refine ⟨((str.getD []).takeWhile (· ≠ 0)).drop
        (UInt32.ofNat ((str.getD []).takeWhile (· ≠ 0)).length).toNat ++
      (str.getD []).dropWhile (· ≠ 0), ?_⟩
    simp only [WriteCall.size, WriteCall.bytes]
    rw [← List.append_assoc, List.take_append_drop, List.takeWhile_append_dropWhile]
    rfl
  | chars str len =>
    obtain ⟨hsize, hdata⟩ := hblock str len h
    refine ⟨str.drop len.toNat, ?_⟩
    simp only [WriteCall.size, WriteCall.bytes, hsize, hdata]
    rfl
  | data buf len =>
    obtain ⟨hsize, hdata⟩ := hblock buf len h
    refine ⟨buf.drop len.toNat, ?_⟩
    simp only [WriteCall.size, WriteCall.bytes, hsize, hdata]
    rfl

-- ---------------------------------------------------------------------------
-- The two writes of a call
-- ---------------------------------------------------------------------------

theorem fate (s : CByteStream) (n : UInt32) : s.Fits n ∨ s.Drops n ∨ ¬s.Stays n := by
  by_cases hstay : s.Stays n
  · by_cases hfit : s.Fits n
    · exact .inl hfit
    · exact .inr (.inl ⟨hstay, hfit⟩)
  · exact .inr (.inr hstay)

theorem stays_zero (s : CByteStream) : s.Stays 0 := .inl s.pos.toNat_lt

theorem size_le (c : WriteCall) : c.size.toNat ≤ c.bytes.length := by
  rw [WriteCall.size, UInt32.toNat_ofNat']
  exact Nat.mod_le ..

theorem length_take_size (c : WriteCall) : (c.bytes.take c.size.toNat).length = c.size.toNat := by
  rw [List.length_take, Nat.min_eq_left (size_le c)]

def counted (s : CByteStream) (n : UInt32) : CByteStream :=
  { s with
    buf := s.buf.take s.pos.toNat ++ unsignedSplit4 n ++ s.buf.drop (s.pos.toNat + 4)
    pos := s.pos + 4 }

theorem Fits.counted_pos (h : s.Fits 4) : (s.counted n).pos.toNat = s.pos.toNat + 4 := h.toNat_pos

theorem Fits.counted_whole (h : s.Fits 4) (hs : s.Whole) : (s.counted n).Whole := by
  have hroom : s.pos.toNat + 4 ≤ s.buf.length := hs ▸ h
  show s.len.toNat =
    (s.buf.take s.pos.toNat ++ unsignedSplit4 n ++ s.buf.drop (s.pos.toNat + 4)).length
  rw [hs]
  simp only [List.length_append, List.length_take, List.length_drop, length_unsignedSplit4]
  omega

theorem written_eq (h : s.Fits 4) (hs : s.Whole) :
    (s.counted (UInt32.ofNat d.length)).behind d (UInt32.ofNat d.length) = s.written d := by
  have hroom : s.pos.toNat + 4 ≤ s.buf.length := hs ▸ h
  have hfront : (s.buf.take s.pos.toNat ++ unsignedSplit4 (UInt32.ofNat d.length)).length =
      s.pos.toNat + 4 := by
    simp only [List.length_append, List.length_take, length_unsignedSplit4]
    omega
  rw [behind, h.counted_pos]
  simp only [counted, written]
  congr 1
  rw [List.take_left' hfront, List.drop_append, hfront, Nat.add_sub_cancel_left, List.drop_drop,
    List.drop_eq_nil_of_le (by rw [hfront]; exact Nat.le_add_right ..), List.nil_append,
    Nat.add_assoc, List.append_assoc (s.buf.take _)]

theorem write_counted (hs : s.Whole) (hc : c.Valid) (h : s.Fits 4) : ∃ e,
    s.write c = (s.counted c.size).writeByte (c.bytes.take c.size.toNat ++ e) c.size := by
  obtain ⟨e, hwrite⟩ := write_eq (s := s) hc
  have hfirst := writeByte_fits (Nat.le_of_eq hs) h (d := unsignedSplit4 c.size) rfl []
  rw [List.append_nil] at hfirst
  exact ⟨e, by rw [hwrite, hfirst]; rfl⟩

theorem write_dropped (hc : c.Valid) (h : s.Drops 4) : ∃ e,
    s.write c = s.writeByte (c.bytes.take c.size.toNat ++ e) c.size := by
  obtain ⟨e, hwrite⟩ := write_eq (s := s) hc
  exact ⟨e, by rw [hwrite, writeByte_drops h]; rfl⟩

theorem write_wraps (hs : s.Whole) (hc : c.Valid) (h : ¬s.Stays 4) : s.write c = none := by
  obtain ⟨e, hwrite⟩ := write_eq (s := s) hc
  have hfirst := writeByte_wraps hs h (d := unsignedSplit4 c.size) rfl []
  rw [List.append_nil] at hfirst
  rw [hwrite, hfirst]
  rfl

-- ---------------------------------------------------------------------------
-- All or nothing
-- ---------------------------------------------------------------------------

theorem not_allOrNothing_of_pos (hrun : s.write c = some t) (h0 : t.pos.toNat ≠ s.pos.toNat)
    (h1 : t.pos.toNat ≠ s.pos.toNat + (4 + c.bytes.length)) : ¬s.AllOrNothing c := by
  rintro ⟨u, hu, hcases⟩
  rw [hrun] at hu
  cases hu
  rcases hcases with ⟨-, hpos⟩ | rfl
  · exact h1 hpos
  · exact h0 rfl

theorem not_allOrNothing_of_none (hrun : s.write c = none) : ¬s.AllOrNothing c := by
  rintro ⟨u, hu, -⟩
  rw [hrun] at hu
  cases hu

theorem write_room (hs : s.Whole) (hc : c.Valid)
    (hroom : s.pos.toNat + (4 + c.bytes.length) ≤ s.len.toNat) :
    s.write c = some (s.written c.bytes) ∧
      (s.written c.bytes).pos.toNat = s.pos.toNat + (4 + c.bytes.length) := by
  have hlen := s.len.toNat_lt
  have h : s.Fits 4 := Nat.le_trans (Nat.add_le_add_left (Nat.le_add_right 4 _) _) hroom
  have hlt : c.bytes.length < 2 ^ 32 := by omega
  have hsame : c.size.toNat = c.bytes.length := UInt32.toNat_ofNat_of_lt' hlt
  have hpos := h.counted_pos (n := c.size)
  have hfit : (s.counted c.size).Fits c.size := by
    show (s.counted c.size).pos.toNat + c.size.toNat ≤ s.len.toNat
    omega
  obtain ⟨e, hwrite⟩ := write_counted hs hc h
  rw [writeByte_fits (Nat.le_of_eq (h.counted_whole hs)) hfit (length_take_size c) e, hsame,
    List.take_length] at hwrite
  refine ⟨hwrite.trans (congrArg some (written_eq h hs)), ?_⟩
  refine hfit.toNat_pos.trans ?_
  rw [hpos, hsame, Nat.add_assoc]

theorem write_refused (hs : s.Whole) (hc : c.Valid) (h : s.Drops 4)
    (hrest : c.size = 0 ∨ s.Drops c.size) : s.write c = some s := by
  obtain ⟨e, hwrite⟩ := write_dropped hc h
  rcases s.fate c.size with hfit | hdrop | hwrap
  · obtain hzero := hrest.resolve_right fun hdrop => hdrop.2 hfit
    rw [writeByte_fits (Nat.le_of_eq hs) hfit (length_take_size c) e, hzero] at hwrite
    rw [hwrite]
    simp [behind]
  · rw [hwrite, writeByte_drops hdrop]
  · exfalso
    rcases hrest with hzero | hdrop
    · exact hwrap (hzero ▸ s.stays_zero)
    · exact hwrap hdrop.1

/-- There is room for the number, and not for the bytes. -/
theorem not_allOrNothing_counted (hs : s.Whole) (hc : c.Valid) (h : s.Fits 4)
    (hroom : ¬s.pos.toNat + (4 + c.bytes.length) ≤ s.len.toNat) : ¬s.AllOrNothing c := by
  have hlen := s.len.toNat_lt
  have hsize := size_le c
  have hpos := h.counted_pos (n := c.size)
  have hnumber : s.pos.toNat + 4 ≤ s.len.toNat := h
  obtain ⟨e, hwrite⟩ := write_counted hs hc h
  rcases (s.counted c.size).fate c.size with hfit | hdrop | hwrap
  · -- the number of bytes was cut to 32 bits
    rw [writeByte_fits (Nat.le_of_eq (h.counted_whole hs)) hfit (length_take_size c) e] at hwrite
    have hmoved := hfit.toNat_pos
    have hle : (s.counted c.size).pos.toNat + c.size.toNat ≤ s.len.toNat := hfit
    refine not_allOrNothing_of_pos hwrite ?_ ?_
    · show ((s.counted c.size).pos + c.size).toNat ≠ _
      omega
    · show ((s.counted c.size).pos + c.size).toNat ≠ _
      omega
  · rw [writeByte_drops hdrop] at hwrite
    refine not_allOrNothing_of_pos hwrite ?_ ?_
    · omega
    · omega
  · rw [writeByte_wraps (h.counted_whole hs) hwrap (length_take_size c)] at hwrite
    exact not_allOrNothing_of_none hwrite

/-- There is no room for the number, and some for the bytes. -/
theorem not_allOrNothing_dropped (hs : s.Whole) (hc : c.Valid) (h : s.Drops 4)
    (hzero : c.size ≠ 0) (hnot : ¬s.Drops c.size) : ¬s.AllOrNothing c := by
  have hsize := size_le c
  have hne : c.size.toNat ≠ 0 := fun heq => hzero (UInt32.toNat_inj.mp heq)
  obtain ⟨e, hwrite⟩ := write_dropped hc h
  rcases s.fate c.size with hfit | hdrop | hwrap
  · rw [writeByte_fits (Nat.le_of_eq hs) hfit (length_take_size c) e] at hwrite
    have hmoved := hfit.toNat_pos
    refine not_allOrNothing_of_pos hwrite ?_ ?_
    · show (s.pos + c.size).toNat ≠ _
      omega
    · show (s.pos + c.size).toNat ≠ _
      omega
  · exact absurd hdrop hnot
  · rw [writeByte_wraps hs hwrap (length_take_size c)] at hwrite
    exact not_allOrNothing_of_none hwrite

theorem allOrNothing_iff (hs : s.Whole) (hc : c.Valid) : s.AllOrNothing c ↔ s.Decided c := by
  constructor
  · intro hall
    by_contra hnot
    obtain ⟨hroom, hrest⟩ := not_or.mp hnot
    rcases s.fate 4 with hfit | hdrop | hwrap
    · exact not_allOrNothing_counted hs hc hfit hroom hall
    · obtain ⟨hzero, hdrop'⟩ := not_or.mp fun h => hrest ⟨hdrop, h⟩
      exact not_allOrNothing_dropped hs hc hdrop hzero hdrop' hall
    · exact not_allOrNothing_of_none (write_wraps hs hc hwrap) hall
  · rintro (hroom | ⟨hdrop, hrest⟩)
    · obtain ⟨hwrite, hpos⟩ := write_room hs hc hroom
      exact ⟨_, hwrite, .inl ⟨rfl, hpos⟩⟩
    · exact ⟨s, write_refused hs hc hdrop hrest, .inr rfl⟩

-- ---------------------------------------------------------------------------
-- Sequences of writes
-- ---------------------------------------------------------------------------

def writes : List WriteCall → CByteStream → Option CByteStream
  | [], s => some s
  | c :: cs, s => do writes cs (← s.write c)

def EachWrite (P : CByteStream → WriteCall → Prop) : CByteStream → List WriteCall → Prop
  | _, [] => True
  | s, c :: cs => P s c ∧ ∀ t, s.write c = some t → EachWrite P t cs

/-- The fields of the calls that moved the position. -/
def accepted : CByteStream → List WriteCall → List (List Byte)
  | _, [] => []
  | s, c :: cs =>
    match s.write c with
    | none => []
    | some t => if t.pos = s.pos then accepted t cs else c.bytes :: accepted t cs

def field (d : List Byte) : Value := ⟨.data, d, trivial⟩

def Decodes (s : CByteStream) (ds : List (List Byte)) : Prop :=
  ∃ r, readAll (ds.map fun _ => .data) (.new s.buf s.pos) =
    pure (ds.map fun d => ⟨.data, d⟩, r) ∧ r.pos = s.pos

structure Filled (s : CByteStream) (ds : List (List Byte)) : Prop where
  whole : s.Whole
  pos_le : s.pos ≤ s.len
  front : s.buf.take s.pos.toNat = encodeAll (ds.map field)

theorem encodeAll_append (vs ws : List Value) :
    encodeAll (vs ++ ws) = encodeAll vs ++ encodeAll ws := by
  simp [encodeAll]

theorem Filled.write (h : s.Filled ds)
    (hpos : (s.written d).pos.toNat = s.pos.toNat + (4 + d.length))
    (hroom : s.pos.toNat + (4 + d.length) ≤ s.len.toNat) : (s.written d).Filled (ds ++ [d]) := by
  have hbuf : s.pos.toNat + (4 + d.length) ≤ s.buf.length := h.whole ▸ hroom
  have hfront : (s.buf.take s.pos.toNat ++
      (unsignedSplit4 (UInt32.ofNat d.length) ++ d)).length = s.pos.toNat + (4 + d.length) := by
    simp only [List.length_append, List.length_take, length_unsignedSplit4]
    omega
  refine ⟨?_, ?_, ?_⟩
  · show s.len.toNat = (s.written d).buf.length
    rw [written, List.length_append, hfront, List.length_drop, ← h.whole]
    omega
  · rw [UInt32.le_iff_toNat_le, hpos]
    exact hroom
  · rw [hpos, List.map_append, encodeAll_append, ← h.front, written]
    exact (List.take_left' hfront).trans (by simp [encodeAll, field, Value.encoding, encode])

theorem Filled.decodes (h : s.Filled ds) : s.Decodes ds := by
  have hlen : (encodeAll (ds.map field)).length = s.pos.toNat := by
    have hle := UInt32.le_iff_toNat_le.mp h.pos_le
    rw [← h.front, List.length_take, Nat.min_eq_left (h.whole ▸ hle)]
  have hat : (CByteStream.new s.buf s.pos).At [] (encodeAll (ds.map field) ++ []) := by
    refine ⟨⟨s.buf.drop s.pos.toNat, ?_⟩, rfl, ?_⟩
    · rw [← h.front, List.append_nil, List.nil_append, List.take_append_drop]
      rfl
    · simp [CByteStream.new, hlen]
  obtain ⟨r, hread, hr⟩ := readAll_spec hat (hlen ▸ s.pos.toNat_lt)
  refine ⟨r, ?_, ?_⟩
  · simpa [field, Value.item, Function.comp_def] using hread
  · refine UInt32.toNat_inj.mp (hr.pos.trans ?_)
    rw [List.nil_append, hlen]

theorem Filled.writes (h : s.Filled ds) (hc : ∀ c ∈ cs, c.Valid) (hcs : EachWrite Decided s cs) :
    ∃ t, CByteStream.writes cs s = some t ∧ t.Filled (ds ++ accepted s cs) := by
  induction cs generalizing s ds with
  | nil => exact ⟨s, rfl, by simpa [accepted] using h⟩
  | cons c cs ih =>
    obtain ⟨hvalid, hc⟩ := List.forall_mem_cons.mp hc
    obtain ⟨hdecided, hcs⟩ := hcs
    rcases hdecided with hroom | ⟨hdrop, hrest⟩
    · obtain ⟨hwrite, hpos⟩ := write_room h.whole hvalid hroom
      have hne : (s.written c.bytes).pos ≠ s.pos := by
        intro heq
        rw [heq] at hpos
        omega
      obtain ⟨t, hrun, hfilled⟩ := ih (h.write hpos hroom) hc (hcs _ hwrite)
      refine ⟨t, ?_, ?_⟩
      · simp only [CByteStream.writes, hwrite, Option.bind_eq_bind, Option.bind_some, hrun]
      · simpa only [accepted, hwrite, if_neg hne, List.append_assoc, List.singleton_append]
          using hfilled
    · have hwrite := write_refused h.whole hvalid hdrop hrest
      obtain ⟨u, hrun, hfilled⟩ := ih h hc (hcs _ hwrite)
      refine ⟨u, ?_, ?_⟩
      · simp only [CByteStream.writes, hwrite, Option.bind_eq_bind, Option.bind_some, hrun]
      · simpa only [accepted, hwrite, if_true] using hfilled

/-- A call writes its field as a whole or not at all exactly when the whole field fits or
neither part of it does; behind a sequence of such calls the stream is read as the fields
that were accepted. -/
theorem writes_all_or_nothing (s : CByteStream) (c : WriteCall) (cs : List WriteCall)
    (hs : s.Whole) (hc : c.Valid) (hcs : ∀ c ∈ cs, c.Valid) :
    (s.AllOrNothing c ↔ s.Decided c) ∧
      (EachWrite Decided (.new s.buf s.len) cs →
        ∃ t, writes cs (.new s.buf s.len) = some t ∧
          t.Decodes (accepted (.new s.buf s.len) cs)) := by
  refine ⟨allOrNothing_iff hs hc, fun hall => ?_⟩
  have hnew : (CByteStream.new s.buf s.len).Filled [] := ⟨hs, UInt32.zero_le, rfl⟩
  obtain ⟨t, hrun, hfilled⟩ := hnew.writes hcs hall
  exact ⟨t, hrun, hfilled.decodes⟩

/-- Two fields for a buffer that has room for the first. -/
theorem writes_all_or_nothing_two :
    (CByteStream.new (List.replicate 8 0) 8).AllOrNothing (.data [1, 2] 2) ∧ ∃ t,
      writes [.data [1, 2] 2, .chars [3, 4, 5] 3] (.new (List.replicate 8 0) 8) = some t ∧
        t.Decodes [[1, 2]] := by
  have hvalid : ∀ c ∈ [WriteCall.data [1, 2] 2, .chars [3, 4, 5] 3], c.Valid := by
    simp [WriteCall.Valid]
  have hall : EachWrite Decided (.new (List.replicate 8 0) 8)
      [.data [1, 2] 2, .chars [3, 4, 5] 3] := by
    refine ⟨.inl (by decide), ?_⟩
    rintro t ⟨⟩
    exact ⟨.inr ⟨⟨.inl (by decide), by unfold Fits; decide⟩, .inr ⟨.inl (by decide),
      by unfold Fits; decide⟩⟩, fun _ _ => trivial⟩
  obtain ⟨hone, hrun⟩ := writes_all_or_nothing (.new (List.replicate 8 0) 8) (.data [1, 2] 2) _
    rfl (hvalid _ (List.mem_cons_self ..)) hvalid
  exact ⟨hone.mpr hall.1, hrun hall⟩

/-- Four bytes have room for the number of bytes alone. -/
theorem number_without_byte :
    ¬(CByteStream.new [0, 0, 0, 0] 4).AllOrNothing (.data [7] 1) := by
  refine not_allOrNothing_of_pos (t := ⟨[0, 0, 0, 1], 4, 4⟩) rfl ?_ ?_
  · decide
  · decide

end CByteStream

end LearningCode.ImPdu
