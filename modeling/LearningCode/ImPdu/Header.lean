import LearningCode.ImPdu.Buffer
import LearningCode.ImPdu.Stream

/-!
# The header of a unit

A header value lives in the byte buffer, where the setters write it, and in
`m_pdu_header`, which `WriteHeader` copies over the bytes. The setters leave
`m_pdu_header` alone, so `SetPBMsg` takes back what was set before it.
-/

namespace LearningCode.ImPdu

open LearningCode.Blocks LearningCode.BigEndian

variable {R : Realloc} {p q : CImPdu} {h : PduHeader} {body t a l m : List Byte}
  {v : UInt16} {i : Nat} {n : UInt32}

inductive Field where
  | version | flag | serviceId | commandId | seqNum | reversed
deriving Repr, DecidableEq

namespace Field

def get : Field → PduHeader → UInt16
  | .version, h => h.version
  | .flag, h => h.flag
  | .serviceId, h => h.serviceId
  | .commandId, h => h.commandId
  | .seqNum, h => h.seqNum
  | .reversed, h => h.reversed

def put : Field → UInt16 → PduHeader → PduHeader
  | .version, v, h => { h with version := v }
  | .flag, v, h => { h with flag := v }
  | .serviceId, v, h => { h with serviceId := v }
  | .commandId, v, h => { h with commandId := v }
  | .seqNum, v, h => { h with seqNum := v }
  | .reversed, v, h => { h with reversed := v }

def set : Field → UInt16 → CImPdu → Option CImPdu
  | .version, v, p => p.setVersion v
  | .flag, v, p => p.setFlag v
  | .serviceId, v, p => p.setServiceId v
  | .commandId, v, p => p.setCommandId v
  | .seqNum, v, p => p.setSeqNum v
  | .reversed, v, p => p.setReversed v.toUInt32

theorem get_put (f g : Field) : f.get (g.put v h) = if g = f then v else f.get h := by
  cases f <;> cases g <;> rfl

end Field

-- --------------------------------------------------------------------------
-- The sixteen bytes
-- --------------------------------------------------------------------------

def word (v : UInt16) : List Byte := split2 v.toUInt32.toInt32

@[simp] theorem length_word (v : UInt16) : (word v).length = 2 := rfl

def words (h : PduHeader) : List (List Byte) :=
  [word h.version, word h.flag, word h.serviceId, word h.commandId, word h.seqNum, word h.reversed]

def headerBytes (h : PduHeader) : List Byte := unsignedSplit4 h.length ++ (words h).flatten

@[simp] theorem length_headerBytes (h : PduHeader) : (headerBytes h).length = 16 := rfl

/-- A unit on the wire: a header that gives its length, then the body. -/
structure IsPdu (h : PduHeader) (body l : List Byte) : Prop where
  eq : l = headerBytes h ++ body
  length : h.length.toNat = l.length

def CImPdu.withMemory (p : CImPdu) (mem : List Byte) : CImPdu :=
  { p with buf := { p.buf with buffer := some mem } }

theorem writeUint16_split (hi : l.length = i) (hm : m.length = 2) :
    writeUint16 (l ++ (m ++ t)) i v = some (l ++ (word v ++ t)) :=
  overwrite_split hi.symm (by simpa using hm.symm)

namespace Field

def index : Field → Nat
  | .version => 0
  | .flag => 1
  | .serviceId => 2
  | .commandId => 3
  | .seqNum => 4
  | .reversed => 5

def before (f : Field) (h : PduHeader) : List Byte :=
  unsignedSplit4 h.length ++ ((words h).take f.index).flatten

def after (f : Field) (h : PduHeader) : List Byte := ((words h).drop (f.index + 1)).flatten

theorem headerBytes_eq (f : Field) :
    headerBytes h = f.before h ++ (word (f.get h) ++ f.after h) := by
  cases f <;> simp [headerBytes, words, before, after, index, get]

theorem headerBytes_put (f : Field) :
    headerBytes (f.put v h) = f.before h ++ (word v ++ f.after h) := by
  cases f <;> simp [headerBytes, words, before, after, index, put]

theorem set_eq (f : Field) : f.set v p = p.setField (f.before h).length v := by
  cases f with
  | reversed =>
    have hlow : v.toUInt32.toUInt16 = v := by simp
    simp only [set, CImPdu.setReversed, hlow]
    rfl
  | _ => rfl

/-- Each setter writes its field where the header has it. -/
theorem set_spec (f : Field) (hb : p.buf.buffer = some (headerBytes h ++ t)) :
    f.set v p = some (p.withMemory (headerBytes (f.put v h) ++ t)) := by
  rw [f.headerBytes_eq, List.append_assoc, List.append_assoc] at hb
  rw [f.set_eq (h := h), f.headerBytes_put, List.append_assoc, List.append_assoc]
  have hwrite := writeUint16_split (v := v) (l := f.before h) (t := f.after h ++ t) rfl
    (length_word (f.get h))
  simp [CImPdu.setField, CImPdu.getBuffer, CImPdu.withMemory, hb, hwrite]

end Field

-- --------------------------------------------------------------------------
-- Writing the header
-- --------------------------------------------------------------------------

theorem overwrite_next {d : List Byte} (hi : l.length = i) (hd : d.length ≤ m.length) :
    overwrite (l ++ m) i d = some ((l ++ d) ++ m.drop d.length) := by
  have hsplit := overwrite_split (p := l) (b := d) (m := m.take d.length) (q := m.drop d.length)
    hi.symm (by simp [hd])
  simpa using hsplit

def writeWords : List UInt16 → Nat → List Byte → Option (List Byte)
  | [], _, mem => some mem
  | v :: vs, i, mem => do
    let mem ← writeUint16 mem i v
    writeWords vs (i + 2) mem

theorem writeWords_spec (vs : List UInt16) (hi : l.length = i) (hm : 2 * vs.length ≤ m.length) :
    writeWords vs i (l ++ m) = some (l ++ ((vs.map word).flatten ++ m.drop (2 * vs.length))) := by
  induction vs generalizing l m i with
  | nil => simp [writeWords]
  | cons v vs ih =>
    simp only [List.length_cons] at hm
    have hnext : writeUint16 (l ++ m) i v = some ((l ++ word v) ++ m.drop 2) :=
      overwrite_next hi (by simp; omega)
    have hrest := ih (l := l ++ word v) (m := m.drop 2) (i := i + 2) (by simp [hi]) (by simp; omega)
    have hdrop : 2 + 2 * vs.length = 2 * (vs.length + 1) := by omega
    simp only [writeWords, hnext, Option.bind_eq_bind, Option.bind_some, hrest]
    simp [hdrop]

def fieldValues (h : PduHeader) : List UInt16 :=
  [h.version, h.flag, h.serviceId, h.commandId, h.seqNum, h.reversed]

theorem writeHeader_eq (p : CImPdu) : p.writeHeader = (do
    let mem ← writeInt32 (← p.getBuffer) 0 p.getLength.toInt32
    let mem ← writeWords (fieldValues p.pduHeader) 4 mem
    return p.withMemory mem) := by
  simp [CImPdu.writeHeader, CImPdu.withMemory, writeWords, fieldValues, Option.bind_assoc]

theorem writeHeader_spec {mem : List Byte} (hb : p.buf.buffer = some mem) (hl : 16 ≤ mem.length) :
    p.writeHeader =
      some (p.withMemory (headerBytes { p.pduHeader with length := p.getLength } ++ mem.drop 16)) := by
  have hlen : writeInt32 mem 0 p.getLength.toInt32 =
      some (unsignedSplit4 p.getLength ++ mem.drop 4) := by
    have hnext := overwrite_next (l := []) (m := mem) (d := split4 p.getLength.toInt32) rfl
      (by simp; omega)
    rw [← unsignedSplit4_eq] at hnext
    simpa [writeInt32, unsignedSplit4_eq] using hnext
  have hwords := writeWords_spec (l := unsignedSplit4 p.getLength) (m := mem.drop 4) (i := 4)
    (fieldValues p.pduHeader) rfl (by simp [fieldValues]; omega)
  rw [writeHeader_eq, CImPdu.getBuffer, hb]
  simp only [Option.bind_eq_bind, Option.bind_some, hlen, hwords]
  simp [headerBytes, words, fieldValues]

-- --------------------------------------------------------------------------
-- Reading a unit
-- --------------------------------------------------------------------------

theorem readPduHeader_spec (p : CImPdu) :
    p.readPduHeader (headerBytes h ++ t) headerLen = pure { p with pduHeader := h } := by
  have hstart : (CByteStream.new (headerBytes h ++ t) headerLen).At [] (headerBytes h) :=
    CByteStream.At.new rfl
  simp only [headerBytes, words, List.flatten_cons, List.flatten_nil] at hstart
  obtain ⟨s1, h1, hat1, -⟩ := hstart.getUint32
  obtain ⟨s2, h2, hat2, -⟩ := hat1.getUint16
  obtain ⟨s3, h3, hat3, -⟩ := hat2.getUint16
  obtain ⟨s4, h4, hat4, -⟩ := hat3.getUint16
  obtain ⟨s5, h5, hat5, -⟩ := hat4.getUint16
  obtain ⟨s6, h6, hat6, -⟩ := hat5.getUint16
  obtain ⟨s7, h7, -, -⟩ := hat6.getUint16
  simp only [headerBytes, words, List.flatten_cons, List.flatten_nil] at *
  simp only [CImPdu.readPduHeader, ge_iff_le, UInt32.le_refl, if_true, h1, h2, h3, h4, h5, h6, h7,
    pure_bind]

theorem readUint32_header : readUint32 (headerBytes h ++ t) 0 = some h.length := by
  have hread := readUint32_split (p := []) (q := (words h).flatten ++ t) h.length rfl
  simpa [headerBytes] using hread

theorem readUint16_isSome (hi : i + 1 < a.length) : ∃ w, readUint16 a i = some w := by
  have h0 := List.getElem?_eq_getElem (Nat.lt_of_succ_lt hi)
  have h1 := List.getElem?_eq_getElem hi
  exact ⟨_, by simp only [readUint16, h0, h1]; rfl⟩

theorem readUint32_isSome (hi : i + 3 < a.length) : ∃ w, readUint32 a i = some w := by
  have h0 := List.getElem?_eq_getElem (l := a) (i := i) (by omega)
  have h1 := List.getElem?_eq_getElem (l := a) (i := i + 1) (by omega)
  have h2 := List.getElem?_eq_getElem (l := a) (i := i + 2) (by omega)
  have h3 := List.getElem?_eq_getElem hi
  exact ⟨_, by simp only [readUint32, h0, h1, h2, h3]; rfl⟩

theorem isPduAvailable_short {buf : Option (List Byte)} (hlen : n < headerLen) :
    CImPdu.isPduAvailable buf n = pure none := by
  simp only [CImPdu.isPduAvailable, if_pos hlen]

theorem isPduAvailable_header (hlen : ¬n < headerLen) (hpos : h.length ≠ 0) :
    CImPdu.isPduAvailable (some (headerBytes h ++ t)) n =
      pure (if h.length > n then none else some h.length) := by
  simp only [CImPdu.isPduAvailable, if_neg hlen, Throws.lift_some, pure_bind, readUint32_header,
    if_neg hpos]
  split <;> rfl

theorem IsPdu.length_pos (hpdu : IsPdu h body l) : h.length ≠ 0 := by
  intro hzero
  have hlen := hpdu.length
  rw [hzero, hpdu.eq, List.length_append, length_headerBytes] at hlen
  simp at hlen
  omega

theorem IsPdu.headerLen_le (hpdu : IsPdu h body l) (hle : h.length ≤ n) : ¬n < headerLen := by
  have hlen := hpdu.length
  rw [hpdu.eq, List.length_append, length_headerBytes] at hlen
  rw [UInt32.le_iff_toNat_le] at hle
  rw [UInt32.lt_iff_toNat_lt, Nat.not_lt]
  exact Nat.le_trans (hlen ▸ Nat.le_add_right 16 body.length) hle

theorem readPdu_spec (hpdu : IsPdu h body l) (hle : h.length ≤ n) (hr : Roomy l.length) :
    ∃ q, CImPdu.readPdu R (some (l ++ t)) n = pure (some q) ∧ q.pduHeader = h ∧
      q.buf.Holds l := by
  have hfull : ¬h.length > n := UInt32.not_lt.mpr hle
  have hne : 0 < h.length.toNat := by
    rw [hpdu.length, hpdu.eq, List.length_append, length_headerBytes]
    exact Nat.lt_of_lt_of_le (by decide) (Nat.le_add_right 16 body.length)
  obtain ⟨c, hc, hholds⟩ := CSimpleBuffer.Holds.new.write (R := R) (e := t) hpdu.length.symm
    (by simpa [hpdu.length] using hr) (.inr hne)
  have havail := isPduAvailable_header (t := body ++ t) (hpdu.headerLen_le hle) hpdu.length_pos
  rw [if_neg hfull, ← List.append_assoc, ← hpdu.eq] at havail
  have hlong : 16 ≤ (l ++ t).length := by
    simp only [hpdu.eq, List.length_append, length_headerBytes]
    omega
  obtain ⟨w, hw⟩ := readUint16_isSome (a := l ++ t) (i := 8) (by omega)
  obtain ⟨w', hw'⟩ := readUint16_isSome (a := l ++ t) (i := 10) (by omega)
  have hheader (p : CImPdu) : p.readPduHeader (l ++ t) headerLen =
      pure { p with pduHeader := h } := by
    rw [hpdu.eq, List.append_assoc]
    exact readPduHeader_spec p
  refine ⟨{ (CImPdu.new 0) with buf := c, pduHeader := h }, ?_, rfl, hholds⟩
  simp only [CImPdu.readPdu, havail, pure_bind, Throws.lift_some, hw, hw']
  have hwrite : (CImPdu.new 0).write R (l ++ t) h.length = some { (CImPdu.new 0) with buf := c } := by
    have hnew : (CImPdu.new 0).buf = .new := rfl
    simp [CImPdu.write, hnew, hc]
  simp only [hwrite, Throws.lift_some, pure_bind, hheader]

-- --------------------------------------------------------------------------
-- What a unit being built carries
-- --------------------------------------------------------------------------

/-- The bytes of `p` are a header that gives their length, and the body. -/
structure CImPdu.Carries (p : CImPdu) (h : PduHeader) (body : List Byte) : Prop where
  holds : p.buf.Holds (headerBytes h ++ body)
  length : h.length = p.getLength

namespace CImPdu.Carries

theorem isPdu (hp : p.Carries h body) : IsPdu h body (headerBytes h ++ body) :=
  ⟨rfl, by rw [hp.length, CImPdu.getLength, hp.holds.offset]⟩

theorem withMemory {g : PduHeader} (hp : p.buf.Holds (l ++ body)) (hl : l.length = 16)
    (hbuf : p.buf.buffer = some (l ++ (body ++ t))) (hg : g.length = p.getLength) :
    (p.withMemory (headerBytes g ++ (body ++ t))).Carries g body := by
  obtain ⟨⟨slack, hmem, hsize⟩, hoff⟩ := hp
  have hslack : slack.length = t.length := by
    rw [hbuf, Option.getD_some] at hmem
    have hlen := congrArg List.length hmem
    simp at hlen
    omega
  refine ⟨⟨⟨t, by simp [CImPdu.withMemory], ?_⟩, ?_⟩, hg⟩
  · simpa [CImPdu.withMemory, hl, hslack] using hsize
  · simpa [CImPdu.withMemory, hl] using hoff

theorem set (f : Field) (v : UInt16) (hp : p.Carries h body) :
    ∃ q, f.set v p = some q ∧ q.Carries (f.put v h) body ∧ q.pduHeader = p.pduHeader := by
  obtain ⟨t, hbuf, -, -⟩ := hp.holds.hasRoom (by simp [headerBytes, words, word, split2])
  rw [List.append_assoc] at hbuf
  refine ⟨_, f.set_spec hbuf, withMemory hp.holds rfl hbuf ?_, rfl⟩
  rw [← hp.length]
  cases f <;> rfl

end CImPdu.Carries

theorem setPBMsg_spec (msg : MessageLite) (hp : p.buf.Holds l) :
    ∃ q, p.setPBMsg R msg = some q ∧ q.pduHeader = p.pduHeader ∧
      q.Carries { p.pduHeader with length := q.getLength } msg.data := by
  have hmsg := msg.byteSize_lt
  have hsize : msg.data.length = msg.byteSize.toNat := by
    rw [MessageLite.byteSize, UInt32.toNat_ofNat_of_lt' (Nat.lt_trans hmsg (by decide))]
  have hheader : headerLen.toNat = 16 := rfl
  obtain ⟨b0, h0, hold0⟩ := CSimpleBuffer.Holds.read (d := l) (l := []) (by simpa using hp)
    hp.offset.symm
  obtain ⟨b1, junk, h1, hold1, hjunk⟩ := hold0.reserve (R := R) (n := headerLen)
    (by unfold Roomy; decide) (.inr (by decide))
  rw [List.nil_append] at hold1
  obtain ⟨b2, h2, hold2⟩ := hold1.write (R := R) (e := []) hsize
    (by unfold Roomy; omega) (.inl (by rintro rfl; simp [hheader] at hjunk))
  rw [List.append_nil] at h2
  have hlong : junk.length = 16 := hjunk
  have hne : junk ++ msg.data ≠ [] := by
    intro hnil
    simp [(List.append_eq_nil_iff.mp hnil).1] at hlong
  obtain ⟨t, hbuf, -, -⟩ := hold2.hasRoom hne
  rw [List.append_assoc] at hbuf
  have hwritten := writeHeader_spec (p := { p with buf := b2 }) hbuf (by simp [hlong])
  rw [List.drop_left' hlong] at hwritten
  refine ⟨{ p with buf := b2 }.withMemory
      (headerBytes { p.pduHeader with length := b2.writeOffset } ++ (msg.data ++ t)), ?_, rfl,
    CImPdu.Carries.withMemory hold2 hlong hbuf rfl⟩
  simp only [CImPdu.setPBMsg, h0, h1, h2, Option.bind_eq_bind, Option.bind_some]
  exact hwritten

-- --------------------------------------------------------------------------
-- Sequences of calls
-- --------------------------------------------------------------------------

inductive Call where
  | setPBMsg (msg : MessageLite)
  | set (f : Field) (v : UInt16)

def Call.apply (R : Realloc) (p : CImPdu) : Call → Option CImPdu
  | .setPBMsg msg => p.setPBMsg R msg
  | .set f v => f.set v p

def build (R : Realloc) (length : UInt32) (calls : List Call) : Option CImPdu :=
  calls.foldlM (Call.apply R) (CImPdu.new length)

def initial (f : Field) : UInt16 := f.get (CImPdu.new 0).pduHeader

def setStep (f : Field) (v : UInt16) : Call → UInt16
  | .set g w => if g = f then w else v
  | .setPBMsg _ => v

/-- `SetPBMsg` writes the constructor's value over the field. -/
def writeStep (f : Field) (v : UInt16) : Call → UInt16
  | .set g w => if g = f then w else v
  | .setPBMsg _ => initial f

def bodyStep (body : Option (List Byte)) : Call → Option (List Byte)
  | .set _ _ => body
  | .setPBMsg msg => some msg.data

def lastSet (f : Field) (calls : List Call) : UInt16 := calls.foldl (setStep f) (initial f)

def lastWritten (f : Field) (calls : List Call) : UInt16 := calls.foldl (writeStep f) (initial f)

def lastBody (calls : List Call) : Option (List Byte) := calls.foldl bodyStep none

/-- `ReadPdu` on the buffer gives the values set last, the length and the body. -/
def RoundTrip (R : Realloc) (calls : List Call) (p : CImPdu) : Prop :=
  ∃ q, CImPdu.readPdu R p.getBuffer p.getLength = pure (some q) ∧
    (∀ f, f.get q.pduHeader = lastSet f calls) ∧ q.pduHeader.length = p.getLength ∧
    q.getBodyData = lastBody calls

/-- The value set last for the field was set before a `SetPBMsg`, and is not
the constructor's. -/
def Lost (f : Field) (calls : List Call) : Prop :=
  ∃ before v after, calls = before ++ .set f v :: after ∧ (∀ w, .set f w ∉ after) ∧
    (∃ msg, .setPBMsg msg ∈ after) ∧ v ≠ initial f

variable {calls : List Call} {f : Field} {c : Call}

theorem apply_spec (c : Call) (hp : p.Carries h body) (hinit : ∀ f, f.get p.pduHeader = initial f) :
    ∃ q g new, c.apply R p = some q ∧ q.Carries g new ∧
      (∀ f, f.get g = writeStep f (f.get h) c) ∧ some new = bodyStep (some body) c ∧
      ∀ f, f.get q.pduHeader = initial f := by
  cases c with
  | setPBMsg msg =>
    obtain ⟨q, hq, hkeep, hcarries⟩ := setPBMsg_spec (R := R) msg hp.holds
    refine ⟨q, _, _, hq, hcarries, ?_, rfl, hkeep ▸ hinit⟩
    intro f
    rw [writeStep, ← hinit f]
    cases f <;> rfl
  | set g v =>
    obtain ⟨q, hq, hcarries, hkeep⟩ := hp.set g v
    exact ⟨q, _, _, hq, hcarries, fun f => f.get_put g, rfl, hkeep ▸ hinit⟩

theorem foldlM_apply_spec (calls : List Call) (hp : p.Carries h body)
    (hinit : ∀ f, f.get p.pduHeader = initial f) :
    ∃ q g new, calls.foldlM (Call.apply R) p = some q ∧ q.Carries g new ∧
      (∀ f, f.get g = calls.foldl (writeStep f) (f.get h)) ∧
      some new = calls.foldl bodyStep (some body) := by
  induction calls generalizing p h body with
  | nil => exact ⟨p, h, body, rfl, hp, fun _ => rfl, rfl⟩
  | cons c calls ih =>
    obtain ⟨q, g, new, hq, hcarries, hget, hbody, hkeep⟩ := apply_spec (R := R) c hp hinit
    obtain ⟨r, g', last, hr, hcarries', hget', hbody'⟩ := ih hcarries hkeep
    refine ⟨r, g', last, by simp [hq, hr], hcarries', ?_, ?_⟩
    · intro f
      rw [List.foldl_cons, ← hget f]
      exact hget' f
    · rw [List.foldl_cons, ← hbody]
      exact hbody'

theorem build_spec (R : Realloc) (length : UInt32) (msg : MessageLite) (calls : List Call) :
    ∃ p h body, build R length (.setPBMsg msg :: calls) = some p ∧ p.Carries h body ∧
      (∀ f, f.get h = lastWritten f (.setPBMsg msg :: calls)) ∧
      some body = lastBody (.setPBMsg msg :: calls) := by
  obtain ⟨q, hq, hkeep, hcarries⟩ :=
    setPBMsg_spec (R := R) (p := CImPdu.new length) msg CSimpleBuffer.Holds.new
  have hinit (f : Field) : f.get q.pduHeader = initial f := by
    rw [hkeep]
    cases f <;> rfl
  obtain ⟨p, h, body, hp, hc, hget, hbody⟩ := foldlM_apply_spec (R := R) calls hcarries hinit
  refine ⟨p, h, body, ?_, hc, ?_, hbody⟩
  · simp [build, Call.apply, hq, hp]
  · intro f
    rw [hget f]
    cases f <;> rfl

def Unset (f : Field) (calls : List Call) : Prop := ∀ w, .set f w ∉ calls

theorem Unset.tail (h : Unset f (c :: calls)) : Unset f calls := by
  intro w hw
  exact h w (List.mem_cons_of_mem c hw)

theorem Unset.setStep_eq (h : Unset f (c :: calls)) (v : UInt16) : setStep f v c = v := by
  cases c with
  | setPBMsg msg => rfl
  | set g w =>
    have hne : g ≠ f := by
      rintro rfl
      exact h w List.mem_cons_self
    simp [setStep, hne]

theorem Unset.foldl_setStep (h : Unset f calls) (v : UInt16) : calls.foldl (setStep f) v = v := by
  induction calls with
  | nil => rfl
  | cons c calls ih => rw [List.foldl_cons, h.setStep_eq, ih h.tail]

/-- Without a setter the field has its old value, or the constructor's if the
message was set again. -/
theorem Unset.foldl_writeStep (h : Unset f calls) (v : UInt16) :
    ((∃ msg, .setPBMsg msg ∈ calls) → calls.foldl (writeStep f) v = initial f) ∧
      ((∀ msg, .setPBMsg msg ∉ calls) → calls.foldl (writeStep f) v = v) := by
  induction calls generalizing v with
  | nil => simp
  | cons c calls ih =>
    obtain ⟨hreset, hkept⟩ := ih h.tail (writeStep f v c)
    cases c with
    | setPBMsg msg =>
      refine ⟨?_, fun hnone => absurd List.mem_cons_self (hnone msg)⟩
      intro _
      by_cases hmore : ∃ msg, .setPBMsg msg ∈ calls
      · exact hreset hmore
      · exact hkept (not_exists.mp hmore)
    | set g w =>
      have hstep : writeStep f v (.set g w) = v := h.setStep_eq v
      rw [hstep] at hreset hkept
      simp only [List.foldl_cons, hstep, List.mem_cons, reduceCtorEq, false_or]
      exact ⟨hreset, hkept⟩

theorem exists_last_set (f : Field) (calls : List Call) : Unset f calls ∨
    ∃ before v after, calls = before ++ .set f v :: after ∧ Unset f after := by
  induction calls with
  | nil => exact .inl (by simp [Unset])
  | cons c calls ih =>
    obtain hnone | ⟨before, v, after, rfl, hafter⟩ := ih
    · by_cases hc : ∃ v, c = .set f v
      · obtain ⟨v, rfl⟩ := hc
        exact .inr ⟨[], v, calls, rfl, hnone⟩
      · refine .inl ?_
        intro w hw
        obtain rfl | hw := List.mem_cons.mp hw
        · exact hc ⟨w, rfl⟩
        · exact hnone w hw
    · exact .inr ⟨c :: before, v, after, rfl, hafter⟩

/-- Both values, cut at the last setter. -/
theorem folds_at_last_set (before : List Call) (v : UInt16) {after : List Call} (hafter : Unset f after) :
    lastSet f (before ++ .set f v :: after) = v ∧
      lastWritten f (before ++ .set f v :: after) = after.foldl (writeStep f) v := by
  simp [lastSet, lastWritten, setStep, writeStep, hafter.foldl_setStep]

theorem lastWritten_eq_iff (f : Field) (calls : List Call) :
    lastWritten f calls = lastSet f calls ↔ ¬Lost f calls := by
  constructor
  · rintro heq ⟨before, v, after, rfl, hafter, hreset, hne⟩
    obtain ⟨hset, hwritten⟩ := folds_at_last_set before v hafter
    rw [hset, hwritten, (Unset.foldl_writeStep hafter v).1 hreset] at heq
    exact hne heq.symm
  · intro hlost
    obtain hnone | ⟨before, v, after, rfl, hafter⟩ := exists_last_set f calls
    · have hwritten := hnone.foldl_writeStep (initial f)
      rw [lastSet, lastWritten, hnone.foldl_setStep]
      by_cases hreset : ∃ msg, .setPBMsg msg ∈ calls
      · exact hwritten.1 hreset
      · exact hwritten.2 (not_exists.mp hreset)
    · obtain ⟨hset, hwritten⟩ := folds_at_last_set before v hafter
      have hkept := hafter.foldl_writeStep v
      rw [hset, hwritten]
      by_cases hreset : ∃ msg, .setPBMsg msg ∈ after
      · by_cases hv : v = initial f
        · rw [hkept.1 hreset, hv]
        · exact absurd ⟨before, v, after, rfl, hafter, hreset, hv⟩ hlost
      · exact hkept.2 (not_exists.mp hreset)

theorem CSimpleBuffer.Holds.getBodyData (hq : q.buf.Holds (headerBytes h ++ body)) :
    q.getBodyData = some body := by
  obtain ⟨t, hbuf, -, -⟩ := hq.hasRoom (by simp [headerBytes, words, word, split2])
  have hlen : q.getBodyLength.toNat = body.length := by
    have hoff := hq.offset
    rw [List.length_append, length_headerBytes] at hoff
    have hle : headerLen ≤ q.buf.writeOffset := by
      rw [UInt32.le_iff_toNat_le, hoff]
      exact Nat.le_add_right 16 body.length
    rw [CImPdu.getBodyLength, UInt32.toNat_sub_of_le _ _ hle, hoff]
    exact Nat.add_sub_cancel_left 16 body.length
  have hslice := slice_split (p := headerBytes h) (m := body) (q := t)
    (i := headerLen.toNat) rfl hlen
  rw [List.append_assoc] at hbuf
  simp [CImPdu.getBodyData, CImPdu.getBuffer, hbuf, hslice]

theorem CImPdu.Carries.roundTrip (hp : p.Carries h body) (hbody : body.length < 2 ^ 31) :
    ∃ r, CImPdu.readPdu R p.getBuffer p.getLength = pure (some r) ∧ r.pduHeader = h ∧
      r.getBodyData = some body := by
  obtain ⟨t, hbuf, -, -⟩ := hp.holds.hasRoom (by simp [headerBytes, words, word, split2])
  have hr : Roomy (headerBytes h ++ body).length := by
    unfold Roomy
    rw [List.length_append, length_headerBytes]
    omega
  obtain ⟨r, hread, hheader, hholds⟩ := readPdu_spec (R := R) (t := t) (n := p.getLength)
    hp.isPdu (by rw [hp.length]; exact UInt32.le_refl _) hr
  exact ⟨r, by rw [CImPdu.getBuffer, hbuf]; exact hread, hheader, hholds.getBodyData⟩

theorem lastBody_length {body : List Byte} (h : lastBody calls = some body) :
    body.length < 2 ^ 31 := by
  induction calls using List.reverseRecOn with
  | nil => cases h
  | append_singleton calls c ih =>
    rw [lastBody, List.foldl_concat] at h
    cases c with
    | setPBMsg msg =>
      cases h
      exact msg.byteSize_lt
    | set g v => exact ih h

/-- Of a unit that was given a message, `ReadPdu` finds the values set last
exactly when none of them was lost to a later `SetPBMsg`. -/
theorem roundTrip_iff (R : Realloc) (length : UInt32) (msg : MessageLite) (calls : List Call) :
    ∃ p, build R length (.setPBMsg msg :: calls) = some p ∧
      (RoundTrip R (.setPBMsg msg :: calls) p ↔ ∀ f, ¬Lost f (.setPBMsg msg :: calls)) := by
  obtain ⟨p, h, body, hp, hc, hget, hbody⟩ := build_spec R length msg calls
  obtain ⟨r, hread, hheader, hdata⟩ := hc.roundTrip (R := R) (lastBody_length hbody.symm)
  refine ⟨p, hp, ?_⟩
  constructor
  · rintro ⟨q, hq, hset, -, -⟩ f
    obtain rfl : r = q := by
      have heq : (some (.ok (some r)) : Option (Except CPduException _)) = some (.ok (some q)) :=
        hread.symm.trans hq
      simpa using heq
    rw [← lastWritten_eq_iff, ← hset f, hheader, hget f]
  · intro hkept
    refine ⟨r, hread, ?_, ?_, ?_⟩
    · intro f
      rw [hheader, hget f]
      exact (lastWritten_eq_iff f _).mpr (hkept f)
    · rw [hheader, hc.length]
    · rw [hdata, hbody]

def zeroed : Realloc where
  run old n := old.take n ++ List.replicate (n - old.length) 0
  length_run := by
    intro old n
    simp only [List.length_append, List.length_take, List.length_replicate]
    omega
  take_run := by
    intro old n
    by_cases hle : old.length ≤ n
    · simp [List.take_of_length_le hle]
    · simp [Nat.sub_eq_zero_of_le (Nat.le_of_not_le hle), List.take_take,
        Nat.le_of_not_le hle]

def emptyMsg : MessageLite := ⟨[], by decide⟩

/-- The command set between two messages is gone. -/
theorem setCommandId_lost : ∃ p,
    build zeroed 0 [.setPBMsg emptyMsg, .set .commandId 5, .setPBMsg emptyMsg] = some p ∧
      ¬RoundTrip zeroed [.setPBMsg emptyMsg, .set .commandId 5, .setPBMsg emptyMsg] p := by
  refine ⟨_, rfl, ?_⟩
  rintro ⟨q, hq, hset, -⟩
  cases hq
  exact absurd (hset .commandId) (by decide)

end LearningCode.ImPdu
