import LearningCode.Dns.Decompress
import LearningCode.Dns.Question

/-!
# Names as they are encoded

The length of a question is taken from the hostname, its bytes from the pieces between
the dots. They agree where every piece is a label; then what is decoded is the hostname.
-/

namespace LearningCode.Dns

open Rfc1035 (Name)
open Tokens (tokens spread)

variable {hostname : List UInt8} {labels l l' : List (List UInt8)} {v w : List UInt8} {k : Nat}

def IsLabel (text : List UInt8) : Prop := 0 < text.length ∧ text.length ≤ 63

instance (text : List UInt8) : Decidable (IsLabel text) := inferInstanceAs (Decidable (_ ∧ _))

/-- As many bytes as `length` says have been written, and they are labels and a zero
behind the last one. -/
def WellFormed (question : DnsQuestion) : Prop :=
  ∃ labels, (∀ text ∈ labels, IsLabel text) ∧
    question.length.toInt = (Name.wire labels).length ∧
    question.qname.take (Name.wire labels).length = (Name.wire labels).map some

/-- A label between any two dots, and in front of the first and behind the last. -/
def Hostlike (hostname : List UInt8) : Prop :=
  hostname.length + 2 < 2 ^ 31 ∧ ∀ text ∈ hostname.splitOn 46, IsLabel text

/-- A length is cut, that of a piece to a byte or that of the whole to 32 bits. -/
def Cut (hostname : List UInt8) : Prop :=
  2 ^ 31 ≤ hostname.length + 2 ∨ ∃ text ∈ hostname.splitOn 46, 256 ≤ text.length

/-- The bytes that are written begin with as many as `length` says that can be taken
for labels. -/
def ByChance (hostname : List UInt8) : Prop :=
  ∃ labels, (∀ text ∈ labels, IsLabel text) ∧
    (Int32.ofNat (hostname.length + 2)).toInt = (Name.wire labels).length ∧
    Name.wire labels <+: written (tokens 46 hostname)

theorem map_some_prefix_iff :
    v.map some <+: w.map some ++ List.replicate k none ↔ v <+: w := by
  induction v generalizing w with
  | nil => simp
  | cons b v ih =>
    cases w with
    | nil => cases k <;> simp [List.replicate_succ]
    | cons c w => simp [List.cons_prefix_cons, ih]

theorem toNat_length {text : List UInt8} (h : text.length < 256) :
    (UInt8.ofNat text.length).toNat = text.length := UInt8.toNat_ofNat_of_lt' h

theorem wire_cons_ne_nil {text : List UInt8} (h : 0 < text.length ∧ text.length < 256) :
    Name.wire (text :: l) ≠ Name.wire [] := by
  rw [Name.wire_cons]
  intro heq
  have hzero := congrArg UInt8.toNat (List.cons.inj heq).1
  rw [toNat_length h.2] at hzero
  exact absurd hzero (Nat.ne_of_gt h.1)

theorem wire_injective (h : ∀ text ∈ l, 0 < text.length ∧ text.length < 256)
    (h' : ∀ text ∈ l', 0 < text.length ∧ text.length < 256) (heq : Name.wire l = Name.wire l') :
    l = l' := by
  induction l generalizing l' with
  | nil =>
    cases l' with
    | nil => rfl
    | cons text' l' => exact absurd heq.symm (wire_cons_ne_nil (h' text' (List.mem_cons_self ..)))
  | cons text l ih =>
    have htext := h text (List.mem_cons_self ..)
    cases l' with
    | nil => exact absurd heq (wire_cons_ne_nil htext)
    | cons text' l' =>
      have htext' := h' text' (List.mem_cons_self ..)
      rw [Name.wire_cons, Name.wire_cons] at heq
      obtain ⟨hbyte, hrest⟩ := List.cons.inj heq
      have hlength := congrArg UInt8.toNat hbyte
      rw [toNat_length htext.2, toNat_length htext'.2] at hlength
      obtain ⟨rfl, hwire⟩ := List.append_inj hrest hlength
      rw [ih (fun other hother => h other (List.mem_cons_of_mem _ hother))
        (fun other hother => h' other (List.mem_cons_of_mem _ hother)) hwire]

theorem IsLabel.lt {text : List UInt8} (h : IsLabel text) :
    0 < text.length ∧ text.length < 256 := ⟨h.1, by have := h.2; omega⟩

theorem toInt_length (h : hostname.length + 2 < 2 ^ 31) :
    (Int32.ofNat (hostname.length + 2)).toInt = hostname.length + 2 :=
  Int32.toInt_ofNat_of_lt h

theorem wellFormed_iff_begins {rest : Nat} {length : Int32} {qtype qclass : List UInt8} :
    WellFormed ⟨length, qtype, qclass, w.map some ++ List.replicate rest none⟩ ↔
      ∃ labels, (∀ text ∈ labels, IsLabel text) ∧ length.toInt = (Name.wire labels).length ∧
        Name.wire labels <+: w := by
  unfold WellFormed
  refine exists_congr fun labels => and_congr_right fun _ => and_congr_right fun _ => ?_
  rw [← map_some_prefix_iff (k := rest), List.prefix_iff_eq_take, List.length_map]
  exact eq_comm

theorem written_splitOn : written (hostname.splitOn 46) = Name.wire (hostname.splitOn 46) := by
  obtain ⟨t, l, hl⟩ := List.exists_cons_of_ne_nil (List.splitOn_ne_nil 46 hostname)
  rw [hl, written_cons]

/-- With every length as it is, the bytes are all written only if no piece is empty. -/
theorem written_iff_hostlike (hlength : hostname.length + 2 < 2 ^ 31)
    (hpieces : ∀ text ∈ hostname.splitOn 46, text.length < 256) :
    ByChance hostname ↔ Hostlike hostname := by
  rw [ByChance, toInt_length hlength]
  constructor
  · rintro ⟨labels, hlabels, hsize, hbegins⟩
    have hle := hbegins.length_le
    have hwritten := length_written_le (l := tokens 46 hostname)
    have hspread : spread (tokens 46 hostname) ≤ hostname.length + 1 := Tokens.spread_tokens_le
    have hnone : [] ∉ hostname.splitOn 46 := Tokens.spread_tokens_eq_iff.mp (by omega)
    rw [Tokens.tokens_of_notMem hnone] at hbegins hle hwritten hspread
    have heq := hbegins.eq_of_length (by omega)
    rw [written_splitOn] at heq
    refine ⟨hlength, ?_⟩
    rw [← wire_injective (fun text h => (hlabels text h).lt) (fun text h => ⟨?_, hpieces text h⟩) heq]
    · exact hlabels
    · exact List.length_pos_iff.mpr fun hnil => hnone (hnil ▸ h)
  · rintro ⟨-, hlabels⟩
    have hnone : [] ∉ hostname.splitOn 46 := fun h => absurd (hlabels [] h).1 (by decide)
    refine ⟨_, hlabels, ?_, ?_⟩
    · rw [length_wire, Tokens.spread_splitOn]
      rfl
    · rw [Tokens.tokens_of_notMem hnone, written_splitOn]

theorem not_cut_of_hostlike (h : Hostlike hostname) : ¬Cut hostname := by
  obtain ⟨hlength, hlabels⟩ := h
  rintro (hlong | ⟨text, htext, hlong⟩)
  · omega
  · have hlt := (hlabels text htext).lt
    omega

/-- Where no length is cut, what counts is the pieces, and where one is, the bytes written. -/
theorem question_wellFormed_iff (hostname : List UInt8) :
    ∃ question, Returns (fun turns => dnsCreateQuestion turns hostname) question ∧
      (¬Cut hostname → (WellFormed question ↔ Hostlike hostname)) ∧
      (Cut hostname → ¬Hostlike hostname ∧ (WellFormed question ↔ ByChance hostname)) := by
  refine ⟨_, dnsCreateQuestion_returns hostname, fun hcut => ?_, fun hcut => ⟨?_, ?_⟩⟩
  · rw [Cut] at hcut
    push Not at hcut
    exact wellFormed_iff_begins.trans (written_iff_hostlike hcut.1 hcut.2)
  · exact fun h => not_cut_of_hostlike h hcut
  · exact wellFormed_iff_begins

/-- The dot of `a.` leaves the last byte as it was. -/
theorem trailing_dot :
    ∃ question, Returns (fun turns => dnsCreateQuestion turns [97, 46]) question ∧
      ¬WellFormed question := by
  refine ⟨_, dnsCreateQuestion_returns [97, 46], fun h => ?_⟩
  have hhost := (written_iff_hostlike (by decide) (by decide)).mp (wellFormed_iff_begins.mp h)
  exact absurd (hhost.2 [] (by decide)).1 (by decide)

-- ---------------------------------------------------------------------------
-- There and back
-- ---------------------------------------------------------------------------

structure Hostname where
  labels : List (List UInt8)
  nonempty : labels ≠ []
  isLabel : ∀ text ∈ labels, IsLabel text
  noDot : ∀ text ∈ labels, 46 ∉ text
  noZero : ∀ text ∈ labels, 0 ∉ text

def Hostname.text (h : Hostname) : List UInt8 := List.intercalate [46] h.labels

def Hostname.question (h : Hostname) : DnsQuestion where
  length := Int32.ofNat (Name.wire h.labels).length
  qtype := htons 1
  qclass := htons 1
  qname := (Name.wire h.labels).map some

theorem Hostname.splitOn_text (h : Hostname) : h.text.splitOn 46 = h.labels :=
  List.splitOn_intercalate 46 h.noDot h.nonempty

theorem Hostname.length_wire (h : Hostname) : (Name.wire h.labels).length = h.text.length + 2 := by
  rw [Dns.length_wire, ← h.splitOn_text, Tokens.spread_splitOn]

theorem Hostname.written_tokens (h : Hostname) : written (tokens 46 h.text) = Name.wire h.labels := by
  have hnone : [] ∉ h.text.splitOn 46 := by
    rw [h.splitOn_text]
    exact fun hnil => absurd (h.isLabel [] hnil).1 (by decide)
  rw [Tokens.tokens_of_notMem hnone, written_splitOn, h.splitOn_text]

theorem Hostname.created (h : Hostname) :
    Returns (fun turns => dnsCreateQuestion turns h.text) h.question := by
  have hreturns := dnsCreateQuestion_returns h.text
  rw [h.written_tokens, ← h.length_wire, Nat.sub_self, List.replicate_zero, List.append_nil]
    at hreturns
  exact hreturns

theorem near_ofLabels : Near (Name.ofLabels labels) := by
  induction labels with
  | nil => trivial
  | cons text labels ih => exact ih

theorem dotted_ofLabels : Dotted (Name.ofLabels labels) := by
  induction labels with
  | nil => trivial
  | cons text labels ih =>
    refine ⟨?_, ih⟩
    cases labels with
    | nil => exact .inl rfl
    | cons text' labels => exact .inr (List.cons_ne_nil _ _)

theorem Hostname.decoded (h : Hostname) (hshort : h.text.length ≤ 127)
    (before behind : List UInt8) :
    Returns (fun turns => dnsParseName (before ++ (Name.wire h.labels ++ behind)) turns
      before.length []) h.text := by
  have htext : (Name.ofLabels h.labels).text = h.text := by
    rw [Name.text, Name.labels_ofLabels]
    rfl
  have hstands := Name.stands_wire before behind h.isLabel
  have hreturns := dnsParseName_short hstands near_ofLabels (htext ▸ hshort)
  rwa [spelled_of_dotted dotted_ofLabels, htext] at hreturns

/-- `char request[1024] = {0}` -/
def emptyRequest : Memory := List.replicate 1024 (some 0)

theorem overwrite_zeros {p b : Memory} {i n m : Nat} (hi : i = p.length) (hn : n = b.length + m) :
    Blocks.overwrite (p ++ List.replicate n (some 0)) i b =
      some (p ++ b ++ List.replicate m (some 0)) := by
  subst hn
  rw [Blocks.overwrite_append hi (by rw [List.length_replicate]; omega), List.drop_replicate,
    Nat.add_sub_cancel_left, List.append_assoc]

theorem size_ofNat {n : Nat} (h : n < 2 ^ 31) : size (Int32.ofNat n) = some n := by
  have hint : (Int32.ofNat n).toInt = n := Int32.toInt_ofNat_of_lt h
  have hpos : 0 ≤ Int32.ofNat n := by
    rw [Int32.le_iff_toInt_le, hint]
    exact Int.natCast_nonneg n
  rw [size, if_pos hpos, ← Int32.toNat_toInt, hint, Int.toNat_natCast]

theorem length_bytes (header : DnsHeader) : header.bytes.length = 12 := rfl

theorem dnsBuildRequest_eq (header : DnsHeader) {question : DnsQuestion} {m : Nat}
    (hname : question.qname = w.map some) (hsize : size question.length = some w.length)
    (hqtype : question.qtype.length = 2) (hqclass : question.qclass.length = 2)
    (hroom : 1008 = w.length + m) :
    dnsBuildRequest header question emptyRequest =
      some (question.length + 2 + 2 + 12, (header.bytes ++ (w ++ (question.qtype ++
        (question.qclass ++ List.replicate m 0)))).map some) := by
  have hslice : Blocks.slice question.qname 0 w.length = some (w.map some) := by
    simp [Blocks.slice, hname]
  have hheader : Blocks.overwrite emptyRequest 0 (header.bytes.map some) =
      some (header.bytes.map some ++ List.replicate 1012 (some 0)) :=
    overwrite_zeros (p := []) (n := 1024) (m := 1012) rfl (by rw [List.length_map, length_bytes])
  have hcopy := overwrite_zeros (p := header.bytes.map some) (b := w.map some) (i := 12)
    (n := 1012) (m := m + 4) (by rw [List.length_map, length_bytes])
    (by rw [List.length_map]; omega)
  have htype := overwrite_zeros (p := header.bytes.map some ++ w.map some)
    (b := question.qtype.map some) (i := 12 + w.length) (m := m + 2)
    (by simp [length_bytes]) (show m + 4 = _ by rw [List.length_map]; omega)
  have hclass := overwrite_zeros
    (p := header.bytes.map some ++ w.map some ++ question.qtype.map some)
    (b := question.qclass.map some) (i := 12 + w.length + 2) (m := m)
    (by simp only [List.length_append, List.length_map, length_bytes, hqtype])
    (show m + 2 = _ by rw [List.length_map]; omega)
  simp only [dnsBuildRequest, hheader, hsize, hslice, Nat.zero_add, hcopy, htype, hclass,
    Option.bind_eq_bind, Option.bind_some]
  simp

theorem Hostname.requested (h : Hostname) (hshort : h.text.length ≤ 127) (header : DnsHeader) :
    ∃ length behind, dnsBuildRequest header h.question emptyRequest =
      some (length, (header.bytes ++ (Name.wire h.labels ++ behind)).map some) := by
  have hwire := h.length_wire
  exact ⟨_, _, dnsBuildRequest_eq (m := 1008 - (Name.wire h.labels).length) header rfl
    (size_ofNat (by omega)) rfl rfl (by omega)⟩

theorem question_decoded (h : Hostname) (hshort : h.text.length ≤ 127) :
    ∃ question, Returns (fun turns => dnsCreateQuestion turns h.text) question ∧
      question.qname = (Name.wire h.labels).map some ∧
      question.length.toInt = (Name.wire h.labels).length ∧
      (∀ before behind, Returns (fun turns => dnsParseName
        (before ++ (Name.wire h.labels ++ behind)) turns before.length []) h.text) ∧
      ∀ header, ∃ length request,
        dnsBuildRequest header question emptyRequest = some (length, request.map some) ∧
          Returns (fun turns => dnsParseName request turns 12 []) h.text := by
  refine ⟨h.question, h.created, rfl, ?_, h.decoded hshort, fun header => ?_⟩
  · have hsize := h.length_wire
    exact Int32.toInt_ofNat_of_lt (by omega)
  · obtain ⟨length, behind, hrequest⟩ := h.requested hshort header
    exact ⟨length, _, hrequest, h.decoded hshort header.bytes behind⟩

def twoLabels : Hostname :=
  ⟨[[97], [98, 99]], by decide, by decide, by decide, by decide⟩

theorem question_decoded_two_labels :
    twoLabels.text = [97, 46, 98, 99] ∧
      ∃ question, Returns (fun turns => dnsCreateQuestion turns twoLabels.text) question ∧
        question.qname = ([1, 97, 2, 98, 99, 0] : List UInt8).map some ∧
        ∀ behind, Returns (fun turns => dnsParseName ([1, 97, 2, 98, 99, 0] ++ behind) turns 0 [])
          twoLabels.text := by
  refine ⟨by decide, ?_⟩
  obtain ⟨question, hcreated, hqname, -, hdecoded, -⟩ := question_decoded twoLabels (by decide)
  exact ⟨question, hcreated, hqname, fun behind => hdecoded [] behind⟩

end LearningCode.Dns
