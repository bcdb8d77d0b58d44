import LearningCode.Dns.Names

/-!
# The answers of a response

The cursor goes two bytes on for an owner, however it is written, and goes over
the data of addresses and CNAME records only. As long as that brings it to the
next record, the list has the addresses of the message.
-/

namespace LearningCode.Dns

open Rfc1035

variable {chunk m : Buffer} {d : Message} {r : Record} {ptr : Nat} {list : List DnsItem}

/-- The owner takes the two bytes that are skipped, and what is decoded of the
record is what it says. -/
structure Readable (r : Record) : Prop where
  owner : r.owner.size = 2
  near : Near r.owner
  target : ∀ name, r.data = .cname name → Near name
  clean : r.host ≠ none → Clean r.owner

/-- There is no data the cursor stops in front of. -/
def Skipped (r : Record) : Prop :=
  r.data.type = typeA ∨ r.data.type = typeCNAME ∨ r.data.size = 0

structure Followed (d : Message) : Prop where
  questions : ∀ q ∈ d.questions, q.name.Plain
  answers : ∀ r ∈ d.answers, Readable r
  skipped : ∀ r ∈ d.answers.dropLast, Skipped r

def entry (host : List UInt8 × List UInt8) : DnsItem := ⟨host.1, inetNtop host.2⟩

def stride (data : RData) : Nat :=
  if data.type = typeCNAME ∨ data.type = typeA then data.size else 0

theorem stride_eq_size : stride r.data = r.data.size ↔ Skipped r := by
  unfold stride Skipped
  split <;> omega

theorem landing : ptr + r.owner.size + 10 + stride r.data = ptr + r.size ↔ Skipped r := by
  rw [← stride_eq_size, Record.size]
  omega

def Short (r : Record) : Prop :=
  r.owner.text.length ≤ 127 ∧ ∀ name, r.data = .cname name → name.text.length ≤ 127

-- ---------------------------------------------------------------------------
-- One record
-- ---------------------------------------------------------------------------

theorem parseData_cname {name : Name} (hdata : r.data = .cname name)
    (h : r.data.Stands chunk ptr) (hread : Readable r) (hshort : Short r) :
    Returns (fun turns => parseData chunk turns (spelled r.owner) r.data.type r.data.size ptr list)
      (ptr + stride r.data, list ++ (r.host.map entry).toList) := by
  have hstands : name.Stands chunk ptr := by rwa [hdata] at h
  have hname := dnsParseName_short hstands (hread.target name hdata) (hshort.2 name hdata)
  have hhost : r.host = none := by simp [Record.host, hdata, RData.address]
  have hstride : stride r.data = r.data.size := stride_eq_size.mpr (.inr (.inl (by rw [hdata]; rfl)))
  have hnone : list ++ (r.host.map entry).toList = list := by simp [hhost]
  rw [hstride, hnone]
  refine (hname.map fun _ => (ptr + r.data.size, list)).congr fun turns => ?_
  rw [hdata]
  simp [parseData, RData.type, typeCNAME, DNS_CNAME, Option.map_eq_bind]

theorem parseData_bytes {type : Nat} {l : List UInt8} (hdata : r.data = .bytes type l)
    (h : r.data.Stands chunk ptr) (hread : Readable r) (hshort : Short r) (turns : Nat) :
    parseData chunk turns (spelled r.owner) r.data.type r.data.size ptr list =
      some (ptr + stride r.data, list ++ (r.host.map entry).toList) := by
  rw [hdata] at h
  obtain ⟨htype, hholds⟩ := h
  by_cases hA : type = typeA
  · subst hA
    by_cases hfour : l.length = 4
    · have hhost : r.host = some (r.owner.text, l) := by
        simp [Record.host, hdata, RData.address, hfour]
      have hclean : Clean r.owner := hread.clean (by simp [hhost])
      have hstring : cString (spelled r.owner) = some r.owner.text := by
        rw [spelled_of_clean hclean]
        exact cString_of_clean hclean hshort.1
      have hbytes := bytesAt_holds hholds
      rw [hfour] at hbytes
      simp [parseData, hhost, hdata, RData.type, RData.size, typeA, DNS_HOST, DNS_CNAME, hfour,
        hbytes, hstring, stride, entry]
    · have hhost : r.host = none := by simp [Record.host, hdata, RData.address, hfour]
      simp [parseData, hhost, hdata, RData.type, RData.size, typeA, DNS_HOST, DNS_CNAME, hfour,
        stride]
  · have hhost : r.host = none := by simp [Record.host, hdata, RData.address, hA]
    have hcode : type ≠ DNS_CNAME ∧ type ≠ DNS_HOST := ⟨htype, hA⟩
    simp [parseData, hhost, hdata, RData.type, hcode, stride, htype, hA]

theorem parseData_readable (list : List DnsItem) (h : r.data.Stands chunk ptr) (hread : Readable r)
    (hshort : Short r) :
    Returns (fun turns => parseData chunk turns (spelled r.owner) r.data.type r.data.size ptr list)
      (ptr + stride r.data, list ++ (r.host.map entry).toList) := by
  cases hdata : r.data with
  | cname name => exact hdata ▸ parseData_cname hdata h hread hshort
  | bytes type l => exact hdata ▸ .const (parseData_bytes hdata h hread hshort)

theorem parseAnswer_readable (list : List DnsItem) (h : r.Stands chunk ptr) (hread : Readable r)
    (hshort : Short r) :
    Returns (fun turns => parseAnswer chunk turns ptr list)
      (ptr + r.owner.size + 10 + stride r.data, list ++ (r.host.map entry).toList) := by
  obtain ⟨howner, htype, -, httl, -, hsize, hdata⟩ := h
  have hname := dnsParseName_short howner hread.near hshort.1
  rw [hread.owner] at htype httl hsize hdata ⊢
  let k := fun turns aname =>
    parseData chunk turns aname r.data.type r.data.size (ptr + 2 + 10) list
  refine (hname.bind (k := k) (parseData_readable list hdata hread hshort)).congr fun turns => ?_
  simp only [parseAnswer, htype, httl, hsize, Option.bind_eq_bind, Option.bind_some]
  rfl

theorem parseAnswer_lands_iff (h : r.Stands chunk ptr) (hread : Readable r) (hshort : Short r) :
    (∃ list', Returns (fun turns => parseAnswer chunk turns ptr list) (ptr + r.size, list')) ↔
      Skipped r := by
  have hrun := parseAnswer_readable list h hread hshort
  constructor
  · rintro ⟨list', hlands⟩
    exact landing.mp (congrArg Prod.fst (hrun.unique hlands))
  · intro hskip
    rw [landing.mpr hskip] at hrun
    exact ⟨_, hrun⟩

-- ---------------------------------------------------------------------------
-- The response
-- ---------------------------------------------------------------------------

/-- Induction on the answers: as long as there is another record, the cursor is
at its start. -/
theorem parseAnswers_hosts {l : List Record} (h : InTurn (Record.Stands chunk) Record.size l ptr)
    (hread : ∀ r ∈ l, Readable r) (hshort : ∀ r ∈ l, Short r) (hskip : ∀ r ∈ l.dropLast, Skipped r)
    (list : List DnsItem) :
    Returns (fun turns => parseAnswers chunk turns l.length ptr list)
      (list ++ (l.filterMap Record.host).map entry) := by
  induction l generalizing ptr list with
  | nil => exact .const fun _ => by simp [parseAnswers]
  | cons r l ih =>
    obtain ⟨hfirst, hlater⟩ := h
    have hanswer := parseAnswer_readable list hfirst (hread r List.mem_cons_self)
      (hshort r List.mem_cons_self)
    have hitems : list ++ ((r :: l).filterMap Record.host).map entry =
        list ++ (r.host.map entry).toList ++ (l.filterMap Record.host).map entry := by
      cases hhost : r.host <;> simp [hhost]
    rw [hitems]
    let k := fun turns (next : Nat × List DnsItem) =>
      parseAnswers chunk turns l.length next.1 next.2
    refine (hanswer.bind (k := k) ?_).congr fun _ => rfl
    cases l with
    | nil => exact .const fun _ => by simp [k, parseAnswers]
    | cons next l =>
      rw [landing.mpr (hskip r (by simp))]
      refine ih hlater (fun r hr => hread r (List.mem_cons_of_mem _ hr))
        (fun r hr => hshort r (List.mem_cons_of_mem _ hr)) (fun r hr => hskip r ?_) _
      simp [hr]

theorem skipQuestions_plain {l : List Question}
    (h : InTurn (Question.Stands chunk) Question.size l ptr) (hplain : ∀ q ∈ l, q.name.Plain) :
    Returns (fun turns => skipQuestions chunk turns l.length ptr)
      (ptr + total Question.size l) := by
  induction l generalizing ptr with
  | nil => exact .const fun _ => rfl
  | cons q l ih =>
    obtain ⟨⟨hname, -, -⟩, hlater⟩ := h
    have hskip := skipName_plain hname (hplain q List.mem_cons_self)
    have hrest := ih hlater fun q hq => hplain q (List.mem_cons_of_mem _ hq)
    have htotal : ptr + total Question.size (q :: l) =
        ptr + q.size + total Question.size l := by
      simp [total, Nat.add_assoc]
    rw [htotal]
    let k := fun turns next => skipQuestions chunk turns l.length (next + 4)
    exact (hskip.bind (k := k) hrest).congr fun _ => rfl

theorem received_stands (h : d.Stands m) : d.Stands (received m) := by
  obtain ⟨hquestions, hanswers, hq, ha⟩ := h
  refine ⟨word_append hquestions, word_append hanswers, hq.imp ?_, ha.imp fun _ _ => .append⟩
  exact fun q start ⟨hname, htype, hcls⟩ => ⟨hname.append, word_append htype, word_append hcls⟩

/-- Every message that is followed comes out as the addresses of its answers. -/
theorem dnsParseResponse_hosts (h : d.Stands m) (hshort : ∀ r ∈ d.answers, Short r)
    (hf : Followed d) :
    Returns (fun turns => dnsParseResponse turns (received m)) (d.hosts.map entry) := by
  obtain ⟨hquestions, hanswers, hq, ha⟩ := received_stands h
  have hskip := skipQuestions_plain hq hf.questions
  have hloop := parseAnswers_hosts ha hf.answers hshort hf.skipped []
  let k := fun turns ptr => parseAnswers (received m) turns d.answers.length ptr []
  refine (hskip.bind (k := k) hloop).congr fun turns => ?_
  simp [dnsParseResponse, hquestions, hanswers, k]

-- ---------------------------------------------------------------------------
-- Two responses
-- ---------------------------------------------------------------------------

def asked : Name := .label [98] (.label [97] .root)

def aliasBytes : List UInt8 :=
  [0, 1, 0x81, 0x80, 0, 1, 0, 2, 0, 0, 0, 0] ++ [1, 98, 1, 97, 0, 0, 1, 0, 1] ++
    [0xC0, 12, 0, 5, 0, 1, 0, 0, 0, 60, 0, 4, 1, 99, 0xC0, 14] ++
    [0xC0, 33, 0, 1, 0, 1, 0, 0, 0, 60, 0, 4, 10, 0, 0, 7]

def aliased : Message where
  questions := [⟨asked, 1, 1⟩]
  answers :=
    [⟨.pointer 12 asked, 1, (0, 60), .cname (.label [99] (.pointer 14 (.label [97] .root)))⟩,
      ⟨.pointer 33 (.label [99] (.pointer 14 (.label [97] .root))), 1, (0, 60),
        .bytes 1 [10, 0, 0, 7]⟩]

/-- The list has `c.a` at `10.0.0.7`. -/
theorem dnsParseResponse_hosts_aliased :
    Returns (fun turns => dnsParseResponse turns (received aliasBytes))
      [⟨[99, 46, 97], [49, 48, 46, 48, 46, 48, 46, 55]⟩] := by
  have hstands : aliased.Stands aliasBytes := by decide
  have hshort : ∀ r ∈ aliased.answers, Short r := by
    simp [aliased, Short, Name.text, Name.labels, asked, List.intercalate]
  have hread : ∀ r ∈ aliased.answers, Readable r := by
    intro r hr
    simp only [aliased, List.mem_cons, List.not_mem_nil, or_false] at hr
    obtain rfl | rfl := hr
    · exact ⟨rfl, by simp [Near, asked], by simp [Near], fun h => (h rfl).elim⟩
    · exact ⟨rfl, by simp [Near], by simp, by simp [Clean, Name.labels]⟩
  have hf : Followed aliased := ⟨by decide, hread, by simp [aliased, Skipped, RData.type]⟩
  exact dnsParseResponse_hosts hstands hshort hf

def textBytes : List UInt8 :=
  [0, 1, 0x81, 0x80, 0, 1, 0, 2, 0, 0, 0, 0] ++ [1, 98, 1, 97, 0, 0, 1, 0, 1] ++
    [0xC0, 12, 0, 16, 0, 1, 0, 0, 0, 60, 0, 2, 1, 120] ++
    [0xC0, 12, 0, 1, 0, 1, 0, 0, 0, 60, 0, 4, 10, 0, 0, 7]

def withText : Message where
  questions := [⟨asked, 1, 1⟩]
  answers :=
    [⟨.pointer 12 asked, 1, (0, 60), .bytes 16 [1, 120]⟩,
      ⟨.pointer 12 asked, 1, (0, 60), .bytes 1 [10, 0, 0, 7]⟩]

set_option maxRecDepth 8000 in
/-- The cursor stays in front of the text, and the address is not found. -/
theorem address_behind_text : withText.Stands textBytes ∧ (∀ r ∈ withText.answers, Short r) ∧
    textBytes.length ≤ 1024 ∧
    ¬Returns (fun turns => dnsParseResponse turns (received textBytes)) (withText.hosts.map entry) := by
  refine ⟨by decide, ?_, by decide, fun h => ?_⟩
  · simp [withText, Short, Name.text, Name.labels, asked, List.intercalate]
  · have hcode : Returns (fun turns => dnsParseResponse turns (received textBytes)) [] :=
      .of_add 8 fun _ => rfl
    have hone : withText.hosts.map entry ≠ [] := by decide
    exact hone (h.unique hcode)

end LearningCode.Dns
