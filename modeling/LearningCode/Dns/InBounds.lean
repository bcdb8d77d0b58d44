import LearningCode.Dns.Passing

/-!
# Parsing without end

The questions are always passed or left. A response keeps the parser for good if and
only if one of the names it decodes has a pointer that leads back to itself.
-/

namespace LearningCode.Dns

open Faults Rfc1035

variable {chunk : Buffer} {room : Option Nat} {answers k ptr : Nat} {list : List DnsItem}

theorem length_received {m : List UInt8} (h : m.length ≤ 1024) : (received m).length = 1024 := by
  rw [received, List.length_append, List.length_replicate]
  omega

/-- A name is decoded at `p` among the answers that begin at `ptr`: an owner, a CNAME
record behind an owner, or one of a later answer. -/
inductive Decodes (chunk : Buffer) : (answers ptr p : Nat) → Prop
  | owner {answers ptr : Nat} : Decodes chunk (answers + 1) ptr ptr
  | cname {answers ptr datalen : Nat} (h : Named none chunk ptr)
      (hfields : Fields chunk ptr DNS_CNAME datalen) : Decodes chunk (answers + 1) ptr (ptr + 12)
  | later {answers ptr next p : Nat} (h : Passes (Named none chunk) chunk ptr next)
      (hrest : Decodes chunk answers next p) : Decodes chunk (answers + 1) ptr p

def NameAt (buffer : Buffer) (p : Nat) : Prop :=
  ∃ querys answers ptr, word buffer 4 = some querys ∧ word buffer 6 = some answers ∧
    Questions buffer querys 12 ptr ∧ Decodes buffer answers ptr p

def NameEnds (chunk : Buffer) (ptr : Nat) (out : List UInt8) : Prop :=
  Ends fun turns => Access.dnsParseName none chunk turns ptr out

def ResponseEnds (buffer : Buffer) : Prop :=
  Ends fun turns => Access.dnsParseResponse none turns buffer

/-- Induction on the answers that are left; a write that goes wrong ends it the
sooner. -/
theorem answers_end (hcount : list.length + k ≤ answers)
    (h : ∀ p, Decodes chunk k ptr p → ¬Circles chunk p) :
    Ends fun turns => Access.parseAnswers room chunk turns answers k ptr list := by
  induction k generalizing ptr list with
  | zero => exact ⟨_, stops_const.mpr rfl⟩
  | succ k ih =>
    have hlt : list.length < answers := by omega
    refine (ends_bind Access.keeps_parseAnswer).mpr ⟨?_, ?_⟩
    · refine Access.parseAnswer_ends_iff.mpr ⟨name_ends (h ptr .owner), ?_⟩
      exact fun hnamed datalen hfields => name_ends (h _ (.cname hnamed.of_room hfields))
    · rintro ⟨next, list'⟩ hstops
      obtain ⟨hpasses, hle⟩ := Access.answer_passes hlt hstops
      have hcount' : list'.length + k ≤ answers := by omega
      exact ih hcount' fun p hp => h p (.later (hpasses.imp fun _ => Named.of_room) hp)

theorem not_circles_of_answers_end (hcount : list.length + k ≤ answers)
    (h : Ends fun turns => Access.parseAnswers none chunk turns answers k ptr list) :
    ∀ p, Decodes chunk k ptr p → ¬Circles chunk p := by
  induction k generalizing ptr list with
  | zero => exact fun p hp => (nomatch hp)
  | succ k ih =>
    have hlt : list.length < answers := by omega
    obtain ⟨hanswer, hlater⟩ := (ends_bind Access.keeps_parseAnswer).mp h
    obtain ⟨howner, hcname⟩ := Access.parseAnswer_ends_iff.mp hanswer
    intro p hp
    cases hp with
    | owner => exact name_ends_iff.mp howner
    | cname hnamed hfields => exact name_ends_iff.mp (hcname hnamed _ hfields)
    | @later _ _ next _ hpasses hrest =>
      obtain ⟨list', hstops⟩ := Access.answer_of_passes hlt hpasses
      have hle := (Access.answer_passes hlt hstops).2
      have hcount' : list'.length + k ≤ answers := by omega
      exact ih hcount' (hlater (next, list') hstops) p hrest

theorem response_ends (room : Option Nat) (h : ∀ p, NameAt chunk p → ¬Circles chunk p) :
    Ends fun turns => Access.dnsParseResponse room turns chunk := by
  refine (ends_bind .const).mpr ⟨ends_need, fun querys hquerys => ?_⟩
  refine (ends_bind .const).mpr ⟨ends_need, fun answers hanswers => ?_⟩
  refine (ends_bind Access.keeps_skipQuestions).mpr
    ⟨Access.skipQuestions_ends, fun ptr hskip => ?_⟩
  refine answers_end (Nat.le_of_eq (Nat.zero_add _)) fun p hp => ?_
  exact h p ⟨querys, answers, ptr, stops_need.mp hquerys, stops_need.mp hanswers,
    Access.skipQuestions_stops_iff.mp hskip, hp⟩

theorem response_ends_iff :
    ResponseEnds chunk ↔ ∀ p, NameAt chunk p → ¬Circles chunk p := by
  refine ⟨?_, response_ends none⟩
  rintro h p ⟨querys, answers, ptr, hquerys, hanswers, hskip, hp⟩
  have hbehind := ((ends_bind .const).mp h).2 _ (stops_need.mpr hquerys)
  have hbehind := ((ends_bind .const).mp hbehind).2 _ (stops_need.mpr hanswers)
  have hbehind := ((ends_bind Access.keeps_skipQuestions).mp hbehind).2 _
    (Access.skipQuestions_stops_iff.mpr hskip)
  exact not_circles_of_answers_end (Nat.le_of_eq (Nat.zero_add _)) hbehind p hp

/-- A read outside the buffer ends it as well, a write behind a name does not. -/
theorem parsing_ends_iff (chunk : Buffer) :
    (∀ ptr out, NameEnds chunk ptr out ↔ ¬Circles chunk ptr) ∧
      (ResponseEnds chunk ↔ ∀ p, NameAt chunk p → ¬Circles chunk p) :=
  ⟨fun _ _ => name_ends_iff, response_ends_iff⟩

/-- The owner of the only answer is a pointer to itself. -/
theorem pointer_to_itself :
    (received [0, 0, 0, 0, 0, 0, 0, 1, 0, 0, 0, 0, 0xC0, 12]).length = 1024 ∧
      ¬NameEnds (received [0, 0, 0, 0, 0, 0, 0, 1, 0, 0, 0, 0, 0xC0, 12]) 12 [] ∧
      ¬ResponseEnds (received [0, 0, 0, 0, 0, 0, 0, 1, 0, 0, 0, 0, 0xC0, 12]) := by
  have hcircles : Circles (received [0, 0, 0, 0, 0, 0, 0, 1, 0, 0, 0, 0, 0xC0, 12]) 12 :=
    ⟨12, 12, .refl, by decide, .refl⟩
  refine ⟨length_received (by decide), fun h => name_ends_iff.mp h hcircles, fun h => ?_⟩
  exact response_ends_iff.mp h 12 ⟨0, 1, 12, by decide, by decide, .nil, .owner⟩ hcircles

end LearningCode.Dns

/-!
## Parsing within the buffer

What keeps every access of the parser inside: names that are read within the buffer
and leave room for the final zero, and records that lie where the cursor looks for them.
-/

namespace LearningCode.Dns

open Faults Rfc1035

variable {chunk buffer : Buffer} {room : Option Nat} {answers k ptr : Nat}
  {list list' : List DnsItem}

/-- `aname` and `cname` have 128 bytes, the last of them for the zero. -/
def nameRoom : Option Nat := some 127

def InBounds (buffer : Buffer) : Prop :=
  ∀ fault, ¬Stops (fun turns => Access.dnsParseResponse nameRoom turns buffer) (.error fault)

inductive Answers (ok : Nat → Prop) (chunk : Buffer) : (answers ptr : Nat) → Prop
  | nil {ptr : Nat} : Answers ok chunk 0 ptr
  | cons {answers ptr next : Nat} (h : Passes ok chunk ptr next)
      (hrest : Answers ok chunk answers next) : Answers ok chunk (answers + 1) ptr

/-- As many questions and answers as the header says stand in the buffer, and there is
room for the names. -/
def Legible (room : Option Nat) (buffer : Buffer) : Prop :=
  ∃ querys answers ptr, word buffer 4 = some querys ∧ word buffer 6 = some answers ∧
    Questions buffer querys 12 ptr ∧ Answers (Named room buffer) buffer answers ptr

theorem answers_of_stops (hcount : list.length + k ≤ answers)
    (h : Stops (fun turns => Access.parseAnswers room chunk turns answers k ptr list)
      (.ok list')) : Answers (Named room chunk) chunk k ptr := by
  induction k generalizing ptr list with
  | zero => exact .nil
  | succ k ih =>
    have hlt : list.length < answers := by omega
    obtain ⟨⟨next, list₁⟩, hanswer, hrest⟩ := (stops_ok_bind Access.keeps_parseAnswer).mp h
    obtain ⟨hpasses, hle⟩ := Access.answer_passes hlt hanswer
    have hcount' : list₁.length + k ≤ answers := by omega
    exact .cons hpasses (ih hcount' hrest)

theorem stops_of_answers (list : List DnsItem) (hcount : list.length + k ≤ answers)
    (h : Answers (Named room chunk) chunk k ptr) :
    ∃ list', Stops (fun turns => Access.parseAnswers room chunk turns answers k ptr list)
      (.ok list') := by
  induction h generalizing list with
  | nil => exact ⟨list, stops_const.mpr rfl⟩
  | @cons k ptr next hpasses _ ih =>
    have hlt : list.length < answers := by omega
    obtain ⟨list₁, hanswer⟩ := Access.answer_of_passes hlt hpasses
    have hle := (Access.answer_passes hlt hanswer).2
    have hcount' : list₁.length + k ≤ answers := by omega
    obtain ⟨list', hrest⟩ := ih list₁ hcount'
    exact ⟨list', (stops_ok_bind Access.keeps_parseAnswer).mpr ⟨_, hanswer, hrest⟩⟩

theorem legible_iff_stops :
    Legible room buffer ↔
      ∃ list, Stops (fun turns => Access.dnsParseResponse room turns buffer) (.ok list) := by
  constructor
  · rintro ⟨querys, answers, ptr, hquerys, hanswers, hskip, h⟩
    obtain ⟨list, hlist⟩ := stops_of_answers [] (Nat.le_of_eq (Nat.zero_add _)) h
    exact ⟨list, (stops_need.mpr hquerys).bind ((stops_need.mpr hanswers).bind
      ((Access.skipQuestions_stops_iff.mpr hskip).bind hlist))⟩
  · rintro ⟨list, h⟩
    obtain ⟨querys, hquerys, h⟩ := (stops_ok_bind .const).mp h
    obtain ⟨answers, hanswers, h⟩ := (stops_ok_bind .const).mp h
    obtain ⟨ptr, hskip, h⟩ := (stops_ok_bind Access.keeps_skipQuestions).mp h
    exact ⟨querys, answers, ptr, stops_need.mp hquerys, stops_need.mp hanswers,
      Access.skipQuestions_stops_iff.mp hskip,
      answers_of_stops (Nat.le_of_eq (Nat.zero_add _)) h⟩

theorem Legible.ends (h : Legible room buffer) : ResponseEnds buffer := by
  obtain ⟨querys, answers, ptr, hquerys, hanswers, hskip, h⟩ := h
  have hnone : Legible none buffer := by
    refine ⟨querys, answers, ptr, hquerys, hanswers, hskip, ?_⟩
    clear hanswers hskip
    induction h with
    | nil => exact .nil
    | cons hpasses _ ih => exact .cons (hpasses.imp fun _ => Named.of_room) ih
  obtain ⟨list, hlist⟩ := legible_iff_stops.mp hnone
  exact ⟨_, hlist⟩

theorem Reads.spelled_eq {n n' : Name} (h : Reads chunk n ptr) (h' : Reads chunk n' ptr) :
    spelled n = spelled n' := by
  have hn := h.stops (fits_none (n := ([] ++ spelled n).length))
  have hn' := h'.stops (fits_none (n := ([] ++ spelled n').length))
  exact Except.ok.inj (hn.unique hn')

theorem InBounds.legible (h : InBounds buffer) (hends : ResponseEnds buffer) :
    Legible nameRoom buffer := by
  obtain ⟨outcome, hstops⟩ := response_ends nameRoom (response_ends_iff.mp hends)
  cases outcome with
  | error fault => exact absurd hstops (h fault)
  | ok list => exact legible_iff_stops.mpr ⟨list, hstops⟩

theorem Legible.in_bounds (h : Legible nameRoom buffer) : InBounds buffer := by
  obtain ⟨list, hlist⟩ := legible_iff_stops.mp h
  intro fault hfault
  cases hlist.unique hfault

theorem in_bounds_iff (h : ResponseEnds buffer) : InBounds buffer ↔ Legible nameRoom buffer :=
  ⟨fun hin => hin.legible h, Legible.in_bounds⟩

def pointedOwner : Buffer :=
  received [0, 0, 0, 0, 0, 0, 0, 1, 0, 0, 0, 0, 0xC0, 28, 0, 1, 0, 1, 0, 0, 0, 0, 0, 4,
    127, 0, 0, 1, 1, 97, 0]

theorem in_bounds_iff_pointed : InBounds pointedOwner := by
  have howner : (Name.pointer 28 (.label [97] .root)).Stands pointedOwner 12 := by decide
  have hpasses : Passes (Named nameRoom pointedOwner) pointedOwner 12 28 := by
    refine ⟨⟨_, reads_of_near howner ⟨by decide, trivial⟩, by decide⟩, 1, 4, ?_, ?_⟩
    · exact ⟨by decide, ⟨0, by decide⟩, by decide⟩
    · refine ⟨fun h => (nomatch h), fun _ _ => ?_, rfl⟩
      rw [pointedOwner, length_received (by decide)]
      decide
  have hlegible : Legible nameRoom pointedOwner :=
    ⟨0, 1, 12, by decide, by decide, .nil, .cons hpasses .nil⟩
  exact (in_bounds_iff hlegible.ends).mpr hlegible

def longName : Name :=
  .label (.replicate 63 97) (.label (.replicate 63 98) (.label (.replicate 63 99) .root))

def longOwner : Buffer :=
  received ([0, 0, 0, 0, 0, 0, 0, 1, 0, 0, 0, 0] ++ 63 :: .replicate 63 97 ++
    63 :: .replicate 63 98 ++ 63 :: .replicate 63 99)

theorem long_owner : ResponseEnds longOwner ∧ ¬InBounds longOwner := by
  have hstands : longName.Stands longOwner 12 := by decide +kernel
  have hreads : Reads longOwner longName 12 := reads_of_near hstands trivial
  have hpasses : Passes (Named none longOwner) longOwner 12 24 :=
    ⟨⟨_, hreads, trivial⟩, 24929, 24929, ⟨by decide +kernel, ⟨24929, by decide +kernel⟩,
      by decide +kernel⟩, fun h => absurd h (by decide), fun h => absurd h (by decide), rfl⟩
  have hends : ResponseEnds longOwner :=
    Legible.ends ⟨0, 1, 12, by decide +kernel, by decide +kernel, .nil, .cons hpasses .nil⟩
  refine ⟨hends, fun hin => ?_⟩
  obtain ⟨querys, answers, ptr, hquerys, hanswers, hskip, h⟩ := hin.legible hends
  obtain rfl : querys = 0 := by
    have hzero : word longOwner 4 = some 0 := by decide +kernel
    exact Option.some.inj (hquerys.symm.trans hzero)
  obtain rfl : answers = 1 := by
    have hone : word longOwner 6 = some 1 := by decide +kernel
    exact Option.some.inj (hanswers.symm.trans hone)
  cases hskip
  obtain ⟨n, hn, hfits⟩ : Named nameRoom longOwner 12 := by
    cases h with
    | cons hpasses _ => exact hpasses.1
  rw [hn.spelled_eq hreads] at hfits
  exact absurd hfits (by decide +kernel)

end LearningCode.Dns
