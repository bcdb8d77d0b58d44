import LearningCode.Dns.Circles

/-!
# From one record to the next

What has to stand in the buffer so that the cursor goes over a question or an answer,
and where it comes to. What is asked of a name is a parameter.
-/

namespace LearningCode.Dns

open Faults Rfc1035

variable {chunk : Buffer} {room : Option Nat} {ok : Nat → Prop} {ptr next type datalen : Nat}
  {answers k : Nat} {aname l : List UInt8} {list list' : List DnsItem}

/-- Length bytes up to a zero, as the questions are skipped. -/
inductive Labels (chunk : Buffer) : (ptr next : Nat) → Prop
  | root {ptr : Nat} (h : chunk[ptr]? = some 0) : Labels chunk ptr (ptr + 1)
  | label {ptr next : Nat} {flag : UInt8} (h : chunk[ptr]? = some flag) (hne : flag ≠ 0)
      (hrest : Labels chunk (ptr + (flag.toNat + 1)) next) : Labels chunk ptr next

inductive Questions (chunk : Buffer) : (querys ptr next : Nat) → Prop
  | nil {ptr : Nat} : Questions chunk 0 ptr ptr
  | cons {querys ptr mid next : Nat} (h : Labels chunk ptr mid)
      (hrest : Questions chunk querys (mid + 4) next) : Questions chunk (querys + 1) ptr next

structure Fields (chunk : Buffer) (ptr type datalen : Nat) : Prop where
  type : word chunk (ptr + 2) = some type
  ttl : ∃ ttl, word chunk (ptr + 6) = some ttl
  length : word chunk (ptr + 10) = some datalen

structure Data (ok : Nat → Prop) (chunk : Buffer) (type datalen ptr next : Nat) : Prop where
  cname : type = DNS_CNAME → ok ptr
  host : type = DNS_HOST → datalen = 4 → ptr + 4 ≤ chunk.length
  next : next = if type = DNS_CNAME ∨ type = DNS_HOST then ptr + datalen else ptr

def Passes (ok : Nat → Prop) (chunk : Buffer) (ptr next : Nat) : Prop :=
  ok ptr ∧ ∃ type datalen, Fields chunk ptr type datalen ∧
    Data ok chunk type datalen (ptr + 12) next

def Named (room : Option Nat) (chunk : Buffer) (ptr : Nat) : Prop :=
  ∃ n, Reads chunk n ptr ∧ Fits room (spelled n).length

theorem Named.of_room (h : Named room chunk ptr) : Named none chunk ptr := by
  obtain ⟨n, hreads, -⟩ := h
  exact ⟨n, hreads, fits_none⟩

theorem Passes.imp {ok' : Nat → Prop} (h : Passes ok chunk ptr next) (himp : ∀ p, ok p → ok' p) :
    Passes ok' chunk ptr next := by
  obtain ⟨hok, type, datalen, hfields, hdata⟩ := h
  exact ⟨himp _ hok, type, datalen, hfields, fun hc => himp _ (hdata.cname hc), hdata.host,
    hdata.next⟩

namespace Access

theorem name_stops_iff :
    Stops (fun turns => dnsParseName room chunk turns ptr []) (.ok l) ↔
      ∃ n, Reads chunk n ptr ∧ spelled n = l ∧ Fits room l.length := by
  constructor
  · rintro ⟨enough, henough⟩
    have hvalue := value_eq_some.mpr (henough enough (Nat.le_refl _))
    have hempty : Fits room ([] : List UInt8).length := by
      cases room with
      | none => trivial
      | some room => exact Nat.zero_le _
    obtain ⟨n, hreads, rfl, hfits⟩ := reads_of_value hvalue hempty
    exact ⟨n, hreads, rfl, hfits⟩
  · rintro ⟨n, hreads, rfl, hfits⟩
    exact hreads.stops hfits

theorem named_iff :
    Named room chunk ptr ↔
      ∃ l, Stops (fun turns => dnsParseName room chunk turns ptr []) (.ok l) := by
  simp only [name_stops_iff, Named]
  constructor
  · rintro ⟨n, hreads, hfits⟩
    exact ⟨_, n, hreads, rfl, hfits⟩
  · rintro ⟨_, n, hreads, rfl, hfits⟩
    exact ⟨n, hreads, hfits⟩

-- ---------------------------------------------------------------------------
-- Questions
-- ---------------------------------------------------------------------------

theorem skipName_turn (chunk : Buffer) (ptr : Nat) :
    (chunk[ptr]? = none ∧ ∀ turns, (skipName chunk (turns + 1) ptr).run = some (.error .read)) ∨
      (chunk[ptr]? = some 0 ∧ ∀ turns, skipName chunk (turns + 1) ptr = pure (ptr + 1)) ∨
        ∃ flag, chunk[ptr]? = some flag ∧ flag ≠ 0 ∧
          ∀ turns, skipName chunk (turns + 1) ptr =
            skipName chunk turns (ptr + (flag.toNat + 1)) := by
  cases hflag : chunk[ptr]? with
  | none => exact .inl ⟨rfl, by simp [skipName, read, hflag]⟩
  | some flag =>
    by_cases hzero : flag = 0
    · subst hzero
      exact .inr (.inl ⟨rfl, by simp [skipName, read, hflag]⟩)
    · exact .inr (.inr ⟨flag, rfl, hzero, by simp [skipName, read, hflag, hzero]⟩)

theorem keeps_skipName : Keeps fun turns => skipName chunk turns ptr := by
  intro turns
  induction turns generalizing ptr with
  | zero =>
    intro r h
    cases h
  | succ turns ih =>
    intro r h
    dsimp only at h ⊢
    obtain ⟨-, hlast⟩ | ⟨-, hlast⟩ | ⟨flag, -, -, hturn⟩ := skipName_turn chunk ptr
    · rwa [hlast] at h ⊢
    · rwa [hlast] at h ⊢
    · rw [hturn] at h ⊢
      exact ih r h

theorem skipName_stops_iff :
    Stops (fun turns => skipName chunk turns ptr) (.ok next) ↔ Labels chunk ptr next := by
  constructor
  · rintro ⟨enough, henough⟩
    have h := henough enough (Nat.le_refl _)
    clear henough
    induction enough generalizing ptr with
    | zero => cases h
    | succ turns ih =>
      dsimp only at h
      obtain ⟨-, hlast⟩ | ⟨hzero, hlast⟩ | ⟨flag, hflag, hne, hturn⟩ := skipName_turn chunk ptr
      · cases (hlast turns).symm.trans h
      · rw [hlast] at h
        cases h
        exact .root hzero
      · rw [hturn] at h
        exact .label hflag hne (ih h)
  · intro h
    induction h with
    | @root ptr h => exact .last fun turns => by simp [skipName, read, h]
    | @label ptr next flag h hne _ ih =>
      exact Returns.turn ih fun turns => by simp [skipName, read, h, hne]

theorem skipName_ends : Ends fun turns => skipName chunk turns ptr := by
  induction hk : chunk.length - ptr using Nat.strong_induction_on generalizing ptr with
  | h k ih =>
    obtain ⟨-, hlast⟩ | ⟨-, hlast⟩ | ⟨flag, hflag, -, hturn⟩ := skipName_turn chunk ptr
    · exact ⟨_, .last hlast⟩
    · exact ⟨.ok (ptr + 1), .last fun turns => congrArg ExceptT.run (hlast turns)⟩
    · have hlt := (List.getElem?_eq_some_iff.mp hflag).1
      obtain ⟨r, hr⟩ := ih (chunk.length - (ptr + (flag.toNat + 1))) (by omega) rfl
      exact ⟨r, Returns.turn hr fun turns => congrArg _ (hturn turns)⟩

theorem keeps_skipQuestions {querys : Nat} :
    Keeps fun turns => skipQuestions chunk turns querys ptr := by
  induction querys generalizing ptr with
  | zero => exact .const
  | succ querys ih => exact keeps_skipName.bind fun _ => ih

theorem skipQuestions_stops_iff {querys : Nat} :
    Stops (fun turns => skipQuestions chunk turns querys ptr) (.ok next) ↔
      Questions chunk querys ptr next := by
  induction querys generalizing ptr with
  | zero =>
    rw [show (fun turns => skipQuestions chunk turns 0 ptr) = fun _ => pure ptr from rfl,
      stops_const, run_return]
    constructor
    · rintro ⟨⟩
      exact .nil
    · rintro ⟨⟩
      rfl
  | succ querys ih =>
    simp only [skipQuestions, stops_ok_bind keeps_skipName, skipName_stops_iff, ih]
    constructor
    · rintro ⟨mid, h, hrest⟩
      exact .cons h hrest
    · rintro (_ | ⟨h, hrest⟩)
      exact ⟨_, h, hrest⟩

theorem skipQuestions_ends {querys : Nat} :
    Ends fun turns => skipQuestions chunk turns querys ptr := by
  induction querys generalizing ptr with
  | zero => exact ⟨_, stops_const.mpr rfl⟩
  | succ querys ih => exact (ends_bind keeps_skipName).mpr ⟨skipName_ends, fun _ _ => ih⟩

-- ---------------------------------------------------------------------------
-- Answers
-- ---------------------------------------------------------------------------

theorem keeps_parseData :
    Keeps fun turns => parseData room chunk turns answers aname type datalen ptr list := by
  unfold parseData
  split
  · exact keeps_dnsParseName.bind fun _ => .const
  · exact .const

theorem keeps_parseAnswer :
    Keeps fun turns => parseAnswer room chunk turns answers ptr list :=
  keeps_dnsParseName.bind fun _ => Keeps.const.bind fun _ => Keeps.const.bind fun _ =>
    Keeps.const.bind fun _ => keeps_parseData

theorem addEntry_of_lt {item : DnsItem} (h : list.length < answers) :
    addEntry answers list item = pure (list ++ [item]) := if_pos h

theorem addEntry_ends {item : DnsItem} : Ends fun _ => addEntry answers list item := by
  unfold addEntry
  split
  · exact ⟨_, stops_const.mpr rfl⟩
  · exact ⟨_, stops_const.mpr rfl⟩

theorem data_of_stops (hcount : list.length < answers)
    (h : Stops (fun turns => parseData room chunk turns answers aname type datalen ptr list)
      (.ok (next, list'))) :
    Data (Named room chunk) chunk type datalen ptr next ∧ list'.length ≤ list.length + 1 := by
  unfold parseData at h
  split at h
  · rename_i hcname
    obtain ⟨l, hname, hrest⟩ := (stops_ok_bind keeps_dnsParseName).mp h
    cases stops_const.mp hrest
    have hhost : type ≠ DNS_HOST := by
      rintro rfl
      exact absurd hcname (by decide)
    exact ⟨⟨fun _ => named_iff.mpr ⟨l, hname⟩, fun hh => absurd hh hhost, by simp [hcname]⟩,
      Nat.le_succ _⟩
  · rename_i hcname
    have hrun := stops_const.mp h
    split at hrun
    · rename_i hhost
      split at hrun
      · rename_i hfour
        by_cases hin : ptr + 4 ≤ chunk.length
        · rw [hfour] at hrun
          simp only [read, bytesAt_of_le hin, bind_need_some, addEntry_of_lt hcount,
            pure_bind] at hrun
          cases hrun
          exact ⟨⟨fun hc => absurd hc hcname, fun _ _ => hin, by simp [hhost, hfour]⟩, by simp⟩
        · rw [hfour, read, bytesAt_of_lt (Nat.lt_of_not_le hin) (by decide)] at hrun
          cases hrun
      · rename_i hfour
        cases hrun
        exact ⟨⟨fun hc => absurd hc hcname, fun _ h4 => absurd h4 hfour, by simp [hhost]⟩,
          Nat.le_succ _⟩
    · rename_i hhost
      cases hrun
      exact ⟨⟨fun hc => absurd hc hcname, fun hh => absurd hh hhost, by simp [hcname, hhost]⟩,
        Nat.le_succ _⟩

theorem stops_of_data (aname : List UInt8) (hcount : list.length < answers)
    (h : Data (Named room chunk) chunk type datalen ptr next) :
    ∃ list', Stops (fun turns => parseData room chunk turns answers aname type datalen ptr list)
      (.ok (next, list')) := by
  obtain ⟨hname, hbytes, rfl⟩ := h
  unfold parseData
  by_cases hcname : type = DNS_CNAME
  · obtain ⟨l, hl⟩ := named_iff.mp (hname hcname)
    refine ⟨list, ?_⟩
    simp only [hcname, if_true, true_or]
    exact (stops_ok_bind keeps_dnsParseName).mpr ⟨l, hl, stops_const.mpr rfl⟩
  · by_cases hhost : type = DNS_HOST
    · by_cases hfour : datalen = 4
      · have hread := bytesAt_of_le (hbytes hhost hfour)
        refine ⟨list ++ [⟨aname.takeWhile (· ≠ 0), inetNtop ((chunk.drop ptr).take 4)⟩], ?_⟩
        simp only [hhost, if_true, hfour, read, hread, bind_need_some, addEntry_of_lt hcount,
          pure_bind, or_true]
        exact stops_const.mpr rfl
      · refine ⟨list, ?_⟩
        simp only [if_false, hhost, if_true, hfour, or_true]
        exact stops_const.mpr rfl
    · refine ⟨list, ?_⟩
      simp only [hcname, if_false, hhost, or_false]
      exact stops_const.mpr rfl

theorem parseData_ends_iff :
    (Ends fun turns => parseData room chunk turns answers aname type datalen ptr list) ↔
      (type = DNS_CNAME → Ends fun turns => dnsParseName room chunk turns ptr []) := by
  unfold parseData
  by_cases hcname : type = DNS_CNAME
  · simp only [hcname, if_true, true_imp_iff, ends_bind keeps_dnsParseName]
    exact ⟨fun h => h.1, fun h => ⟨h, fun _ _ => ⟨_, stops_const.mpr rfl⟩⟩⟩
  · simp only [hcname, if_false, false_imp_iff, iff_true]
    split
    · split
      · exact (ends_bind .const).mpr ⟨ends_need, fun _ _ =>
          (ends_bind .const).mpr ⟨addEntry_ends, fun _ _ => ⟨_, stops_const.mpr rfl⟩⟩⟩
      · exact ⟨_, stops_const.mpr rfl⟩
    · exact ⟨_, stops_const.mpr rfl⟩

theorem answer_passes (hcount : list.length < answers)
    (h : Stops (fun turns => parseAnswer room chunk turns answers ptr list) (.ok (next, list'))) :
    Passes (Named room chunk) chunk ptr next ∧ list'.length ≤ list.length + 1 := by
  obtain ⟨aname, hname, h⟩ := (stops_ok_bind keeps_dnsParseName).mp h
  obtain ⟨type, htype, h⟩ := (stops_ok_bind .const).mp h
  obtain ⟨ttl, httl, h⟩ := (stops_ok_bind .const).mp h
  obtain ⟨datalen, hlength, h⟩ := (stops_ok_bind .const).mp h
  obtain ⟨hdata, hle⟩ := data_of_stops hcount h
  exact ⟨⟨named_iff.mpr ⟨aname, hname⟩, type, datalen,
    ⟨stops_need.mp htype, ⟨ttl, stops_need.mp httl⟩, stops_need.mp hlength⟩, hdata⟩, hle⟩

theorem answer_of_passes (hcount : list.length < answers)
    (h : Passes (Named room chunk) chunk ptr next) :
    ∃ list', Stops (fun turns => parseAnswer room chunk turns answers ptr list)
      (.ok (next, list')) := by
  obtain ⟨hname, type, datalen, ⟨htype, ⟨ttl, httl⟩, hlength⟩, hdata⟩ := h
  obtain ⟨aname, hname⟩ := named_iff.mp hname
  obtain ⟨list', hstops⟩ := stops_of_data aname hcount hdata
  refine ⟨list', hname.bind ?_⟩
  exact (stops_need.mpr htype).bind ((stops_need.mpr httl).bind
    ((stops_need.mpr hlength).bind hstops))

theorem parseAnswer_ends_iff :
    (Ends fun turns => parseAnswer room chunk turns answers ptr list) ↔
      (Ends fun turns => dnsParseName room chunk turns ptr []) ∧
        (Named room chunk ptr → ∀ datalen, Fields chunk ptr DNS_CNAME datalen →
          Ends fun turns => dnsParseName room chunk turns (ptr + 12) []) := by
  unfold parseAnswer
  rw [ends_bind keeps_dnsParseName]
  refine and_congr_right fun _ => ⟨?_, ?_⟩
  · intro h hnamed datalen hfields
    obtain ⟨aname, hname⟩ := named_iff.mp hnamed
    obtain ⟨ttl, httl⟩ := hfields.ttl
    have htype := ((ends_bind .const).mp (h aname hname)).2 _ (stops_need.mpr hfields.type)
    have hdatalen := ((ends_bind .const).mp htype).2 _ (stops_need.mpr httl)
    have hdata := ((ends_bind .const).mp hdatalen).2 _ (stops_need.mpr hfields.length)
    exact parseData_ends_iff.mp hdata rfl
  · intro h aname hname
    refine (ends_bind .const).mpr ⟨ends_need, fun type htype => ?_⟩
    refine (ends_bind .const).mpr ⟨ends_need, fun ttl httl => ?_⟩
    refine (ends_bind .const).mpr ⟨ends_need, fun datalen hlength => ?_⟩
    refine parseData_ends_iff.mpr fun hcname => ?_
    subst hcname
    exact h (named_iff.mpr ⟨aname, hname⟩) datalen
      ⟨stops_need.mp htype, ⟨ttl, stops_need.mp httl⟩, stops_need.mp hlength⟩

end Access

end LearningCode.Dns
