import LearningCode.Dns.Model
import LearningCode.Lib.Faults

/-!
# Where the parser reads and writes

The functions of the model once more, which tell the turns that are used up from an
access that goes wrong. How much room a decoded name has is a parameter: with none
given it is written wherever the code writes it.
-/

namespace LearningCode.Dns

open Faults Rfc1035

inductive Fault
  /-- Through `ptr`, outside the buffer. -/
  | read
  /-- Behind the room of a name. -/
  | write
  /-- Behind the last entry of `list`. -/
  | entry
  deriving DecidableEq

abbrev Parse (α : Type) := Run Fault α

def Fits : (room : Option Nat) → (length : Nat) → Prop
  | none, _ => True
  | some room, length => length ≤ room

instance : (room : Option Nat) → (length : Nat) → Decidable (Fits room length)
  | none, _ => .isTrue trivial
  | some _, _ => inferInstanceAs (Decidable (_ ≤ _))

@[simp] theorem fits_none {n : Nat} : Fits none n := trivial

@[simp] theorem fits_some {room n : Nat} : Fits (some room) n ↔ n ≤ room := Iff.rfl

theorem Fits.of_le {room : Option Nat} {m n : Nat} (h : Fits room n) (hle : m ≤ n) :
    Fits room m := by
  cases room with
  | none => trivial
  | some room => exact Nat.le_trans hle h

namespace Access

def read {α : Type} : Option α → Parse α := need .read

def write (room : Option Nat) (out l : List UInt8) : Parse (List UInt8) :=
  if Fits room (out ++ l).length then return out ++ l else throw .write

def writeDot (room : Option Nat) (next : UInt8) (out : List UInt8) : Parse (List UInt8) :=
  if next ≠ 0 then write room out [46] else return out

def dnsParseName (room : Option Nat) (chunk : Buffer) :
    (turns ptr : Nat) → (out : List UInt8) → Parse (List UInt8)
  | 0, _, _ => running
  | turns + 1, ptr, out => do
    let flag ← read chunk[ptr]?
    if flag = 0 then return out
    else if isPointer flag then do
      let n ← read chunk[ptr + 1]?
      dnsParseName room chunk turns n.toNat out
    else do
      let ptr := ptr + 1
      let out ← write room out (← read (bytesAt chunk ptr flag.toNat))
      let ptr := ptr + flag.toNat
      let out ← writeDot room (← read chunk[ptr]?) out
      dnsParseName room chunk turns ptr out

def skipName (chunk : Buffer) : (turns ptr : Nat) → Parse Nat
  | 0, _ => running
  | turns + 1, ptr => do
    let flag ← read chunk[ptr]?
    let ptr := ptr + (flag.toNat + 1)
    if flag = 0 then return ptr else skipName chunk turns ptr

def skipQuestions (chunk : Buffer) (turns : Nat) : (querys ptr : Nat) → Parse Nat
  | 0, ptr => return ptr
  | querys + 1, ptr => do
    let ptr ← skipName chunk turns ptr
    skipQuestions chunk turns querys (ptr + 4)

/-- `list[cnt]`, and `cnt++`, where `calloc` was asked for `answers` entries. -/
def addEntry (answers : Nat) (list : List DnsItem) (item : DnsItem) : Parse (List DnsItem) :=
  if list.length < answers then return list ++ [item] else throw .entry

/-- `strlen` of the name ends at a NUL, at the latest behind the name. -/
def parseData (room : Option Nat) (chunk : Buffer) (turns answers : Nat) (aname : List UInt8)
    (type datalen ptr : Nat) (list : List DnsItem) : Parse (Nat × List DnsItem) :=
  if type = DNS_CNAME then do
    let _ ← dnsParseName room chunk turns ptr []
    return (ptr + datalen, list)
  else if type = DNS_HOST then
    if datalen = 4 then do
      let netip ← read (bytesAt chunk ptr datalen)
      let list ← addEntry answers list ⟨aname.takeWhile (· ≠ 0), inetNtop netip⟩
      return (ptr + datalen, list)
    else return (ptr + datalen, list)
  else return (ptr, list)

def parseAnswer (room : Option Nat) (chunk : Buffer) (turns answers ptr : Nat)
    (list : List DnsItem) : Parse (Nat × List DnsItem) := do
  let aname ← dnsParseName room chunk turns ptr []
  let ptr := ptr + 2
  let type ← read (word chunk ptr)
  let ptr := ptr + 4
  let _ttl ← read (word chunk ptr)
  let ptr := ptr + 4
  let datalen ← read (word chunk ptr)
  let ptr := ptr + 2
  parseData room chunk turns answers aname type datalen ptr list

def parseAnswers (room : Option Nat) (chunk : Buffer) (turns answers : Nat) :
    (left ptr : Nat) → List DnsItem → Parse (List DnsItem)
  | 0, _, list => return list
  | left + 1, ptr, list => do
    let (ptr, list) ← parseAnswer room chunk turns answers ptr list
    parseAnswers room chunk turns answers left ptr list

def dnsParseResponse (room : Option Nat) (turns : Nat) (buffer : Buffer) :
    Parse (List DnsItem) := do
  let ptr := 4
  let querys ← read (word buffer ptr)
  let ptr := ptr + 2
  let answers ← read (word buffer ptr)
  let ptr := ptr + 6
  let ptr ← skipQuestions buffer turns querys ptr
  parseAnswers room buffer turns answers answers ptr []

-- ---------------------------------------------------------------------------
-- The values are those of the model
-- ---------------------------------------------------------------------------

variable {chunk : Buffer} {room : Option Nat} {turns ptr : Nat} {out l : List UInt8}

@[simp] theorem value_read {α : Type} {o : Option α} : value (read o) = o := value_need

theorem value_write : value (write (some 128) out l) = put out l := by
  unfold write put
  by_cases h : (out ++ l).length ≤ 128
  · rw [if_pos (fits_some.mpr h), if_pos h, value_return]
  · rw [if_neg (mt fits_some.mp h), if_neg h, value_throw]

theorem value_writeDot {next : UInt8} :
    value (writeDot (some 128) next out) = putDot next out := by
  unfold writeDot putDot
  by_cases h : next = 0
  · simp [h]
  · simp [h, value_write]

theorem value_dnsParseName :
    value (dnsParseName (some 128) chunk turns ptr out) = Dns.dnsParseName chunk turns ptr out := by
  induction turns generalizing ptr out with
  | zero => rfl
  | succ turns ih =>
    rw [dnsParseName, Dns.dnsParseName]
    simp only [value_bind, value_read, Option.bind_eq_bind]
    refine Option.bind_congr fun flag _ => ?_
    by_cases hzero : flag = 0
    · simp only [if_pos hzero, value_return]
    · simp only [if_neg hzero]
      cases hptr : isPointer flag with
      | true => simp [ih]
      | false => simp [ih, value_write, value_writeDot]

-- ---------------------------------------------------------------------------
-- A run that stays inside is one of the model
-- ---------------------------------------------------------------------------

variable {answers left next : Nat} {out' : List UInt8} {list list' : List DnsItem}

theorem value_write_before_zero (h : value (write (some 127) out l) = some out') :
    put out l = some out' ∧ out'.length ≤ 127 := by
  rw [write] at h
  split_ifs at h with hfits
  · obtain rfl := Option.some.inj h
    exact ⟨if_pos (Nat.le_succ_of_le (fits_some.mp hfits)), fits_some.mp hfits⟩
  · cases h

theorem value_writeDot_before_zero {b : UInt8} (hout : out.length ≤ 127)
    (h : value (writeDot (some 127) b out) = some out') :
    putDot b out = some out' ∧ out'.length ≤ 127 := by
  rw [writeDot] at h
  rw [putDot]
  split_ifs at h ⊢
  · exact value_write_before_zero h
  · obtain rfl := Option.some.inj h
    exact ⟨rfl, hout⟩

theorem dnsParseName_of_value (hout : out.length ≤ 127)
    (h : value (dnsParseName (some 127) chunk turns ptr out) = some l) :
    Dns.dnsParseName chunk turns ptr out = some l ∧ l.length ≤ 127 := by
  induction turns generalizing ptr out with
  | zero => cases h
  | succ turns ih =>
    rw [dnsParseName, value_bind, value_read] at h
    obtain ⟨flag, hflag, h⟩ := Option.bind_eq_some_iff.mp h
    simp only [Dns.dnsParseName, hflag, Option.bind_eq_bind, Option.bind_some]
    split_ifs at h ⊢
    · obtain rfl := Option.some.inj h
      exact ⟨rfl, hout⟩
    · rw [value_bind, value_read] at h
      obtain ⟨n, hn, h⟩ := Option.bind_eq_some_iff.mp h
      simp only [hn, Option.bind_some]
      exact ih hout h
    · simp only [value_bind, value_read] at h
      obtain ⟨text, htext, h⟩ := Option.bind_eq_some_iff.mp h
      obtain ⟨out₁, hput, h⟩ := Option.bind_eq_some_iff.mp h
      obtain ⟨b, hb, h⟩ := Option.bind_eq_some_iff.mp h
      obtain ⟨out₂, hdot, h⟩ := Option.bind_eq_some_iff.mp h
      obtain ⟨hput, hroom⟩ := value_write_before_zero hput
      obtain ⟨hdot, hroom⟩ := value_writeDot_before_zero hroom hdot
      simp only [htext, hput, hb, hdot, Option.bind_some]
      exact ih hroom h

theorem value_skipName : value (skipName chunk turns ptr) = Dns.skipName chunk turns ptr := by
  induction turns generalizing ptr with
  | zero => rfl
  | succ turns ih =>
    rw [skipName, Dns.skipName, value_bind, value_read]
    refine Option.bind_congr fun flag _ => ?_
    split_ifs
    · rfl
    · exact ih

theorem value_skipQuestions {querys : Nat} :
    value (skipQuestions chunk turns querys ptr) = Dns.skipQuestions chunk turns querys ptr := by
  induction querys generalizing ptr with
  | zero => rfl
  | succ querys ih =>
    rw [skipQuestions, Dns.skipQuestions, value_bind, value_skipName]
    exact Option.bind_congr fun ptr _ => ih

theorem cString_of_le (h : out.length ≤ 127) : cString out = some (out.takeWhile (· ≠ 0)) :=
  if_pos (Nat.lt_succ_of_le (Nat.le_trans (List.takeWhile_prefix _).length_le h))

theorem parseData_of_value {aname : List UInt8} {type datalen : Nat} (hname : aname.length ≤ 127)
    (h : value (parseData (some 127) chunk turns answers aname type datalen ptr list) =
      some (next, list')) :
    Dns.parseData chunk turns aname type datalen ptr list = some (next, list') := by
  rw [parseData] at h
  rw [Dns.parseData]
  split_ifs at h ⊢
  · rw [value_bind] at h
    obtain ⟨cname, hcname, h⟩ := Option.bind_eq_some_iff.mp h
    rw [(dnsParseName_of_value (Nat.zero_le _) hcname).1]
    exact h
  · rw [value_bind, value_read] at h
    obtain ⟨netip, hnetip, h⟩ := Option.bind_eq_some_iff.mp h
    rw [value_bind, addEntry] at h
    obtain ⟨list₁, hentry, h⟩ := Option.bind_eq_some_iff.mp h
    split_ifs at hentry
    · obtain rfl := Option.some.inj hentry
      rw [hnetip, cString_of_le hname]
      exact h
    · cases hentry
  · exact h
  · exact h

theorem parseAnswer_of_value
    (h : value (parseAnswer (some 127) chunk turns answers ptr list) = some (next, list')) :
    Dns.parseAnswer chunk turns ptr list = some (next, list') := by
  simp only [parseAnswer, value_bind, value_read] at h
  obtain ⟨aname, hname, h⟩ := Option.bind_eq_some_iff.mp h
  obtain ⟨type, htype, h⟩ := Option.bind_eq_some_iff.mp h
  obtain ⟨ttl, httl, h⟩ := Option.bind_eq_some_iff.mp h
  obtain ⟨datalen, hdatalen, h⟩ := Option.bind_eq_some_iff.mp h
  obtain ⟨hname, hroom⟩ := dnsParseName_of_value (Nat.zero_le _) hname
  simp only [Dns.parseAnswer, hname, htype, httl, hdatalen, Option.bind_eq_bind, Option.bind_some]
  exact parseData_of_value hroom h

theorem parseAnswers_of_value
    (h : value (parseAnswers (some 127) chunk turns answers left ptr list) = some list') :
    Dns.parseAnswers chunk turns left ptr list = some list' := by
  induction left generalizing ptr list with
  | zero => exact h
  | succ left ih =>
    rw [parseAnswers, value_bind] at h
    obtain ⟨⟨next, list₁⟩, hanswer, h⟩ := Option.bind_eq_some_iff.mp h
    rw [Dns.parseAnswers, parseAnswer_of_value hanswer]
    exact ih h

/-- What is returned without a wrong access is what the model returns. -/
theorem dnsParseResponse_of_value {buffer : Buffer}
    (h : value (dnsParseResponse (some 127) turns buffer) = some list) :
    Dns.dnsParseResponse turns buffer = some list := by
  simp only [dnsParseResponse, value_bind, value_read, value_skipQuestions] at h
  obtain ⟨querys, hquerys, h⟩ := Option.bind_eq_some_iff.mp h
  obtain ⟨answers, hanswers, h⟩ := Option.bind_eq_some_iff.mp h
  obtain ⟨ptr, hskip, h⟩ := Option.bind_eq_some_iff.mp h
  simp only [Dns.dnsParseResponse, hquerys, hanswers, hskip, Option.bind_eq_bind, Option.bind_some]
  exact parseAnswers_of_value h

end Access

end LearningCode.Dns
