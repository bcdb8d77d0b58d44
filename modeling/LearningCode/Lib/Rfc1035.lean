import Mathlib.Data.UInt
import Mathlib.Data.List.Basic

/-!
# DNS messages

The format of RFC 1035. A value of these types says how a message is laid out, and
`Stands` that it is laid out so from some byte on. A name ends with the root or
with a pointer to a name that stands elsewhere in the message.
-/

namespace LearningCode.Rfc1035

universe u

variable {α : Type u} {m l : List UInt8} {start i v : Nat} {b : UInt8}

def word (m : List UInt8) (start : Nat) : Option Nat := do
  let high ← m[start]?
  let low ← m[start + 1]?
  return high.toNat * 256 + low.toNat

def Holds (m : List UInt8) (start : Nat) (bytes : List UInt8) : Prop :=
  (m.drop start).take bytes.length = bytes

instance (bytes : List UInt8) : Decidable (Holds m start bytes) :=
  inferInstanceAs (Decidable (_ = _))

theorem getElem?_append (h : m[i]? = some b) : (m ++ l)[i]? = some b := by
  have hi : i < m.length := (List.getElem?_eq_some_iff.mp h).1
  rw [List.getElem?_append_left hi, h]

theorem word_append (h : word m start = some v) : word (m ++ l) start = some v := by
  cases hhigh : m[start]? with
  | none => simp [word, hhigh] at h
  | some high =>
    cases hlow : m[start + 1]? with
    | none => simp [word, hhigh, hlow] at h
    | some low =>
      simp only [word, hhigh, hlow] at h
      simp only [word, getElem?_append hhigh, getElem?_append hlow]
      exact h

theorem Holds.append {bytes : List UInt8} (h : Holds m start bytes) :
    Holds (m ++ l) start bytes := by
  have hlen : bytes.length ≤ (m.drop start).length := by
    rw [← h]
    exact List.length_take_le' _ _
  by_cases hstart : start ≤ m.length
  · rw [Holds, List.drop_append_of_le_length hstart, List.take_append_of_le_length hlen]
    exact h
  · have hdrop : m.drop start = [] := List.drop_eq_nil_of_le (Nat.le_of_not_le hstart)
    have hnil : bytes = [] := by simpa [hdrop] using hlen
    simp [Holds, hnil]

-- ---------------------------------------------------------------------------
-- Names
-- ---------------------------------------------------------------------------

inductive Name
  | root
  | label (text : List UInt8) (rest : Name)
  | pointer (target : Nat) (name : Name)
  deriving DecidableEq

namespace Name

variable {n : Name}

def Stands (m : List UInt8) : Name → Nat → Prop
  | root, start => m[start]? = some 0
  | label text rest, start =>
    (0 < text.length ∧ text.length ≤ 63) ∧ m[start]? = some (UInt8.ofNat text.length) ∧
      Holds m (start + 1) text ∧ rest.Stands m (start + 1 + text.length)
  | pointer target name, start =>
    target < 16384 ∧ m[start]? = some (UInt8.ofNat (192 + target / 256)) ∧
      m[start + 1]? = some (UInt8.ofNat (target % 256)) ∧ name.Stands m target

def size : Name → Nat
  | root => 1
  | label text rest => 1 + text.length + rest.size
  | pointer _ _ => 2

def labels : Name → List (List UInt8)
  | root => []
  | label text rest => text :: rest.labels
  | pointer _ name => name.labels

def text (n : Name) : List UInt8 := List.intercalate [46] n.labels

def Plain : Name → Prop
  | root => True
  | label _ rest => rest.Plain
  | pointer _ _ => False

instance decidableStands (m : List UInt8) : (n : Name) → (start : Nat) →
    Decidable (n.Stands m start)
  | root, _ => inferInstanceAs (Decidable (_ = _))
  | label _ rest, _ =>
    have := decidableStands m rest
    inferInstanceAs (Decidable (_ ∧ _))
  | pointer _ name, _ =>
    have := decidableStands m name
    inferInstanceAs (Decidable (_ ∧ _))

instance decidablePlain : (n : Name) → Decidable n.Plain
  | root => .isTrue trivial
  | label _ rest => decidablePlain rest
  | pointer _ _ => .isFalse id

theorem Stands.append (h : n.Stands m start) : n.Stands (m ++ l) start := by
  induction n generalizing start with
  | root => exact getElem?_append h
  | label text rest ih => exact ⟨h.1, getElem?_append h.2.1, h.2.2.1.append, ih h.2.2.2⟩
  | pointer target name ih =>
    exact ⟨h.1, getElem?_append h.2.1, getElem?_append h.2.2.1, ih h.2.2.2⟩

theorem text_label_nil {text : List UInt8} {rest : Name} (h : rest.labels = []) :
    (label text rest).text = text := by
  simp [Name.text, labels, h, List.intercalate]

theorem text_label {text : List UInt8} {rest : Name} (h : rest.labels ≠ []) :
    (label text rest).text = text ++ 46 :: rest.text := by
  obtain ⟨next, later, hrest⟩ := List.exists_cons_of_ne_nil h
  simp [Name.text, labels, hrest, List.intercalate]

def ofLabels (labels : List (List UInt8)) : Name := labels.foldr label root

def wire (labels : List (List UInt8)) : List UInt8 :=
  (labels.flatMap fun text => UInt8.ofNat text.length :: text) ++ [0]

theorem wire_cons {text : List UInt8} {labels : List (List UInt8)} :
    wire (text :: labels) = UInt8.ofNat text.length :: (text ++ wire labels) := by
  simp [wire]

@[simp] theorem labels_ofLabels {labels : List (List UInt8)} : (ofLabels labels).labels = labels := by
  induction labels with
  | nil => rfl
  | cons text labels ih => exact congrArg _ ih

theorem stands_wire {labels : List (List UInt8)} (before behind : List UInt8)
    (h : ∀ text ∈ labels, 0 < text.length ∧ text.length ≤ 63) :
    (ofLabels labels).Stands (before ++ (wire labels ++ behind)) before.length := by
  induction labels generalizing before with
  | nil => simp [ofLabels, wire, Stands]
  | cons text labels ih =>
    have hrest := ih (before ++ UInt8.ofNat text.length :: text) fun other hother =>
      h other (List.mem_cons_of_mem _ hother)
    have hnext : (before ++ UInt8.ofNat text.length :: text).length =
        before.length + 1 + text.length := by
      simp only [List.length_append, List.length_cons]
      omega
    refine ⟨h text (List.mem_cons_self ..), ?_, ?_, ?_⟩
    · simp [wire_cons]
    · have hsplit : before ++ (wire (text :: labels) ++ behind) =
          (before ++ [UInt8.ofNat text.length]) ++ (text ++ (wire labels ++ behind)) := by
        simp [wire_cons]
      rw [Holds, hsplit, List.drop_left' (by simp), List.take_left]
    · rw [← hnext, wire_cons]
      have hassoc : before ++ (UInt8.ofNat text.length :: (text ++ wire labels) ++ behind) =
          before ++ UInt8.ofNat text.length :: text ++ (wire labels ++ behind) := by simp
      exact hassoc ▸ hrest

end Name

-- ---------------------------------------------------------------------------
-- Sections
-- ---------------------------------------------------------------------------

/-- One behind the other from here on, each of its size. -/
def InTurn (Stands : α → Nat → Prop) (size : α → Nat) : List α → Nat → Prop
  | [], _ => True
  | a :: l, start => Stands a start ∧ InTurn Stands size l (start + size a)

instance decidableInTurn (Stands : α → Nat → Prop) (size : α → Nat)
    [∀ a start, Decidable (Stands a start)] : (l : List α) → (start : Nat) →
    Decidable (InTurn Stands size l start)
  | [], _ => .isTrue trivial
  | _ :: l, _ =>
    have := decidableInTurn Stands size l
    inferInstanceAs (Decidable (_ ∧ _))

def total (size : α → Nat) (l : List α) : Nat := (l.map size).sum

theorem InTurn.imp {Stands Stands' : α → Nat → Prop} {size : α → Nat} {l : List α}
    (himp : ∀ a start, Stands a start → Stands' a start) (h : InTurn Stands size l start) :
    InTurn Stands' size l start := by
  induction l generalizing start with
  | nil => trivial
  | cons a l ih => exact ⟨himp a start h.1, ih h.2⟩

structure Question where
  name : Name
  type : Nat
  cls : Nat
  deriving DecidableEq

namespace Question

def size (q : Question) : Nat := q.name.size + 4

def Stands (m : List UInt8) (q : Question) (start : Nat) : Prop :=
  q.name.Stands m start ∧ word m (start + q.name.size) = some q.type ∧
    word m (start + q.name.size + 2) = some q.cls

instance (m : List UInt8) (q : Question) (start : Nat) : Decidable (q.Stands m start) :=
  inferInstanceAs (Decidable (_ ∧ _))

end Question

def typeA : Nat := 1

def typeCNAME : Nat := 5

/-- What a record says. A CNAME record gives a name, any other is just bytes. -/
inductive RData
  | cname (name : Name)
  | bytes (type : Nat) (l : List UInt8)
  deriving DecidableEq

namespace RData

def type : RData → Nat
  | cname _ => typeCNAME
  | bytes type _ => type

def size : RData → Nat
  | cname name => name.size
  | bytes _ l => l.length

def Stands (m : List UInt8) : RData → Nat → Prop
  | cname name, start => name.Stands m start
  | bytes type l, start => type ≠ typeCNAME ∧ Holds m start l

instance decidableStands (m : List UInt8) : (d : RData) → (start : Nat) →
    Decidable (d.Stands m start)
  | cname name, start => inferInstanceAs (Decidable (name.Stands m start))
  | bytes _ _, _ => inferInstanceAs (Decidable (_ ∧ _))

def address : RData → Option (List UInt8)
  | cname _ => none
  | bytes type l => if type = typeA ∧ l.length = 4 then some l else none

theorem Stands.append {d : RData} (h : d.Stands m start) : d.Stands (m ++ l) start := by
  cases d with
  | cname name => exact Name.Stands.append h
  | bytes type data => exact ⟨h.1, h.2.append⟩

end RData

structure Record where
  owner : Name
  cls : Nat
  ttl : Nat × Nat
  data : RData
  deriving DecidableEq

namespace Record

def size (r : Record) : Nat := r.owner.size + 10 + r.data.size

def Stands (m : List UInt8) (r : Record) (start : Nat) : Prop :=
  r.owner.Stands m start ∧ word m (start + r.owner.size) = some r.data.type ∧
    word m (start + r.owner.size + 2) = some r.cls ∧
    word m (start + r.owner.size + 4) = some r.ttl.1 ∧
    word m (start + r.owner.size + 6) = some r.ttl.2 ∧
    word m (start + r.owner.size + 8) = some r.data.size ∧
    r.data.Stands m (start + r.owner.size + 10)

instance (m : List UInt8) (r : Record) (start : Nat) : Decidable (r.Stands m start) :=
  inferInstanceAs (Decidable (_ ∧ _))

theorem Stands.append {r : Record} (h : r.Stands m start) : r.Stands (m ++ l) start := by
  obtain ⟨howner, htype, hcls, hhigh, hlow, hsize, hdata⟩ := h
  exact ⟨howner.append, word_append htype, word_append hcls, word_append hhigh, word_append hlow,
    word_append hsize, hdata.append⟩

def host (r : Record) : Option (List UInt8 × List UInt8) :=
  r.data.address.map fun address => (r.owner.text, address)

end Record

/-- The questions and the answers of a message. More sections may follow them. -/
structure Message where
  questions : List Question
  answers : List Record
  deriving DecidableEq

namespace Message

def Stands (m : List UInt8) (d : Message) : Prop :=
  word m 4 = some d.questions.length ∧ word m 6 = some d.answers.length ∧
    InTurn (Question.Stands m) Question.size d.questions 12 ∧
    InTurn (Record.Stands m) Record.size d.answers (12 + total Question.size d.questions)

instance (m : List UInt8) (d : Message) : Decidable (d.Stands m) :=
  inferInstanceAs (Decidable (_ ∧ _))

def hosts (d : Message) : List (List UInt8 × List UInt8) := d.answers.filterMap Record.host

end Message

end LearningCode.Rfc1035
