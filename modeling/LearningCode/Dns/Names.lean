import LearningCode.Dns.Access
import Mathlib.Data.List.TakeWhile

/-!
# Names as they are decoded

Of a pointer only the low byte is used, and a label gets a dot when anything but
the root stands behind it, so a pointer to the root leaves one too many.
-/

namespace LearningCode.Dns

open Faults Rfc1035

variable {chunk : Buffer} {n : Name} {ptr : Nat} {out : List UInt8} {room : Option Nat}

/-- Every pointer on the way to the root has its target in the first 256 bytes. -/
def Near : Name → Prop
  | .root => True
  | .label _ rest => Near rest
  | .pointer target name => target < 256 ∧ Near name

/-- No NUL, and no label behind which the root is reached by a pointer. -/
def Clean : Name → Prop
  | .root => True
  | .label text rest => 0 ∉ text ∧ (rest = .root ∨ rest.labels ≠ []) ∧ Clean rest
  | .pointer _ name => Clean name

/-- A dot stands between two labels only: no pointer behind a label leads to the
root. -/
def Dotted : Name → Prop
  | .root => True
  | .label _ rest => (rest = .root ∨ rest.labels ≠ []) ∧ Dotted rest
  | .pointer _ name => Dotted name

/-- The bytes as the code takes them: of a pointer only the second byte counts, and
any other first byte is the length of a label. -/
def Reads (m : Buffer) : Name → Nat → Prop
  | .root, start => m[start]? = some 0
  | .label text rest, start =>
    ∃ flag, m[start]? = some flag ∧ flag ≠ 0 ∧ isPointer flag = false ∧
      flag.toNat = text.length ∧ Holds m (start + 1) text ∧
      Reads m rest (start + 1 + text.length)
  | .pointer target name, start =>
    ∃ flag low, m[start]? = some flag ∧ isPointer flag = true ∧ m[start + 1]? = some low ∧
      low.toNat = target ∧ Reads m name target

def spelled : Name → List UInt8
  | .root => []
  | .label text .root => text
  | .label text rest => text ++ 46 :: spelled rest
  | .pointer _ name => spelled name

theorem isPointer_ofNat {k : Nat} (h : k < 64) : isPointer (UInt8.ofNat (192 + k)) = true := by
  have hall : ∀ k < 64, isPointer (UInt8.ofNat (192 + k)) = true := by decide
  exact hall k h

theorem ofNat_length {k : Nat} (h : 0 < k ∧ k ≤ 63) :
    UInt8.ofNat k ≠ 0 ∧ isPointer (UInt8.ofNat k) = false ∧ (UInt8.ofNat k).toNat = k := by
  have hall : ∀ k ≤ 63, 0 < k → UInt8.ofNat k ≠ 0 ∧ isPointer (UInt8.ofNat k) = false ∧
    (UInt8.ofNat k).toNat = k := by decide
  exact hall k h.2 h.1

theorem ne_zero_of_isPointer {flag : UInt8} (h : isPointer flag = true) : flag ≠ 0 := by
  rintro rfl
  exact absurd h (by decide)

theorem reads_of_near (h : n.Stands chunk ptr) (hnear : Near n) : Reads chunk n ptr := by
  induction n generalizing ptr with
  | root => exact h
  | label text rest ih =>
    obtain ⟨hlen, hflag, hholds, hrest⟩ := h
    obtain ⟨hne, hptr, hnat⟩ := ofNat_length hlen
    exact ⟨_, hflag, hne, hptr, hnat, hholds, ih hrest hnear⟩
  | pointer target name ih =>
    obtain ⟨htarget, hflag, hlow, hname⟩ := h
    have hhigh : target / 256 < 64 := (Nat.div_lt_iff_lt_mul (by decide)).mpr htarget
    rw [Nat.mod_eq_of_lt hnear.1] at hlow
    have hnat : (UInt8.ofNat target).toNat = target := UInt8.toNat_ofNat_of_lt' hnear.1
    exact ⟨_, _, hflag, isPointer_ofNat hhigh, hlow, hnat, ih hname hnear.2⟩

theorem first_byte (h : Reads chunk n ptr) :
    ∃ b, chunk[ptr]? = some b ∧ (b = 0 ↔ n = .root) := by
  cases n with
  | root => exact ⟨0, h, by simp⟩
  | label text rest =>
    obtain ⟨flag, hflag, hne, -⟩ := h
    exact ⟨flag, hflag, by simpa using hne⟩
  | pointer target name =>
    obtain ⟨flag, -, hflag, hptr, -⟩ := h
    exact ⟨flag, hflag, by simpa using ne_zero_of_isPointer hptr⟩

theorem bytesAt_holds {text : List UInt8} (h : Holds chunk ptr text) :
    bytesAt chunk ptr text.length = some text := by
  unfold Holds at h
  simp [bytesAt, h]

def dot : Name → List UInt8
  | .root => []
  | _ => [46]

theorem dot_of_ne_root (h : n ≠ .root) : dot n = [46] := by
  cases n with
  | root => exact absurd rfl h
  | label => rfl
  | pointer => rfl

theorem length_dot_le (n : Name) : (dot n).length ≤ 1 := by
  cases n <;> simp [dot]

theorem spelled_label (text : List UInt8) (rest : Name) :
    spelled (.label text rest) = text ++ dot rest ++ spelled rest := by
  cases rest <;> simp [spelled, dot]

namespace Access

theorem write_of_fits {l : List UInt8} (h : Fits room (out ++ l).length) :
    write room out l = pure (out ++ l) := if_pos h

theorem writeDot_of_fits {next : UInt8} (hnext : next = 0 ↔ n = .root)
    (h : Fits room (out ++ dot n).length) : writeDot room next out = pure (out ++ dot n) := by
  by_cases hroot : n = .root
  · simp [writeDot, hnext.mpr hroot, hroot, dot]
  · have hne : next ≠ 0 := fun hzero => hroot (hnext.mp hzero)
    rw [dot_of_ne_root hroot] at h ⊢
    rw [writeDot, if_pos hne, write_of_fits h]

theorem dnsParseName_label {text : List UInt8} {rest : Name}
    (h : Reads chunk (.label text rest) ptr)
    (hroom : Fits room (out ++ (text ++ dot rest)).length) (turns : Nat) :
    dnsParseName room chunk (turns + 1) ptr out =
      dnsParseName room chunk turns (ptr + 1 + text.length) (out ++ (text ++ dot rest)) := by
  obtain ⟨flag, hflag, hne, hptr, hnat, hholds, hrest⟩ := h
  obtain ⟨next, hnext, hroot⟩ := first_byte hrest
  have htext : write room out text = pure (out ++ text) := by
    refine write_of_fits (hroom.of_le ?_)
    simp only [List.length_append]
    omega
  have hdot : writeDot room next (out ++ text) = pure (out ++ text ++ dot rest) :=
    writeDot_of_fits hroot (by rwa [List.append_assoc])
  simp [dnsParseName, read, hflag, hne, hptr, hnat, bytesAt_holds hholds, htext, hnext, hdot]

theorem dnsParseName_pointer {target : Nat} {name : Name}
    (h : Reads chunk (.pointer target name) ptr) (turns : Nat) :
    dnsParseName room chunk (turns + 1) ptr out = dnsParseName room chunk turns target out := by
  obtain ⟨flag, low, hflag, hptr, hlow, rfl, -⟩ := h
  simp [dnsParseName, read, hflag, ne_zero_of_isPointer hptr, hptr, hlow]

end Access

/-- Induction on the name: each label leaves what it spells, a pointer leads to
where its name is read. -/
theorem Reads.stops (h : Reads chunk n ptr) (hroom : Fits room (out ++ spelled n).length) :
    Stops (fun turns => Access.dnsParseName room chunk turns ptr out) (.ok (out ++ spelled n)) := by
  induction n generalizing ptr out with
  | root =>
    have hflag : chunk[ptr]? = some 0 := h
    exact .last fun turns => by simp [Access.dnsParseName, Access.read, hflag, spelled]
  | label text rest ih =>
    rw [spelled_label, ← List.append_assoc] at hroom ⊢
    have hfirst : Fits room (out ++ (text ++ dot rest)).length := by
      refine hroom.of_le ?_
      simp only [List.length_append]
      omega
    have hrest : Reads chunk rest (ptr + 1 + text.length) := by
      obtain ⟨_, _, _, _, _, _, hrest⟩ := h
      exact hrest
    exact (ih hrest hroom).turn fun turns =>
      congrArg _ (Access.dnsParseName_label h hfirst turns)
  | pointer target name ih =>
    have hname : Reads chunk name target := by
      obtain ⟨_, _, _, _, _, _, hname⟩ := h
      exact hname
    exact (ih hname hroom).turn fun turns => congrArg _ (Access.dnsParseName_pointer h turns)

theorem Reads.returns (h : Reads chunk n ptr) (hroom : (out ++ spelled n).length ≤ 128) :
    Returns (fun turns => dnsParseName chunk turns ptr out) (out ++ spelled n) := by
  obtain ⟨enough, hstops⟩ := h.stops (fits_some.mpr hroom)
  refine ⟨enough, fun turns hle => ?_⟩
  exact Access.value_dnsParseName.symm.trans (value_eq_some.mpr (hstops turns hle))

-- ---------------------------------------------------------------------------
-- What is written, and the name
-- ---------------------------------------------------------------------------

theorem spelled_of_labels_nil (h : n.labels = []) : spelled n = [] := by
  induction n with
  | root => rfl
  | label text rest => cases h
  | pointer target name ih => exact ih h

theorem length_spelled (n : Name) : (spelled n).length ≤ n.text.length + 1 := by
  induction n with
  | root => exact Nat.zero_le _
  | label text rest ih =>
    have hdot := length_dot_le rest
    rw [spelled_label]
    by_cases hnil : rest.labels = []
    · simpa [spelled_of_labels_nil hnil, Name.text_label_nil hnil] using hdot
    · simp only [Name.text_label hnil, List.length_append, List.length_cons]
      omega
  | pointer target name ih => exact ih

theorem spelled_of_dotted (h : Dotted n) : spelled n = n.text := by
  induction n with
  | root => rfl
  | label text rest ih =>
    obtain ⟨hrest, hdotted⟩ := h
    rw [spelled_label, ih hdotted]
    obtain rfl | hlabels := hrest
    · simp [dot, Name.text, Name.labels, List.intercalate]
    · have hne : rest ≠ .root := by
        rintro rfl
        exact hlabels rfl
      simp [dot_of_ne_root hne, Name.text_label hlabels]
  | pointer target name ih => exact ih h

theorem Clean.dotted (h : Clean n) : Dotted n := by
  induction n with
  | root => trivial
  | label text rest ih => exact ⟨h.2.1, ih h.2.2⟩
  | pointer target name ih => exact ih h

theorem spelled_of_clean (h : Clean n) : spelled n = n.text := spelled_of_dotted h.dotted

theorem zero_notMem_text (h : Clean n) : 0 ∉ n.text := by
  induction n with
  | root => simp [Name.text, Name.labels, List.intercalate]
  | label text rest ih =>
    obtain ⟨htext, -, hclean⟩ := h
    by_cases hnil : rest.labels = []
    · rwa [Name.text_label_nil hnil]
    · simp [Name.text_label hnil, htext, ih hclean]
  | pointer target name ih => exact ih h

theorem cString_of_clean (h : Clean n) (hshort : n.text.length ≤ 127) :
    cString n.text = some n.text := by
  have hall : n.text.takeWhile (· ≠ 0) = n.text := by
    apply List.takeWhile_eq_self_iff.mpr
    intro b hb
    have hne : b ≠ 0 := fun hzero => zero_notMem_text h (hzero ▸ hb)
    simpa using hne
  have hlt : n.text.length < 128 := Nat.lt_succ_of_le hshort
  simp only [cString, hall, hlt, if_true]

theorem dnsParseName_short (h : n.Stands chunk ptr) (hnear : Near n)
    (hshort : n.text.length ≤ 127) :
    Returns (fun turns => dnsParseName chunk turns ptr []) (spelled n) :=
  (reads_of_near h hnear).returns (Nat.le_trans (length_spelled n) (Nat.succ_le_succ hshort))

-- ---------------------------------------------------------------------------
-- Questions
-- ---------------------------------------------------------------------------

theorem skipName_plain (h : n.Stands chunk ptr) (hplain : n.Plain) :
    Returns (fun turns => skipName chunk turns ptr) (ptr + n.size) := by
  induction n generalizing ptr with
  | root =>
    have hflag : chunk[ptr]? = some 0 := h
    exact .last fun turns => by simp [skipName, hflag, Name.size]
  | label text rest ih =>
    obtain ⟨hlen, hflag, -, hrest⟩ := h
    obtain ⟨hne, -, hnat⟩ := ofNat_length hlen
    have hsize : ptr + (Name.label text rest).size = ptr + 1 + text.length + rest.size := by
      simp only [Name.size]
      omega
    rw [hsize]
    refine (ih hrest hplain).turn fun turns => ?_
    have hnext : ptr + (text.length + 1) = ptr + 1 + text.length := by omega
    simp [skipName, hflag, hne, hnat, hnext]
  | pointer => exact hplain.elim

end LearningCode.Dns
