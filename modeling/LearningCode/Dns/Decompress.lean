import LearningCode.Dns.Names

/-!
# Decompression of names

What `dns_parse_name` returns is what the bytes spell when a pointer is one byte
wide, and nothing else. So a name whose pointers are near is decoded as it is
meant if and only if its dots are in place.
-/

namespace LearningCode.Dns

open Faults Rfc1035

variable {m chunk : Buffer} {n : Name} {ptr turns : Nat} {out l : List UInt8} {room : Option Nat}

theorem bytesAt_eq_some {k : Nat} (h : bytesAt chunk ptr k = some l) :
    l.length = k ∧ Holds chunk ptr l := by
  unfold bytesAt at h
  dsimp only at h
  split at h
  · rename_i hlen
    cases h
    exact ⟨hlen, by rw [Holds, hlen]⟩
  · cases h

namespace Access

theorem value_write_eq_some {l' : List UInt8} (h : value (write room out l) = some l') :
    l' = out ++ l ∧ Fits room l'.length := by
  unfold write at h
  split at h
  · rename_i hfits
    cases h
    exact ⟨rfl, hfits⟩
  · cases h

theorem value_writeDot_eq_some {next : UInt8} (hout : Fits room out.length)
    (h : value (writeDot room next out) = some l) :
    Fits room l.length ∧ ∀ n, (next = 0 ↔ n = .root) → l = out ++ dot n := by
  unfold writeDot at h
  split at h
  · rename_i hne
    obtain ⟨rfl, hfits⟩ := value_write_eq_some h
    refine ⟨hfits, fun n hroot => ?_⟩
    rw [dot_of_ne_root fun hn => hne (hroot.mpr hn)]
  · rename_i hzero
    cases h
    refine ⟨hout, fun n hroot => ?_⟩
    rw [hroot.mp (Decidable.not_not.mp hzero)]
    exact (List.append_nil _).symm

/-- Induction on the turns: what is written for the bytes is what some name spells
that is read from them, and there is room for it. -/
theorem reads_of_value (h : value (dnsParseName room chunk turns ptr out) = some l)
    (hout : Fits room out.length) :
    ∃ n, Reads chunk n ptr ∧ l = out ++ spelled n ∧ Fits room l.length := by
  induction turns generalizing ptr out with
  | zero => cases h
  | succ turns ih =>
    rw [dnsParseName, value_bind, value_read] at h
    obtain ⟨flag, hflag, h⟩ := Option.bind_eq_some_iff.mp h
    split at h
    · rename_i hzero
      cases h
      exact ⟨.root, hflag.trans (congrArg some hzero), (List.append_nil _).symm, hout⟩
    · rename_i hne
      split at h
      · rename_i hptr
        rw [value_bind, value_read] at h
        obtain ⟨low, hlow, h⟩ := Option.bind_eq_some_iff.mp h
        obtain ⟨name, hname, rfl, hfits⟩ := ih h hout
        exact ⟨.pointer low.toNat name, ⟨flag, low, hflag, hptr, hlow, rfl, hname⟩, rfl, hfits⟩
      · rename_i hptr
        simp only [value_bind, value_read] at h
        obtain ⟨text, htext, h⟩ := Option.bind_eq_some_iff.mp h
        obtain ⟨_, hput, h⟩ := Option.bind_eq_some_iff.mp h
        obtain ⟨next, hnext, h⟩ := Option.bind_eq_some_iff.mp h
        obtain ⟨_, hdot, h⟩ := Option.bind_eq_some_iff.mp h
        obtain ⟨htext', hfits⟩ := value_write_eq_some hput
        obtain ⟨hfits', hdots⟩ := value_writeDot_eq_some hfits hdot
        obtain ⟨rest, hrest, rfl, hroom⟩ := ih h hfits'
        obtain ⟨hlen, hholds⟩ := bytesAt_eq_some htext
        obtain ⟨first, hfirst, hroot⟩ := first_byte hrest
        rw [hnext] at hfirst
        cases hfirst
        refine ⟨.label text rest,
          ⟨flag, hflag, hne, by simpa using hptr, hlen.symm, hholds, hlen ▸ hrest⟩, ?_, hroom⟩
        rw [hdots rest hroot, htext', spelled_label]
        simp only [List.append_assoc]

end Access

theorem reads_of_dnsParseName (h : dnsParseName chunk turns ptr out = some l)
    (hout : out.length ≤ 128) : ∃ n, Reads chunk n ptr ∧ l = out ++ spelled n := by
  obtain ⟨n, hreads, hspelled, -⟩ :=
    Access.reads_of_value (Access.value_dnsParseName.trans h) (fits_some.mpr hout)
  exact ⟨n, hreads, hspelled⟩

/-- The parser returns what can be read, as far as the array has room. -/
theorem returns_iff (hroom : l.length ≤ 128) :
    Returns (fun turns => dnsParseName chunk turns ptr []) l ↔
      ∃ n, Reads chunk n ptr ∧ spelled n = l := by
  constructor
  · rintro ⟨enough, henough⟩
    obtain ⟨n, hreads, rfl⟩ := reads_of_dnsParseName (henough enough (Nat.le_refl _)) (Nat.zero_le _)
    exact ⟨n, hreads, rfl⟩
  · rintro ⟨n, hreads, rfl⟩
    exact hreads.returns hroom

theorem length_spelled_of_not_dotted (h : ¬Dotted n) :
    (spelled n).length = n.text.length + 1 := by
  induction n with
  | root => exact absurd trivial h
  | label text rest ih =>
    have hne : rest ≠ .root := by
      rintro rfl
      exact h ⟨.inl rfl, trivial⟩
    rw [spelled_label, dot_of_ne_root hne]
    by_cases hnil : rest.labels = []
    · simp [spelled_of_labels_nil hnil, Name.text_label_nil hnil]
    · have hrest : ¬Dotted rest := fun hdotted => h ⟨.inr hnil, hdotted⟩
      simp [Name.text_label hnil, ih hrest]
      omega
  | pointer target name ih => exact ih h

theorem spelled_eq_text_iff : spelled n = n.text ↔ Dotted n := by
  refine ⟨fun heq => ?_, spelled_of_dotted⟩
  by_contra hdotted
  have hlen := length_spelled_of_not_dotted hdotted
  rw [heq] at hlen
  omega

/-- For a name that stands in a message: with near pointers the name decides. Behind a
far one the bytes at the wrong place do, which may by chance spell the same. -/
theorem decompressed_iff (h : n.Stands m ptr) (hshort : n.text.length ≤ 127) :
    (Near n → (Returns (fun turns => dnsParseName (received m) turns ptr []) n.text ↔ Dotted n)) ∧
      (¬Near n → (Returns (fun turns => dnsParseName (received m) turns ptr []) n.text ↔
        ∃ other, Reads (received m) other ptr ∧ spelled other = n.text)) := by
  have hstands : n.Stands (received m) ptr := h.append
  refine ⟨fun hnear => ?_, fun _ => returns_iff (Nat.le_succ_of_le hshort)⟩
  have hreturns := dnsParseName_short hstands hnear hshort
  rw [← spelled_eq_text_iff]
  constructor
  · exact fun htext => hreturns.unique htext
  · exact fun heq => heq ▸ hreturns

/-- `b` and a pointer to `a` at the start of the message. -/
theorem decompressed_iff_near :
    Returns (fun turns => dnsParseName (received [1, 97, 0, 1, 98, 0xC0, 0]) turns 3 [])
      [98, 46, 97] :=
  ((decompressed_iff (n := .label [98] (.pointer 0 (.label [97] .root))) (by decide)
    (by decide)).1 ⟨by decide, trivial⟩).mpr ⟨.inr (by simp [Name.labels]), .inl rfl, trivial⟩

/-- A pointer to `a` at offset 256 leads to the first byte of the message. -/
theorem far_pointer_lost :
    (Name.pointer 256 (.label [97] .root)).Stands
        (List.replicate 256 0 ++ [1, 97, 0, 0xC1, 0]) 259 ∧
      ¬Returns (fun turns => dnsParseName
        (received (List.replicate 256 0 ++ [1, 97, 0, 0xC1, 0])) turns 259 [])
        (Name.pointer 256 (.label [97] .root)).text := by
  refine ⟨by decide, fun h => ?_⟩
  have hempty : Returns (fun turns => dnsParseName
      (received (List.replicate 256 0 ++ [1, 97, 0, 0xC1, 0])) turns 259 []) [] :=
    .of_add 2 fun turns => by rfl
  exact absurd (h.unique hempty) (by decide)

end LearningCode.Dns
