import LearningCode.Dns.Decompress
import LearningCode.Lib.Iteration
import Mathlib.Order.Interval.Finset.Nat

/-!
# Pointers that lead back

Where `dns_parse_name` goes next is in the bytes alone, not in what it has written. A
label leads on and a pointer anywhere, so it is a pointer that leads back to itself
on which the loop never ends.
-/

namespace LearningCode.Dns

open Faults Rfc1035
open Iteration (Leads)

variable {chunk : Buffer} {room : Option Nat} {ptr : Nat} {out : List UInt8}

def target (chunk : Buffer) (ptr : Nat) : Option Nat := do
  let flag ← chunk[ptr]?
  if isPointer flag then chunk[ptr + 1]?.map UInt8.toNat else none

/-- From a label to what is behind it, from a pointer to its target. A label is not
passed if the buffer ends with it. -/
def hop (chunk : Buffer) (ptr : Nat) : Option Nat := do
  let flag ← chunk[ptr]?
  if flag = 0 then none
  else if isPointer flag then target chunk ptr
  else if ptr + 1 + flag.toNat < chunk.length then some (ptr + 1 + flag.toNat) else none

/-- On the way from here is a pointer from whose target the way leads back to it. -/
def Circles (chunk : Buffer) (ptr : Nat) : Prop :=
  ∃ p t, Leads (hop chunk) ptr p ∧ target chunk p = some t ∧ Leads (hop chunk) t p

theorem bytesAt_of_le {n : Nat} (h : ptr + n ≤ chunk.length) :
    bytesAt chunk ptr n = some ((chunk.drop ptr).take n) := by
  have hlen : ((chunk.drop ptr).take n).length = n := by
    rw [List.length_take, List.length_drop]
    omega
  exact if_pos hlen

theorem bytesAt_of_lt {n : Nat} (h : chunk.length < ptr + n) (hn : 0 < n) :
    bytesAt chunk ptr n = none := by
  have hlen : ((chunk.drop ptr).take n).length ≠ n := by
    rw [List.length_take, List.length_drop]
    omega
  exact if_neg hlen

namespace Access

theorem write_cases (room : Option Nat) (out l : List UInt8) :
    (∃ out', write room out l = pure out') ∨ (write room out l = throw .write ∧ room ≠ none) := by
  unfold write
  split
  · exact .inl ⟨_, rfl⟩
  · rename_i h
    refine .inr ⟨rfl, ?_⟩
    rintro rfl
    exact h fits_none

theorem writeDot_cases (room : Option Nat) (next : UInt8) (out : List UInt8) :
    (∃ out', writeDot room next out = pure out') ∨
      (writeDot room next out = throw .write ∧ room ≠ none) := by
  unfold writeDot
  split
  · exact write_cases room out [46]
  · exact .inl ⟨_, rfl⟩

theorem dnsParseName_turn_label (room : Option Nat) (out : List UInt8) {flag : UInt8}
    (hflag : chunk[ptr]? = some flag) (hzero : flag ≠ 0)
    (hptr : isPointer flag = false) (hin : ptr + 1 + flag.toNat < chunk.length) :
    (room ≠ none ∧
        ∀ turns, (dnsParseName room chunk (turns + 1) ptr out).run = some (.error .write)) ∨
      ∃ out', ∀ turns, dnsParseName room chunk (turns + 1) ptr out =
        dnsParseName room chunk turns (ptr + 1 + flag.toNat) out' := by
  have hbytes := bytesAt_of_le (Nat.le_of_lt hin)
  obtain ⟨next, hnext⟩ : ∃ next, chunk[ptr + 1 + flag.toNat]? = some next :=
    ⟨_, List.getElem?_eq_getElem hin⟩
  obtain ⟨out₁, hwrite⟩ | ⟨hwrite, hroom⟩ :=
    write_cases room out ((chunk.drop (ptr + 1)).take flag.toNat)
  · obtain ⟨out₂, hdot⟩ | ⟨hdot, hroom⟩ := writeDot_cases room next out₁
    · refine .inr ⟨out₂, fun turns => ?_⟩
      simp [dnsParseName, read, hflag, hzero, hptr, hbytes, hwrite, hnext, hdot]
    · refine .inl ⟨hroom, fun turns => ?_⟩
      simp [dnsParseName, read, hflag, hzero, hptr, hbytes, hwrite, hnext, hdot]
  · refine .inl ⟨hroom, fun turns => ?_⟩
    simp [dnsParseName, read, hflag, hzero, hptr, hbytes, hwrite]

theorem dnsParseName_turn_broken (room : Option Nat) (out : List UInt8) {flag : UInt8}
    (hflag : chunk[ptr]? = some flag) (hzero : flag ≠ 0)
    (hptr : isPointer flag = false) (hout : chunk.length ≤ ptr + 1 + flag.toNat) :
    ∃ fault, ∀ turns,
      (dnsParseName room chunk (turns + 1) ptr out).run = some (.error fault) := by
  obtain hlt | heq := Nat.lt_or_eq_of_le hout
  · have hpos : 0 < flag.toNat := Nat.pos_of_ne_zero fun h => hzero (UInt8.toNat_inj.mp h)
    refine ⟨.read, fun turns => ?_⟩
    simp [dnsParseName, read, hflag, hzero, hptr, bytesAt_of_lt hlt hpos]
  · have hbytes := bytesAt_of_le (Nat.le_of_eq heq.symm)
    have hnext : chunk[ptr + 1 + flag.toNat]? = none := List.getElem?_eq_none hout
    obtain ⟨out₁, hwrite⟩ | ⟨hwrite, -⟩ :=
      write_cases room out ((chunk.drop (ptr + 1)).take flag.toNat)
    · refine ⟨.read, fun turns => ?_⟩
      simp [dnsParseName, read, hflag, hzero, hptr, hbytes, hwrite, hnext]
    · refine ⟨.write, fun turns => ?_⟩
      simp [dnsParseName, read, hflag, hzero, hptr, hbytes, hwrite]

theorem dnsParseName_turn (room : Option Nat) (chunk : Buffer) (ptr : Nat) (out : List UInt8) :
    (∃ r, (∀ turns, (dnsParseName room chunk (turns + 1) ptr out).run = some r) ∧
        (hop chunk ptr = none ∨ room ≠ none)) ∨
      ∃ p out', hop chunk ptr = some p ∧
        ∀ turns, dnsParseName room chunk (turns + 1) ptr out =
          dnsParseName room chunk turns p out' := by
  cases hflag : chunk[ptr]? with
  | none =>
    exact .inl ⟨.error .read, by simp [dnsParseName, read, hflag], .inl (by simp [hop, hflag])⟩
  | some flag =>
    by_cases hzero : flag = 0
    · exact .inl ⟨.ok out, by simp [dnsParseName, read, hflag, hzero],
        .inl (by simp [hop, hflag, hzero])⟩
    cases hptr : isPointer flag with
    | true =>
      cases hlow : chunk[ptr + 1]? with
      | none =>
        refine .inl ⟨.error .read, ?_, .inl ?_⟩
        · simp [dnsParseName, read, hflag, hzero, hptr, hlow]
        · simp [hop, target, hflag, hzero, hptr, hlow]
      | some low =>
        refine .inr ⟨low.toNat, out, ?_, ?_⟩
        · simp [hop, target, hflag, hzero, hptr, hlow]
        · simp [dnsParseName, read, hflag, hzero, hptr, hlow]
    | false =>
      by_cases hin : ptr + 1 + flag.toNat < chunk.length
      · obtain ⟨hroom, hlast⟩ | ⟨out', hturn⟩ :=
          dnsParseName_turn_label room out hflag hzero hptr hin
        · exact .inl ⟨_, hlast, .inr hroom⟩
        · exact .inr ⟨_, out', by simp [hop, hflag, hzero, hptr, hin], hturn⟩
      · obtain ⟨fault, hlast⟩ := dnsParseName_turn_broken room out hflag hzero
          hptr (Nat.le_of_not_lt hin)
        exact .inl ⟨_, hlast, .inl (by simp [hop, hflag, hzero, hptr, hin])⟩

theorem keeps_dnsParseName : Keeps fun turns => dnsParseName room chunk turns ptr out := by
  intro turns
  induction turns generalizing ptr out with
  | zero =>
    intro r h
    cases h
  | succ turns ih =>
    intro r h
    dsimp only at h ⊢
    obtain ⟨last, hlast, -⟩ | ⟨p, out', -, hturn⟩ := dnsParseName_turn room chunk ptr out
    · rw [hlast] at h ⊢
      exact h
    · rw [hturn] at h ⊢
      exact ih r h

theorem ends_of_hop (out : List UInt8) (h : Iteration.Ends (hop chunk) ptr) :
    Ends fun turns => dnsParseName room chunk turns ptr out := by
  induction h generalizing out with
  | @stop ptr hstop =>
    obtain ⟨r, hlast, -⟩ | ⟨p, out', hp, -⟩ := dnsParseName_turn room chunk ptr out
    · exact ⟨r, .last hlast⟩
    · cases hstop.symm.trans hp
  | @turn ptr p hp _ ih =>
    obtain ⟨r, hlast, -⟩ | ⟨p', out', hp', hturn⟩ := dnsParseName_turn room chunk ptr out
    · exact ⟨r, .last hlast⟩
    · cases hp.symm.trans hp'
      obtain ⟨r, hr⟩ := ih out'
      exact ⟨r, Returns.turn hr fun turns => congrArg _ (hturn turns)⟩

theorem hop_of_ends (h : Ends fun turns => dnsParseName none chunk turns ptr out) :
    Iteration.Ends (hop chunk) ptr := by
  obtain ⟨r, enough, hr⟩ := h
  have hsome := hr enough (Nat.le_refl _)
  clear hr
  induction enough generalizing ptr out with
  | zero => cases hsome
  | succ turns ih =>
    obtain ⟨-, -, hstop | hroom⟩ | ⟨p, out', hp, hturn⟩ := dnsParseName_turn none chunk ptr out
    · exact .stop hstop
    · exact absurd rfl hroom
    · dsimp only at hsome
      rw [hturn] at hsome
      exact .turn hp (ih hsome)

end Access

-- ---------------------------------------------------------------------------
-- When the loop ends
-- ---------------------------------------------------------------------------

theorem hop_of_target {p t : Nat} (h : target chunk p = some t) : hop chunk p = some t := by
  obtain ⟨flag, hflag, hrest⟩ := Option.bind_eq_some_iff.mp h
  split at hrest
  · rename_i hptr
    simp [hop, hflag, ne_zero_of_isPointer hptr, hptr, h]
  · cases hrest

theorem hop_forward {p q : Nat} (h : hop chunk p = some q) : p < q ∨ target chunk p = some q := by
  obtain ⟨flag, -, hrest⟩ := Option.bind_eq_some_iff.mp h
  repeat' split at hrest
  · cases hrest
  · exact .inr hrest
  · cases hrest
    exact .inl (by omega)
  · cases hrest

theorem lt_length_of_hop {p q : Nat} (h : hop chunk p = some q) : p < chunk.length := by
  obtain ⟨flag, hflag, -⟩ := Option.bind_eq_some_iff.mp h
  exact (List.getElem?_eq_some_iff.mp hflag).1

theorem hop_ends_iff : Iteration.Ends (hop chunk) ptr ↔ ¬Circles chunk ptr := by
  refine Iteration.ends_iff_of_forward (fun p t => target chunk p = some t) ?_ ?_ ?_
  · refine (Set.finite_Iio chunk.length).subset ?_
    rintro p ⟨q, hq⟩
    exact lt_length_of_hop hq
  · exact fun p q => hop_forward
  · exact fun p t => hop_of_target

theorem name_ends (h : ¬Circles chunk ptr) :
    Ends fun turns => Access.dnsParseName room chunk turns ptr out :=
  Access.ends_of_hop out (hop_ends_iff.mpr h)

theorem name_ends_iff :
    (Ends fun turns => Access.dnsParseName none chunk turns ptr out) ↔ ¬Circles chunk ptr :=
  ⟨fun h => hop_ends_iff.mp (Access.hop_of_ends h), name_ends⟩

end LearningCode.Dns
