import Mathlib.Tactic.SplitIfs
import LearningCode.ImUtil.Model

/-!
# Where a substring is found

The loop that goes forward stops one position too early, so that it misses an
occurrence at the very end of a longer string; the one that goes backward begins there.
-/

namespace LearningCode.ImUtil

open WebSocket (toInt)

variable {src sub : List UInt8} {i n left p q : Nat} {r : Option Nat}

def OccursAt (src sub : List UInt8) (p : Nat) : Prop := sub <+: src.drop p ∧ p ≤ src.length

def First (src sub : List UInt8) : Option Nat → Prop
  | some p => OccursAt src sub p ∧ ∀ q < p, ¬ OccursAt src sub q
  | none => ∀ p, ¬ OccursAt src sub p

def Last (src sub : List UInt8) : Option Nat → Prop
  | some p => OccursAt src sub p ∧ ∀ q > p, ¬ OccursAt src sub q
  | none => ∀ p, ¬ OccursAt src sub p

def Finds (src sub : List UInt8) : Prop :=
  (∃ r, memfind src sub sub.length true = some r ∧ First src sub r) ∧
    ∃ r, memfind src sub sub.length false = some r ∧ Last src sub r

theorem OccursAt.le (h : OccursAt src sub p) : p + sub.length ≤ src.length := by
  have hlen := h.1.length_le
  have hp := h.2
  rw [List.length_drop] at hlen
  omega

theorem memcmp_eq (h : i + sub.length ≤ src.length) :
    ∃ b, memcmp src i sub sub.length = some b ∧ (b = true ↔ OccursAt src sub i) := by
  refine ⟨_, if_pos ⟨h, Nat.le_refl _⟩, ?_⟩
  rw [beq_iff_eq, List.take_length, OccursAt, List.prefix_iff_eq_take]
  exact ⟨fun heq => ⟨heq.symm, by omega⟩, fun hocc => hocc.1.symm⟩

theorem forward_spec (hleft : i + left + sub.length ≤ src.length) (hint : src.length < 2 ^ 31) :
    ∃ r, forward src sub sub.length left i = some r ∧
      (∀ p, r = some p → i ≤ p ∧ p < i + left ∧ OccursAt src sub p ∧
        ∀ q, i ≤ q → q < p → ¬ OccursAt src sub q) ∧
      (r = none → ∀ q, i ≤ q → q < i + left → ¬ OccursAt src sub q) := by
  induction left generalizing i with
  | zero => exact ⟨none, rfl, nofun, fun _ q hle hlt => by omega⟩
  | succ left ih =>
    have hroom : i + sub.length ≤ src.length := by omega
    obtain ⟨b, hb, hocc⟩ := memcmp_eq hroom
    rw [forward, hb, Option.bind_eq_bind, Option.bind_some]
    cases b with
    | true =>
      refine ⟨some i, rfl, ?_, nofun⟩
      rintro _ ⟨⟩
      exact ⟨Nat.le_refl _, by omega, hocc.mp rfl, fun q hle hlt => by omega⟩
    | false =>
      have hnot : ¬ OccursAt src sub i := fun h => nomatch hocc.mpr h
      obtain ⟨r, hr, hsome, hnone⟩ := ih (i := i + 1) (by omega)
      have hstep (q : Nat) (hq : i ≤ q) : q = i ∨ i + 1 ≤ q := by omega
      refine ⟨r, ?_, fun p hp => ?_, fun hr q hle hlt => ?_⟩
      · rw [if_neg (by decide), if_pos (by omega), hr]
      · obtain ⟨hle, hlt, hp, hbefore⟩ := hsome p hp
        refine ⟨by omega, by omega, hp, fun q hq hqp => ?_⟩
        rcases hstep q hq with rfl | hq
        · exact hnot
        · exact hbefore q hq hqp
      · rcases hstep q hle with rfl | hq
        · exact hnot
        · exact hnone hr q hq (by omega)

theorem backward_spec (hleft : left + sub.length ≤ src.length + 1) :
    ∃ r, backward src sub sub.length left = some r ∧
      (∀ p, r = some p → p < left ∧ OccursAt src sub p ∧
        ∀ q, p < q → q < left → ¬ OccursAt src sub q) ∧
      (r = none → ∀ q < left, ¬ OccursAt src sub q) := by
  induction left with
  | zero => exact ⟨none, rfl, nofun, fun _ q hlt => by omega⟩
  | succ i ih =>
    have hroom : i + sub.length ≤ src.length := by omega
    obtain ⟨b, hb, hocc⟩ := memcmp_eq hroom
    rw [backward, hb, Option.bind_eq_bind, Option.bind_some]
    cases b with
    | true =>
      refine ⟨some i, rfl, ?_, nofun⟩
      rintro _ ⟨⟩
      exact ⟨by omega, hocc.mp rfl, fun q hle hlt => by omega⟩
    | false =>
      have hnot : ¬ OccursAt src sub i := fun h => nomatch hocc.mpr h
      obtain ⟨r, hr, hsome, hnone⟩ := ih (by omega)
      have hstep (q : Nat) (hq : q < i + 1) : q = i ∨ q < i := by omega
      refine ⟨r, ?_, fun p hp => ?_, fun hr q hlt => ?_⟩
      · rw [if_neg (by decide), hr]
      · obtain ⟨hlt, hp, hbehind⟩ := hsome p hp
        refine ⟨by omega, hp, fun q hpq hq => ?_⟩
        rcases hstep q hq with rfl | hq
        · exact hnot
        · exact hbehind q hpq hq
      · rcases hstep q hlt with rfl | hq
        · exact hnot
        · exact hnone hr q hq

theorem subLength_self (hsub : sub ≠ []) : subLength sub sub.length = some sub.length :=
  if_neg (mt List.length_eq_zero_iff.mp hsub)

theorem memfind_short (hlen : src.length < sub.length) (flag : Bool) :
    memfind src sub sub.length flag = some none := by
  unfold memfind
  split_ifs
  · rfl
  · rfl

theorem memfind_same (hsub : sub ≠ []) (hlen : src.length = sub.length) (flag : Bool) :
    ∃ r, memfind src sub sub.length flag = some r ∧ First src sub r ∧ Last src sub r := by
  have hroom : 0 + sub.length ≤ src.length := by omega
  obtain ⟨b, hb, hocc⟩ := memcmp_eq hroom
  have hne : src.length ≠ 0 := hlen ▸ mt List.length_eq_zero_iff.mp hsub
  have honly (p : Nat) (hp : OccursAt src sub p) : p = 0 := by
    have hle := hp.le
    omega
  unfold memfind
  rw [if_neg hne, if_neg (by omega), subLength_self hsub, Option.bind_eq_bind, Option.bind_some,
    if_pos hlen, hb, Option.bind_eq_bind, Option.bind_some]
  cases b with
  | true =>
    refine ⟨some 0, rfl, ⟨hocc.mp rfl, nofun⟩, hocc.mp rfl, fun q hq hoccurs => ?_⟩
    have hzero := honly q hoccurs
    omega
  | false =>
    have hnone (p : Nat) : ¬ OccursAt src sub p := by
      intro hp
      cases honly p hp
      cases hocc.mpr hp
    exact ⟨none, rfl, hnone, hnone⟩

theorem memfind_longer (hsub : sub ≠ []) (hlen : sub.length < src.length)
    (hint : src.length < 2 ^ 31) (flag : Bool) :
    memfind src sub sub.length flag =
      if flag then forward src sub sub.length (src.length - sub.length) 0
      else backward src sub sub.length (src.length - sub.length + 1) := by
  have hbound : (src.length + 2 ^ 64 - sub.length) % 2 ^ 64 = src.length - sub.length := by omega
  have hindex : (toInt (src.length - sub.length) + 1).toNat = src.length - sub.length + 1 := by
    rw [toInt, BitVec.toInt_eq_toNat_of_lt, BitVec.toNat_ofNat]
    · omega
    · rw [BitVec.toNat_ofNat]
      omega
  unfold memfind
  rw [if_neg (by omega), if_neg (by omega), subLength_self hsub, Option.bind_eq_bind,
    Option.bind_some, if_neg (by omega), hbound]
  dsimp only
  rw [hindex]

/-- The search backward is right for any string. -/
theorem memfind_last (hsub : sub ≠ []) (hint : src.length < 2 ^ 31) :
    ∃ r, memfind src sub sub.length false = some r ∧ Last src sub r := by
  rcases Nat.lt_trichotomy src.length sub.length with hlt | heq | hgt
  · refine ⟨none, memfind_short hlt false, fun p hp => ?_⟩
    have hle := hp.le
    omega
  · obtain ⟨r, hr, -, hlast⟩ := memfind_same hsub heq false
    exact ⟨r, hr, hlast⟩
  · have hleft : src.length - sub.length + 1 + sub.length ≤ src.length + 1 := by omega
    obtain ⟨r, hr, hsome, hnone⟩ := backward_spec hleft
    refine ⟨r, (memfind_longer hsub hgt hint false).trans hr, ?_⟩
    cases r with
    | some p =>
      obtain ⟨-, hp, hbehind⟩ := hsome p rfl
      refine ⟨hp, fun q hpq hq => hbehind q hpq ?_ hq⟩
      have hle := hq.le
      omega
    | none =>
      intro q hq
      refine hnone rfl q ?_ hq
      have hle := hq.le
      omega

/-- The search forward, unless what it looks for is at the end only. -/
theorem memfind_first_iff (hsub : sub ≠ []) (hint : src.length < 2 ^ 31) :
    (∃ r, memfind src sub sub.length true = some r ∧ First src sub r) ↔
      ¬ (sub.length < src.length ∧ First src sub (some (src.length - sub.length))) := by
  rcases Nat.lt_trichotomy src.length sub.length with hlt | heq | hgt
  · refine iff_of_true ⟨none, memfind_short hlt true, fun p hp => ?_⟩ fun h => by omega
    have hle := hp.le
    omega
  · obtain ⟨r, hr, hfirst, -⟩ := memfind_same hsub heq true
    exact iff_of_true ⟨r, hr, hfirst⟩ fun h => by omega
  · have hleft : 0 + (src.length - sub.length) + sub.length ≤ src.length := by omega
    obtain ⟨r, hr, hsome, hnone⟩ := forward_spec hleft hint
    have hr := (memfind_longer hsub hgt hint true).trans hr
    cases r with
    | some p =>
      obtain ⟨-, hplt, hp, hbefore⟩ := hsome p rfl
      refine iff_of_true ⟨some p, hr, hp, fun q hq => hbefore q (Nat.zero_le _) hq⟩ fun h => ?_
      exact h.2.2 p (by omega) hp
    | none =>
      have hbefore (q : Nat) (hq : q < src.length - sub.length) : ¬ OccursAt src sub q :=
        hnone rfl q (Nat.zero_le _) (by omega)
      constructor
      · rintro ⟨r', hr', hfirst⟩ ⟨-, hend, -⟩
        cases hr.symm.trans hr'
        exact hfirst _ hend
      · intro h
        refine ⟨none, hr, fun q hq => ?_⟩
        have hle := hq.le
        rcases Nat.lt_or_eq_of_le (Nat.le_sub_of_add_le hle) with hlt | rfl
        · exact hbefore q hlt hq
        · exact h ⟨hgt, hq, hbefore⟩

/-- Both directions are right unless the string is longer than `sub`, which stands at its
end and nowhere before. -/
theorem memfind_finds_iff (hint : src.length < 2 ^ 31) (hsub : sub ≠ []) :
    Finds src sub ↔
      ¬ (sub.length < src.length ∧ First src sub (some (src.length - sub.length))) := by
  rw [Finds, memfind_first_iff hsub hint]
  exact and_iff_left (memfind_last hsub hint)

/-- `b` in `aba`. -/
theorem memfind_finds_iff_middle : Finds [97, 98, 97] [98] ↔
    ¬ (1 < 3 ∧ First [97, 98, 97] [98] (some 2)) :=
  memfind_finds_iff (by decide) (by decide)

/-- `b` in `ab`. -/
theorem memfind_misses_end : ¬ ∀ src sub : List UInt8, src ≠ [] → src.length < 2 ^ 31 →
    sub ≠ [] → Finds src sub := by
  intro h
  obtain ⟨⟨r, hr, hfirst⟩, -⟩ := h [97, 98] [98] (by decide) (by decide) (by decide)
  obtain rfl : none = r := Option.some.inj hr
  exact hfirst 1 ⟨List.prefix_refl _, by decide⟩

end LearningCode.ImUtil
