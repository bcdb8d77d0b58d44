import LearningCode.Lib.Placeholders
import LearningCode.ImUtil.Model

/-!
# Values in place of the marks of a statement

What is in front of the next mark is filled in, and `begin_pos` is its length. A `uint32_t`
holds the length up to 2^32; from there on a search begins in what is filled in.
-/

namespace LearningCode.ImUtil

open Placeholders
open WebSocket (ascii)

variable {piece rest template text x : List UInt8} {us values ws : List Value} {b n : Nat}

def filledTo (template : List UInt8) (values : List Value) : List UInt8 :=
  front 63 template (values.map Value.text)

def filledIn (template : List UInt8) (values : List Value) : List UInt8 :=
  substitute 63 template (values.map Value.text)

/-- A search that begins at the length of what is filled in, modulo 2^32, finds no mark there. -/
def NoMark (str : List UInt8) : Prop := 63 ∉ str.drop (str.length % 2 ^ 32)

def Clear (template : List UInt8) (values : List Value) : Prop :=
  ∀ us, us <+: values → us ≠ values → NoMark (filledTo template us)

theorem filledIn_eq (template : List UInt8) (values : List Value) :
    filledIn template values = filledTo template values ++ behind 63 template values.length := by
  rw [filledIn, substitute_eq, List.length_map, filledTo]

theorem text_last (value : Value) : ∃ t c, value.text = t ++ [c] ∧ c ≠ 63 := by
  cases value with
  | string newValue => exact ⟨ascii "'" ++ newValue, 39, rfl, by decide⟩
  | number newValue =>
    have hne : Nat.toDigits 10 newValue.toNat ≠ [] := Nat.toDigits_ne_nil
    obtain ⟨digits, d, hdigits⟩ := (List.eq_nil_or_concat _).resolve_left hne
    rw [List.concat_eq_append] at hdigits
    have hmem : d ∈ Nat.toDigits 10 newValue.toNat := by simp [hdigits]
    have hd : 48 ≤ d.toNat ∧ d.toNat ≤ 57 := Char.isDigit_iff_toNat.mp
      (Nat.isDigit_of_mem_toDigits (by decide) (Nat.le_refl _) hmem)
    refine ⟨digits.map fun c => UInt8.ofNat c.toNat, UInt8.ofNat d.toNat, ?_, ?_⟩
    · rw [Value.text, ascii, Nat.toString_eq_repr, Nat.toList_repr, hdigits, List.map_append]
      rfl
    · intro h
      have hnat : d.toNat % 256 = 63 := congrArg UInt8.toNat h
      omega

-- ---------------------------------------------------------------------------
-- One value
-- ---------------------------------------------------------------------------

theorem replaceWith_eq (text x rest : List UInt8) (hpiece : 63 ∉ piece) :
    replaceWith text (x ++ piece ++ 63 :: rest) x.length =
      (x ++ piece ++ text ++ rest, (x ++ piece ++ text).length % 2 ^ 32) := by
  have hfind : findMark (x ++ piece ++ 63 :: rest) x.length = some (x ++ piece).length := by
    rw [findMark, List.append_assoc, List.drop_left, idxOf_cut hpiece, Option.map_some,
      List.length_append]
  have hdrop : (x ++ piece ++ 63 :: rest).drop ((x ++ piece).length + 1) = rest := by
    rw [← List.drop_drop, List.drop_left]
    rfl
  rw [replaceWith, hfind]
  dsimp only
  have hlen : (x ++ piece).length + text.length = (x ++ piece ++ text).length :=
    List.length_append.symm
  rw [List.take_left, hdrop, hlen]

theorem replaceWith_ahead (hb : b ≤ x.length) (hclear : 63 ∉ x.drop b) (hpiece : 63 ∉ piece) :
    replaceWith text (x ++ (piece ++ 63 :: rest)) b =
      (x ++ piece ++ text ++ rest, (x ++ piece ++ text).length % 2 ^ 32) := by
  have htake : (x.take b).length = b := List.length_take_of_le hb
  have hmem : 63 ∉ x.drop b ++ piece := mt List.mem_append.mp (not_or.mpr ⟨hclear, hpiece⟩)
  have heq := replaceWith_eq text (x.take b) rest hmem
  rwa [htake, ← List.append_assoc, List.take_append_drop, List.append_assoc x] at heq

theorem replaceWith_inside (text rest : List UInt8) (hb : b ≤ x.length) (hmark : 63 ∈ x.drop b) :
    ∃ y b', replaceWith text (x ++ rest) b = (y ++ rest, b') ∧ b' ≤ y.length := by
  obtain ⟨piece, later, hdrop, hpiece⟩ := List.eq_append_cons_of_mem hmark
  have hx : x.take b ++ piece ++ 63 :: later = x := by
    rw [List.append_assoc, ← hdrop, List.take_append_drop]
  have htake : (x.take b).length = b := List.length_take_of_le hb
  have heq := replaceWith_eq text (x.take b) (later ++ rest) hpiece
  rw [htake, ← List.cons_append, ← List.append_assoc, hx] at heq
  refine ⟨x.take b ++ piece ++ text ++ later, (x.take b ++ piece ++ text).length % 2 ^ 32, ?_, ?_⟩
  · rw [heq, List.append_assoc _ later]
  · exact Nat.le_trans (Nat.mod_le _ _) (List.prefix_append _ later).length_le

-- ---------------------------------------------------------------------------
-- One value after the other
-- ---------------------------------------------------------------------------

/-- From where a search may begin in `x` on, at most one mark is gone for each value. -/
theorem replaceMarks_behind (hb : b ≤ x.length) (hn : n + values.length ≤ template.count 63) :
    ∃ y m, m ≤ n + values.length ∧
      replaceMarks values (x ++ behind 63 template n) b = y ++ behind 63 template m := by
  induction values generalizing x b n with
  | nil => exact ⟨x, n, Nat.le_refl _, rfl⟩
  | cons value values ih =>
    rw [List.length_cons] at hn ⊢
    by_cases hmark : 63 ∈ x.drop b
    · obtain ⟨y, b', hstep, hb'⟩ :=
        replaceWith_inside value.text (behind 63 template n) hb hmark
      obtain ⟨z, m, hm, hrun⟩ := ih (n := n) hb' (by omega)
      refine ⟨z, m, by omega, ?_⟩
      rw [replaceMarks, replaceMark, hstep]
      exact hrun
    · have hleft : n < template.count 63 := by omega
      obtain ⟨piece, hpiece, hcut, -⟩ := exists_cut hleft
      have hb' : (x ++ piece ++ value.text).length % 2 ^ 32 ≤ (x ++ piece ++ value.text).length :=
        Nat.mod_le _ _
      obtain ⟨z, m, hm, hrun⟩ := ih (n := n + 1) hb' (by omega)
      refine ⟨z, m, by omega, ?_⟩
      rw [replaceMarks, replaceMark, hcut, replaceWith_ahead hb hmark hpiece]
      exact hrun

theorem exists_filled_concat (value : Value) (h : us.length < template.count 63) :
    ∃ piece, 63 ∉ piece ∧
      behind 63 template us.length = piece ++ 63 :: behind 63 template (us ++ [value]).length ∧
      filledTo template (us ++ [value]) = filledTo template us ++ piece ++ value.text := by
  obtain ⟨piece, hpiece, hcut, hfront⟩ := exists_cut h
  refine ⟨piece, hpiece, ?_, ?_⟩
  · rwa [List.length_append]
  · rw [filledTo, List.map_append]
    exact hfront _ _ (List.length_map _)

/-- A mark that is left is where the text of the last value should end. -/
theorem behind_ne_filledIn (hn : n < values.length) (hcount : values.length ≤ template.count 63) :
    x ++ behind 63 template n ≠ filledIn template values := by
  have hne : values ≠ [] := List.ne_nil_of_length_pos (by omega)
  obtain ⟨us, value, hvalues⟩ := (List.eq_nil_or_concat values).resolve_left hne
  rw [List.concat_eq_append] at hvalues
  subst hvalues
  obtain ⟨s, hs⟩ := exists_behind hn hcount
  rw [List.length_append] at hcount
  obtain ⟨piece, -, -, hfilled⟩ := exists_filled_concat value (Nat.lt_of_succ_le hcount)
  obtain ⟨t, c, htext, hc⟩ := text_last value
  intro h
  rw [filledIn_eq, hs, hfilled, htext, List.append_cons s, ← List.append_assoc, ← List.append_assoc,
    ← List.append_assoc] at h
  cases List.append_inj_right' (List.append_cancel_right h) rfl
  exact hc rfl

theorem replaceMarks_iff (hvalues : values = us ++ ws) (hcount : values.length ≤ template.count 63) :
    replaceMarks ws (filledTo template us ++ behind 63 template us.length)
        ((filledTo template us).length % 2 ^ 32) = filledIn template values ↔
      ∀ vs, us <+: vs → vs <+: values → vs ≠ values → NoMark (filledTo template vs) := by
  induction ws generalizing us with
  | nil =>
    rw [List.append_nil] at hvalues
    subst hvalues
    refine iff_of_true (filledIn_eq template values).symm fun vs hle hle' hne => ?_
    exact absurd (hle'.eq_of_length_le hle.length_le) hne
  | cons value ws ih =>
    have hlen : values.length = us.length + ws.length + 1 := by
      rw [hvalues, List.length_append, List.length_cons, Nat.add_assoc]
    by_cases hmark : NoMark (filledTo template us)
    · have hleft : us.length < template.count 63 := by omega
      have happend : values = us ++ [value] ++ ws := by rw [hvalues, List.append_cons]
      obtain ⟨piece, hpiece, hcut, hfilled⟩ := exists_filled_concat value hleft
      rw [replaceMarks, replaceMark, hcut, replaceWith_ahead (Nat.mod_le _ _) hmark hpiece, ← hfilled]
      refine (ih happend).trans ⟨fun h vs hle hle' hne => ?_, fun h vs hle => ?_⟩
      · obtain ⟨s, rfl⟩ := hle
        have hs := hle'
        rw [hvalues, List.prefix_append_right_inj] at hs
        rcases List.prefix_cons_iff.mp hs with rfl | ⟨t, rfl, -⟩
        · rwa [List.append_nil]
        · refine h _ ?_ hle' hne
          rw [List.append_cons us value t]
          exact List.prefix_append _ t
      · exact h vs ((List.prefix_append us [value]).trans hle)
    · refine iff_of_false ?_ fun h => hmark (h us (List.prefix_refl us) ?_ ?_)
      · obtain ⟨y, b', hstep, hb'⟩ := replaceWith_inside value.text
          (behind 63 template us.length) (Nat.mod_le _ _) (not_not.mp hmark)
        have hroom : us.length + ws.length ≤ template.count 63 := by omega
        obtain ⟨z, m, hm, hrun⟩ := replaceMarks_behind hb' hroom
        rw [replaceMarks, replaceMark, hstep]
        dsimp only
        rw [hrun]
        exact behind_ne_filledIn (by omega) hcount
      · exact hvalues ▸ List.prefix_append us _
      · intro h
        rw [h] at hlen
        omega

theorem replaceMarks_clear_iff (hcount : values.length ≤ template.count 63) :
    replaceMarks values template 0 = filledIn template values ↔ Clear template values := by
  have h := replaceMarks_iff (List.nil_append values).symm hcount
  rw [filledTo, List.map_nil, front_nil, List.length_nil, behind_zero, List.nil_append] at h
  exact h.trans ⟨fun h vs => h vs List.nil_prefix, fun h vs _ => h vs⟩

/-- Nothing goes wrong as long as the result is shorter than 2^32. -/
theorem clear_of_lt (h : (filledIn template values).length < 2 ^ 32) : Clear template values := by
  intro us hus _
  have hle : (filledTo template us).length ≤ (filledIn template values).length :=
    length_front_le template (hus.map Value.text)
  rw [NoMark, Nat.mod_eq_of_lt (Nat.lt_of_le_of_lt hle h), List.drop_length]
  exact List.not_mem_nil

/-- Each mark is replaced by its value, and nothing else is changed, if and only if there is
no mark in what is filled in from its length modulo 2^32 on whenever a value is left. -/
theorem replaceMarks_filledIn_iff (template : List UInt8) (values : List Value)
    (hcount : values.length ≤ template.count 63) :
    replaceMarks values template 0 = filledIn template values ↔ Clear template values :=
  replaceMarks_clear_iff hcount

/-- `?,?` with a question mark and a number. -/
theorem replaceMarks_filledIn_iff_two :
    replaceMarks [.string [63], .number 7] [63, 44, 63] 0 =
        filledIn [63, 44, 63] [.string [63], .number 7] ↔
      Clear [63, 44, 63] [.string [63], .number 7] :=
  replaceMarks_filledIn_iff _ _ (by decide)

/-- Behind a string of 2^32 bytes with its quotes, the search begins at 0 again. -/
theorem not_clear_long {newValue : List UInt8} (hmark : 63 ∈ newValue)
    (hlen : newValue.length = 2 ^ 32 - 2) (value : Value) :
    ¬ Clear [63, 63] [.string newValue, value] := by
  intro h
  have hnomark := h [.string newValue] (List.prefix_append _ [value]) (by simp)
  have hfilled : filledTo [63, 63] [.string newValue] = 39 :: (newValue ++ [39]) :=
    front_cut List.not_mem_nil _
  have hfull : (39 :: (newValue ++ [39])).length = 2 ^ 32 := by
    rw [List.length_cons, List.length_append, hlen]
    rfl
  rw [hfilled, NoMark, hfull, Nat.mod_self, List.drop_zero] at hnomark
  exact hnomark (List.mem_cons_of_mem _ (List.mem_append_left _ hmark))

/-- `??` with a string that begins with a question mark. -/
theorem replaceMarks_wraps : ¬ ∀ (template : List UInt8) (values : List Value),
    template.length < 2 ^ 32 → values.length ≤ template.count 63 →
    replaceMarks values template 0 = filledIn template values := by
  intro h
  have hlen : (63 :: List.replicate (2 ^ 32 - 3) 97 : List UInt8).length = 2 ^ 32 - 2 := by
    rw [List.length_cons, List.length_replicate]
    rfl
  refine not_clear_long List.mem_cons_self hlen (.number 0) ?_
  exact (replaceMarks_clear_iff (by decide)).mp (h _ _ (by decide) (by decide))

end LearningCode.ImUtil
