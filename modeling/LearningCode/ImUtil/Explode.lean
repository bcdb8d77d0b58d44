import Mathlib.Tactic.SplitIfs
import LearningCode.Lib.Tokens
import LearningCode.ImUtil.Model

/-!
# The items of a string

The first loop counts one item more than there are separators; the second makes no item
of nothing, and takes a separator for part of an item if the item would begin with it. So
the items are the pieces of the string just when no piece is empty.
-/

namespace LearningCode.ImUtil

open Tokens (length_splitOn notMem_of_mem_splitOn)

variable {sep : UInt8} {str rest piece last : List UInt8} {done l : List (List UInt8)}
  {items items' : List (Option (List UInt8))} {m : Nat}

/-- Every item is assigned and without a separator, and joined they are the string. -/
def Splits (str : List UInt8) (sep : UInt8) : Prop :=
  ∃ e, cStrExplode str sep = some e ∧ ∃ l, e.m_item_list = l.map some ∧ e.m_item_cnt = l.length ∧
    (∀ item ∈ l, sep ∉ item) ∧ [sep].intercalate l = str

def pieces (sep : UInt8) : (rest piece : List UInt8) → List (List UInt8) × List UInt8
  | [], piece => ([], piece)
  | c :: rest, piece =>
    if piece ≠ [] ∧ c = sep then (piece :: (pieces sep rest []).1, (pieces sep rest []).2)
    else pieces sep rest (piece ++ [c])

def stored (sep : UInt8) (rest piece : List UInt8) : List (List UInt8) :=
  let (l, last) := pieces sep rest piece
  if last.length % 2 ^ 32 ≠ 0 then l ++ [last] else l

def cut (piece : List UInt8) : List UInt8 := piece.take (piece.length % 2 ^ 32)

def Short (piece : List UInt8) : Prop := piece.length % 2 ^ 32 + 1 < 2 ^ 32

-- ---------------------------------------------------------------------------
-- What is stored
-- ---------------------------------------------------------------------------

theorem length_pieces_le (sep : UInt8) (rest piece : List UInt8) :
    (pieces sep rest piece).1.length ≤ rest.count sep := by
  induction rest generalizing piece with
  | nil => exact Nat.le_refl 0
  | cons c rest ih =>
    rw [pieces]
    split_ifs with hend
    · have hrest := ih []
      rw [hend.2, List.count_cons_self, List.length_cons]
      omega
    · exact Nat.le_trans (ih _) (List.count_le_count_cons ..)

theorem length_stored_le (sep : UInt8) (rest piece : List UInt8) :
    (stored sep rest piece).length ≤ (pieces sep rest piece).1.length + 1 := by
  unfold stored
  dsimp only
  split_ifs
  · simp
  · exact Nat.le_succ _

theorem stored_nil : stored sep [] piece = if piece.length % 2 ^ 32 ≠ 0 then [piece] else [] := rfl

theorem stored_end (h : piece ≠ []) :
    stored sep (sep :: rest) piece = piece :: stored sep rest [] := by
  have hpieces : pieces sep (sep :: rest) piece =
      (piece :: (pieces sep rest []).1, (pieces sep rest []).2) := if_pos ⟨h, rfl⟩
  rw [stored, stored, hpieces]
  dsimp only
  split_ifs <;> rfl

theorem stored_go {c : UInt8} (h : ¬ (piece ≠ [] ∧ c = sep)) :
    stored sep (c :: rest) piece = stored sep rest (piece ++ [c]) := by
  have hpieces : pieces sep (c :: rest) piece = pieces sep rest (piece ++ [c]) := if_neg h
  rw [stored, stored, hpieces]

theorem stored_full (hpiece : sep ∉ piece)
    (hfull : (stored sep rest piece).length = rest.count sep + 1) :
    stored sep rest piece = (piece ++ rest).splitOn sep ∧
      ∀ x ∈ (piece ++ rest).splitOn sep, x ≠ [] := by
  induction rest generalizing piece with
  | nil =>
    rw [stored_nil] at hfull ⊢
    split_ifs at hfull ⊢ with hlen
    · rw [List.append_nil, List.splitOn_eq_singleton hpiece]
      refine ⟨rfl, fun x hx => ?_⟩
      rintro rfl
      obtain rfl := List.mem_singleton.mp hx
      exact hlen rfl
  | cons c rest ih =>
    by_cases hc : c = sep
    · subst hc
      rw [List.count_cons_self] at hfull
      have hempty : piece ≠ [] := by
        rintro rfl
        rw [stored_go (by simp)] at hfull
        have hle := length_stored_le c rest ([] ++ [c])
        have hle' := length_pieces_le c rest ([] ++ [c])
        omega
      rw [stored_end hempty, List.length_cons, Nat.add_right_cancel_iff] at hfull
      obtain ⟨heq, hne⟩ := ih List.not_mem_nil hfull
      rw [List.nil_append] at heq hne
      rw [stored_end hempty, List.splitOn_append_cons_self_of_not_mem hpiece, heq]
      exact ⟨rfl, List.forall_mem_cons.mpr ⟨hempty, hne⟩⟩
    · have hgo : ¬ (piece ≠ [] ∧ c = sep) := fun h => hc h.2
      rw [stored_go hgo] at hfull ⊢
      rw [List.count_cons_of_ne hc] at hfull
      rw [List.append_cons piece c rest]
      refine ih ?_ hfull
      simp [hpiece, Ne.symm hc]

theorem stored_pieces (hpiece : sep ∉ piece)
    (hne : ∀ x ∈ (piece ++ rest).splitOn sep, x.length % 2 ^ 32 ≠ 0) :
    stored sep rest piece = (piece ++ rest).splitOn sep := by
  induction rest generalizing piece with
  | nil =>
    rw [List.append_nil, List.splitOn_eq_singleton hpiece] at hne ⊢
    exact if_pos (hne piece (List.mem_singleton_self _))
  | cons c rest ih =>
    by_cases hc : c = sep
    · subst hc
      rw [List.splitOn_append_cons_self_of_not_mem hpiece] at hne ⊢
      rw [List.forall_mem_cons] at hne
      have hempty : piece ≠ [] := by
        rintro rfl
        exact hne.1 rfl
      rw [stored_end hempty, ih List.not_mem_nil hne.2, List.nil_append]
    · have hgo : ¬ (piece ≠ [] ∧ c = sep) := fun h => hc h.2
      rw [stored_go hgo, List.append_cons piece c rest]
      rw [List.append_cons piece c rest] at hne
      refine ih ?_ hne
      simp [hpiece, Ne.symm hc]

-- ---------------------------------------------------------------------------
-- The array
-- ---------------------------------------------------------------------------

def filled (done : List (List UInt8)) (m : Nat) : List (Option (List UInt8)) :=
  done.map some ++ List.replicate m none

theorem assign_filled : assign (filled done m) done.length piece = some items' ↔
    Short piece ∧ ∃ m', m = m' + 1 ∧ filled (done ++ [cut piece]) m' = items' := by
  have hset (m' : Nat) : (filled done (m' + 1)).set done.length (some (cut piece)) =
      filled (done ++ [cut piece]) m' := by
    rw [filled, List.set_append_right _ _ (by simp)]
    simp [filled, List.replicate_succ]
  rw [assign, newItem, ← cut]
  by_cases hshort : piece.length % 2 ^ 32 + 1 < 2 ^ 32
  · rw [if_pos hshort, Option.bind_eq_bind, Option.bind_some]
    cases m with
    | zero =>
      rw [if_neg (by simp [filled])]
      exact ⟨nofun, fun ⟨_, m', hm, _⟩ => nomatch hm⟩
    | succ m' =>
      rw [if_pos (by simp [filled]), hset]
      constructor
      · exact fun h => ⟨hshort, m', rfl, Option.some.inj h⟩
      · rintro ⟨-, m'', hm, h⟩
        cases hm
        exact congrArg some h
  · rw [if_neg hshort]
    exact ⟨nofun, fun h => absurd h.1 hshort⟩

theorem fill_filled (hdone : done.length < 2 ^ 31) :
    fill sep rest piece done.length (filled done m) = some items' ↔
      done.length + (pieces sep rest piece).1.length < 2 ^ 31 ∧
      (∀ x ∈ stored sep rest piece, Short x) ∧
        ∃ m', m = m' + (stored sep rest piece).length ∧
          filled (done ++ (stored sep rest piece).map cut) m' = items' := by
  induction rest generalizing piece done m with
  | nil =>
    have hpieces : (pieces sep [] piece).1.length = 0 := rfl
    rw [fill, stored_nil, hpieces]
    by_cases hlen : piece.length % 2 ^ 32 ≠ 0
    · rw [if_pos hlen, if_pos hlen, assign_filled, List.forall_mem_singleton]
      exact ⟨fun h => ⟨hdone, h⟩, fun h => h.2⟩
    · rw [if_neg hlen, if_neg hlen, Option.some.injEq, List.map_nil, List.append_nil]
      constructor
      · exact fun h => ⟨hdone, List.forall_mem_nil _, m, rfl, h⟩
      · rintro ⟨-, -, m', rfl, h⟩
        exact h
  | cons c rest ih =>
    by_cases hend : piece ≠ [] ∧ c = sep
    · obtain ⟨hne, rfl⟩ := hend
      have hpieces : (pieces c (c :: rest) piece).1.length = (pieces c rest []).1.length + 1 := by
        rw [pieces, if_pos ⟨hne, rfl⟩]
        rfl
      rw [fill, if_pos ⟨hne, rfl⟩, stored_end hne, hpieces, List.forall_mem_cons]
      by_cases hassign : Short piece ∧ ∃ m', m = m' + 1
      · obtain ⟨hshort, m', rfl⟩ := hassign
        rw [assign_filled.mpr ⟨hshort, m', rfl, rfl⟩, Option.bind_eq_bind, Option.bind_some]
        by_cases hint : done.length + 1 < 2 ^ 31
        · have hlen : done.length + 1 = (done ++ [cut piece]).length := by simp
          rw [if_pos hint, hlen, ih (by rwa [← hlen]), List.length_append, List.length_singleton,
            List.length_cons, List.map_cons]
          simp only [← List.append_cons]
          constructor
          · rintro ⟨hroom, hall, m'', rfl, h⟩
            exact ⟨by omega, ⟨hshort, hall⟩, m'', by omega, h⟩
          · rintro ⟨hroom, ⟨-, hall⟩, m'', hm, h⟩
            exact ⟨by omega, hall, m'', by omega, h⟩
        · rw [if_neg hint]
          exact ⟨nofun, fun h => by omega⟩
      · have hnone : assign (filled done m) done.length piece = none := by
          refine Option.eq_none_iff_forall_ne_some.mpr fun items hitems => hassign ?_
          obtain ⟨hshort, m', hm, -⟩ := assign_filled.mp hitems
          exact ⟨hshort, m', hm⟩
        rw [hnone]
        refine ⟨nofun, fun h => absurd ⟨h.2.1.1, ?_⟩ hassign⟩
        obtain ⟨-, -, m', hm, -⟩ := h
        exact ⟨m' + (stored c rest []).length, hm⟩
    · have hpieces : pieces sep (c :: rest) piece = pieces sep rest (piece ++ [c]) := if_neg hend
      rw [fill, if_neg hend, stored_go hend, hpieces]
      exact ih hdone

-- ---------------------------------------------------------------------------
-- The items
-- ---------------------------------------------------------------------------

theorem length_nil_lt : ([] : List (List UInt8)).length < 2 ^ 31 := by decide

theorem filled_eq_map (h : filled done m = l.map some) : m = 0 ∧ done = l := by
  have hm : m = 0 := by
    by_contra hne
    have hmem : none ∈ filled done m := by simp [filled, hne]
    simp [h] at hmem
  subst hm
  refine ⟨rfl, List.map_injective_iff.mpr (Option.some_injective _) ?_⟩
  simpa [filled] using h

theorem explode_eq {e : CStrExplode} (h : cStrExplode str sep = some e) :
    e.m_item_cnt = (1 + str.count sep) % 2 ^ 32 ∧
      fill sep str [] 0 (filled [] e.m_item_cnt) = some e.m_item_list := by
  obtain ⟨items, hitems, he⟩ := Option.bind_eq_some_iff.mp h
  cases he
  exact ⟨rfl, hitems⟩

theorem cut_eq (h : cut piece = piece) : piece.length < 2 ^ 32 := by
  have hlen := congrArg List.length h
  rw [cut, List.length_take] at hlen
  omega

/-- The pieces are not empty, and neither they nor their number are too large. -/
def Plain (str : List UInt8) (sep : UInt8) : Prop :=
  (∀ x ∈ str.splitOn sep, x ≠ [] ∧ x.length < 2 ^ 32 - 1) ∧ (str.splitOn sep).length ≤ 2 ^ 31

theorem plain_of_splits (h : Splits str sep) : Plain str sep := by
  obtain ⟨e, he, l, hlist, hcnt, hfree, hjoin⟩ := h
  obtain ⟨hcount, hfill⟩ := explode_eq he
  obtain ⟨hint, hshort, m', hm, hitems⟩ := (fill_filled length_nil_lt).mp hfill
  obtain ⟨rfl, hstored⟩ := filled_eq_map (hitems.trans hlist)
  rw [List.nil_append] at hstored
  have hne : l ≠ [] := by
    rintro rfl
    rw [← hjoin, hcnt] at hcount
    exact absurd hcount (by simp)
  have hsplit : str.splitOn sep = l := by
    rw [← hjoin, List.splitOn_intercalate sep hfree hne]
  have hlen : (stored sep str []).length = str.count sep + 1 := by
    rw [← length_splitOn, hsplit, ← hstored, List.length_map]
  obtain ⟨heq, hempty⟩ := stored_full List.not_mem_nil hlen
  rw [List.nil_append] at heq hempty
  rw [heq] at hstored hshort
  have hcut : (str.splitOn sep).map cut = (str.splitOn sep).map id := by
    rw [hstored, hsplit, List.map_id]
  constructor
  · intro x hx
    have hsmall := cut_eq (List.map_inj_left.mp hcut x hx)
    have hfit := hshort x hx
    rw [Short, Nat.mod_eq_of_lt hsmall] at hfit
    exact ⟨hempty x hx, by omega⟩
  · have hle := length_stored_le sep str []
    have hle' := length_pieces_le sep str []
    rw [length_splitOn]
    rw [List.length_nil] at hint
    omega

theorem splits_of_plain (h : Plain str sep) : Splits str sep := by
  obtain ⟨hpieces, hnumber⟩ := h
  have hmod (x : List UInt8) (hx : x ∈ str.splitOn sep) : x.length % 2 ^ 32 = x.length := by
    have hlen := (hpieces x hx).2
    exact Nat.mod_eq_of_lt (by omega)
  have hstored : stored sep str [] = str.splitOn sep := by
    refine stored_pieces List.not_mem_nil fun x hx => ?_
    rw [List.nil_append] at hx
    rw [hmod x hx]
    exact mt List.length_eq_zero_iff.mp (hpieces x hx).1
  have hcut : (stored sep str []).map cut = str.splitOn sep := by
    rw [hstored]
    refine (List.map_congr_left fun x hx => ?_).trans (List.map_id _)
    rw [cut, hmod x hx, List.take_length, id]
  have hcount : (1 + str.count sep) % 2 ^ 32 = (str.splitOn sep).length := by
    rw [length_splitOn] at hnumber ⊢
    rw [Nat.add_comm, Nat.mod_eq_of_lt (by omega)]
  have hfill : fill sep str [] 0 (filled [] (str.splitOn sep).length) =
      some ((str.splitOn sep).map some) := by
    refine (fill_filled length_nil_lt).mpr ⟨?_, ?_, 0, ?_, ?_⟩
    · have hle := length_pieces_le sep str []
      rw [length_splitOn] at hnumber
      rw [List.length_nil]
      omega
    · intro x hx
      rw [hstored] at hx
      have hlen := (hpieces x hx).2
      rw [Short, hmod x hx]
      omega
    · rw [hstored, Nat.zero_add]
    · rw [hcut]
      simp [filled]
  refine ⟨⟨(str.splitOn sep).length, (str.splitOn sep).map some⟩, ?_, str.splitOn sep, rfl, rfl,
    fun x hx => notMem_of_mem_splitOn hx, List.intercalate_splitOn sep⟩
  simp only [filled, List.map_nil, List.nil_append] at hfill
  simp only [cStrExplode, hcount, hfill]
  rfl

/-- The items are right just when every piece between the separators has a byte and fits,
and there are not too many. -/
theorem cStrExplode_splits_iff (str : List UInt8) (sep : UInt8) : Splits str sep ↔ Plain str sep :=
  ⟨plain_of_splits, splits_of_plain⟩

/-- `a,`: the second item is not assigned. -/
theorem cStrExplode_trailing : ¬ ∀ (str : List UInt8) (sep : UInt8), 0 ∉ str → sep ≠ 0 →
    Splits str sep := by
  intro h
  have hplain := plain_of_splits (h [97, 44] 44 (by decide) (by decide))
  exact (hplain.1 [] (by decide)).1 rfl

end LearningCode.ImUtil
