import Mathlib.Data.List.Perm.Subperm
import LearningCode.Btree.Model
import LearningCode.Lib.Multiway

/-!
# One level of a deletion, on trees

Where `btree_delete_key` goes from an internal node: what the node and the
children beside the way become, the child it goes to and the key it looks for
there. Nothing is said about the heap here.
-/

namespace LearningCode.Btree

open Multiway

variable {t h : Nat} {k k' : Int}

/-- The branches of `btree_delete_key`, as far as they matter to the outcome. -/
inductive Turn
  /-- The child has keys enough, or borrows one. -/
  | pass
  | merge
  /-- The key is found between the two that are merged. -/
  | mergeFound
  /-- The key is found and replaced by one of the child on its left, or right. -/
  | lendLeft
  | lendRight
  deriving DecidableEq

abbrev Opened (h : Nat) := Frame Ptr Int (Sub Ptr Int (h + 1))

def Below (k : Int) (b : List (Sub Ptr Int (h + 1) × Int)) : Prop := ∀ p ∈ b, p.2 < k

def Above (k : Int) (a : List (Int × Sub Ptr Int (h + 1))) : Prop := ∀ p ∈ a.head?, k < p.1

/-- The node `n` with the hole at `x` becomes the second frame around the next child. -/
inductive Descends (t : Nat) (k : Int) {h : Nat} : Turn → Opened h → Sub Ptr Int (h + 1) →
    Opened h → Sub Ptr Int (h + 1) → Int → Prop
  | stay {n b a x} : Below k b → Above k a → x.keys.length ≠ t - 1 →
      Descends t k .pass ⟨n, b, a⟩ x ⟨n, b, a⟩ x k
  | borrowRight {n b a s s' ks} {x r : Sub Ptr Int (h + 1)} : Below k b → k < s →
      x.keys.length = t - 1 → r.keys = s' :: ks → t ≤ r.keys.length →
      (∀ l ∈ b.getLast?, l.1.keys.length < r.keys.length) →
      Descends t k .pass ⟨n, b, (s, r) :: a⟩ x
        ⟨n, b, (s', ⟨r.name, ks, r.children.drop 1⟩) :: a⟩
        ⟨x.name, x.keys ++ [s], x.children ++ r.children.take 1⟩ k
  | borrowLeft {n b a s s' ks} {x l : Sub Ptr Int (h + 1)} : Below k (b ++ [(l, s)]) → Above k a →
      x.keys.length = t - 1 → l.keys = ks ++ [s'] → t ≤ l.keys.length →
      (∀ r ∈ a.head?, r.2.keys.length ≤ l.keys.length) →
      Descends t k .pass ⟨n, b ++ [(l, s)], a⟩ x
        ⟨n, b ++ [(⟨l.name, ks, l.children.take l.keys.length⟩, s')], a⟩
        ⟨x.name, s :: x.keys, l.children.drop l.keys.length ++ x.children⟩ k
  | mergeLeft {n b a s} {x l : Sub Ptr Int (h + 1)} : Below k (b ++ [(l, s)]) → Above k a →
      x.keys.length = t - 1 → l.keys.length = t - 1 → (∀ r ∈ a.head?, r.2.keys.length = t - 1) →
      Descends t k .merge ⟨n, b ++ [(l, s)], a⟩ x ⟨n, b, a⟩ (l.join s x) k
  | mergeRight {n a s} {x r : Sub Ptr Int (h + 1)} : k < s → x.keys.length = t - 1 →
      r.keys.length = t - 1 → Descends t k .merge ⟨n, [], (s, r) :: a⟩ x ⟨n, [], a⟩ (x.join s r) k
  | lendLeft {n b a k' ks} {x r : Sub Ptr Int (h + 1)} : Below k b → t ≤ x.keys.length →
      x.keys = ks ++ [k'] →
      Descends t k .lendLeft ⟨n, b, (k, r) :: a⟩ x ⟨n, b, (k', r) :: a⟩ x k'
  | lendRight {n b a k' ks} {x r : Sub Ptr Int (h + 1)} : Below k b → x.keys.length < t →
      t ≤ r.keys.length → r.keys = k' :: ks →
      Descends t k .lendRight ⟨n, b, (k, r) :: a⟩ x ⟨n, b ++ [(x, k')], a⟩ r k'
  | mergeFound {n b a} {x r : Sub Ptr Int (h + 1)} : Below k b → x.keys.length < t →
      r.keys.length < t → Descends t k .mergeFound ⟨n, b, (k, r) :: a⟩ x ⟨n, b, a⟩ (x.join k r) k

-- ---------------------------------------------------------------------------
-- There is a way down
-- ---------------------------------------------------------------------------

theorem above_cons {s : Int} {r : Sub Ptr Int (h + 1)} {a : List (Int × Sub Ptr Int (h + 1))}
    (hs : k < s) : Above k ((s, r) :: a) := by
  rintro _ ⟨⟩
  exact hs

theorem exists_concat {l : List Int} (hl : 0 < l.length) : ∃ ks k, l = ks ++ [k] :=
  ⟨_, _, (List.dropLast_append_getLast (List.ne_nil_of_length_pos hl)).symm⟩

theorem exists_descends_found {b : List (Sub Ptr Int (h + 1) × Int)}
    {a : List (Int × Sub Ptr Int (h + 1))} {n : Ptr} {x r : Sub Ptr Int (h + 1)} (ht : 2 ≤ t)
    (hb : Below k b) : ∃ turn f' x' k', Descends t k turn ⟨n, b, (k, r) :: a⟩ x f' x' k' := by
  by_cases hx : t ≤ x.keys.length
  · obtain ⟨ks, k', hks⟩ := exists_concat (Nat.lt_of_lt_of_le (Nat.zero_lt_of_lt ht) hx)
    exact ⟨_, _, _, _, .lendLeft hb hx hks⟩
  have hx := Nat.lt_of_not_le hx
  by_cases hr : t ≤ r.keys.length
  · obtain ⟨k', ks, hks⟩ := List.exists_cons_of_length_pos
      (Nat.lt_of_lt_of_le (Nat.zero_lt_of_lt ht) hr)
    exact ⟨_, _, _, _, .lendRight hb hx hr hks⟩
  exact ⟨_, _, _, _, .mergeFound hb hx (Nat.lt_of_not_le hr)⟩

theorem exists_descends_missed {f : Opened h} {x : Sub Ptr Int (h + 1)} (ht : 2 ≤ t)
    (hb : Below k f.before) (ha : Above k f.after) (hpos : 0 < f.keys.length)
    (hlow : ∀ y ∈ f.siblings, t - 1 ≤ y.keys.length) :
    ∃ turn f' x' k', Descends t k turn f x f' x' k' := by
  obtain ⟨n, b, a⟩ := f
  by_cases hx : x.keys.length ≠ t - 1
  · exact ⟨_, _, _, _, .stay hb ha hx⟩
  have hx : x.keys.length = t - 1 := Decidable.not_not.mp hx
  have hlt (y : Sub Ptr Int (h + 1)) (hy : t ≤ y.keys.length) : 0 < y.keys.length := by omega
  -- a sibling that can lend, the right one if it has more, or else a merge
  rcases List.eq_nil_or_concat' b with rfl | ⟨b, ⟨l, s⟩, rfl⟩
  · cases a with
    | nil => cases hpos
    | cons sr a =>
      obtain ⟨s, r⟩ := sr
      have hs : k < s := ha _ rfl
      by_cases hr : t ≤ r.keys.length
      · obtain ⟨s', ks, hks⟩ := List.exists_cons_of_length_pos (hlt r hr)
        exact ⟨_, _, _, _, .borrowRight hb hs hx hks hr (by rintro _ ⟨⟩)⟩
      · have hr' : t - 1 ≤ r.keys.length := hlow r (by simp [Frame.siblings])
        exact ⟨_, _, _, _, .mergeRight hs hx (by omega)⟩
  · have hl : t - 1 ≤ l.keys.length := hlow l (by simp [Frame.siblings])
    cases a with
    | nil =>
      by_cases hl' : t ≤ l.keys.length
      · obtain ⟨ks, s', hks⟩ := exists_concat (hlt l hl')
        exact ⟨_, _, _, _, .borrowLeft hb ha hx hks hl' (by rintro _ ⟨⟩)⟩
      · exact ⟨_, _, _, _, .mergeLeft hb ha hx (by omega) (by rintro _ ⟨⟩)⟩
    | cons sr a =>
      obtain ⟨s', r⟩ := sr
      have hs : k < s' := ha _ rfl
      have hr : t - 1 ≤ r.keys.length := hlow r (by simp [Frame.siblings])
      by_cases hr' : t ≤ r.keys.length ∧ l.keys.length < r.keys.length
      · obtain ⟨s'', ks, hks⟩ := List.exists_cons_of_length_pos (hlt r hr'.1)
        refine ⟨_, _, _, _, .borrowRight hb hs hx hks hr'.1 ?_⟩
        simpa using hr'.2
      · by_cases hl' : t ≤ l.keys.length
        · obtain ⟨ks, s'', hks⟩ := exists_concat (hlt l hl')
          refine ⟨_, _, _, _, .borrowLeft hb ha hx hks hl' ?_⟩
          rintro _ ⟨⟩
          simp only
          omega
        · refine ⟨_, _, _, _, .mergeLeft hb ha hx (by omega) ?_⟩
          rintro _ ⟨⟩
          simp only
          omega

theorem exists_position (k : Int) (ks : List Int) :
    ∃ pre suf, ks = pre ++ suf ∧ (∀ j ∈ pre, j < k) ∧ ∀ j ∈ suf.head?, k ≤ j := by
  induction ks with
  | nil => exact ⟨[], [], rfl, nofun, nofun⟩
  | cons j ks ih =>
    by_cases hj : j < k
    · obtain ⟨pre, suf, rfl, hpre, hsuf⟩ := ih
      exact ⟨j :: pre, suf, rfl, List.forall_mem_cons.mpr ⟨hj, hpre⟩, hsuf⟩
    · refine ⟨[], j :: ks, rfl, nofun, ?_⟩
      rintro _ ⟨⟩
      exact Int.not_lt.mp hj

theorem exists_descends {c : MultiTree Ptr Int (h + 1)} (ht : 2 ≤ t)
    (hc : Shaped (t - 1) (2 * t - 1) (h + 2) c) (hpos : 0 < c.keys.length) (k : Int) :
    ∃ turn f x f' x' k', c = Frame.fill f x ∧ Descends t k turn f x f' x' k' := by
  obtain ⟨pre, suf, hsplit, hpre, hsuf⟩ := exists_position k c.keys
  obtain ⟨⟨n, b, a⟩, x, rfl, rfl, rfl⟩ := exists_fill (hc.2.1 (Nat.succ_pos h)) hsplit
  have hb : Below k b := fun p hp => hpre _ (List.mem_map_of_mem hp)
  obtain ⟨-, -, hlow⟩ := shaped_fill.mp hc
  by_cases hfound : ∃ r a', a = (k, r) :: a'
  · obtain ⟨r, a, rfl⟩ := hfound
    obtain ⟨turn, f', x', k', hd⟩ := exists_descends_found ht hb
    exact ⟨turn, _, x, f', x', k', rfl, hd⟩
  · have ha : Above k a := by
      intro p hp
      have hle : k ≤ p.1 := hsuf p.1 (by simp [List.head?_map, Option.mem_def.mp hp])
      have hne : p.1 ≠ k := by
        rintro rfl
        obtain ⟨a, rfl⟩ := List.head?_eq_some_iff.mp hp
        exact hfound ⟨p.2, a, rfl⟩
      omega
    obtain ⟨turn, f', x', k', hd⟩ := exists_descends_missed ht hb ha hpos fun y hy => (hlow y hy).1
    exact ⟨turn, _, x, f', x', k', rfl, hd⟩

-- ---------------------------------------------------------------------------
-- What it leaves
-- ---------------------------------------------------------------------------

def Turn.merges : Turn → Bool
  | .merge | .mergeFound => true
  | _ => false

def Rim (t : Nat) (f : Opened h) : Prop :=
  f.keys.length ≤ 2 * t - 1 ∧
    ∀ y ∈ f.siblings, t - 1 ≤ y.keys.length ∧ Shaped (t - 1) (2 * t - 1) (h + 1) y

theorem shaped_fill_iff {f : Opened h} {x : Sub Ptr Int (h + 1)} :
    Shaped (t - 1) (2 * t - 1) (h + 2) (f.fill x) ↔
      Rim t f ∧ t - 1 ≤ x.keys.length ∧ Shaped (t - 1) (2 * t - 1) (h + 1) x := by
  rw [shaped_fill, Rim]
  constructor
  · rintro ⟨hfull, hx, hsiblings⟩
    exact ⟨⟨hfull, hsiblings⟩, hx⟩
  · rintro ⟨⟨hfull, hsiblings⟩, hx⟩
    exact ⟨hfull, hx, hsiblings⟩

theorem Descends.keys_length {turn : Turn} {f f' : Opened h} {x x' : Sub Ptr Int (h + 1)}
    (hd : Descends t k turn f x f' x' k') :
    f.keys.length = f'.keys.length + if turn.merges then 1 else 0 := by
  cases hd <;> simp [Turn.merges] <;> omega

theorem mem_siblings {n : Ptr} {b : List (Sub Ptr Int (h + 1) × Int)}
    {a : List (Int × Sub Ptr Int (h + 1))} {y : Sub Ptr Int (h + 1)} :
    y ∈ Frame.siblings ⟨n, b, a⟩ ↔ y ∈ b.map Prod.fst ∨ y ∈ a.map Prod.snd := List.mem_append

theorem shaped_join {l r : Sub Ptr Int (h + 1)} {s : Int} (ht : 2 ≤ t)
    (hl : Shaped (t - 1) (2 * t - 1) (h + 1) l) (hr : Shaped (t - 1) (2 * t - 1) (h + 1) r)
    (hllen : l.keys.length = t - 1) (hrlen : r.keys.length = t - 1) :
    t ≤ (l.join s r).keys.length ∧ Shaped (t - 1) (2 * t - 1) (h + 1) (l.join s r) := by
  have hlen : (l.join s r).keys.length = 2 * t - 1 := by
    simp only [join_keys, List.length_append, List.length_cons]
    omega
  refine ⟨by omega, Nat.le_of_eq hlen, fun hpos => ?_, fun y hy => ?_⟩
  · have hlc := hl.2.1 hpos
    have hrc := hr.2.1 hpos
    simp only [join_keys, join_children, List.length_append, List.length_cons]
    omega
  · rcases List.mem_append.mp hy with hy | hy
    · exact hl.2.2 y hy
    · exact hr.2.2 y hy

section
variable {lo hi : Nat} {l r x : Sub Ptr Int (h + 1)} {ks : List Int} {s s' : Int}

theorem shaped_dropFirst (hr : Shaped lo hi (h + 1) r) (hks : r.keys = s' :: ks) :
    Shaped lo hi (h + 1) ⟨r.name, ks, r.children.drop 1⟩ := by
  have hlen : r.keys.length = ks.length + 1 := by rw [hks, List.length_cons]
  obtain ⟨hfull, hcount, hbelow⟩ := hr
  refine ⟨by simp only; omega, fun hpos => ?_, fun y hy => hbelow y (List.mem_of_mem_drop hy)⟩
  have hrc := hcount hpos
  simp only [List.length_drop]
  omega

theorem shaped_dropLast (hl : Shaped lo hi (h + 1) l) (hks : l.keys = ks ++ [s']) :
    Shaped lo hi (h + 1) ⟨l.name, ks, l.children.take l.keys.length⟩ := by
  have hlen : l.keys.length = ks.length + 1 := by rw [hks, List.length_append, List.length_singleton]
  obtain ⟨hfull, hcount, hbelow⟩ := hl
  refine ⟨by simp only; omega, fun hpos => ?_, fun y hy => hbelow y (List.mem_of_mem_take hy)⟩
  have hlc := hcount hpos
  simp only [List.length_take]
  omega

theorem shaped_addLast (hx : Shaped lo hi (h + 1) x) (hr : Shaped lo hi (h + 1) r)
    (hroom : x.keys.length < hi) :
    Shaped lo hi (h + 1) ⟨x.name, x.keys ++ [s], x.children ++ r.children.take 1⟩ := by
  refine ⟨by simpa using Nat.succ_le_of_lt hroom, fun hpos => ?_, fun y hy => ?_⟩
  · have hxc := hx.2.1 hpos
    have hrc := hr.2.1 hpos
    simp only [List.length_append, List.length_take, List.length_singleton]
    omega
  · rcases List.mem_append.mp hy with hy | hy
    · exact hx.2.2 y hy
    · exact hr.2.2 y (List.mem_of_mem_take hy)

theorem shaped_addFirst (hx : Shaped lo hi (h + 1) x) (hl : Shaped lo hi (h + 1) l)
    (hroom : x.keys.length < hi) :
    Shaped lo hi (h + 1) ⟨x.name, s :: x.keys, l.children.drop l.keys.length ++ x.children⟩ := by
  refine ⟨by simpa using Nat.succ_le_of_lt hroom, fun hpos => ?_, fun y hy => ?_⟩
  · have hxc := hx.2.1 hpos
    have hlc := hl.2.1 hpos
    simp only [List.length_append, List.length_drop, List.length_cons]
    omega
  · rcases List.mem_append.mp hy with hy | hy
    · exact hl.2.2 y (List.mem_of_mem_drop hy)
    · exact hx.2.2 y hy

end

theorem Descends.shaped {turn : Turn} {f f' : Opened h} {x x' : Sub Ptr Int (h + 1)} (ht : 2 ≤ t)
    (hd : Descends t k turn f x f' x' k') (hc : Shaped (t - 1) (2 * t - 1) (h + 2) (f.fill x)) :
    Rim t f' ∧ t ≤ x'.keys.length ∧ Shaped (t - 1) (2 * t - 1) (h + 1) x' := by
  have hlength := hd.keys_length
  obtain ⟨⟨hfull, hsiblings⟩, hlow, hx⟩ := shaped_fill_iff.mp hc
  have hfull' : f'.keys.length ≤ 2 * t - 1 := by omega
  cases hd with
  | stay _ _ hne => exact ⟨⟨hfull', hsiblings⟩, by omega, hx⟩
  | @borrowRight n b a s s' ks x r _ _ hxlen hks hrlen _ =>
    obtain ⟨-, hr⟩ := hsiblings r (by simp [Frame.siblings])
    have hkslen : r.keys.length = ks.length + 1 := by rw [hks, List.length_cons]
    refine ⟨⟨hfull', fun y hy => ?_⟩, ?_, shaped_addLast hx hr (by omega)⟩
    · rcases mem_siblings.mp hy with hy | hy
      · exact hsiblings y (mem_siblings.mpr (.inl hy))
      · rcases List.mem_cons.mp hy with rfl | hy
        · refine ⟨?_, shaped_dropFirst hr hks⟩
          simp only
          omega
        · exact hsiblings y (mem_siblings.mpr (.inr (List.mem_cons_of_mem _ hy)))
    · simp only [List.length_append, List.length_singleton]
      omega
  | @borrowLeft n b a s s' ks x l _ _ hxlen hks hllen _ =>
    obtain ⟨-, hl⟩ := hsiblings l (by simp [Frame.siblings])
    have hkslen : l.keys.length = ks.length + 1 := by
      rw [hks, List.length_append, List.length_singleton]
    refine ⟨⟨hfull', fun y hy => ?_⟩, ?_, shaped_addFirst hx hl (by omega)⟩
    · rcases mem_siblings.mp hy with hy | hy
      · rw [List.map_append, List.mem_append] at hy
        rcases hy with hy | hy
        · refine hsiblings y (mem_siblings.mpr (.inl ?_))
          rw [List.map_append]
          exact List.mem_append_left _ hy
        · rcases List.mem_singleton.mp hy with rfl
          refine ⟨?_, shaped_dropLast hl hks⟩
          simp only
          omega
      · exact hsiblings y (mem_siblings.mpr (.inr hy))
    · simp only [List.length_cons]
      omega
  | @mergeLeft n b a s x l _ _ hxlen hllen _ =>
    obtain ⟨-, hl⟩ := hsiblings l (by simp [Frame.siblings])
    refine ⟨⟨hfull', fun y hy => hsiblings y ?_⟩, shaped_join ht hl hx hllen hxlen⟩
    rcases mem_siblings.mp hy with hy | hy
    · rw [mem_siblings, List.map_append]
      exact .inl (List.mem_append_left _ hy)
    · exact mem_siblings.mpr (.inr hy)
  | @mergeRight n a s x r _ hxlen hrlen =>
    obtain ⟨-, hr⟩ := hsiblings r (by simp [Frame.siblings])
    refine ⟨⟨hfull', fun y hy => hsiblings y ?_⟩, shaped_join ht hx hr hxlen hrlen⟩
    exact List.mem_cons_of_mem _ hy
  | @lendLeft n b a k' ks x r _ hlen _ => exact ⟨⟨hfull', hsiblings⟩, hlen, hx⟩
  | @lendRight n b a k' ks x _ _ _ hlen _ =>
    obtain ⟨-, hr⟩ := hsiblings x' (by simp [Frame.siblings])
    refine ⟨⟨hfull', fun y hy => ?_⟩, hlen, hr⟩
    rcases mem_siblings.mp hy with hy | hy
    · rw [List.map_append, List.mem_append] at hy
      rcases hy with hy | hy
      · exact hsiblings y (mem_siblings.mpr (.inl hy))
      · rcases List.mem_singleton.mp hy with rfl
        exact ⟨hlow, hx⟩
    · exact hsiblings y (mem_siblings.mpr (.inr (List.mem_cons_of_mem _ hy)))
  | @mergeFound n b a x r _ hxlen hrlen =>
    obtain ⟨hrlow, hr⟩ := hsiblings r (by simp [Frame.siblings])
    refine ⟨⟨hfull', fun y hy => hsiblings y ?_⟩,
      shaped_join ht hx hr (by omega) (by omega)⟩
    rcases mem_siblings.mp hy with hy | hy
    · exact mem_siblings.mpr (.inl hy)
    · exact mem_siblings.mpr (.inr (List.mem_cons_of_mem _ hy))

theorem merge_names {n : Ptr} {b : List (Sub Ptr Int (h + 1) × Int)}
    {a : List (Int × Sub Ptr Int (h + 1))} {l r : Sub Ptr Int (h + 1)} {s : Int} :
    (names (h + 2) (Frame.fill ⟨n, b, a⟩ (l.join s r))).Subperm
      (names (h + 2) (Frame.fill ⟨n, b, (s, r) :: a⟩ l)) := by
  refine (names_fill_perm _ _).subperm.trans ?_
  refine List.Subperm.trans ?_ (names_pair_perm n b a l r s).symm.subperm
  exact (((List.sublist_cons_self r.name _).cons_cons l.name).cons_cons n).subperm

theorem Descends.names_subperm {turn : Turn} {f f' : Opened h} {x x' : Sub Ptr Int (h + 1)}
    (hd : Descends t k turn f x f' x' k') :
    (names (h + 2) (f'.fill x')).Subperm (names (h + 2) (f.fill x)) := by
  cases hd with
  | stay => exact .refl _
  | @borrowRight n b a s s' ks x r =>
    have hnew := names_pair_perm n b a ⟨x.name, x.keys ++ [s], x.children ++ r.children.take 1⟩
      (⟨r.name, ks, r.children.drop 1⟩ : Sub Ptr Int (h + 1)) s'
    simp only [List.append_assoc, List.take_append_drop] at hnew
    exact (hnew.trans (names_pair_perm n b a x r s).symm).subperm
  | @borrowLeft n b a s s' ks x l =>
    have hnew := names_pair_perm n b a ⟨l.name, ks, l.children.take l.keys.length⟩
      (⟨x.name, s :: x.keys, l.children.drop l.keys.length ++ x.children⟩ : Sub Ptr Int (h + 1)) s'
    simp only [← List.append_assoc, List.take_append_drop] at hnew
    rw [fill_swap, fill_swap]
    exact (hnew.trans (names_pair_perm n b a l x s).symm).subperm
  | mergeLeft =>
    rw [fill_swap]
    exact merge_names
  | mergeRight => exact merge_names
  | lendLeft => exact .refl _
  | lendRight =>
    rw [fill_swap]
    exact .refl _
  | mergeFound => exact merge_names

end LearningCode.Btree
