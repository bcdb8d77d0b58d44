import Mathlib.Data.List.Nodup
import Mathlib.Data.List.Perm.Subperm
import Mathlib.Data.List.Flatten

/-!
# Walks in a directed graph

A graph is the list of the successors of each vertex, in which a vertex may stand
twice. A walk is given by where in these lists its steps are, so that two edges
between the same vertices make two walks. `ends` is the order of a depth-first search
that does not look where it has been.
-/

namespace LearningCode.Walks

universe u

variable {α : Type u} {adj : α → List α} {x y z : α} {n : Nat} {is js : List Nat}

def follow (adj : α → List α) : (x : α) → (is : List Nat) → Option α
  | x, [] => some x
  | x, i :: is => (adj x)[i]?.bind fun y => follow adj y is

def ends (adj : α → List α) : (n : Nat) → (x : α) → List α
  | 0, _ => []
  | n + 1, x => x :: (adj x).flatMap (ends adj n)

/-- Some walk comes back to where it starts. -/
def Cyclic (adj : α → List α) : Prop := ∃ x is, is ≠ [] ∧ follow adj x is = some x

/-- Two different walks from a vertex end at the same one. -/
def Rejoins (adj : α → List α) (x : α) : Prop :=
  ∃ is js y, is ≠ js ∧ follow adj x is = some y ∧ follow adj x js = some y

def Closed (adj : α → List α) (V : List α) : Prop := ∀ x ∈ V, ∀ y ∈ adj x, y ∈ V

theorem follow_cons {i : Nat} :
    follow adj x (i :: is) = some z ↔ ∃ y, (adj x)[i]? = some y ∧ follow adj y is = some z :=
  Option.bind_eq_some_iff

theorem follow_append (is js : List Nat) :
    follow adj x (is ++ js) = (follow adj x is).bind fun y => follow adj y js := by
  induction is generalizing x with
  | nil => rfl
  | cons i is ih =>
    rw [List.cons_append, follow, follow, Option.bind_assoc]
    exact congrArg _ (funext fun y => ih)

theorem mem_ends : y ∈ ends adj n x ↔ ∃ is, is.length < n ∧ follow adj x is = some y := by
  induction n generalizing x with
  | zero => simp [ends]
  | succ n ih =>
    rw [ends, List.mem_cons, List.mem_flatMap]
    constructor
    · rintro (rfl | ⟨z, hz, hy⟩)
      · exact ⟨[], Nat.succ_pos n, rfl⟩
      · obtain ⟨i, hi⟩ := List.mem_iff_getElem?.mp hz
        obtain ⟨is, hlen, hfollow⟩ := ih.mp hy
        exact ⟨i :: is, Nat.succ_lt_succ hlen, follow_cons.mpr ⟨z, hi, hfollow⟩⟩
    · rintro ⟨is, hlen, hfollow⟩
      cases is with
      | nil => exact .inl (Option.some.inj hfollow).symm
      | cons i is =>
        obtain ⟨z, hz, hfollow⟩ := follow_cons.mp hfollow
        exact .inr ⟨z, List.mem_of_getElem? hz, ih.mpr ⟨is, Nat.lt_of_succ_lt_succ hlen, hfollow⟩⟩

theorem nodup_ends_of (h : ∀ is js y, is.length < n → js.length < n → follow adj x is = some y →
    follow adj x js = some y → is = js) : (ends adj n x).Nodup := by
  induction n generalizing x with
  | zero => exact List.nodup_nil
  | succ n ih =>
    rw [ends, List.nodup_cons, List.nodup_flatMap]
    refine ⟨fun hx => ?_, fun z hz => ?_, ?_⟩
    · obtain ⟨z, hz, hx⟩ := List.mem_flatMap.mp hx
      obtain ⟨i, hi⟩ := List.mem_iff_getElem?.mp hz
      obtain ⟨is, hlen, hfollow⟩ := mem_ends.mp hx
      exact nomatch h [] (i :: is) x (Nat.succ_pos n) (Nat.succ_lt_succ hlen) rfl
        (follow_cons.mpr ⟨z, hi, hfollow⟩)
    · obtain ⟨i, hi⟩ := List.mem_iff_getElem?.mp hz
      refine ih fun is js y his hjs hy hy' => ?_
      exact List.tail_eq_of_cons_eq (h (i :: is) (i :: js) y (Nat.succ_lt_succ his)
        (Nat.succ_lt_succ hjs) (follow_cons.mpr ⟨z, hi, hy⟩) (follow_cons.mpr ⟨z, hi, hy'⟩))
    · rw [List.pairwise_iff_getElem]
      intro i j hi hj hij y hy hy'
      obtain ⟨is, his, hy⟩ := mem_ends.mp hy
      obtain ⟨js, hjs, hy'⟩ := mem_ends.mp hy'
      have heq := h (i :: is) (j :: js) y (Nat.succ_lt_succ his) (Nat.succ_lt_succ hjs)
        (follow_cons.mpr ⟨_, List.getElem?_eq_getElem hi, hy⟩)
        (follow_cons.mpr ⟨_, List.getElem?_eq_getElem hj, hy'⟩)
      exact absurd (List.head_eq_of_cons_eq heq) (Nat.ne_of_lt hij)

theorem eq_of_nodup_ends (h : (ends adj n x).Nodup) (his : is.length < n) (hjs : js.length < n)
    (hy : follow adj x is = some y) (hy' : follow adj x js = some y) : is = js := by
  induction n generalizing x is js with
  | zero => exact absurd his (Nat.not_lt_zero _)
  | succ n ih =>
    rw [ends, List.nodup_cons, List.nodup_flatMap] at h
    obtain ⟨hx, hnodup, hdisjoint⟩ := h
    have behind {i : Nat} {is : List Nat} {z : α} (hz : (adj x)[i]? = some z)
        (hlen : (i :: is).length < n + 1) (hfollow : follow adj z is = some y) :
        y ∈ ends adj n z := mem_ends.mpr ⟨is, Nat.lt_of_succ_lt_succ hlen, hfollow⟩
    cases is with
    | nil =>
      obtain rfl := Option.some.inj hy
      cases js with
      | nil => rfl
      | cons j js =>
        obtain ⟨z, hz, hy'⟩ := follow_cons.mp hy'
        exact absurd (List.mem_flatMap.mpr ⟨z, List.mem_of_getElem? hz, behind hz hjs hy'⟩) hx
    | cons i is =>
      obtain ⟨z, hz, hy⟩ := follow_cons.mp hy
      cases js with
      | nil =>
        obtain rfl := Option.some.inj hy'
        exact absurd (List.mem_flatMap.mpr ⟨z, List.mem_of_getElem? hz, behind hz his hy⟩) hx
      | cons j js =>
        obtain ⟨z', hz', hy'⟩ := follow_cons.mp hy'
        have hmem := behind hz his hy
        have hmem' := behind hz' hjs hy'
        rw [List.pairwise_iff_getElem] at hdisjoint
        obtain ⟨hi, rfl⟩ := List.getElem?_eq_some_iff.mp hz
        obtain ⟨hj, rfl⟩ := List.getElem?_eq_some_iff.mp hz'
        rcases Nat.lt_trichotomy i j with hij | rfl | hij
        · exact (hdisjoint i j hi hj hij hmem hmem').elim
        · rw [ih (hnodup _ (List.getElem_mem hi)) (Nat.lt_of_succ_lt_succ his)
            (Nat.lt_of_succ_lt_succ hjs) hy hy']
        · exact (hdisjoint j i hj hi hij hmem' hmem).elim

/-- A long walk has a long search. -/
theorem le_length_ends (hy : follow adj x is = some y) (h : n ≤ is.length + 1) :
    n ≤ (ends adj n x).length := by
  induction n generalizing x is with
  | zero => exact Nat.zero_le _
  | succ n ih =>
    rw [ends, List.length_cons]
    cases is with
    | nil =>
      rw [Nat.le_zero.mp (Nat.le_of_succ_le_succ h)]
      exact Nat.succ_pos _
    | cons i is =>
      obtain ⟨z, hz, hy⟩ := follow_cons.mp hy
      have hbelow := ih hy (Nat.le_of_succ_le_succ h)
      have hsub := (List.sublist_flatten_of_mem
        (List.mem_map_of_mem (f := ends adj n) (List.mem_of_getElem? hz))).length_le
      exact Nat.succ_le_succ (Nat.le_trans hbelow hsub)

theorem ends_subset {V : List α} (hV : Closed adj V) (hx : x ∈ V) : ends adj n x ⊆ V := by
  induction n generalizing x with
  | zero => exact List.nil_subset V
  | succ n ih =>
    intro y hy
    rcases List.mem_cons.mp hy with rfl | hy
    · exact hx
    · obtain ⟨z, hz, hy⟩ := List.mem_flatMap.mp hy
      exact ih (hV x hx z hz) hy

/-- With as many steps as there are vertices the search tells whether walks rejoin. -/
theorem rejoins_iff {V : List α} (hV : Closed adj V) (hx : x ∈ V) (hn : V.length < n) :
    Rejoins adj x ↔ ¬ (ends adj n x).Nodup := by
  constructor
  · rintro ⟨is, js, y, hne, hy, hy'⟩ hnodup
    have hshort {is : List Nat} (hy : follow adj x is = some y) : is.length < n := by
      by_contra hlong
      have hle := le_length_ends hy (Nat.le_succ_of_le (Nat.le_of_not_lt hlong))
      have hle' := (List.Nodup.subperm hnodup (ends_subset hV hx)).length_le
      exact absurd hn (Nat.not_lt.mpr (Nat.le_trans hle hle'))
    exact hne (eq_of_nodup_ends hnodup (hshort hy) (hshort hy') hy hy')
  · intro hnodup
    by_contra hrejoins
    refine hnodup (nodup_ends_of fun is js y _ _ hy hy' => ?_)
    by_contra hne
    exact hrejoins ⟨is, js, y, hne, hy, hy'⟩

/-- So does the search below an edge that also looks out for where the edge starts. -/
theorem rejoins_below_iff {V : List α} (hV : Closed adj V) (hx : x ∈ V) (hn : V.length < n)
    (hz : x ∈ adj z) : Rejoins adj x ↔ ¬ (z :: ends adj n x).Nodup := by
  rw [List.nodup_cons]
  constructor
  · rintro h ⟨-, hnodup⟩
    exact (rejoins_iff hV hx hn).mp h hnodup
  · intro h
    by_cases hmem : z ∈ ends adj n x
    · obtain ⟨is, -, hfollow⟩ := mem_ends.mp hmem
      obtain ⟨i, hi⟩ := List.mem_iff_getElem?.mp hz
      refine ⟨[], is ++ [i], x, (List.append_ne_nil_of_right_ne_nil is (List.cons_ne_nil i [])).symm,
        rfl, ?_⟩
      rw [follow_append, hfollow]
      exact follow_cons.mpr ⟨x, hi, rfl⟩
    · exact (rejoins_iff hV hx hn).mpr fun hnodup => h ⟨hmem, hnodup⟩

theorem Cyclic.rejoins (h : Cyclic adj) : ∃ z, ∃ x ∈ adj z, Rejoins adj x := by
  obtain ⟨x, is, hne, hfollow⟩ := h
  obtain ⟨is, i, rfl⟩ := is.eq_nil_or_concat'.resolve_left hne
  have hcut := hfollow
  rw [follow_append, Option.bind_eq_some_iff] at hcut
  obtain ⟨z, -, hstep⟩ := hcut
  obtain ⟨y, hy, hlast⟩ := follow_cons.mp hstep
  obtain rfl := Option.some.inj hlast
  exact ⟨z, y, List.mem_of_getElem? hy, [], is ++ [i], y, hne.symm, rfl, hfollow⟩

/-- Edges that lead upwards make no cycle. -/
theorem not_cyclic {adj : Nat → List Nat} (h : ∀ x, ∀ y ∈ adj x, x < y) : ¬ Cyclic adj := by
  have hup (is : List Nat) (x y : Nat) (hfollow : follow adj x is = some y) : x + is.length ≤ y := by
    induction is generalizing x with
    | nil => exact Nat.le_of_eq (Option.some.inj hfollow)
    | cons i is ih =>
      obtain ⟨z, hz, hfollow⟩ := follow_cons.mp hfollow
      have hlt := h x z (List.mem_of_getElem? hz)
      have hle := ih z hfollow
      rw [List.length_cons]
      omega
  rintro ⟨x, is, hne, hfollow⟩
  have hpos := List.length_pos_of_ne_nil hne
  have hle := hup is x x hfollow
  omega

end LearningCode.Walks
