import Mathlib.Data.List.Basic
import Mathlib.Logic.Function.Basic

/-!
# Singly linked chains

`next x` is the link read at `x`: `none` when there is nothing to read,
`some none` at the end of a chain. A chain starts at a node of its own, the
header, which is not one of its members.
-/

namespace LearningCode.Chain

universe u

variable {α : Type u} {next next' : α → Option (Option α)} {x y w : α} {l m : List α}

/-- The links from `x` pass through `l` in order. -/
def Path (next : α → Option (Option α)) : α → List α → Prop
  | _, [] => True
  | x, y :: l => next x = some (some y) ∧ Path next y l

def Linked (next : α → Option (Option α)) : α → List α → Prop
  | x, [] => next x = some none
  | x, y :: l => next x = some (some y) ∧ Linked next y l

theorem getLastD_append_cons (l : List α) : (l ++ y :: m).getLastD x = m.getLastD y := by
  induction l generalizing x with
  | nil => exact List.getLastD_cons ..
  | cons z l ih =>
    rw [List.cons_append, List.getLastD_cons]
    exact ih

theorem linked_append : Linked next x (l ++ m) ↔ Path next x l ∧ Linked next (l.getLastD x) m := by
  induction l generalizing x with
  | nil => simp [Path]
  | cons y l ih =>
    rw [List.cons_append, List.getLastD_cons]
    simp only [Linked, Path, ih, and_assoc]

theorem Linked.next_last (h : Linked next x (l ++ m)) : next (l.getLastD x) = some m.head? := by
  have hm := (linked_append.mp h).2
  cases m with
  | nil => exact hm
  | cons y m => exact hm.1

theorem Linked.next_head (h : Linked next x l) : next x = some l.head? := Linked.next_last (l := []) h

theorem Linked.unique (h : Linked next x l) (h' : Linked next x m) : l = m := by
  induction l generalizing x m with
  | nil =>
    cases m with
    | nil => rfl
    | cons z m => cases h.symm.trans h'.1
  | cons y l ih =>
    cases m with
    | nil => cases h.1.symm.trans h'
    | cons z m =>
      cases h.1.symm.trans h'.1
      rw [ih h.2 h'.2]

theorem Linked.enter (h : Linked next x (l ++ m)) (hw : w = x ∨ w ∈ l) :
    ∃ l', (∃ k, l = k ++ l') ∧ Linked next w (l' ++ m) ∧ l'.getLastD w = l.getLastD x := by
  rcases hw with rfl | hw
  · exact ⟨l, ⟨[], rfl⟩, h, rfl⟩
  · obtain ⟨k, l', rfl⟩ := List.append_of_mem hw
    rw [List.append_assoc, linked_append] at h
    refine ⟨l', ⟨k ++ [w], by simp⟩, h.2.2, ?_⟩
    exact (getLastD_append_cons k).symm

theorem Linked.congr (h : Linked next x l) (hagree : ∀ w, w = x ∨ w ∈ l → next' w = next w) :
    Linked next' x l := by
  induction l generalizing x with
  | nil => exact (hagree x (.inl rfl)).trans h
  | cons y l ih =>
    refine ⟨(hagree x (.inl rfl)).trans h.1, ih h.2 fun w hw => hagree w (.inr ?_)⟩
    exact hw.elim (fun h => h ▸ List.mem_cons_self) (List.mem_cons_of_mem y)

theorem Linked.relink {m' : List α} (h : Linked next x (l ++ m)) (hnd : (x :: l).Nodup)
    (hagree : ∀ w, w ≠ l.getLastD x → w = x ∨ w ∈ l → next' w = next w)
    (hm : Linked next' (l.getLastD x) m') : Linked next' x (l ++ m') := by
  induction l generalizing x with
  | nil => exact hm
  | cons y l ih =>
    rw [List.getLastD_cons] at hagree hm
    have hxy : x ≠ l.getLastD y := by
      rintro rfl
      exact (List.nodup_cons.mp hnd).1 List.getLastD_mem_cons
    refine ⟨(hagree x hxy (.inl rfl)).trans h.1, ih h.2 (List.nodup_cons.mp hnd).2 ?_ hm⟩
    exact fun w hw hmem => hagree w hw (.inr (List.mem_cons.mpr hmem))

theorem Linked.behind (h : Linked next x m) (hy : next' y = next x)
    (hagree : ∀ w ∈ m, next' w = next w) : Linked next' y m := by
  cases m with
  | nil => exact hy.trans h
  | cons z m =>
    exact ⟨hy.trans h.1, h.2.congr fun w hw => hagree w (List.mem_cons.mpr hw)⟩

theorem ne_getLastD (hnd : (x :: (l ++ m)).Nodup) (hw : w ∈ m) : w ≠ l.getLastD x := by
  have hnd' : (x :: l ++ m).Nodup := hnd
  have hdisjoint := (List.nodup_append.mp hnd').2.2
  rintro rfl
  exact hdisjoint _ List.getLastD_mem_cons _ hw rfl

theorem Linked.insert (h : Linked next x (l ++ m)) (hnd : (x :: (l ++ m)).Nodup)
    (hlast : next' (l.getLastD x) = some (some y)) (hy : next' y = next (l.getLastD x))
    (hagree : ∀ w, w ≠ l.getLastD x → w = x ∨ w ∈ l ++ m → next' w = next w) :
    Linked next' x (l ++ y :: m) := by
  have hnd' : (x :: l ++ m).Nodup := hnd
  refine h.relink (hnd'.sublist (List.sublist_append_left _ _)) ?_ ⟨hlast, ?_⟩
  · exact fun w hw hmem => hagree w hw (hmem.imp_right (List.mem_append_left m))
  · refine (linked_append.mp h).2.behind hy fun w hw => hagree w (ne_getLastD hnd hw) ?_
    exact .inr (List.mem_append_right l hw)

theorem Linked.remove (h : Linked next x (l ++ y :: m)) (hnd : (x :: (l ++ y :: m)).Nodup)
    (hlast : next' (l.getLastD x) = next y)
    (hagree : ∀ w, w ≠ l.getLastD x → w = x ∨ w ∈ l ++ m → next' w = next w) :
    Linked next' x (l ++ m) := by
  have hnd' : (x :: l ++ y :: m).Nodup := hnd
  refine h.relink (hnd'.sublist (List.sublist_append_left _ _)) ?_ ?_
  · exact fun w hw hmem => hagree w hw (hmem.imp_right (List.mem_append_left m))
  · refine (linked_append.mp h).2.2.behind hlast fun w hw => hagree w ?_ ?_
    · exact ne_getLastD hnd (List.mem_cons_of_mem y hw)
    · exact .inr (List.mem_append_right l hw)

end LearningCode.Chain

/-!
## Nodes linked under versioned names

Several names stand for one node, at different times, and a link leads from a
node to a name. In a stack every link is set; in a queue the link to what was
appended last may still be missing.
-/

namespace LearningCode.Links

universe u v

variable {ι : Type u} {ν : Type v} {node : ι → ν} {next : ν → Option ι}
  {l m : List ι} {a b : ι} {n : ν} {o : Option ι}

/-- The links lead from each of the names to the one below. -/
def Stacked (node : ι → ν) (next : ν → Option ι) : List ι → Prop
  | [] => True
  | a :: l => next (node a) = l.head? ∧ Stacked node next l

/-- The links that are set lead from each of the names to the one behind. -/
def Queued (node : ι → ν) (next : ν → Option ι) : List ι → Prop
  | [] => True
  | a :: l => (next (node a) = none ∨ next (node a) = l.head?) ∧ Queued node next l

theorem Stacked.update [DecidableEq ν] (h : Stacked node next l) (hn : ∀ a ∈ l, node a ≠ n) :
    Stacked node (Function.update next n o) l := by
  induction l with
  | nil => trivial
  | cons a l ih =>
    rw [List.forall_mem_cons] at hn
    exact ⟨by simpa [hn.1] using h.1, ih h.2 hn.2⟩

theorem Queued.update [DecidableEq ν] (h : Queued node next l) (hn : ∀ a ∈ l, node a ≠ n) :
    Queued node (Function.update next n o) l := by
  induction l with
  | nil => trivial
  | cons a l ih =>
    rw [List.forall_mem_cons] at hn
    exact ⟨by simpa [hn.1] using h.1, ih h.2 hn.2⟩

theorem Queued.append (h : Queued node next l) (hb : next (node b) = none) :
    Queued node next (l ++ [b]) := by
  induction l with
  | nil => exact ⟨.inl hb, trivial⟩
  | cons a l ih =>
    refine ⟨?_, ih h.2⟩
    cases l with
    | nil => exact .inl (h.1.elim id id)
    | cons c l => exact h.1

theorem Queued.next_eq (h : Queued node next (l ++ a :: m)) :
    next (node a) = none ∨ next (node a) = m.head? := by
  induction l with
  | nil => exact h.1
  | cons c l ih => exact ih h.2

theorem Queued.link [DecidableEq ν] (h : Queued node next (l ++ a :: b :: m))
    (hnodup : ((l ++ a :: b :: m).map node).Nodup) :
    Queued node (Function.update next (node a) (some b)) (l ++ a :: b :: m) := by
  induction l with
  | nil =>
    obtain ⟨ha, -⟩ := List.nodup_cons.mp hnodup
    refine ⟨.inr (by simp), h.2.update ?_⟩
    intro c hc heq
    exact ha (heq ▸ List.mem_map_of_mem hc)
  | cons c l ih =>
    obtain ⟨hc, hnodup⟩ := List.nodup_cons.mp hnodup
    refine ⟨?_, ih h.2 hnodup⟩
    have hne : node c ≠ node a := by
      intro heq
      exact hc (heq ▸ List.mem_map_of_mem (by simp))
    simpa [hne] using h.1

end LearningCode.Links

/-!
## Records in memory

A list of records, each where `place` says, with the place of the one behind it; `image`
is what a record and that link look like in memory.
-/

namespace LearningCode.Records

universe u v w

variable {ρ : Type u} {α : Type v} {κ : Type w} {place : ρ → α} {image : ρ → Option α → κ}
  {cell cell' : α → κ} {k l l' : List ρ} {r r' s : ρ}

def first (place : ρ → α) (l : List ρ) : Option α := l.head?.map place

def Stored (place : ρ → α) (image : ρ → Option α → κ) (cell : α → κ) : List ρ → Prop
  | [] => True
  | r :: l => cell (place r) = image r (first place l) ∧ Stored place image cell l

@[simp] theorem first_nil : first place [] = none := rfl

@[simp] theorem first_cons : first place (r :: l) = some (place r) := rfl

theorem first_append_congr (h : first place l = first place l') :
    first place (k ++ l) = first place (k ++ l') := by
  cases k with
  | nil => exact h
  | cons r k => rfl

theorem Stored.congr (h : Stored place image cell l)
    (hcell : ∀ r ∈ l, cell' (place r) = cell (place r)) : Stored place image cell' l := by
  induction l with
  | nil => trivial
  | cons r l ih =>
    rw [List.forall_mem_cons] at hcell
    exact ⟨hcell.1.trans h.1, ih h.2 hcell.2⟩

theorem Stored.append_right (h : Stored place image cell (k ++ l)) : Stored place image cell l := by
  induction k with
  | nil => exact h
  | cons r k ih => exact ih h.2

theorem Stored.replace (h : Stored place image cell (k ++ l)) (hl : Stored place image cell' l')
    (hfirst : first place l' = first place l)
    (hcell : ∀ r ∈ k, cell' (place r) = cell (place r)) : Stored place image cell' (k ++ l') := by
  induction k with
  | nil => exact hl
  | cons r k ih =>
    rw [List.forall_mem_cons] at hcell
    have hlink := congrArg (image r) (first_append_congr (k := k) hfirst.symm)
    exact ⟨(hcell.1.trans h.1).trans hlink, ih h.2 hcell.2⟩

theorem Stored.read (h : Stored place image cell (k ++ r :: l)) :
    cell (place r) = image r (first place l) := h.append_right.1

theorem Stored.write [DecidableEq α] (h : Stored place image cell (k ++ r :: l))
    (hnodup : ((k ++ r :: l).map place).Nodup) (hplace : place r' = place r) :
    Stored place image (Function.update cell (place r) (image r' (first place l)))
      (k ++ r' :: l) := by
  rw [List.map_append, List.map_cons] at hnodup
  obtain ⟨-, hrest, hapart⟩ := List.nodup_append.mp hnodup
  have hother {q : ρ} (hq : place q ≠ place r) :
      Function.update cell (place r) (image r' (first place l)) (place q) = cell (place q) :=
    Function.update_of_ne hq ..
  refine h.replace ⟨?_, ?_⟩ ?_ fun q hq => ?_
  · rw [hplace, Function.update_self]
  · refine h.append_right.2.congr fun q hq => hother ?_
    exact fun heq => (List.nodup_cons.mp hrest).1 (heq ▸ List.mem_map_of_mem hq)
  · rw [first_cons, first_cons, hplace]
  · exact hother (hapart _ (List.mem_map_of_mem hq) _ List.mem_cons_self)

theorem Stored.link [DecidableEq α] (h : Stored place image cell (k ++ [r]))
    (hnodup : ((k ++ [r]).map place).Nodup) (hs : cell (place s) = image s none)
    (hnew : place s ∉ (k ++ [r]).map place) :
    Stored place image (Function.update cell (place r) (image r (some (place s))))
      (k ++ [r, s]) := by
  rw [List.map_append, List.map_cons] at hnodup hnew
  have hapart := (List.nodup_append.mp hnodup).2.2
  refine h.replace ⟨Function.update_self .., ?_, trivial⟩ rfl fun q hq => ?_
  · rw [Function.update_of_ne, hs]
    · rfl
    · exact fun heq => hnew (List.mem_append_right _ (heq ▸ List.mem_cons_self))
  · exact Function.update_of_ne (hapart _ (List.mem_map_of_mem hq) _ List.mem_cons_self) ..

end LearningCode.Records
