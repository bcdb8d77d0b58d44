import LearningCode.Lib.TwoWay
import LearningCode.ThreadPoll.Model

/-!
# The tasks stay linked both ways

`LL_ADD` and `LL_REMOVE` on any list and at any place in it, and from them what
every run of the workers and of those who push keeps.
-/

namespace LearningCode.ThreadPoll

open Transition TwoWay

variable {ω : Type} {heap heap' : Heap} {p q : Ptr} {o : Option Ptr} {l m : List Ptr}

def Heap.next (heap : Heap) (p : Ptr) : Option (Option Ptr) := (heap p).map Task.next

def Heap.prev (heap : Heap) (p : Ptr) : Option (Option Ptr) := (heap p).map Task.prev

abbrev Linked (heap : Heap) (l : List Ptr) : Prop := Doubly heap.next heap.prev none l

-- ---------------------------------------------------------------------------
-- Setting a link
-- ---------------------------------------------------------------------------

theorem store_spec {n : Task} (hn : heap p = some n) (n' : Task) :
    (∀ q, Function.update heap p (some n') q = none ↔ heap q = none) ∧
      Heap.next (Function.update heap p (some n')) = Function.update heap.next p (some n'.next) ∧
      Heap.prev (Function.update heap p (some n')) = Function.update heap.prev p (some n'.prev) := by
  refine ⟨fun q => ?_, funext fun q => ?_, funext fun q => ?_⟩
  all_goals
    by_cases hq : q = p
    · subst hq
      simp [Heap.next, Heap.prev, hn]
    · simp [Heap.next, Heap.prev, hq]

theorem setPrev_spec (hp : heap p ≠ none) (o : Option Ptr) : ∃ heap',
    heap.setPrev p o = some heap' ∧ (∀ q, heap' q = none ↔ heap q = none) ∧
      heap'.next = heap.next ∧ heap'.prev = Function.update heap.prev p (some o) := by
  obtain ⟨n, hn⟩ := Option.ne_none_iff_exists'.mp hp
  obtain ⟨hnone, hnext, hprev⟩ := store_spec hn { n with prev := o }
  refine ⟨_, by rw [Heap.setPrev, hn, Option.map_some], hnone, hnext.trans ?_, hprev⟩
  exact Function.update_eq_self_iff.mpr (by simp [Heap.next, hn])

theorem setNext_spec (hp : heap p ≠ none) (o : Option Ptr) : ∃ heap',
    heap.setNext p o = some heap' ∧ (∀ q, heap' q = none ↔ heap q = none) ∧
      heap'.next = Function.update heap.next p (some o) ∧ heap'.prev = heap.prev := by
  obtain ⟨n, hn⟩ := Option.ne_none_iff_exists'.mp hp
  obtain ⟨hnone, hnext, hprev⟩ := store_spec hn { n with next := o }
  refine ⟨_, by rw [Heap.setNext, hn, Option.map_some], hnone, hnext, hprev.trans ?_⟩
  exact Function.update_eq_self_iff.mpr (by simp [Heap.prev, hn])

theorem update_link (f : Ptr → Option (Option Ptr)) (a : Ptr) (o : Option Ptr) :
    (∀ q, some a = some q → Function.update f a (some o) q = some o) ∧
      ∀ q, some a ≠ some q → Function.update f a (some o) q = f q := by
  refine ⟨?_, fun q hq => ?_⟩
  · rintro q ⟨⟩
    exact Function.update_self ..
  · exact Function.update_of_ne (fun heq => hq (congrArg some heq.symm)) _ _

theorem Heap.ne_none_of_next (h : heap.next p = some o) : heap p ≠ none := by
  intro hnone
  simp [Heap.next, hnone] at h

theorem Linked.ne_none (h : Linked heap l) (hp : p ∈ l) : heap p ≠ none := by
  obtain ⟨-, n, -, hn⟩ := h.exists_links hp
  exact Heap.ne_none_of_next hn

-- ---------------------------------------------------------------------------
-- LL_ADD
-- ---------------------------------------------------------------------------

theorem setPrevIf_spec (first : Option Ptr) (hread : ∀ q, first = some q → heap q ≠ none)
    (o : Option Ptr) : ∃ heap', heap.setPrevIf first o = some heap' ∧
      (∀ q, heap' q = none ↔ heap q = none) ∧ heap'.next = heap.next ∧
      (∀ q, first = some q → heap'.prev q = some o) ∧
      ∀ q, first ≠ some q → heap'.prev q = heap.prev q := by
  cases first with
  | none => exact ⟨heap, rfl, fun _ => Iff.rfl, rfl, nofun, fun _ _ => rfl⟩
  | some a =>
    obtain ⟨heap', hset, hnone, hnext, hprev⟩ := setPrev_spec (hread a rfl) o
    exact ⟨heap', hset, hnone, hnext, hprev ▸ update_link heap.prev a o⟩

theorem llAdd_spec (h : Linked heap l) (hp : heap p ≠ none) (hpl : p ∉ l) (hnodup : l.Nodup) :
    ∃ heap', llAdd heap p l.head? = some (heap', some p) ∧ Linked heap' (p :: l) := by
  obtain ⟨heap₁, hset₁, hnone₁, hnext₁, hprev₁⟩ := setPrev_spec hp none
  obtain ⟨heap₂, hset₂, hnone₂, hnext₂, hprev₂⟩ := setNext_spec (mt (hnone₁ p).mp hp) l.head?
  have hread : ∀ q ∈ l, heap₂ q ≠ none := fun q hq hnone =>
    h.ne_none hq ((hnone₁ q).mp ((hnone₂ q).mp hnone))
  obtain ⟨heap₃, hset₃, -, hnext₃, hhead, hrest⟩ :=
    setPrevIf_spec l.head? (fun q hq => hread q (List.mem_of_head? hq)) (some p)
  refine ⟨heap₃, ?_, h.push ?_ ?_ hhead ?_ ?_⟩
  · simp only [llAdd, hset₁, hset₂, hset₃, Option.bind_eq_bind, Option.bind_some]
  · rw [hrest p fun hhead => hpl (List.mem_of_head? hhead), hprev₂, hprev₁, Function.update_self]
  · rw [hnext₃, hnext₂, Function.update_self]
  · intro q hq
    have hne : q ≠ p := by
      rintro rfl
      exact hpl hq
    rw [hnext₃, hnext₂, Function.update_of_ne hne, hnext₁]
  · intro q hq
    have hne : q ≠ p := by
      rintro rfl
      exact hpl (List.mem_of_mem_tail hq)
    rw [hrest q, hprev₂, hprev₁, Function.update_of_ne hne]
    intro hhead
    obtain ⟨l, rfl⟩ := List.head?_eq_some_iff.mp hhead
    exact (List.nodup_cons.mp hnodup).1 hq

theorem llAdd_first {first : Option Ptr} (h : llAdd heap p o = some (heap', first)) :
    first = some p := by
  simp only [llAdd, Option.bind_eq_bind, Option.bind_eq_some_iff, Option.some.injEq,
    Prod.mk.injEq] at h
  obtain ⟨-, -, -, -, -, -, -, rfl⟩ := h
  rfl

-- ---------------------------------------------------------------------------
-- LL_REMOVE
-- ---------------------------------------------------------------------------

theorem setNextIf_spec (last : Option Ptr) (hread : ∀ q, last = some q → heap q ≠ none)
    (o : Option Ptr) : ∃ heap', heap.setNextIf last o = some heap' ∧
      (∀ q, heap' q = none ↔ heap q = none) ∧ heap'.prev = heap.prev ∧
      (∀ q, last = some q → heap'.next q = some o) ∧
      ∀ q, last ≠ some q → heap'.next q = heap.next q := by
  cases last with
  | none => exact ⟨heap, rfl, fun _ => Iff.rfl, rfl, nofun, fun _ _ => rfl⟩
  | some a =>
    obtain ⟨heap', hset, hnone, hnext, hprev⟩ := setNext_spec (hread a rfl) o
    exact ⟨heap', hset, hnone, hprev, hnext ▸ update_link heap.next a o⟩

theorem Heap.eq_some (hprev : heap.prev p = some o) {o' : Option Ptr}
    (hnext : heap.next p = some o') : heap p = some ⟨o, o'⟩ := by
  simp only [Heap.prev, Heap.next, Option.map_eq_some_iff] at hprev hnext
  obtain ⟨n, hn, rfl⟩ := hprev
  obtain ⟨n', hn', rfl⟩ := hnext
  cases hn.symm.trans hn'
  exact hn

theorem llRemove_spec (h : Linked heap (l ++ p :: m)) (hnodup : (l ++ p :: m).Nodup) : ∃ heap',
    llRemove heap p (l ++ p :: m).head? = some (heap', (l ++ m).head?) ∧
      Linked heap' (l ++ m) := by
  have hread (q) (hq : q ∈ l ++ p :: m) : heap q ≠ none := h.ne_none hq
  obtain ⟨hprev, hnext⟩ := h.links
  simp only [Option.or_none] at hprev
  have hpl : p ∉ l ++ m := (List.nodup_cons.mp (List.nodup_middle.mp hnodup)).1
  have hlast : l.getLast? ≠ some p := fun hl =>
    hpl (List.mem_append_left _ (List.mem_of_getLast? hl))
  have hhead : m.head? ≠ some p := fun hm => hpl (List.mem_append_right _ (List.mem_of_head? hm))
  -- the neighbours
  obtain ⟨heap₁, hset₁, hnone₁, hprev₁, hlast₁, hrest₁⟩ := setNextIf_spec l.getLast?
    (fun q hq => hread q (by simp [List.mem_of_getLast? hq])) m.head?
  have hitem₁ : heap₁ p = some ⟨l.getLast?, m.head?⟩ :=
    Heap.eq_some ((congrFun hprev₁ p).trans hprev) ((hrest₁ p hlast).trans hnext)
  obtain ⟨heap₂, hset₂, hnone₂, hnext₂, hhead₂, hrest₂⟩ := setPrevIf_spec m.head?
    (fun q hq => mt (hnone₁ q).mp (hread q (by simp [List.mem_of_head? hq]))) l.getLast?
  have hitem₂ : heap₂ p = some ⟨l.getLast?, m.head?⟩ :=
    Heap.eq_some ((hrest₂ p hhead).trans ((congrFun hprev₁ p).trans hprev))
      ((congrFun hnext₂ p).trans ((hrest₁ p hlast).trans hnext))
  -- and the task itself
  obtain ⟨heap₃, hset₃, hnone₃, hnext₃, hprev₃⟩ := setNext_spec
    (by simp [hitem₂] : heap₂ p ≠ none) none
  obtain ⟨heap₄, hset₄, -, hnext₄, hprev₄⟩ := setPrev_spec
    (mt (hnone₃ p).mp (by simp [hitem₂])) none
  have hne (q) (hq : q ∈ l ++ m) : q ≠ p := by
    rintro rfl
    exact hpl hq
  have hnext' (q) (hq : q ∈ l ++ m) : heap₄.next q = heap₁.next q := by
    rw [hnext₄, hnext₃, Function.update_of_ne (hne q hq), hnext₂]
  have hprev' (q) (hq : q ∈ l ++ m) : heap₄.prev q = heap₂.prev q := by
    rw [hprev₄, Function.update_of_ne (hne q hq), hprev₃]
  refine ⟨heap₄, ?_, h.remove hnodup ?_ ?_ ?_ ?_⟩
  · simp only [llRemove, Heap.eq_some hprev hnext, hset₁, hitem₁, hset₂, hitem₂, hset₃, hset₄,
      Option.bind_eq_bind, Option.bind_some, Option.some.injEq, Prod.mk.injEq, true_and]
    cases l with
    | nil => simp
    | cons a l =>
      have ha : a ≠ p := hne a (by simp)
      simp [ha]
  · intro q hq
    rw [hnext' q (List.mem_append_left _ (List.mem_of_getLast? hq)), hlast₁ q hq]
  · intro q hq
    rw [hprev' q (List.mem_append_right _ (List.mem_of_head? hq)), hhead₂ q hq, Option.or_none]
  · intro q hq hql
    rw [hnext' q hq, hrest₁ q hql]
  · intro q hq hqm
    rw [hprev' q hq, hrest₂ q hqm, hprev₁]

-- ---------------------------------------------------------------------------
-- Every run
-- ---------------------------------------------------------------------------

def pushed : List (Entry ω) → List Ptr
  | [] => []
  | .pushed p :: log => p :: pushed log
  | .returned _ _ :: log => pushed log

def returned : List (Entry ω) → List Ptr
  | [] => []
  | .pushed _ :: log => returned log
  | .returned _ p :: log => p :: returned log

structure OnList (T : ThreadPollT ω) (l : List Ptr) : Prop where
  linked : Linked T.heap l
  first : T.tasks = l.head?
  nodup : l.Nodup
  pending : ∀ p, p ∈ l ↔ Pending T.log p
  balance : (pushed T.log).Perm (l ++ returned T.log)

variable {T : ThreadPollT ω}

theorem OnList.nil (hfirst : T.tasks = none) (hlog : T.log = []) : OnList T [] := by
  refine ⟨trivial, hfirst, .nil, ?_, ?_⟩
  · simp [hlog, Pending]
  · simp [hlog, ThreadPoll.pushed, returned]

theorem OnList.push (h : OnList T l) (hnew : ¬ Pending T.log p) (hp : T.heap p ≠ none) :
    ∃ T', pushTask T p = some T' ∧ OnList T' (p :: l) := by
  have hpl : p ∉ l := mt (h.pending p).mp hnew
  obtain ⟨heap, hadd, hlinked⟩ := llAdd_spec h.linked hp hpl h.nodup
  refine ⟨{ T with heap := heap, tasks := some p, log := .pushed p :: T.log }, ?_, ?_⟩
  · simp only [pushTask, h.first, hadd, Option.bind_eq_bind, Option.bind_some]
  · refine ⟨hlinked, rfl, List.nodup_cons.mpr ⟨hpl, h.nodup⟩, fun q => ?_, h.balance.cons p⟩
    rw [List.mem_cons, h.pending, Pending, eq_comm]

theorem OnList.pushed {T' : ThreadPollT ω} (h : OnList T l) (hnew : ¬ Pending T.log p)
    (hpush : pushTask T p = some T') : ∃ l, OnList T' l := by
  by_cases hp : T.heap p = none
  · simp [pushTask, llAdd, Heap.setPrev, hp] at hpush
  · obtain ⟨T'', hpush', h'⟩ := h.push hnew hp
    cases hpush.symm.trans hpush'
    exact ⟨_, h'⟩

theorem OnList.take (h : OnList T (p :: l)) (w : ω) : ∃ heap,
    llRemove T.heap p T.tasks = some (heap, l.head?) ∧
      OnList { T with heap := heap, tasks := l.head?, log := .returned w p :: T.log } l := by
  obtain ⟨hp, hnodup⟩ := List.nodup_cons.mp h.nodup
  obtain ⟨heap, hremove, hlinked⟩ := llRemove_spec (l := []) h.linked h.nodup
  refine ⟨heap, h.first ▸ hremove, hlinked, rfl, hnodup, fun q => ?_, ?_⟩
  · rw [Pending, ← h.pending, List.mem_cons]
    constructor
    · intro hq
      refine ⟨?_, .inr hq⟩
      rintro rfl
      exact hp hq
    · rintro ⟨hne, rfl | hq⟩
      · exact absurd rfl hne
      · exact hq
  · exact h.balance.trans List.perm_middle.symm

theorem OnList.getTask (h : OnList T l) (w : ω) : ∃ T' k l', getTask T w = some (T', k) ∧
    OnList T' l' := by
  unfold ThreadPoll.getTask
  split_ifs with hwait hexit
  · exact ⟨T, .waiting, l, rfl, h⟩
  · exact ⟨T, .exited, l, rfl, h⟩
  cases l with
  | nil =>
    rw [h.first]
    exact ⟨T, .calling, [], rfl, h⟩
  | cons p l =>
    obtain ⟨heap, hremove, h'⟩ := h.take w
    rw [show T.tasks = some p from h.first] at hremove ⊢
    refine ⟨_, .running p, l, ?_, h'⟩
    simp only [hremove, Option.bind_eq_bind, Option.bind_some]

theorem OnList.own (h : OnList T l) (hout : ¬ Pending T.log p) (cell : Option Task) :
    OnList { T with heap := Function.update T.heap p cell } l := by
  have hne (q) (hq : q ∈ l) : q ≠ p := by
    rintro rfl
    exact hout ((h.pending q).mp hq)
  refine ⟨h.linked.congr ?_ ?_, h.first, h.nodup, h.pending, h.balance⟩
  · intro q hq
    simp [Heap.next, hne q hq]
  · intro q hq
    simp [Heap.prev, hne q hq]

variable [DecidableEq ω] {st st' : State ω} {i : Label ω}

theorem OnList.step (h : OnList st.pool l) (hstep : Step st i st') : ∃ l, OnList st'.pool l := by
  cases hstep with
  | push hnew hpush => exact h.pushed hnew hpush
  | own hout => exact ⟨l, h.own hout _⟩
  | create => exact ⟨l, h.linked, h.first, h.nodup, h.pending, h.balance⟩
  | destroy => exact ⟨l, h.linked, h.first, h.nodup, h.pending, h.balance⟩
  | @getTask T w k _ hget =>
    obtain ⟨T', k, l', hget', h'⟩ := h.getTask w
    cases hget.symm.trans hget'
    exact ⟨l', h'⟩
  | finish => exact ⟨l, h⟩

theorem exists_onList (h : Reach (threadPoll ω) free st) : ∃ l, OnList st.pool l := by
  refine h.invariant (P := fun st => ∃ l, OnList st.pool l) ?_ ?_
  · rintro st ⟨-, hfirst, hlog, -, -⟩
    exact ⟨[], .nil hfirst hlog⟩
  · rintro st i st' ⟨l, h⟩ - hstep
    exact h.step hstep

/-- The list is linked both ways, and what was pushed is there once or was returned once. -/
theorem tasks_conserved (h : Reach (threadPoll ω) free st) : ∃ l : List Ptr,
    Linked st.pool.heap l ∧ st.pool.tasks = l.head? ∧ l.Nodup ∧
      (∀ p, p ∈ l ↔ Pending st.pool.log p) ∧
      (pushed st.pool.log).Perm (l ++ returned st.pool.log) := by
  obtain ⟨l, h⟩ := exists_onList h
  exact ⟨l, h.linked, h.first, h.nodup, h.pending, h.balance⟩

/-- Three tasks, one of them taken by the second of two workers. -/
theorem tasks_conserved_threeTasks : ∃ st : State Bool,
    st.pool.log = [.returned true 9, .pushed 9, .pushed 8, .pushed 7] ∧
    st.pool.heap 8 = some ⟨none, some 7⟩ ∧ st.pool.heap 7 = some ⟨some 8, none⟩ ∧
    ∃ l : List Ptr, Linked st.pool.heap l ∧
      st.pool.tasks = l.head? ∧ l.Nodup ∧ (∀ p, p ∈ l ↔ Pending st.pool.log p) ∧
      (pushed st.pool.log).Perm (l ++ returned st.pool.log) := by
  have hstart : Reach (threadPoll Bool) free
      ⟨⟨fun _ => none, none, none, fun _ => false, []⟩, fun _ => .calling⟩ :=
    .init ⟨rfl, rfl, rfl, fun _ => rfl, fun _ => rfl⟩
  have hone := hstart.step trivial (.create (w := false))
  have htwo := hone.step trivial (.create (w := true))
  have hmalloc₇ := htwo.step trivial (i := Label.own 7 (some ⟨none, none⟩)) (.own id)
  have hmalloc₈ := hmalloc₇.step trivial (i := Label.own 8 (some ⟨none, none⟩)) (.own id)
  have hmalloc₉ := hmalloc₈.step trivial (i := Label.own 9 (some ⟨none, none⟩)) (.own id)
  have hpush₇ := hmalloc₉.step trivial (i := Label.push 7) (.push id rfl)
  have hpush₈ := hpush₇.step trivial (i := Label.push 8) (.push (by simp [Pending]) rfl)
  have hpush₉ := hpush₈.step trivial (i := Label.push 9) (.push (by simp [Pending]) rfl)
  have hget := hpush₉.step trivial (.getTask (w := true) (.inl rfl) rfl)
  exact ⟨_, rfl, rfl, rfl, tasks_conserved hget⟩

/-- No pointer that is followed under the mutex is NULL or freed. -/
theorem sections_return (h : Reach (threadPoll ω) free st) :
    (∀ w, (getTask st.pool w).isSome) ∧
      ∀ p, ¬ Pending st.pool.log p → st.pool.heap p ≠ none → (pushTask st.pool p).isSome := by
  obtain ⟨l, h⟩ := exists_onList h
  constructor
  · intro w
    obtain ⟨T, k, -, hget, -⟩ := h.getTask w
    simp [hget]
  · intro p hout hp
    obtain ⟨T, hpush, -⟩ := h.push hout hp
    simp [hpush]

end LearningCode.ThreadPoll
