import Mathlib.Data.List.Infix
import LearningCode.ArrayQueue.Model

/-!
# The array queue is first in, first out

The local copies of the counters may be old. What a thread knows from an old
copy it knows under the condition that the counter has not moved since, and the
compare-and-swap that relies on it succeeds only then.
-/

namespace LearningCode.ArrayQueue

open Threads Transition

variable {α : Type} {qSize i j w r : Nat} {v data : α} {s s' : Queue α} {pc k m : Pc α}

/-- Positions less than a lap apart have different slots. -/
theorem countToIndex_inj (hij : i < j + qSize) (hji : j < i + qSize)
    (h : countToIndex qSize i = countToIndex qSize j) : i = j := by
  rcases Nat.le_total i j with hle | hle
  · have hzero : (j - i) % qSize = 0 := Nat.sub_mod_eq_zero_of_mod_eq h.symm
    rw [Nat.mod_eq_of_lt (Nat.sub_lt_left_of_lt_add hle hji)] at hzero
    exact Nat.le_antisymm hle (Nat.le_of_sub_eq_zero hzero)
  · have hzero : (i - j) % qSize = 0 := Nat.sub_mod_eq_zero_of_mod_eq h
    rw [Nat.mod_eq_of_lt (Nat.sub_lt_left_of_lt_add hle hij)] at hzero
    exact Nat.le_antisymm (Nat.le_of_sub_eq_zero hzero) hle

theorem uint64_of_lt (h : w < 2 ^ 64) : uint64 w = w := Nat.mod_eq_of_lt h

def Few (s : Queue α) : Prop := s.stored.length < 2 ^ 64

structure Shared (qSize : Nat) (s : Queue α) : Prop where
  written : s.writeIndex = s.stored.length
  read : s.readIndex = s.returned.length
  inOrder : s.returned <+: s.stored
  read_le : s.readIndex ≤ s.maximumReadIndex
  maximum_le : s.maximumReadIndex ≤ s.writeIndex
  room : s.writeIndex < s.readIndex + qSize
  committed : ∀ i, s.readIndex ≤ i → i < s.maximumReadIndex →
    s.stored[i]? = some (s.theQueue (countToIndex qSize i))

def Reserved (s : Queue α) (w : Nat) : Prop := s.maximumReadIndex ≤ w ∧ w < s.writeIndex

def Here (qSize : Nat) (s : Queue α) : Pc α → Prop
  | .enqueueLoadRead _ w => w ≤ s.writeIndex
  | .enqueueReserve _ w => w ≤ s.writeIndex ∧
      (w = s.writeIndex → w + 1 < 2 ^ 64 → s.writeIndex + 1 < s.readIndex + qSize)
  | .enqueueStore data w => Reserved s w ∧ s.stored[w]? = some data
  | .enqueueCommit w => Reserved s w ∧ s.stored[w]? = some (s.theQueue (countToIndex qSize w))
  | .dequeueLoadMaximum r => r ≤ s.readIndex
  | .dequeueCopy r => r ≤ s.readIndex ∧ (r = s.readIndex → r < s.maximumReadIndex)
  | .dequeueTake data r => r ≤ s.readIndex ∧
      (r = s.readIndex → r < s.maximumReadIndex ∧ s.stored[r]? = some data)
  | _ => True

def Pc.reserved : Pc α → Option Nat
  | .enqueueStore _ w => some w
  | .enqueueCommit w => some w
  | _ => none

def Apart (k m : Pc α) : Prop := ∀ w, k.reserved = some w → m.reserved ≠ some w

def outline (α : Type) (qSize : Nat) : Outline (Queue α) (Pc α) Unit where
  shared _ := Shared qSize
  here _ := Here qSize
  apart := Apart

theorem Apart.symm (h : Apart pc m) : Apart m pc := fun w hm hpc => h w hpc hm

theorem Apart.of_none (h : pc.reserved = none) : Apart pc m := by
  intro w hw
  rw [h] at hw
  cases hw

theorem Apart.of_eq (h : Apart pc m) {pc' : Pc α} (heq : pc'.reserved = pc.reserved) :
    Apart pc' m := by
  intro w hw
  exact h w (heq ▸ hw)

theorem Here.reserved (h : Here qSize s pc) (hw : pc.reserved = some w) : Reserved s w := by
  cases pc with
  | enqueueStore data w' => cases hw; exact h.1
  | enqueueCommit w' => cases hw; exact h.1
  | _ => cases hw

-- ---------------------------------------------------------------------------
-- One lemma for each step that writes
-- ---------------------------------------------------------------------------

def reserve (s : Queue α) (data : α) (w : Nat) : Queue α :=
  { s with writeIndex := w, stored := s.stored ++ [data] }

theorem Shared.reserve (h : Shared qSize s) (hroom : s.writeIndex + 1 < s.readIndex + qSize) :
    Shared qSize (reserve s data (s.writeIndex + 1)) := by
  refine ⟨?_, h.read, h.inOrder.trans (List.prefix_append ..), h.read_le, ?_, hroom, ?_⟩
  · simp [ArrayQueue.reserve, h.written]
  · exact Nat.le_succ_of_le h.maximum_le
  · intro i hread hmax
    have hlt : i < s.stored.length := h.written ▸ Nat.lt_of_lt_of_le hmax h.maximum_le
    exact (List.getElem?_append_left hlt).trans (h.committed i hread hmax)

theorem Here.reserve (h : Shared qSize s) (hm : Here qSize s m) :
    Here qSize (reserve s data (s.writeIndex + 1)) m := by
  have hold : ∀ i < s.writeIndex, (s.stored ++ [data])[i]? = s.stored[i]? := by
    intro i hi
    exact List.getElem?_append_left (h.written ▸ hi)
  cases m with
  | enqueueLoadRead _ w => exact Nat.le_succ_of_le hm
  | enqueueReserve _ w =>
    refine ⟨Nat.le_succ_of_le hm.1, fun heq => ?_⟩
    exact absurd hm.1 (Nat.not_le_of_lt (heq ▸ Nat.lt_succ_self s.writeIndex))
  | enqueueStore data' w =>
    obtain ⟨⟨hmax, hlt⟩, hdata⟩ := hm
    exact ⟨⟨hmax, Nat.lt_succ_of_lt hlt⟩, (hold w hlt).trans hdata⟩
  | enqueueCommit w =>
    obtain ⟨⟨hmax, hlt⟩, hdata⟩ := hm
    exact ⟨⟨hmax, Nat.lt_succ_of_lt hlt⟩, (hold w hlt).trans hdata⟩
  | dequeueTake data' r =>
    refine ⟨hm.1, fun heq => ?_⟩
    obtain ⟨hmax, hdata⟩ := hm.2 heq
    exact ⟨hmax, (hold r (Nat.lt_of_lt_of_le hmax h.maximum_le)).trans hdata⟩
  | _ => exact hm

def fill (qSize : Nat) (s : Queue α) (data : α) (w : Nat) : Queue α :=
  { s with theQueue := Function.update s.theQueue (countToIndex qSize w) data }

theorem Shared.slot_ne (h : Shared qSize s) (hw : Reserved s w) (hread : s.readIndex ≤ i)
    (hi : i < s.writeIndex) (hne : i ≠ w) : countToIndex qSize i ≠ countToIndex qSize w := by
  have hroom := h.room
  have hreadw : s.readIndex ≤ w := Nat.le_trans h.read_le hw.1
  have hlt := hw.2
  intro heq
  exact hne (countToIndex_inj (by omega) (by omega) heq)

theorem Shared.fill (h : Shared qSize s) (hw : Reserved s w) :
    Shared qSize (fill qSize s data w) := by
  refine ⟨h.written, h.read, h.inOrder, h.read_le, h.maximum_le, h.room, ?_⟩
  intro i hread hmax
  have hslot := h.slot_ne hw hread (Nat.lt_of_lt_of_le hmax h.maximum_le)
    (Nat.ne_of_lt (Nat.lt_of_lt_of_le hmax hw.1))
  simpa [ArrayQueue.fill, hslot] using h.committed i hread hmax

theorem Here.fill (h : Shared qSize s) (hw : Reserved s w) (hm : Here qSize s m)
    (hne : m.reserved ≠ some w) : Here qSize (fill qSize s data w) m := by
  cases m with
  | enqueueCommit i =>
    have hi : i ≠ w := fun heq => hne (congrArg some heq)
    have hslot := h.slot_ne hw (Nat.le_trans h.read_le hm.1.1) hm.1.2 hi
    refine ⟨hm.1, ?_⟩
    simpa [ArrayQueue.fill, hslot] using hm.2
  | _ => exact hm

def commit (s : Queue α) : Queue α := { s with maximumReadIndex := s.maximumReadIndex + 1 }

theorem Shared.commit (h : Shared qSize s) (hw : Here qSize s (.enqueueCommit s.maximumReadIndex)) :
    Shared qSize (commit s) := by
  refine ⟨h.written, h.read, h.inOrder, Nat.le_succ_of_le h.read_le, hw.1.2, h.room, ?_⟩
  intro i hread hmax
  rcases Nat.lt_succ_iff_lt_or_eq.mp hmax with hlt | rfl
  · exact h.committed i hread hlt
  · exact hw.2

theorem Here.commit (hm : Here qSize s m) (hne : m.reserved ≠ some s.maximumReadIndex) :
    Here qSize (commit s) m := by
  have hreserved (w : Nat) (hw : m.reserved = some w) (h : Reserved s w) :
      Reserved (ArrayQueue.commit s) w := by
    refine ⟨Nat.lt_of_le_of_ne h.1 ?_, h.2⟩
    rintro rfl
    exact hne hw
  cases m with
  | enqueueStore data w => exact ⟨hreserved w rfl hm.1, hm.2⟩
  | enqueueCommit w => exact ⟨hreserved w rfl hm.1, hm.2⟩
  | dequeueCopy r => exact ⟨hm.1, fun heq => Nat.lt_succ_of_lt (hm.2 heq)⟩
  | dequeueTake data r =>
    exact ⟨hm.1, fun heq => ⟨Nat.lt_succ_of_lt (hm.2 heq).1, (hm.2 heq).2⟩⟩
  | _ => exact hm

def take (s : Queue α) (data : α) : Queue α :=
  { s with readIndex := s.readIndex + 1, returned := s.returned ++ [data] }

theorem Shared.take (h : Shared qSize s) (hmax : s.readIndex < s.maximumReadIndex)
    (hdata : s.stored[s.readIndex]? = some data) : Shared qSize (take s data) := by
  have hroom := h.room
  refine ⟨h.written, ?_, ?_, hmax, h.maximum_le, ?_, ?_⟩
  · simp [ArrayQueue.take, h.read]
  · obtain ⟨rest, hrest⟩ := h.inOrder
    rw [h.read, ← hrest, List.getElem?_append_right (Nat.le_refl _), Nat.sub_self] at hdata
    cases rest with
    | nil => simp at hdata
    | cons x rest =>
      simp only [List.getElem?_cons_zero, Option.some.injEq] at hdata
      subst hdata
      exact ⟨rest, by simp [ArrayQueue.take, ← hrest]⟩
  · simp only [ArrayQueue.take]
    omega
  · intro i hread hi
    exact h.committed i (Nat.le_of_succ_le hread) hi

theorem Here.take (hm : Here qSize s m) : Here qSize (take s data) m := by
  have hold (r : Nat) (hr : r ≤ s.readIndex) : r ≠ s.readIndex + 1 :=
    Nat.ne_of_lt (Nat.lt_succ_of_le hr)
  cases m with
  | enqueueReserve _ w =>
    refine ⟨hm.1, fun heq hlt => Nat.lt_of_lt_of_le (hm.2 heq hlt) ?_⟩
    exact Nat.add_le_add_right (Nat.le_succ _) qSize
  | dequeueLoadMaximum r => exact Nat.le_succ_of_le hm
  | dequeueCopy r => exact ⟨Nat.le_succ_of_le hm.1, fun heq => absurd heq (hold r hm.1)⟩
  | dequeueTake data r => exact ⟨Nat.le_succ_of_le hm.1, fun heq => absurd heq (hold r hm.1)⟩
  | _ => exact hm

theorem Shared.count (h : Shared qSize s) (n : Nat) : Shared qSize { s with count := n } :=
  ⟨h.written, h.read, h.inOrder, h.read_le, h.maximum_le, h.room, h.committed⟩

theorem Here.count (n : Nat) (hm : Here qSize s m) : Here qSize { s with count := n } m := by
  cases m <;> exact hm

-- ---------------------------------------------------------------------------
-- The steps of a call
-- ---------------------------------------------------------------------------

theorem rest_of_eq (hpc : pc.reserved = none) (hsame : Here qSize s m → Here qSize s' m) :
    Here qSize s m → Apart k m → True → Here qSize s' m ∧ Apart pc m :=
  fun hm _ _ => ⟨hsame hm, Apart.of_none hpc⟩

theorem Shared.start (hq : 2 ≤ qSize) (theQueue : Nat → α) :
    Shared qSize (construct theQueue) := by
  refine ⟨rfl, rfl, List.nil_prefix, Nat.le_refl _, Nat.le_refl _, ?_, ?_⟩
  · exact Nat.lt_of_lt_of_le Nat.zero_lt_two (Nat.le_add_left_of_le hq)
  · intro i _ hi
    exact absurd hi (Nat.not_lt_zero i)

theorem Shared.not_full (h : Shared qSize s) (hw : s.writeIndex + 1 < 2 ^ 64)
    (htest : countToIndex qSize (uint64 (s.writeIndex + 1)) ≠ countToIndex qSize s.readIndex) :
    s.writeIndex + 1 < s.readIndex + qSize := by
  refine Nat.lt_of_le_of_ne h.room fun heq => htest ?_
  rw [uint64_of_lt hw, heq]
  exact Nat.add_mod_right ..

def Upheld (qSize : Nat) (s : Queue α) (pc : Pc α) (s' : Queue α) (pc' : Pc α) : Prop :=
  Shared qSize s' ∧ Here qSize s' pc' ∧
    ∀ m, Here qSize s m → Apart pc m → True → Here qSize s' m ∧ Apart pc' m

theorem upheld_reserve {pc' : Pc α} (hs : Shared qSize s) (hpc : Here qSize s (.enqueueReserve data w))
    (hfew : Few s') (hstep : run qSize s (.enqueueReserve data w) = (s', pc')) :
    Upheld qSize s (.enqueueReserve data w) s' pc' := by
  simp only [run] at hstep
  split at hstep
  · next heq =>
    subst heq
    cases hstep
    have hlt : s.writeIndex + 1 < 2 ^ 64 := by simpa [Few, hs.written] using hfew
    have hroom := hpc.2 rfl hlt
    rw [uint64_of_lt hlt]
    refine ⟨hs.reserve hroom, ⟨⟨hs.maximum_le, Nat.lt_succ_self _⟩, ?_⟩, ?_⟩
    · simp [hs.written]
    · intro m hm _ _
      refine ⟨hm.reserve hs, ?_⟩
      rintro w ⟨⟩ hw
      exact Nat.lt_irrefl _ (hm.reserved hw).2
  · cases hstep
    exact ⟨hs, trivial, fun m => rest_of_eq rfl id⟩

theorem upheld_commit {pc' : Pc α} (hs : Shared qSize s) (hpc : Here qSize s (.enqueueCommit w))
    (hfew : Few s') (hstep : run qSize s (.enqueueCommit w) = (s', pc')) :
    Upheld qSize s (.enqueueCommit w) s' pc' := by
  simp only [run] at hstep
  split at hstep
  · next heq =>
    subst heq
    cases hstep
    have hlt : s.maximumReadIndex + 1 < 2 ^ 64 := by
      have hlen : s.stored.length < 2 ^ 64 := hfew
      rw [← hs.written] at hlen
      exact Nat.lt_of_le_of_lt hpc.1.2 hlen
    rw [uint64_of_lt hlt]
    refine ⟨hs.commit hpc, trivial, fun m hm hapart _ => ?_⟩
    exact ⟨hm.commit (hapart _ rfl), Apart.of_none rfl⟩
  · cases hstep
    exact ⟨hs, hpc, fun m hm hapart _ => ⟨hm, hapart⟩⟩

theorem upheld_take {pc' : Pc α} (hs : Shared qSize s) (hpc : Here qSize s (.dequeueTake data r))
    (hfew : Few s') (hstep : run qSize s (.dequeueTake data r) = (s', pc')) :
    Upheld qSize s (.dequeueTake data r) s' pc' := by
  simp only [run] at hstep
  split at hstep
  · next heq =>
    subst heq
    cases hstep
    obtain ⟨hmax, hdata⟩ := hpc.2 rfl
    have hlt : s.readIndex + 1 < 2 ^ 64 := by
      have hlen : s.stored.length < 2 ^ 64 := hfew
      rw [← hs.written] at hlen
      exact Nat.lt_of_le_of_lt (Nat.le_trans hmax hs.maximum_le) hlen
    rw [uint64_of_lt hlt]
    exact ⟨hs.take hmax hdata, trivial, fun m => rest_of_eq rfl Here.take⟩
  · cases hstep
    exact ⟨hs, trivial, fun m => rest_of_eq rfl id⟩

theorem outline_valid (hq : 2 ≤ qSize) :
    (outline α qSize).Valid ((queue α qSize).upTo Few) fun _ _ _ _ => True where
  start := by
    rintro s ⟨theQueue, rfl⟩
    refine ⟨(), Shared.start hq theQueue, ?_⟩
    rintro k rfl
    trivial
  idle := by
    rintro k m rfl rfl
    exact Apart.of_none rfl
  symm _ _ := Apart.symm
  step := by
    rintro ⟨⟩ s pc action s' pc' hs hpc ⟨hstep, hfew⟩
    refine ⟨(), ?_⟩
    simp only [queue, outline] at hs hpc hstep ⊢
    cases action with
    | enqueue data =>
      simp only [step, Option.ite_none_right_eq_some, Option.some.injEq, Prod.mk.injEq] at hstep
      obtain ⟨-, rfl, rfl⟩ := hstep
      exact ⟨hs, trivial, fun m => rest_of_eq rfl id⟩
    | dequeue =>
      simp only [step, Option.ite_none_right_eq_some, Option.some.injEq, Prod.mk.injEq] at hstep
      obtain ⟨-, rfl, rfl⟩ := hstep
      exact ⟨hs, trivial, fun m => rest_of_eq rfl id⟩
    | run =>
      simp only [step, Option.ite_none_left_eq_some, Option.some.injEq] at hstep
      obtain ⟨hret, hstep⟩ := hstep
      cases pc with
      | idle => exact absurd rfl hret
      | enqueueReturn _ => exact absurd rfl hret
      | dequeueReturn _ => exact absurd rfl hret
      | enqueueLoadWrite data =>
        cases hstep
        exact ⟨hs, Nat.le_refl _, fun m => rest_of_eq rfl id⟩
      | enqueueLoadRead data w =>
        simp only [run] at hstep
        split at hstep
        · cases hstep
          exact ⟨hs, trivial, fun m => rest_of_eq rfl id⟩
        · next htest =>
          cases hstep
          refine ⟨hs, ⟨hpc, ?_⟩, fun m => rest_of_eq rfl id⟩
          rintro rfl hlt
          exact hs.not_full hlt htest
      | enqueueReserve data w => exact upheld_reserve hs hpc hfew hstep
      | enqueueStore data w =>
        cases hstep
        refine ⟨hs.fill hpc.1, ⟨hpc.1, ?_⟩, ?_⟩
        · simpa using hpc.2
        · intro m hm hapart _
          exact ⟨hm.fill hs hpc.1 (hapart w rfl), hapart.of_eq rfl⟩
      | enqueueCommit w => exact upheld_commit hs hpc hfew hstep
      | enqueueCount =>
        cases hstep
        exact ⟨hs.count _, trivial, fun m => rest_of_eq rfl (Here.count _)⟩
      | dequeueLoadRead =>
        cases hstep
        exact ⟨hs, Nat.le_refl _, fun m => rest_of_eq rfl id⟩
      | dequeueLoadMaximum r =>
        simp only [run] at hstep
        split at hstep
        · cases hstep
          exact ⟨hs, trivial, fun m => rest_of_eq rfl id⟩
        · next htest =>
          cases hstep
          refine ⟨hs, ⟨hpc, ?_⟩, fun m => rest_of_eq rfl id⟩
          rintro rfl
          exact Nat.lt_of_le_of_ne hs.read_le fun heq => htest (congrArg _ heq)
      | dequeueCopy r =>
        cases hstep
        refine ⟨hs, ⟨hpc.1, fun heq => ⟨hpc.2 heq, ?_⟩⟩, fun m => rest_of_eq rfl id⟩
        exact hs.committed r (Nat.le_of_eq heq.symm) (hpc.2 heq)
      | dequeueTake data r => exact upheld_take hs hpc hfew hstep
      | dequeueCount data =>
        cases hstep
        exact ⟨hs.count _, trivial, fun m => rest_of_eq rfl (Here.count _)⟩

-- ---------------------------------------------------------------------------
-- Whole runs
-- ---------------------------------------------------------------------------

theorem stored_of_step {action : Action α} (h : step qSize s pc action = some (s', k)) :
    s.stored <+: s'.stored := by
  cases action with
  | enqueue data =>
    simp only [step, Option.ite_none_right_eq_some, Option.some.injEq, Prod.mk.injEq] at h
    rw [h.2.1]
  | dequeue =>
    simp only [step, Option.ite_none_right_eq_some, Option.some.injEq, Prod.mk.injEq] at h
    rw [h.2.1]
  | run =>
    simp only [step, Option.ite_none_left_eq_some, Option.some.injEq] at h
    obtain ⟨-, h⟩ := h
    cases pc with
    | enqueueReserve data w =>
      simp only [run] at h
      split at h
      · cases h
        exact List.prefix_append ..
      · cases h
        exact List.prefix_rfl
    | enqueueLoadRead _ _ => simp only [run] at h; split at h <;> cases h <;> exact List.prefix_rfl
    | enqueueCommit _ => simp only [run] at h; split at h <;> cases h <;> exact List.prefix_rfl
    | dequeueLoadMaximum _ => simp only [run] at h; split at h <;> cases h <;> exact List.prefix_rfl
    | dequeueTake _ _ => simp only [run] at h; split at h <;> cases h <;> exact List.prefix_rfl
    | _ => cases h; exact List.prefix_rfl

theorem few_of_step {action : Action α} (h : step qSize s pc action = some (s', k))
    (hfew : Few s') : Few s :=
  Nat.lt_of_le_of_lt (stored_of_step h).length_le hfew

variable {τ : Type} [DecidableEq τ] {st : Queue α × (τ → Pc α)}

theorem holds (hq : 2 ≤ qSize) (hr : Reach ((queue α qSize).threads τ) free st)
    (hfew : Few st.1) : (outline α qSize).Holds () st := by
  have hreach := reach_upTo (B := Few) (fun _ _ _ _ _ h => few_of_step h) hr hfew
  obtain ⟨⟨⟩, hholds⟩ := (outline_valid hq).holds_free hreach
  exact hholds

/-- Dequeues return what was enqueued, in that order, and no slot is written
before its value was dequeued. -/
theorem queue_fifo (hq : 2 ≤ qSize) (hr : Reach ((queue α qSize).threads τ) free st)
    (hfew : st.1.stored.length < 2 ^ 64) :
    st.1.returned <+: st.1.stored ∧
      st.1.readIndex ≤ st.1.maximumReadIndex ∧ st.1.maximumReadIndex ≤ st.1.writeIndex ∧
      st.1.writeIndex - st.1.readIndex ≤ qSize - 1 ∧
      ∀ t data w, st.2 t = .enqueueStore data w → ∀ i, st.1.readIndex ≤ i → i < st.1.writeIndex →
        countToIndex qSize i = countToIndex qSize w → i = w := by
  have h := holds hq hr hfew
  have hroom := h.shared.room
  refine ⟨h.shared.inOrder, h.shared.read_le, h.shared.maximum_le, by omega, ?_⟩
  intro t data w hw i hread hi heq
  have hreserved := (h.here t).reserved (w := w) (by rw [hw]; rfl)
  by_contra hne
  exact h.shared.slot_ne hreserved hread hi hne heq

/-- One thread enqueues 7 in a queue of two slots, another takes it. -/
theorem queue_fifo_two : ∃ st : Queue Nat × (Nat → Pc Nat),
    Reach ((queue Nat 2).threads Nat) free st ∧ st.1.returned = [7] ∧
      st.1.returned <+: st.1.stored := by
  have hinit : Reach ((queue Nat 2).threads Nat) free (construct fun _ => 0, fun _ => Pc.idle) :=
    .init ⟨⟨fun _ => 0, rfl⟩, fun _ => rfl⟩
  obtain ⟨st, hrun, hreturned, hstored⟩ : ∃ st, schedule (step 2)
      (construct fun _ => 0, fun _ => Pc.idle)
      [(0, .enqueue 7), (0, .run), (0, .run), (0, .run), (0, .run), (0, .run), (1, .dequeue),
        (1, .run), (1, .run), (1, .run), (1, .run)] = some st ∧
      st.1.returned = [7] ∧ st.1.stored = [7] := ⟨_, rfl, rfl, rfl⟩
  have hreach := reach_schedule (fun _ _ _ _ _ h => h) hinit hrun
  exact ⟨st, hreach, hreturned, (queue_fifo (by decide) hreach (by simp [hstored])).1⟩

end LearningCode.ArrayQueue
