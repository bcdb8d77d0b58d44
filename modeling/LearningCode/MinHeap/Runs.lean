import Mathlib.Data.Set.Insert
import LearningCode.Lib.Transition
import LearningCode.MinHeap.Operations

/-!
# Whole runs of the min-heap

A run starts at `min_heap_ctor_` over entries with any contents. Beside the
heap it keeps two sets, decided by the calls and their return values alone: the
entries pushed and not yet removed, and the entries removed.
-/

namespace LearningCode.MinHeap

open BinaryHeap

variable {s s' : Heap} {e x : Ptr}

inductive Op
  | elemInit (e : Ptr)
  | push (e : Ptr) (time : Nat) (granted : Bool)
  | pop
  | erase (e : Ptr)
  | adjust (e : Ptr) (time : Nat) (granted : Bool)

inductive Result
  | code (c : Code)
  | entry (e : Option Ptr)

/-- One call. `push` and `adjust` come after a write of the entry's time. -/
def call (s : Heap) : Op → Option (Heap × Result)
  | .elemInit e => some (minHeapElemInit s e, .code 0)
  | .push e time granted => (minHeapPush (setTime s e time) e granted).map fun r => (r.1, .code r.2)
  | .pop => (minHeapPop s).map fun r => (r.1, .entry r.2)
  | .erase e => (minHeapErase s e).map fun r => (r.1, .code r.2)
  | .adjust e time granted =>
    (minHeapAdjust (setTime s e time) e granted).map fun r => (r.1, .code r.2)

structure Ledger where
  live : Set Ptr
  removed : Set Ptr

def Ledger.add (g : Ledger) (e : Ptr) : Ledger := ⟨insert e g.live, g.removed \ {e}⟩

def Ledger.remove (g : Ledger) (e : Ptr) : Ledger := ⟨g.live \ {e}, insert e g.removed⟩

def Ledger.record (g : Ledger) : Op → Result → Ledger
  | .push e _ _, .code c => if c = 0 then g.add e else g
  | .adjust e _ _, .code c => if c = 0 then g.add e else g
  | .erase e, .code c => if c = 0 then g.remove e else g
  | .pop, .entry (some e) => g.remove e
  | _, _ => g

@[simp] theorem Ledger.record_refused (g : Ledger) (op : Op) : g.record op (.code (-1)) = g := by
  cases op <;> rfl

@[simp] theorem Ledger.record_push (g : Ledger) : g.record (.push e t b) (.code 0) = g.add e := rfl

@[simp] theorem Ledger.record_adjust (g : Ledger) :
    g.record (.adjust e t b) (.code 0) = g.add e := rfl

@[simp] theorem Ledger.record_erase (g : Ledger) : g.record (.erase e) (.code 0) = g.remove e := rfl

/-- Entries are pushed when not in the heap; `erase` and `adjust` get an entry
of the heap or one whose index says it is in none. -/
def Legal (s : Heap) (g : Ledger) : Op → Prop
  | .elemInit e => e ∉ g.live
  | .push e _ _ => e ∉ g.live
  | .pop => True
  | .erase e => e ∈ g.live ∨ (s.entry e).minHeapIdx = minusOne
  | .adjust e _ _ => e ∈ g.live ∨ (s.entry e).minHeapIdx = minusOne

def calls : Transition (Heap × Ledger) Op where
  init st := ∃ entry, st = (minHeapCtor entry, ⟨∅, ∅⟩)
  step st op st' := Legal st.1 st.2 op ∧
    ∃ r, call st.1 op = some (st'.1, r) ∧ st'.2 = st.2.record op r

/-- An entry comes in only while fewer than `2 ^ 31 - 1` are there. -/
def Fits (st : Heap × Ledger) : Op → Prop
  | .push _ _ _ => st.1.n < 2 ^ 31 - 1
  | .adjust e _ _ => e ∈ st.2.live ∨ st.1.n < 2 ^ 31 - 1
  | _ => True

structure Inv (s : Heap) (g : Ledger) : Prop where
  inOrder : InOrder s
  held : ∀ x, Held s x ↔ x ∈ g.live
  removed : ∀ x ∈ g.removed, x ∉ g.live ∧ (s.entry x).minHeapIdx = minusOne

-- ---------------------------------------------------------------------------
-- What one call keeps
-- ---------------------------------------------------------------------------

theorem Inv.ctor (entry : Ptr → TimerEntry) : Inv (minHeapCtor entry) ⟨∅, ∅⟩ := by
  refine ⟨⟨Nat.le_refl _, Nat.two_pow_pos 32, fun i hi => absurd hi (Nat.not_lt_zero _),
    fun i _ hi => absurd hi (Nat.not_lt_zero _)⟩, fun x => ⟨?_, fun h => h.elim⟩, fun x hx => hx.elim⟩
  rintro ⟨i, hi, -⟩
  exact absurd hi (Nat.not_lt_zero _)

theorem Inv.elemInit (h : Inv s g) (he : e ∉ g.live) : Inv (minHeapElemInit s e) g := by
  have hheld : ¬ Held s e := fun hh => he ((h.held e).mp hh)
  have hother : ∀ x, x ≠ e → (minHeapElemInit s e).entry x = s.entry x :=
    fun x hx => Function.update_of_ne hx ..
  refine ⟨h.inOrder.write hheld _, h.held, fun x hx => ⟨(h.removed x hx).1, ?_⟩⟩
  by_cases hxe : x = e
  · subst hxe; simp [minHeapElemInit]
  · rw [hother x hxe]
    exact (h.removed x hx).2

/-- The time of an entry that is not in the heap is nobody's business. -/
theorem Inv.timed (h : Inv s g) (he : e ∉ g.live) : Inv (setTime s e t) g :=
  ⟨setTime_inOrder h.inOrder fun hh => he ((h.held e).mp hh), h.held,
    fun x hx => ⟨(h.removed x hx).1, by rw [setTime_idx]; exact (h.removed x hx).2⟩⟩

theorem Inv.added (h : Inv s g) (ha : Added s s' e) : Inv s' (g.add e) := by
  refine ⟨ha.inOrder, fun x => ?_, fun x hx => ?_⟩
  · rw [ha.held, h.held]
    exact or_comm
  · obtain ⟨hx, hxe⟩ := hx
    have hxe : x ≠ e := hxe
    obtain ⟨hl, hidx⟩ := h.removed x hx
    refine ⟨fun hm => hl (hm.resolve_left hxe), ?_⟩
    rw [ha.other x (fun hh => hl ((h.held x).mp hh)) hxe, hidx]

theorem Inv.takenOut (h : Inv s g) (hr : Removed s s' e) : Inv s' (g.remove e) := by
  refine ⟨hr.inOrder, fun x => ?_, fun x hx => ?_⟩
  · rw [hr.held, h.held]
    rfl
  · by_cases hxe : x = e
    · subst hxe
      exact ⟨fun hm => hm.2 rfl, hr.idx⟩
    · obtain ⟨hl, hidx⟩ := h.removed x (hx.resolve_left hxe)
      exact ⟨fun hm => hl hm.1, by rw [hr.other x fun hh => hl ((h.held x).mp hh), hidx]⟩

theorem Inv.moved (h : Inv s g) (he : e ∈ g.live) (hm : Moved (setTime s e t) s') :
    Inv s' (g.add e) := by
  have hlive : insert e g.live = g.live := Set.insert_eq_of_mem he
  refine ⟨hm.inOrder, fun x => ?_, fun x hx => ?_⟩
  · rw [hm.held, Ledger.add, hlive, ← h.held]
    rfl
  · obtain ⟨hl, hidx⟩ := h.removed x hx.1
    rw [Ledger.add, hlive]
    refine ⟨hl, ?_⟩
    rw [hm.other x (fun hh => hl ((h.held x).mp hh)), setTime_idx, hidx]

theorem Inv.after (h : Inv s g) (hn : s.n < 2 ^ 31) (hl : Legal s g op) (hf : Fits (s, g) op) :
    ∃ s' r, call s op = some (s', r) ∧ Inv s' (g.record op r) ∧ s'.n < 2 ^ 31 := by
  cases op with
  | elemInit e => exact ⟨_, _, rfl, h.elemInit hl, hn⟩
  | push e t granted =>
    have hf : s.n < 2 ^ 31 - 1 := hf
    have hp := h.timed (t := t) hl
    rcases push_spec granted hp.inOrder (show s.n < 2 ^ 32 - 1 by omega)
      (fun hh => hl ((hp.held e).mp hh)) with heq | ⟨s', heq, ha⟩
    · exact ⟨setTime s e t, .code (-1), by rw [call, heq]; rfl, by simpa using hp, hn⟩
    · have := ha.n
      exact ⟨s', .code 0, by rw [call, heq]; rfl, hp.added ha, by rw [ha.n]; show s.n + 1 < _; omega⟩
  | pop =>
    rcases Nat.eq_zero_or_pos s.n with h0 | hpos
    · exact ⟨s, .entry none, by rw [call, pop_empty h0]; rfl, h, hn⟩
    · obtain ⟨s', e, heq, -, -, hr⟩ := pop_spec h.inOrder hpos hn
      have := hr.n
      exact ⟨s', .entry (some e), by rw [call, heq]; rfl, h.takenOut hr, by omega⟩
  | erase e =>
    rcases hl with hlive | hidx
    · obtain ⟨s', heq, hr⟩ := erase_spec h.inOrder ((h.held e).mpr hlive) hn
      have := hr.n
      exact ⟨s', .code 0, by rw [call, heq]; rfl, h.takenOut hr, by omega⟩
    · exact ⟨s, .code (-1), by rw [call, erase_absent hidx]; rfl, by simpa using h, hn⟩
  | adjust e t granted =>
    by_cases hlive : e ∈ g.live
    · obtain ⟨s', heq, hm⟩ := adjust_held (t := t) granted h.inOrder
        ((h.held e).mpr hlive) hn
      exact ⟨s', .code 0, by rw [call, heq]; rfl, h.moved hlive hm, by rw [hm.n]; exact hn⟩
    · have hf : s.n < 2 ^ 31 - 1 := hf.resolve_left hlive
      have hp := h.timed (t := t) hlive
      have hidx : ((setTime s e t).entry e).minHeapIdx = minusOne := by
        rw [setTime_idx]
        exact hl.resolve_left hlive
      have hadj : minHeapAdjust (setTime s e t) e granted =
          minHeapPush (setTime s e t) e granted := if_pos hidx
      rcases push_spec granted hp.inOrder (show s.n < 2 ^ 32 - 1 by omega)
        (fun hh => hlive ((hp.held e).mp hh)) with heq | ⟨s', heq, ha⟩
      · exact ⟨setTime s e t, .code (-1), by rw [call, hadj, heq]; rfl, by simpa using hp, hn⟩
      · exact ⟨s', .code 0, by rw [call, hadj, heq]; rfl, hp.added ha, by rw [ha.n]; show s.n + 1 < _; omega⟩

-- ---------------------------------------------------------------------------
-- Every run that fits
-- ---------------------------------------------------------------------------

theorem reach_inv (h : calls.Reach Fits st) : Inv st.1 st.2 ∧ st.1.n < 2 ^ 31 := by
  refine h.invariant (P := fun st => Inv st.1 st.2 ∧ st.1.n < 2 ^ 31) ?_ ?_
  · rintro st ⟨entry, rfl⟩
    exact ⟨Inv.ctor entry, Nat.two_pow_pos 31⟩
  · rintro ⟨s, g⟩ op ⟨s', g'⟩ ⟨hinv, hn⟩ hfits ⟨hlegal, r, hcall, rfl⟩
    obtain ⟨s'', r', hcall', hinv', hn'⟩ := hinv.after hn hlegal hfits
    cases hcall.symm.trans hcall'
    exact ⟨hinv', hn'⟩

/-- The array is ordered and indexed, it holds the live entries once each,
removed entries carry -1, and no legal call reads past the array. -/
structure Sound (s : Heap) (g : Ledger) : Prop where
  ordered : ∀ i, 0 < i → i < s.n → s.key (parent i) ≤ s.key i
  indexed : ∀ i < s.n, ∃ q, s.p i = some q ∧ (s.entry q).minHeapIdx = i
  removed : ∀ x ∈ g.removed, (s.entry x).minHeapIdx = minusOne
  live : ∀ x, x ∈ g.live ↔ ∃ i < s.n, s.p i = some x
  once : ∀ i < s.n, ∀ j < s.n, s.p i = s.p j → i = j
  popMin : ∀ s' r, minHeapPop s = some (s', r) →
    (r = none ↔ g.live = ∅) ∧
      ∀ e, r = some e → e ∈ g.live ∧ ∀ x ∈ g.live, (s.entry e).time ≤ (s.entry x).time

theorem Inv.sound (h : Inv s g) (hn : s.n < 2 ^ 31) : Sound s g := by
  refine ⟨h.inOrder.ordered, h.inOrder.slots, fun x hx => (h.removed x hx).2,
    fun x => (h.held x).symm, fun i hi j hj hij => ?_, fun s' r hpop => ?_⟩
  · obtain ⟨q, hq⟩ := h.inOrder.slots i hi
    exact h.inOrder.slot_unique hi hj hq.1 (hij ▸ hq.1)
  · rcases Nat.eq_zero_or_pos s.n with h0 | hpos
    · rw [pop_empty h0] at hpop
      cases hpop
      refine ⟨iff_of_true rfl ?_, fun e he => nomatch he⟩
      refine Set.eq_empty_of_forall_notMem fun x hx => ?_
      obtain ⟨i, hi, -⟩ := (h.held x).mpr hx
      omega
    · obtain ⟨s'', e, heq, he, hmin, -⟩ := pop_spec h.inOrder hpos hn
      rw [heq] at hpop
      cases hpop
      have hlive := (h.held e).mp he
      refine ⟨iff_of_false (by simp) fun hempty => ?_, ?_⟩
      · rw [hempty] at hlive
        exact hlive
      · rintro e' he'
        cases he'
        exact ⟨hlive, fun x hx => hmin x ((h.held x).mpr hx)⟩

-- ---------------------------------------------------------------------------
-- Entries pushed in a row
-- ---------------------------------------------------------------------------

structure Row (s : Heap) (k : Nat) : Prop where
  n : s.n = k
  room : k ≤ s.a
  cap : s.a < 2 ^ 32
  slot : ∀ i < k, Slotted s i i
  time : ∀ x, (s.entry x).time = 0

theorem Row.setTime (h : Row s k) : Row (setTime s e 0) k := by
  refine ⟨h.n, h.room, h.cap, fun i hi => setTime_slotted.mpr (h.slot i hi), fun x => ?_⟩
  by_cases hx : x = e
  · subst hx; simp [MinHeap.setTime]
  · rw [setTime_entry_of_ne hx, h.time]

theorem Row.inOrder (h : Row s k) : InOrder s := by
  refine ⟨h.n ▸ h.room, h.cap, fun i hi => ⟨i, h.slot i (h.n ▸ hi)⟩, fun i h0 hi => ?_⟩
  have hi : i < k := h.n ▸ hi
  have hp := parent_lt h0
  rw [key_of_slot (h.slot _ (hp.trans hi)).1, h.time]
  exact Nat.zero_le _

/-- The parent of the last slot is no later, so the entry stays there. -/
theorem Row.push (h : Row s k) (hk : k < 2 ^ 31) :
    ∃ s', minHeapPush s k true = some (s', 0) ∧ Row s' (k + 1) := by
  obtain ⟨a, hroom, hcap, hr⟩ : ∃ a, k + 1 ≤ a ∧ a < 2 ^ 32 ∧
      minHeapReserve s (uint32 (s.n + 1)) true = ({ s with a := a }, true) := by
    have hwrap : uint32 (s.n + 1) = k + 1 := by rw [h.n]; unfold uint32; omega
    have hcap := h.cap
    rw [hwrap, minHeapReserve]
    split
    · refine ⟨_, ?_, ?_, rfl⟩
      · unfold uint32
        split_ifs <;> omega
      · unfold uint32
        split_ifs <;> omega
    · next hroom => exact ⟨s.a, by omega, hcap, rfl⟩
  have hwrap : uint32 (s.n + 1) = k + 1 := by rw [h.n]; unfold uint32; omega
  let g : Heap := { s with a := a, n := k + 1 }
  have hup : minHeapShiftUp g k k = some (placed g k k) := by
    rcases Nat.eq_zero_or_pos k with rfl | h0
    · rw [minHeapShiftUp, if_neg (by simp), place_eq hroom]
    · have hp := parent_lt h0
      have hload : load g (parent k) = some (parent k) :=
        load_eq (show parent k < a by omega) (h.slot _ hp).1
      have hle : minHeapElemGreater g (parent k) k = false := by
        simp only [minHeapElemGreater, g, h.time, Nat.lt_irrefl, decide_false]
      rw [minHeapShiftUp, if_pos (Nat.pos_iff_ne_zero.mp h0), parentIndex_eq h0 (by omega), hload]
      simp only [Option.bind_eq_bind, Option.bind_some, hle, Bool.false_eq_true, ↓reduceIte]
      exact place_eq hroom
  refine ⟨placed g k k, ?_, rfl, hroom, hcap, fun i hi => ?_, fun x => ?_⟩
  · rw [minHeapPush, hr]
    simp only [hwrap]
    rw [h.n]
    show (minHeapShiftUp g k k >>= _) = _
    rw [hup]
    rfl
  · rcases Nat.eq_or_lt_of_le (Nat.le_of_lt_succ hi) with rfl | hi
    · exact ⟨placed_p_self, placed_idx⟩
    · refine ⟨(placed_p_of_ne hi.ne).trans (h.slot i hi).1, ?_⟩
      rw [placed_entry_of_ne hi.ne]
      exact (h.slot i hi).2
  · rw [placed_time]
    exact h.time x

theorem Row.reach (guard : Heap × Ledger → Op → Prop) (k : Nat) (hk : k ≤ 2 ^ 31)
    (hguard : ∀ (s : Heap) g i, s.n < k → guard (s, g) (.push i 0 true)) :
    ∃ s g, calls.Reach guard (s, g) ∧ g.live = {x | x < k} ∧ Row s k := by
  induction k with
  | zero =>
    refine ⟨_, _, .init ⟨fun _ => ⟨0, 0⟩, rfl⟩, Set.ext fun x => ?_, ?_⟩
    · exact iff_of_false id (Nat.not_lt_zero x)
    · exact ⟨rfl, Nat.le_refl _, Nat.two_pow_pos 32, fun i hi => absurd hi (Nat.not_lt_zero i),
        fun _ => rfl⟩
  | succ k ih =>
    obtain ⟨s, g, hrun, hlive, hrow⟩ := ih (by omega) fun s g i hi => hguard s g i (by omega)
    obtain ⟨s', hpush, hrow'⟩ := (hrow.setTime (e := k)).push hk
    refine ⟨s', g.add k, hrun.step (hguard s g k (by rw [hrow.n]; omega))
      ⟨?_, .code 0, by rw [call, hpush]; rfl, rfl⟩, Set.ext fun x => ?_, hrow'⟩
    · show k ∉ g.live
      rw [hlive]
      exact Nat.lt_irrefl k
    · rw [Ledger.add, hlive]
      exact or_comm.trans Nat.lt_succ_iff_lt_or_eq.symm

/-- A heap that never holds `2 ^ 31` entries stays sound, and every legal call
on it that keeps it so has a result. -/
theorem reach_sound (h : calls.Reach Fits st) :
    Sound st.1 st.2 ∧
      ∀ op, Legal st.1 st.2 op → Fits st op → ∃ s' r, call st.1 op = some (s', r) := by
  obtain ⟨hinv, hn⟩ := reach_inv h
  refine ⟨hinv.sound hn, fun op hl hf => ?_⟩
  obtain ⟨s', r, hcall, -⟩ := hinv.after hn hl hf
  exact ⟨s', r, hcall⟩

theorem reach_sound_row : ∃ st, calls.Reach Fits st ∧ st.1.n = 3 ∧ Sound st.1 st.2 ∧
    ∃ s' r, call st.1 (.erase 2) = some (s', r) := by
  obtain ⟨s, g, hrun, hlive, hrow⟩ := Row.reach Fits 3 (by omega)
    fun s g i hi => show s.n < 2 ^ 31 - 1 by omega
  have h2 : 2 ∈ g.live := by
    rw [hlive]
    exact Nat.lt_succ_self 2
  exact ⟨(s, g), hrun, hrow.n, (reach_sound hrun).1, (reach_sound hrun).2 (.erase 2) (.inl h2) trivial⟩

/-- The hole at `2 ^ 31 - 1` has its right child at `2 * 2 ^ 31`, which is 0,
and its left child just before it. -/
theorem Row.erase_last (h : Row s (2 ^ 31)) : minHeapErase s (2 ^ 31 - 1) = none := by
  have hord := h.inOrder
  have hroom := h.room
  have hcap := h.cap
  have hlast := h.slot (2 ^ 31 - 1) (by omega)
  have h0 := h.slot 0 (by omega)
  rw [erase_eq hord ⟨_, by rw [h.n]; omega, hlast.1⟩ (by rw [h.n]; exact hlast.1), hlast.2]
  have hdown : minHeapShiftDown (shrunk s) (2 ^ 31 - 1) (2 ^ 31 - 1) = none := by
    have hwrap : uint32 (2 * (2 ^ 31 - 1 + 1)) = 0 := by decide
    have hright : load (shrunk s) 0 = some 0 := load_eq (show 0 < s.a by omega) h0.1
    have hleft : load (shrunk s) (uint32 (0 + (2 ^ 32 - 1))) = none := if_neg (show ¬ _ < s.a by
      unfold uint32
      omega)
    have hn : (0 : Nat) ≠ (shrunk s).n := show 0 ≠ s.n - 1 by rw [h.n]; omega
    have hpick : pickChild (shrunk s) 0 = none := by
      rw [pickChild, if_neg hn, hright, hleft]
      rfl
    rw [minHeapShiftDown, minHeapShiftDownLoop]
    simp only [hwrap, Nat.zero_le, ↓reduceIte, hpick]
    rfl
  have hparent : load (shrunk s) (parent (2 ^ 31 - 1)) = some (parent (2 ^ 31 - 1)) :=
    load_eq (show parent (2 ^ 31 - 1) < s.a by unfold parent; omega)
      (h.slot _ (by unfold parent; omega)).1
  have hle : minHeapElemGreater (shrunk s) (parent (2 ^ 31 - 1)) (2 ^ 31 - 1) = false := by
    simp only [minHeapElemGreater, shrunk, h.time, Nat.lt_irrefl, decide_false]
  have hshift : shiftEither (shrunk s) (2 ^ 31 - 1) (2 ^ 31 - 1) = none := by
    rw [shiftEither, if_pos (by omega), parentIndex_eq (by omega) (by omega), hparent]
    simp only [Option.map_some, hle, Option.bind_eq_bind, Option.bind_some, Bool.false_eq_true,
      ↓reduceIte, hdown]
  rw [hshift]
  rfl

/-- With `2 ^ 31` entries, erasing the last one reads outside the array. -/
theorem erase_last_outside : ∃ st e, calls.Reach Transition.free st ∧ st.1.n = 2 ^ 31 ∧
    e ∈ st.2.live ∧ call st.1 (.erase e) = none := by
  obtain ⟨s, g, hrun, hlive, hrow⟩ := Row.reach Transition.free (2 ^ 31) le_rfl
    fun _ _ _ _ => trivial
  refine ⟨(s, g), 2 ^ 31 - 1, hrun, hrow.n, ?_, ?_⟩
  · rw [hlive]
    show 2 ^ 31 - 1 < 2 ^ 31
    omega
  · rw [call, hrow.erase_last]
    rfl

end LearningCode.MinHeap
