import LearningCode.TimeWheel.Lists
import LearningCode.TimeWheel.Update

/-!
# The wheel loses no node

`timer_shift` and `clear_timer` gone through, then every step of a run. What is
linked stays on one list, or on the chain in hand, until it is dispatched or
cleared.
-/

namespace LearningCode.TimeWheel.Nodes

open Chain Transition

variable {w w' : Wheel} {s : Slot} {p : Ptr} {temp : Option Ptr} {lists : Slot → List Ptr}
  {hand l : List Ptr} {st : State} {turns : Nat} {ct : BitVec 32}

-- ---------------------------------------------------------------------------
-- timer_shift
-- ---------------------------------------------------------------------------

theorem span_succ (i : Nat) : span (i + 1) = span i * TIME_LEVEL := by
  have hexp : TIME_NEAR_SHIFT + (i + 1) * TIME_LEVEL_SHIFT =
      TIME_NEAR_SHIFT + i * TIME_LEVEL_SHIFT + TIME_LEVEL_SHIFT := by
    rw [Nat.add_mul, Nat.one_mul, Nat.add_assoc]
  rw [span, span, hexp, Nat.pow_add]
  rfl

/-- All the bits below the level are clear, so one of the levels stops the loop. -/
theorem timerShiftLoop_spec (hct : ct ≠ 0) (levels i : Nat) (hi : i + levels = 4)
    (hlow : i = 0 ∨ ct.toNat % span i = 0) : ∃ o,
      timerShiftLoop ct (ct >>> (TIME_NEAR_SHIFT + i * TIME_LEVEL_SHIFT))
        (BitVec.ofNat 32 (span i)) i levels = some o ∧ ∀ s, o = some s → Valid s := by
  induction levels generalizing i with
  | zero =>
    obtain rfl : i = 4 := hi
    have hzero : ct.toNat % 2 ^ 32 = 0 := hlow.resolve_left (by decide)
    rw [Nat.mod_eq_of_lt ct.isLt] at hzero
    exact absurd (BitVec.eq_of_toNat_eq hzero) hct
  | succ levels ih =>
    have hi' : i < 4 := by omega
    simp only [timerShiftLoop, and_mask_eq_zero ct hi', toNat_shift_and, mask_shift hi', time_shift]
    split
    · next hlow =>
      split
      · refine ⟨_, rfl, ?_⟩
        rintro s ⟨⟩
        exact ⟨hi', Nat.mod_lt _ (by decide)⟩
      · next hidx =>
        refine ih (i + 1) (by omega) (.inr ?_)
        rw [span_succ, Nat.mod_mul, hlow, Nat.zero_add]
        have hdiv : ct.toNat / span i % TIME_LEVEL = 0 := Decidable.not_not.mp hidx
        rw [hdiv, Nat.mul_zero]
    · exact ⟨none, rfl, nofun⟩

theorem moved_spec (ct : BitVec 32) : ∃ o, moved ct = some o ∧ ∀ s, o = some s → Valid s := by
  unfold moved
  split
  · refine ⟨_, rfl, ?_⟩
    rintro s ⟨⟩
    exact ⟨by decide, by decide⟩
  · next hct => exact timerShiftLoop_spec hct 4 0 rfl (.inl rfl)

theorem timerShift_spec (h : Kept w lists [] none) : ∃ w' lists' hand',
    timerShift w = some (w', hand'.head?) ∧ w'.log = w.log ∧ Kept w' lists' hand' none := by
  obtain ⟨o, hmoved, hvalid⟩ := moved_spec (w.time + 1)
  have htick : Kept { w with time := w.time + 1 } lists [] none :=
    h.of_next rfl rfl fun _ _ => rfl
  simp only [timerShift, hmoved, Option.bind_eq_bind, Option.bind_some]
  cases o with
  | none => exact ⟨_, lists, [], rfl, rfl, htick⟩
  | some s =>
    obtain ⟨w', hcall, hsame, hkept⟩ := linkClear_spec htick (hvalid s rfl)
    exact ⟨w', _, _, hcall, hsame.log, hkept⟩

-- ---------------------------------------------------------------------------
-- clear_timer
-- ---------------------------------------------------------------------------

def Wheel.cleared (w : Wheel) (l : List Ptr) : Wheel :=
  { w with
    heap := fun p => if p ∈ l then none else w.heap p
    log := l.reverse.map .cleared ++ w.log }

theorem cleared_next (hp : p ∉ l) : (w.cleared l).next p = w.next p := by
  simp [Wheel.next, Wheel.cleared, hp]

theorem freeNodes_eq (h : Follows w.next l) (hnd : l.Nodup) (hnode : ∀ p ∈ l, ∃ a, p = .node a) :
    freeNodes w turns l.head? = if l.length ≤ turns then some (w.cleared l) else none := by
  induction l generalizing w turns with
  | nil => cases turns <;> simp [freeNodes, Wheel.cleared]
  | cons p l ih =>
    cases turns with
    | zero => simp [freeNodes]
    | succ turns =>
      obtain ⟨cell, hcell, hnext⟩ := heap_of_next (Linked.next_head h)
      rw [List.forall_mem_cons] at hnode
      obtain ⟨⟨a, rfl⟩, hnode⟩ := hnode
      have hnd := List.nodup_cons.mp hnd
      have hrest : Follows (((w.write (.node a) none).record (.cleared (.node a))).next) l := by
        refine (Linked.follows h).congr fun q hq => ?_
        have hne : q ≠ .node a := by
          rintro rfl
          exact hnd.1 hq
        exact (write_next none).trans (if_neg hne)
      have hw : ((w.write (.node a) none).record (.cleared (.node a))).cleared l =
          w.cleared (.node a :: l) := by
        simp only [Wheel.cleared, Wheel.record, Wheel.write, List.reverse_cons, List.map_append,
          List.append_assoc, List.map_cons, List.map_nil, List.singleton_append, List.mem_cons]
        congr 1
        funext q
        by_cases hq : q = .node a
        · simp [hq]
        · simp [hq, Function.update_of_ne]
      simp only [freeNodes, List.head?_cons, next_of_heap hcell, hnext, Nodes.free, hcell,
        Option.bind_eq_bind, Option.bind_some, Option.map_some, ih hrest hnd.2 hnode, hw,
        List.length_cons, Nat.add_le_add_iff_right]

theorem pending_cleared {log : List Entry} :
    Pending (l.map .cleared ++ log) p ↔ p ∉ l ∧ Pending log p := by
  induction l with
  | nil => simp
  | cons q l ih =>
    simp only [List.map_cons, List.cons_append, Pending, ih, List.mem_cons, not_or, ne_eq,
      eq_comm (a := q), and_assoc]

theorem Kept.cleared (h : Kept w lists hand none) : Kept (w.cleared hand) lists [] none := by
  have hon : ∀ p, On lists [] p ↔ p ∉ hand ∧ On lists hand p := by
    intro p
    constructor
    · rintro (hp | ⟨s, hs, hp⟩)
      · cases hp
      · refine ⟨fun hmem => ?_, .inr ⟨s, hs, hp⟩⟩
        exact h.outside p hmem s hs (List.mem_cons_of_mem _ hp)
    · rintro ⟨hnot, hp | hp⟩
      · exact absurd hp hnot
      · exact .inr hp
  refine ⟨?_, trivial, List.nodup_nil, nofun, ?_, ?_, nofun⟩
  · exact h.family.congr fun s hs q hq => cleared_next fun hmem => h.outside q hmem s hs hq
  · exact fun p hp => h.node p ((hon p).mp hp).2
  · intro p
    simp only [Wheel.cleared, hon, h.pending, pending_cleared, List.mem_reverse]

theorem linkClear_cleared (hp : Ptr.head s ∉ l) : linkClear (w.cleared l) s =
    (linkClear w s).map fun r => (r.1.cleared l, r.2) := by
  cases hcell : w.heap (.head s) with
  | none => simp [linkClear, Wheel.next, Wheel.cleared, hp, hcell]
  | some cell =>
    have hcell' : (w.cleared l).heap (.head s) = some cell := by
      simp [Wheel.cleared, hp, hcell]
    simp only [linkClear, next_of_heap hcell, next_of_heap hcell', setNext_of_heap hcell,
      setNext_of_heap hcell', Option.bind_eq_bind, Option.bind_some, Option.map_some,
      Option.some.injEq, Prod.mk.injEq, and_true]
    simp only [Wheel.cleared, Wheel.setTail, Wheel.write, Wheel.mk.injEq, and_true]
    funext q
    by_cases hq : q = .head s
    · simp [hq, hp]
    · simp [hq]

theorem clearTimer_cons (h : Kept w lists [] none) (hs : Valid s) (rest : List Slot) : ∃ w',
    Kept w' (Function.update lists s []) [] none ∧ (∀ p ∈ lists s, w'.heap p = none) ∧
      (∀ p, w.heap p = none → w'.heap p = none) ∧
      clearTimer turns w (s :: rest) =
        if (lists s).length ≤ turns then clearTimer turns w' rest else none := by
  obtain ⟨w₁, hcall, hsame, hkept⟩ := linkClear_spec h hs
  have hlinked := h.family.linked s hs
  have hhead : Ptr.head s ∉ lists s := (List.nodup_cons.mp (h.family.nodup s hs)).1
  have hfree := @freeNodes_eq w _ turns hlinked.follows hkept.nodup
    fun p hp => h.node p (.inr ⟨s, hs, hp⟩)
  refine ⟨w₁.cleared (lists s), hkept.cleared, ?_, ?_, ?_⟩
  · intro p hp
    simp [Wheel.cleared, hp]
  · intro p hp
    simp [Wheel.cleared, (hsame.none p).mpr hp]
  · simp only [clearTimer, hlinked.next_head, hfree, Option.bind_eq_bind, Option.bind_some]
    split
    · simp only [Option.bind_some, linkClear_cleared hhead, hcall, Option.map_some]
    · rfl

structure Emptied (w : Wheel) (lists : Slot → List Ptr) (w' : Wheel) (lists' : Slot → List Ptr)
    (l : List Slot) : Prop where
  empty : ∀ s, lists' s = if s ∈ l then [] else lists s
  freed : ∀ s ∈ l, ∀ p ∈ lists s, w'.heap p = none
  heap : ∀ p, w.heap p = none → w'.heap p = none

theorem clearTimer_spec {l : List Slot} (h : Kept w lists [] none) (hl : ∀ s ∈ l, Valid s) :
    ((∀ s ∈ l, (lists s).length ≤ turns) → ∃ w', clearTimer turns w l = some w') ∧
      ∀ w', clearTimer turns w l = some w' →
        ∃ lists', Kept w' lists' [] none ∧ Emptied w lists w' lists' l := by
  induction l generalizing w lists with
  | nil =>
    refine ⟨fun _ => ⟨w, rfl⟩, ?_⟩
    rintro w' ⟨⟩
    exact ⟨lists, h, by simp, nofun, fun _ => id⟩
  | cons s l ih =>
    rw [List.forall_mem_cons] at hl
    obtain ⟨w₁, hkept, hfreed, hheap, hcall⟩ := clearTimer_cons h hl.1 l
    obtain ⟨hterm, hrest⟩ := ih hkept hl.2
    rw [hcall]
    constructor
    · intro hturns
      rw [List.forall_mem_cons] at hturns
      rw [if_pos hturns.1]
      refine hterm fun t ht => ?_
      by_cases hts : t = s
      · simp [hts]
      · rw [Function.update_of_ne hts]
        exact hturns.2 t ht
    · intro w' hw'
      rw [Option.ite_none_right_eq_some] at hw'
      obtain ⟨lists', hkept', hempty⟩ := hrest w' hw'.2
      refine ⟨lists', hkept', ?_, ?_, fun p hp => hempty.heap p (hheap p hp)⟩
      · intro t
        rw [hempty.empty]
        by_cases hts : t = s
        · simp [hts]
        · simp [hts]
      · intro t ht p hp
        by_cases hts : t = s
        · exact hempty.heap p (hfreed p (hts ▸ hp))
        · refine hempty.freed t (List.mem_of_ne_of_mem hts ht) p ?_
          rwa [Function.update_of_ne hts]

-- ---------------------------------------------------------------------------
-- Runs
-- ---------------------------------------------------------------------------

def Control.taken : Control → Option Ptr
  | .direct temp => some temp
  | .callback _ _ temp _ => some temp
  | _ => none

def Control.idx : Control → Option Nat
  | .execute _ idx => some idx
  | .dispatch _ idx _ => some idx
  | .callback _ idx _ _ => some idx
  | _ => none

structure Inv (st : State) (lists : Slot → List Ptr) (hand : List Ptr) : Prop where
  kept : Kept st.wheel lists hand st.control.taken
  current : st.control.current = hand.head?
  idx : ∀ idx, st.control.idx = some idx → Valid (.near idx)

theorem Inv.create : Inv ⟨timerCreateTimer, .idle⟩ (fun _ => []) [] := by
  have hon : ∀ p, ¬ On (fun _ => []) [] p := by
    rintro p (hp | ⟨s, -, hp⟩)
    · cases hp
    · cases hp
  refine ⟨⟨⟨?_, ?_, ?_, ?_⟩, trivial, List.nodup_nil, nofun, ?_, ?_, ?_⟩, rfl, nofun⟩
  · intro s hs
    simp [Chain.Linked, Wheel.next, timerCreateTimer, hs]
  · intro s hs
    simp [timerCreateTimer, hs]
  · intro s hs
    simp
  · intro s t hs ht hne p hp hp'
    rw [List.mem_singleton] at hp hp'
    exact hne (Ptr.head.inj (hp.symm.trans hp'))
  · exact fun p hp => absurd hp (hon p)
  · exact fun p => iff_of_false (hon p) id
  · rintro p ⟨⟩

theorem Inv.dispatchList {idx : Nat} (h : Kept w lists hand none) (hidx : Valid (.near idx))
    (shift : Bool) : Inv (dispatchList w shift idx hand.head?) lists hand := by
  cases hand with
  | nil => exact ⟨h, rfl, by rintro _ ⟨⟩; exact hidx⟩
  | cons p hand => exact ⟨h, rfl, by rintro _ ⟨⟩; exact hidx⟩

theorem Inv.timerExecute (h : Kept w lists [] none) (shift : Bool) :
    Inv (timerExecute w shift) lists [] := by
  refine ⟨h, rfl, ?_⟩
  rintro _ ⟨⟩
  rw [toNat_and_near]
  exact Nat.mod_lt _ (by decide)

theorem Inv.hand_nil (h : Inv st lists hand) (hcurrent : st.control.current = none) : hand = [] :=
  List.head?_eq_none_iff.mp (h.current.symm.trans hcurrent)

theorem Inv.hand_cons (h : Inv st lists hand) (hcurrent : st.control.current = some p) : ∃ l,
    hand = p :: l := by
  cases hand with
  | nil => cases hcurrent.symm.trans h.current
  | cons q l =>
    cases hcurrent.symm.trans h.current
    exact ⟨l, rfl⟩

/-- `timer_shift` is the next to run, or its `move_list` is under way. -/
def Shifts (st : State) : Prop :=
  (∃ current, st.control = .move current) ∨
    ∃ idx, st.control = .execute true idx ∧ st.wheel.next (.head (.near idx)) = some none

theorem Inv.advance (h : Inv st lists hand) (hrun : st.control ≠ .idle) : ∃ st' lists' hand',
    advance st.wheel st.control = some st' ∧ Inv st' lists' hand' ∧
      (Shifts st → st'.wheel.log = st.wheel.log) := by
  obtain ⟨w, control⟩ := st
  have hkept : Kept w lists hand control.taken := h.kept
  cases control with
  | idle => exact absurd rfl hrun
  | direct p =>
    obtain rfl := h.hand_nil rfl
    obtain ⟨w', hcall, -, hfree⟩ := hkept.free
    refine ⟨⟨w', .idle⟩, lists, [], ?_, ⟨hfree, rfl, nofun⟩, ?_⟩
    · simp only [Nodes.advance, hcall, Option.bind_eq_bind, Option.bind_some]
    · rintro (⟨_, ⟨⟩⟩ | ⟨_, ⟨⟩, -⟩)
  | execute shift idx =>
    obtain rfl := h.hand_nil rfl
    have hidx := h.idx idx rfl
    have hhead := (hkept.family.linked _ hidx).next_head
    cases hlist : (lists (.near idx)).head? with
    | some p =>
      obtain ⟨w', hcall, -, hclear⟩ := linkClear_spec hkept hidx
      refine ⟨_, _, _, ?_, Inv.dispatchList hclear hidx shift, ?_⟩
      · simp only [Nodes.advance, hhead, hlist, hcall, Option.bind_eq_bind, Option.bind_some]
      · rintro (⟨_, ⟨⟩⟩ | ⟨_, ⟨⟩, hnone⟩)
        rw [hhead, hlist] at hnone
        cases hnone
    | none =>
      cases shift with
      | false =>
        refine ⟨⟨w, .idle⟩, lists, [], ?_, ⟨hkept, rfl, nofun⟩, fun _ => rfl⟩
        simp only [Nodes.advance, hhead, hlist, Option.bind_eq_bind, Option.bind_some,
          Bool.false_eq_true, if_false]
      | true =>
        obtain ⟨w', lists', hand', hcall, hlog, hshift⟩ := timerShift_spec hkept
        refine ⟨⟨w', .move hand'.head?⟩, lists', hand', ?_, ⟨hshift, rfl, nofun⟩, fun _ => hlog⟩
        simp only [Nodes.advance, hhead, hlist, hcall, Option.bind_eq_bind, Option.bind_some, if_true]
  | dispatch shift idx p =>
    obtain ⟨l, rfl⟩ := h.hand_cons rfl
    have hdispatch := hkept.dispatch
    obtain ⟨cell, hcell, hnext⟩ := heap_of_next (Linked.next_head hkept.follows)
    have hnot : Shifts ⟨w, .dispatch shift idx p⟩ → False := by
      rintro (⟨_, ⟨⟩⟩ | ⟨_, ⟨⟩, -⟩)
    by_cases hcancel : cell.cancel = 0
    · refine ⟨⟨w.record (.dispatched p), .callback shift idx p cell.next⟩, lists, l, ?_,
        ⟨hdispatch, hnext, h.idx⟩, fun hs => (hnot hs).elim⟩
      simp only [Nodes.advance, hcell, Option.bind_eq_bind, Option.bind_some, if_pos hcancel]
    · obtain ⟨w', hcall, -, hfree⟩ := hdispatch.free
      refine ⟨_, lists, l, ?_, Inv.dispatchList hfree (h.idx idx rfl) shift,
        fun hs => (hnot hs).elim⟩
      simp only [Nodes.advance, hcell, hcall, hnext, Option.bind_eq_bind, Option.bind_some,
        if_neg hcancel]
  | callback shift idx p current =>
    obtain rfl : current = hand.head? := h.current
    obtain ⟨w', hcall, -, hfree⟩ := hkept.free
    refine ⟨_, lists, hand, ?_, Inv.dispatchList hfree (h.idx idx rfl) shift, ?_⟩
    · simp only [Nodes.advance, hcall, Option.bind_eq_bind, Option.bind_some]
    · rintro (⟨_, ⟨⟩⟩ | ⟨_, ⟨⟩, -⟩)
  | move current =>
    cases current with
    | none =>
      obtain rfl := h.hand_nil rfl
      exact ⟨_, lists, [], rfl, Inv.timerExecute hkept false, fun _ => rfl⟩
    | some p =>
      obtain ⟨l, rfl⟩ := h.hand_cons rfl
      have hnext := Linked.next_head hkept.follows
      obtain ⟨cell, hcell, -⟩ := heap_of_next hnext
      obtain ⟨w', hcall, hsame, hrelink⟩ := hkept.relink hcell rfl
      refine ⟨⟨w', .move l.head?⟩, _, l, ?_, ⟨hrelink, rfl, nofun⟩, fun _ => hsame.log⟩
      simp only [Nodes.advance, hnext, hcall, Option.bind_eq_bind, Option.bind_some]

theorem Inv.addTimer {time : BitVec 32} {func : Handler} {threadid : BitVec 32} {a : Addr}
    {cell : Cell} (h : Inv st lists hand) (hop : Legal st (.addTimer time func threadid a cell)) :
    ∃ st' lists', addTimer st time func threadid a cell = some st' ∧ Inv st' lists' hand := by
  obtain ⟨hfresh, hcontrol⟩ := hop
  have hon := h.kept.not_on hfresh
  have hkept := h.kept.allocate hfresh time func threadid cell
  by_cases htime : time.toInt ≤ 0
  · have hidle : st.control = .idle := by
      rcases hcontrol with hidle | ⟨-, hpos⟩
      · exact hidle
      · exact absurd htime (Int.not_le.mpr hpos)
    obtain rfl := h.hand_nil (by rw [hidle]; rfl)
    refine ⟨_, lists, if_pos htime, ⟨{ hkept with temp := ?_ }, rfl, nofun⟩⟩
    rintro q ⟨⟩
    exact ⟨⟨a, rfl⟩, by simp [Nodes.allocate, Wheel.write], mt (h.kept.pending _).mpr hon⟩
  · have hcell : (Nodes.allocate st.wheel time func threadid a cell).heap (.node a) =
        some { cell with expire := time + st.wheel.time, callback := func, id := threadid } := by
      simp [Nodes.allocate, Wheel.write]
    obtain ⟨w', hcall, -, hlink⟩ := hkept.linkNew hcell hon (h.kept.temp_ne hfresh) rfl
    refine ⟨⟨w'.record (.linked (.node a)), st.control⟩, _, ?_, hlink, h.current, h.idx⟩
    simp only [Nodes.addTimer, if_neg htime, hcall, Option.map_some]

theorem valid_of_mem_slots (hs : s ∈ slots) : Valid s := by
  rcases List.mem_append.mp hs with hs | hs
  · obtain ⟨idx, hidx, rfl⟩ := List.mem_map.mp hs
    exact List.mem_range.mp hidx
  · obtain ⟨level, hlevel, hs⟩ := List.mem_flatMap.mp hs
    obtain ⟨idx, hidx, rfl⟩ := List.mem_map.mp hs
    exact ⟨List.mem_range.mp hlevel, List.mem_range.mp hidx⟩

theorem mem_slots (hs : Valid s) : s ∈ slots := by
  cases s with
  | near idx => exact List.mem_append_left _ (List.mem_map_of_mem (List.mem_range.mpr hs))
  | level level idx =>
    refine List.mem_append_right _ (List.mem_flatMap.mpr ⟨level, List.mem_range.mpr hs.1, ?_⟩)
    exact List.mem_map_of_mem (List.mem_range.mpr hs.2)

theorem slots_nodup : slots.Nodup := by
  refine List.nodup_append.mpr ⟨?_, ?_, ?_⟩
  · exact List.nodup_range.map fun _ _ => Slot.near.inj
  · refine List.nodup_flatMap.mpr ⟨fun i _ => ?_, ?_⟩
    · exact List.nodup_range.map fun _ _ h => (Slot.level.inj h).2
    · refine (List.nodup_range (n := 4)).imp fun {i j} hij => ?_
      intro s hi hj
      obtain ⟨_, -, rfl⟩ := List.mem_map.mp hi
      obtain ⟨_, -, heq⟩ := List.mem_map.mp hj
      exact hij (Slot.level.inj heq).1.symm
  · rintro s hs t ht rfl
    obtain ⟨_, -, rfl⟩ := List.mem_map.mp hs
    obtain ⟨_, -, ht⟩ := List.mem_flatMap.mp ht
    obtain ⟨_, -, heq⟩ := List.mem_map.mp ht
    cases heq

def members (lists : Slot → List Ptr) (hand : List Ptr) : List Ptr := slots.flatMap lists ++ hand

theorem mem_members : p ∈ members lists hand ↔ On lists hand p := by
  simp only [members, List.mem_append, List.mem_flatMap, On]
  constructor
  · rintro (⟨s, hs, hp⟩ | hp)
    · exact .inr ⟨s, valid_of_mem_slots hs, hp⟩
    · exact .inl hp
  · rintro (hp | ⟨s, hs, hp⟩)
    · exact .inr hp
    · exact .inl ⟨s, mem_slots hs, hp⟩

/-- What is linked is on one list, or in hand, and what is freed is not. -/
structure Conserved (st : State) (lists : Slot → List Ptr) (hand : List Ptr) : Prop where
  chains : ∀ s, Valid s → Chain.Linked st.wheel.next (.head s) (lists s)
  tails : ∀ s, Valid s → st.wheel.tail s = some ((lists s).getLastD (.head s))
  inHand : Follows st.wheel.next hand ∧ st.control.current = hand.head?
  once : (members lists hand).Nodup
  pending : ∀ p, p ∈ members lists hand ↔ Pending st.wheel.log p
  freed : ∀ p, st.wheel.heap p = none → p ∉ members lists hand

theorem Kept.members_nodup (h : Kept w lists hand temp) : (members lists hand).Nodup := by
  refine List.nodup_append.mpr ⟨?_, h.nodup, ?_⟩
  · refine List.nodup_flatMap.mpr ⟨fun s hs => ?_, ?_⟩
    · exact (List.nodup_cons.mp (h.family.nodup s (valid_of_mem_slots hs))).2
    · refine slots_nodup.pairwise_of_forall_ne fun s hs t ht hne p hp hp' => ?_
      exact h.family.apart s t (valid_of_mem_slots hs) (valid_of_mem_slots ht) hne p
        (List.mem_cons_of_mem _ hp) (List.mem_cons_of_mem _ hp')
  · rintro p hp q hq rfl
    obtain ⟨s, hs, hp⟩ := List.mem_flatMap.mp hp
    exact h.outside p hq s (valid_of_mem_slots hs) (List.mem_cons_of_mem _ hp)

theorem Inv.conserved (h : Inv st lists hand) : Conserved st lists hand where
  chains := h.kept.family.linked
  tails := h.kept.family.tails
  inHand := ⟨h.kept.follows, h.current⟩
  once := h.kept.members_nodup
  pending _ := mem_members.trans (h.kept.pending _)
  freed _ hp hmem := h.kept.not_on hp (mem_members.mp hmem)

theorem members_perm {lists' : Slot → List Ptr} {hand' : List Ptr} {st' : State}
    (h : Conserved st lists hand) (h' : Conserved st' lists' hand')
    (hlog : st'.wheel.log = st.wheel.log) : (members lists' hand').Perm (members lists hand) := by
  refine (List.perm_ext_iff_of_nodup h'.once h.once).mpr fun p => ?_
  rw [h'.pending, h.pending, hlog]

theorem Inv.clearTimer (h : Inv st lists hand) (hidle : st.control = .idle) :
    (∃ turns st', call turns st .clearTimer = some st') ∧
      ∀ turns st', call turns st .clearTimer = some st' → ∃ lists', Inv st' lists' [] ∧
        (∀ s, Valid s → lists' s = []) ∧ ∀ p ∈ members lists hand, st'.wheel.heap p = none := by
  obtain rfl := h.hand_nil (by rw [hidle]; rfl)
  have hkept : Kept st.wheel lists [] none := by simpa [hidle, Control.taken] using h.kept
  constructor
  · have hlength : ∀ s ∈ slots, (lists s).length ≤ (slots.flatMap lists).length := by
      intro s hs
      rw [List.flatMap_def]
      exact (List.sublist_flatten_of_mem (List.mem_map_of_mem hs)).length_le
    obtain ⟨w', hcall⟩ := (clearTimer_spec hkept fun _ => valid_of_mem_slots).1 hlength
    refine ⟨(slots.flatMap lists).length, ⟨w', st.control⟩, ?_⟩
    simp only [call, hcall, Option.map_some]
  · intro turns st' hcall
    obtain ⟨w', hw', rfl⟩ := Option.map_eq_some_iff.mp hcall
    obtain ⟨lists', hkept', hempty⟩ :=
      (clearTimer_spec hkept fun _ => valid_of_mem_slots).2 w' hw'
    refine ⟨lists', ⟨by simpa [hidle, Control.taken] using hkept', h.current, h.idx⟩, ?_, ?_⟩
    · intro s hs
      rw [hempty.empty, if_pos (mem_slots hs)]
    · intro p hp
      rcases mem_members.mp hp with hp | ⟨s, hs, hp⟩
      · cases hp
      · exact hempty.freed s (mem_slots hs) p hp

theorem Inv.step {op : Op} (h : Inv st lists hand) (hop : Legal st op) :
    (∃ st', runs.step st op st') ∧ ∀ st', runs.step st op st' → ∃ lists' hand', Inv st' lists' hand' := by
  have hdet : ∀ {st₁ lists₁ hand₁}, (∀ turns, call turns st op = some st₁) → Inv st₁ lists₁ hand₁ →
      (∃ st', runs.step st op st') ∧
        ∀ st', runs.step st op st' → ∃ lists' hand', Inv st' lists' hand' := by
    intro st₁ lists₁ hand₁ hcall hinv
    refine ⟨⟨st₁, hop, 0, hcall 0⟩, ?_⟩
    rintro st' ⟨-, turns, hcall'⟩
    cases (hcall turns).symm.trans hcall'
    exact ⟨_, _, hinv⟩
  cases op with
  | addTimer time func threadid a cell =>
    obtain ⟨st', lists', hcall, hinv⟩ := h.addTimer hop
    exact hdet (fun _ => hcall) hinv
  | timerUpdate =>
    have hidle : st.control = .idle := hop
    obtain rfl := h.hand_nil (by rw [hidle]; rfl)
    have hkept : Kept st.wheel lists [] none := by simpa [hidle, Control.taken] using h.kept
    exact hdet (fun _ => rfl) (Inv.timerExecute hkept true)
  | delTimer a => exact hdet (fun _ => rfl) ⟨h.kept.delTimer a, h.current, h.idx⟩
  | clearTimer =>
    obtain ⟨⟨turns, st₁, hcall⟩, hinv⟩ := h.clearTimer hop
    refine ⟨⟨st₁, hop, turns, hcall⟩, ?_⟩
    rintro st' ⟨-, turns, hcall⟩
    obtain ⟨lists', hinv, -⟩ := hinv turns st' hcall
    exact ⟨lists', [], hinv⟩
  | advance =>
    obtain ⟨st', lists', hand', hcall, hinv, -⟩ := h.advance hop
    exact hdet (fun _ => hcall) hinv

theorem inv_of_reach (h : Reach runs Transition.free st) : ∃ lists hand, Inv st lists hand := by
  refine h.invariant (P := fun st => ∃ lists hand, Inv st lists hand) ?_ ?_
  · rintro st rfl
    exact ⟨_, _, Inv.create⟩
  · rintro st op st' ⟨lists, hand, hinv⟩ - hstep
    exact (hinv.step hstep.1).2 st' hstep

/-- Whatever is added, dispatched and cleared, the lists and the chain in hand hold
what is pending. `timer_shift` only moves it, `clear_timer` frees all of it, and
nothing is freed twice: the next call has a result. -/
theorem nodes_conserved (h : Reach runs Transition.free st) : ∃ lists hand,
    Conserved st lists hand ∧ (∀ op, Legal st op → ∃ st', runs.step st op st') ∧
      (Shifts st → ∀ st', runs.step st .advance st' → ∃ lists' hand',
        Conserved st' lists' hand' ∧ (members lists' hand').Perm (members lists hand)) ∧
      ∀ st', runs.step st .clearTimer st' → ∃ lists', Conserved st' lists' [] ∧
        (∀ s, Valid s → lists' s = []) ∧ ∀ p ∈ members lists hand, st'.wheel.heap p = none := by
  obtain ⟨lists, hand, hinv⟩ := inv_of_reach h
  refine ⟨lists, hand, hinv.conserved, fun op hop => (hinv.step hop).1, ?_, ?_⟩
  · rintro hshifts st' ⟨hop, turns, hcall⟩
    obtain ⟨st₁, lists', hand', hcall', hinv', hlog⟩ := hinv.advance hop
    cases hcall.symm.trans hcall'
    exact ⟨lists', hand', hinv'.conserved,
      members_perm hinv.conserved hinv'.conserved (hlog hshifts)⟩
  · rintro st' ⟨hop, turns, hcall⟩
    obtain ⟨lists', hinv', hempty, hfreed⟩ := (hinv.clearTimer hop).2 turns st' hcall
    exact ⟨lists', hinv'.conserved, hempty, hfreed⟩

def oneTimer : State where
  wheel :=
    (((allocate timerCreateTimer 5 0 0 7 ⟨⟨0, 0, 0, 0⟩, none⟩).write (.head (.near 5))
      (some ⟨⟨0, 0, 0, 0⟩, some (.node 7)⟩)).setTail (.near 5) (.node 7)).write (.node 7)
        (some ⟨⟨5, 0, 0, 0⟩, none⟩) |>.record (.linked (.node 7))
  control := .idle

theorem oneTimer_reach : Reach runs Transition.free oneTimer := by
  have hinit : runs.init ⟨timerCreateTimer, .idle⟩ := rfl
  have hstep : runs.step ⟨timerCreateTimer, .idle⟩
      (.addTimer 5 0 0 7 ⟨⟨0, 0, 0, 0⟩, none⟩) oneTimer := ⟨⟨rfl, .inl rfl⟩, 0, rfl⟩
  exact .step (.init hinit) trivial hstep

theorem nodes_conserved_oneTimer : ∃ lists hand,
    Conserved oneTimer lists hand ∧ (∀ op, Legal oneTimer op → ∃ st', runs.step oneTimer op st') ∧
      (Shifts oneTimer → ∀ st', runs.step oneTimer .advance st' → ∃ lists' hand',
        Conserved st' lists' hand' ∧ (members lists' hand').Perm (members lists hand)) ∧
      ∀ st', runs.step oneTimer .clearTimer st' → ∃ lists', Conserved st' lists' [] ∧
        (∀ s, Valid s → lists' s = []) ∧ ∀ p ∈ members lists hand, st'.wheel.heap p = none :=
  nodes_conserved oneTimer_reach

end LearningCode.TimeWheel.Nodes
