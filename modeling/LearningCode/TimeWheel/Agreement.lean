import LearningCode.TimeWheel.Conserve
import LearningCode.TimeWheel.Firing

/-!
# The time wheel in memory and its lists

The lists of a wheel are what its heads, tails and links in memory are made of. What a
call does to the lists, the points of the code between it and the next call do to the
memory, and the callbacks they run are the events of the call.
-/

namespace LearningCode.TimeWheel.Nodes

open Chain Transition

variable {w w' : Wheel} {T : Timer} {hand : List Addr} {temp : Option Addr} {a b : Addr}
  {st st' st'' : State} {l l' : List Event} {s : Slot} {op : Op} {idx level : Nat}

def pointers (T : Timer) (s : Slot) : List Ptr := (T.list s).map .node

structure Holds (w : Wheel) (T : Timer) (hand : List Addr) (temp : Option Addr) : Prop where
  kept : Kept w (pointers T) (hand.map .node) (temp.map .node)
  time : w.time = T.time
  nodes : ∀ a, On (pointers T) (hand.map .node) (.node a) ∨ temp = some a →
    (w.heap (.node a)).map Cell.toTimerNode = some (T.node a)
  fresh : ∀ a, T.fresh ≤ a → w.heap (.node a) = none

theorem pointers_linkAt (T : Timer) (s : Slot) (a : Addr) :
    pointers (linkAt T s a) = Function.update (pointers T) s (pointers T s ++ [.node a]) := by
  funext t
  by_cases hts : t = s
  · subst hts
    simp [pointers, linkAt_list]
  · simp [pointers, linkAt_list, hts]

theorem on_linkAt {l : List Ptr} {p : Ptr} (hs : Valid s) :
    On (pointers (linkAt T s a)) l p ↔ p = .node a ∨ On (pointers T) l p := by
  rw [pointers_linkAt]
  exact on_link hs

theorem pointers_near (T : Timer) (idx : Nat) :
    pointers { T with near := Function.update T.near idx [] } =
      Function.update (pointers T) (.near idx) [] := by
  funext t
  cases t with
  | near i =>
    by_cases hi : i = idx
    · subst hi
      simp [pointers, Timer.list]
    · simp [pointers, Timer.list, hi]
  | level => simp [pointers, Timer.list]

theorem pointers_detach (T : Timer) (level idx : Nat) :
    pointers (detach T level idx) = Function.update (pointers T) (.level level idx) [] := by
  funext t
  by_cases ht : t = .level level idx
  · subst ht
    simp [pointers, detach_list]
  · simp [pointers, detach_list, ht]

-- ---------------------------------------------------------------------------
-- What the memory holds of a node
-- ---------------------------------------------------------------------------

theorem Holds.cell (h : Holds w T hand temp)
    (ha : On (pointers T) (hand.map .node) (.node a) ∨ temp = some a) : ∃ cell,
      w.heap (.node a) = some cell ∧ cell.toTimerNode = T.node a :=
  Option.map_eq_some_iff.mp (h.nodes a ha)

theorem Holds.first (h : Holds w T (a :: hand) temp) : ∃ cell,
    w.heap (.node a) = some cell ∧ cell.toTimerNode = T.node a ∧
      cell.next = (hand.map Ptr.node).head? := by
  obtain ⟨cell, hcell, hnode⟩ := h.cell (.inl (on_cons.mpr (.inl rfl)))
  have hnext := Linked.next_head h.kept.follows
  rw [next_of_heap hcell] at hnext
  exact ⟨cell, hcell, hnode, Option.some.inj hnext⟩

theorem Holds.free (h : Holds w T hand (some a)) : ∃ w',
    Nodes.free w (.node a) = some w' ∧ Holds w' T hand none := by
  obtain ⟨w', hcall, -, hkept⟩ := h.kept.free
  obtain ⟨cell, hcell, -⟩ := h.cell (.inr rfl)
  obtain rfl : w.write (.node a) none = w' := by
    simpa [Nodes.free, hcell] using hcall
  have hoff := mt (h.kept.pending _).mp (h.kept.temp _ rfl).2.2
  refine ⟨_, hcall, hkept, h.time, fun b hb => ?_, fun b hb => ?_⟩
  · have hne : b ≠ a := by
      rintro rfl
      exact hb.elim hoff (Option.some_ne_none _).symm
    rw [write_heap_of_ne _ fun heq => hne (Ptr.node.inj heq)]
    exact h.nodes b (hb.imp_right fun heq => absurd heq.symm (Option.some_ne_none _))
  · by_cases hba : b = a
    · subst hba
      exact Function.update_self ..
    · rw [write_heap_of_ne _ fun heq => hba (Ptr.node.inj heq)]
      exact h.fresh b hb

theorem Holds.relinked {w₁ : Wheel} {hand' : List Addr} {temp' : Option Addr}
    (h : Holds w T hand temp) (hsame : Same w w₁) (hheap : w'.heap = w₁.heap)
    (htime : w'.time = w₁.time)
    (hkept : Kept w' (pointers (linkAt T s a)) (hand'.map .node) (temp'.map .node))
    (hon : ∀ b, On (pointers (linkAt T s a)) (hand'.map .node) (.node b) ∨ temp' = some b →
      On (pointers T) (hand.map .node) (.node b) ∨ temp = some b) :
    Holds w' (linkAt T s a) hand' temp' := by
  refine ⟨hkept, ?_, fun b hb => ?_, fun b hb => ?_⟩
  · rw [htime, hsame.time, linkAt_time, h.time]
  · rw [hheap, hsame.heap, linkAt_node]
    exact h.nodes b (hon b hb)
  · rw [linkAt_fresh] at hb
    rw [hheap]
    exact (hsame.none _).mpr (h.fresh b hb)

-- ---------------------------------------------------------------------------
-- Runs with their callbacks
-- ---------------------------------------------------------------------------

def calling (st : State) : List Event :=
  match st.control.taken with
  | some (.node a) =>
    (st.wheel.heap (.node a)).toList.map fun cell => ⟨a, cell.callback, st.wheel.time⟩
  | _ => []

def events (st : State) : Op → List Event
  | .advance => calling st
  | _ => []

inductive Goes : State → List Event → State → Prop
  | refl (st : State) : Goes st [] st
  | step {st st' st'' : State} {l : List Event} (op : Op) (hstep : runs.step st op st')
      (hrest : Goes st' l st'') : Goes st (events st op ++ l) st''

theorem Goes.trans (h : Goes st l st') (h' : Goes st' l' st'') : Goes st (l ++ l') st'' := by
  induction h with
  | refl => exact h'
  | step op hstep _ ih =>
    rw [List.append_assoc]
    exact .step op hstep (ih h')

theorem Goes.advance (hcall : Nodes.advance st.wheel st.control = some st')
    (hrun : st.control ≠ .idle) (hrest : Goes st' l st'') : Goes st (calling st ++ l) st'' :=
  .step .advance ⟨hrun, 0, hcall⟩ hrest

theorem Goes.silent (w : Wheel) (control : Control) (hcall : Nodes.advance w control = some st')
    (hrun : control ≠ .idle) (htaken : control.taken = none) (hrest : Goes st' l st'') :
    Goes ⟨w, control⟩ l st'' := by
  have hcalling : calling ⟨w, control⟩ = [] := by simp only [calling, htaken]
  have hgoes : Goes ⟨w, control⟩ (calling ⟨w, control⟩ ++ l) st'' := Goes.advance hcall hrun hrest
  rwa [hcalling] at hgoes

-- ---------------------------------------------------------------------------
-- timer_execute
-- ---------------------------------------------------------------------------

/-- Induction on the nodes in hand; a callback runs where the node is not cancelled. -/
theorem dispatch_goes (h : Holds w T hand none) (shift : Bool) (idx : Nat) : ∃ w' l,
    Goes (dispatchList w shift idx (hand.map Ptr.node).head?) l ⟨w', .execute shift idx⟩ ∧
      Holds w' (TimeWheel.dispatchList T hand) [] none ∧
      (TimeWheel.dispatchList T hand).log = T.log ++ l := by
  induction hand generalizing w T with
  | nil => exact ⟨w, [], .refl _, h, (List.append_nil _).symm⟩
  | cons a hand ih =>
    obtain ⟨cell, hcell, hnode, hnext⟩ := h.first
    have htaken : Holds (w.record (.dispatched (.node a))) T hand (some a) := by
      refine ⟨h.kept.dispatch, h.time, fun b hb => h.nodes b (.inl ?_), h.fresh⟩
      rcases hb with hb | hb
      · exact on_cons.mpr (.inr hb)
      · cases hb
        exact on_cons.mpr (.inl rfl)
    obtain ⟨w₁, hfree, hfreed⟩ := htaken.free
    have hcancel : cell.cancel = (T.node a).cancel := congrArg TimerNode.cancel hnode
    by_cases hrun : (T.node a).cancel = 0#8
    · have hzero : cell.cancel = 0 := hcancel.trans hrun
      obtain ⟨w', l, hgoes, hholds, hlog⟩ := ih (T := runCallback T a)
        ⟨hfreed.kept, hfreed.time, hfreed.nodes, hfreed.fresh⟩
      have hcall : calling ⟨w.record (.dispatched (.node a)),
          .callback shift idx (.node a) cell.next⟩ = [⟨a, (T.node a).callback, T.time⟩] := by
        have hcallback : cell.callback = (T.node a).callback := congrArg TimerNode.callback hnode
        simp [calling, Control.taken, Wheel.record, hcell, hcallback, h.time]
      have hsecond : Goes ⟨w.record (.dispatched (.node a)), .callback shift idx (.node a) cell.next⟩
          ([⟨a, (T.node a).callback, T.time⟩] ++ l) ⟨w', .execute shift idx⟩ := by
        rw [← hcall]
        refine Goes.advance ?_ (by simp) (hnext ▸ hgoes)
        simp only [Nodes.advance, hfree, Option.bind_eq_bind, Option.bind_some]
      have hfirst : Nodes.advance w (.dispatch shift idx (.node a)) =
          some ⟨w.record (.dispatched (.node a)), .callback shift idx (.node a) cell.next⟩ := by
        simp only [Nodes.advance, hcell, Option.bind_eq_bind, Option.bind_some, if_pos hzero]
      refine ⟨w', _, Goes.silent w _ hfirst (by simp) rfl hsecond, ?_, ?_⟩
      · rw [TimeWheel.dispatchList, if_pos hrun]
        exact hholds
      · rw [TimeWheel.dispatchList, if_pos hrun, hlog, ← List.append_assoc]
        rfl
    · have hnonzero : cell.cancel ≠ 0 := hcancel ▸ hrun
      obtain ⟨w', l, hgoes, hholds, hlog⟩ := ih hfreed
      refine ⟨w', l, ?_, ?_, ?_⟩
      · refine Goes.silent w (.dispatch shift idx (.node a)) ?_ (by simp) rfl (hnext ▸ hgoes)
        simp only [Nodes.advance, hcell, hfree, Option.bind_eq_bind, Option.bind_some,
          if_neg hnonzero]
      · rw [TimeWheel.dispatchList, if_neg hrun]
        exact hholds
      · rw [TimeWheel.dispatchList, if_neg hrun]
        exact hlog

theorem current_mask (h : w.time = T.time) :
    (w.time &&& TIME_NEAR_MASK).toNat = T.time.toNat % TIME_NEAR := by
  rw [h, toNat_and_near]

theorem near_valid (time : BitVec 32) : Valid (.near (time.toNat % TIME_NEAR)) :=
  Nat.mod_lt _ (by decide)

theorem execute_goes (h : Holds w T [] none) (shift : Bool) : ∃ w' l,
    Goes (timerExecute w shift) l ⟨w', .execute shift (T.time.toNat % TIME_NEAR)⟩ ∧
      Holds w' (TimeWheel.timerExecute T) [] none ∧
      (TimeWheel.timerExecute T).log = T.log ++ l := by
  rw [timerExecute, current_mask h.time]
  generalize hidx : T.time.toNat % TIME_NEAR = idx
  have hvalid : Valid (.near idx) := hidx ▸ near_valid T.time
  have hhead := (h.kept.family.linked _ hvalid).next_head
  have heq := timerExecute_eq T
  rw [hidx] at heq
  cases hlist : T.near idx with
  | nil =>
    rw [hlist, TimeWheel.dispatchList, ← hlist, Function.update_eq_self] at heq
    rw [heq]
    exact ⟨w, [], .refl _, h, (List.append_nil _).symm⟩
  | cons a hand =>
    obtain ⟨w₁, hclear, hsame, hkept⟩ := linkClear_spec h.kept hvalid
    have hpointers : pointers T (.near idx) = (a :: hand).map .node := by
      rw [pointers, Timer.list, hlist]
    rw [hpointers] at hhead hclear hkept
    have htaken : Holds w₁ { T with near := Function.update T.near idx [] } (a :: hand) none := by
      refine ⟨pointers_near T idx ▸ hkept, hsame.time.trans h.time, fun b hb => ?_, fun b hb => ?_⟩
      · rw [hsame.heap]
        refine h.nodes b (.inl ((on_clear hvalid).mp ?_))
        rw [hpointers, ← pointers_near]
        exact hb.resolve_right (Option.some_ne_none _).symm
      · exact (hsame.none _).mpr (h.fresh b hb)
    obtain ⟨w', l, hgoes, hholds, hlog⟩ := dispatch_goes htaken shift idx
    rw [heq, hlist]
    refine ⟨w', l, Goes.silent w (.execute shift idx) ?_ (by simp) rfl hgoes, hholds, hlog⟩
    simp only [Nodes.advance, hhead, List.map_cons, List.head?_cons, hclear, Option.bind_eq_bind,
      Option.bind_some]

theorem timerExecute_near (T : Timer) :
    (TimeWheel.timerExecute T).near (T.time.toNat % TIME_NEAR) = [] :=
  (timerExecute_list T (s := .near _)).trans (if_pos rfl)

theorem head_of_empty (h : Holds w T [] none) (hempty : T.near idx = [])
    (hvalid : Valid (.near idx)) : w.next (.head (.near idx)) = some none := by
  have hhead := (h.kept.family.linked _ hvalid).next_head
  rwa [pointers, Timer.list, hempty] at hhead

theorem idle_goes (h : Holds w T [] none) (hempty : T.near idx = [])
    (hvalid : Valid (.near idx)) : Goes ⟨w, .execute false idx⟩ [] ⟨w, .idle⟩ := by
  refine Goes.silent w (.execute false idx) ?_ (by simp) rfl (.refl _)
  simp only [Nodes.advance, head_of_empty h hempty hvalid, Option.bind_eq_bind, Option.bind_some,
    Bool.false_eq_true, if_false]

-- ---------------------------------------------------------------------------
-- timer_shift
-- ---------------------------------------------------------------------------

theorem move_goes (h : Holds w T hand none) : ∃ w',
    Goes ⟨w, .move (hand.map Ptr.node).head?⟩ [] ⟨w', .move none⟩ ∧
      Holds w' (hand.foldl TimeWheel.addNode T) [] none := by
  induction hand generalizing w T with
  | nil => exact ⟨w, .refl _, h⟩
  | cons a hand ih =>
    obtain ⟨cell, hcell, hnode, hnext⟩ := h.first
    have hslot : slotOf (T.node a).expire T.time = slotOf cell.expire w.time := by
      rw [← hnode, h.time]
    obtain ⟨w₁, hcall, hsame, hkept⟩ := h.kept.relink hcell hslot
    rw [← pointers_linkAt] at hkept
    have hlinked : Holds w₁ (linkAt T (slotOf (T.node a).expire T.time) a) hand none := by
      refine h.relinked hsame rfl rfl hkept fun b hb => .inl ?_
      have hon := hb.resolve_right (Option.some_ne_none _).symm
      exact on_cons.mpr ((on_linkAt (slotOf_valid ..)).mp hon)
    rw [List.foldl_cons, TimeWheel.addNode_eq]
    obtain ⟨w', hgoes, hholds⟩ := ih hlinked
    refine ⟨w', Goes.silent w (.move (some (.node a))) ?_ (by simp) rfl hgoes, hholds⟩
    simp only [Nodes.advance, next_of_heap hcell, hnext, hcall, Option.bind_eq_bind,
      Option.bind_some]

theorem timerShiftLoop_agrees {ct time mask : BitVec 32} {i levels : Nat} {o : Option Slot}
    (h : timerShiftLoop ct time mask i levels = some o) :
    o = none ∧ TimeWheel.timerShiftLoop T ct time mask i levels = T ∨
      ∃ level idx, o = some (.level level idx) ∧
        TimeWheel.timerShiftLoop T ct time mask i levels = moveList T level idx := by
  induction levels generalizing time mask i with
  | zero => cases h
  | succ levels ih =>
    simp only [timerShiftLoop] at h
    simp only [TimeWheel.timerShiftLoop]
    split_ifs at h ⊢
    · cases h
      exact .inr ⟨i, _, rfl, rfl⟩
    · exact ih h
    · cases h
      exact .inl ⟨rfl, rfl⟩

theorem moved_agrees {o : Option Slot} (h : moved (T.time + 1) = some o) :
    o = none ∧ TimeWheel.timerShift T = tick T ∨
      ∃ level idx, o = some (.level level idx) ∧
        TimeWheel.timerShift T = moveList (tick T) level idx := by
  unfold moved at h
  unfold TimeWheel.timerShift
  simp only
  split_ifs at h ⊢
  · cases h
    exact .inr ⟨3, 0, rfl, rfl⟩
  · exact timerShiftLoop_agrees h

theorem shift_goes (h : Holds w T [] none) (hempty : T.near idx = [])
    (hvalid : Valid (.near idx)) : ∃ w', Goes ⟨w, .execute true idx⟩ [] (timerExecute w' false) ∧
      Holds w' (TimeWheel.timerShift T) [] none := by
  have hhead := head_of_empty h hempty hvalid
  have htick : Holds { w with time := w.time + 1 } (tick T) [] none :=
    ⟨h.kept.of_next rfl rfl fun _ _ => rfl, congrArg (· + 1) h.time, h.nodes, h.fresh⟩
  obtain ⟨o, hmoved, hslot⟩ := moved_spec (w.time + 1)
  have hlast (w : Wheel) : Goes ⟨w, .move none⟩ [] (timerExecute w false) :=
    Goes.silent w (.move none) rfl (by simp) rfl (.refl _)
  have hfirst {w₁ : Wheel} {current : Option Ptr} (hshift : timerShift w = some (w₁, current)) :
      Nodes.advance w (.execute true idx) = some ⟨w₁, .move current⟩ := by
    simp only [Nodes.advance, hhead, hshift, Option.bind_eq_bind, Option.bind_some, if_true]
  rcases moved_agrees (h.time ▸ hmoved) with ⟨rfl, heq⟩ | ⟨level, i, rfl, heq⟩
  · have hshift : timerShift w = some ({ w with time := w.time + 1 }, none) := by
      simp only [timerShift, hmoved, Option.bind_eq_bind, Option.bind_some]
    rw [heq]
    exact ⟨_, Goes.silent w _ (hfirst hshift) (by simp) rfl (hlast _), htick⟩
  · have hs := hslot _ rfl
    obtain ⟨w₁, hclear, hsame, hkept⟩ := linkClear_spec htick.kept hs
    have hshift : timerShift w = some (w₁, ((T.t level i).map Ptr.node).head?) := by
      simp only [timerShift, hmoved, Option.bind_eq_bind, Option.bind_some]
      exact hclear
    have hdetached : Holds w₁ (detach (tick T) level i) (T.t level i) none := by
      refine ⟨pointers_detach (tick T) level i ▸ hkept, hsame.time.trans htick.time, fun b hb => ?_,
        fun b hb => (hsame.none _).mpr (h.fresh b hb)⟩
      rw [hsame.heap]
      refine h.nodes b (.inl ((on_clear hs).mp ?_))
      have hon := hb.resolve_right (Option.some_ne_none _).symm
      rw [pointers_detach] at hon
      exact hon
    obtain ⟨w', hgoes, hholds⟩ := move_goes hdetached
    rw [heq, moveList_eq]
    refine ⟨w', Goes.silent w _ (hfirst hshift) (by simp) rfl ?_, hholds⟩
    exact hgoes.trans (hlast w')

theorem update_goes (h : Holds w T [] none) : ∃ w' l,
    Goes (timerExecute w true) l ⟨w', .idle⟩ ∧ Holds w' (timerUpdate T) [] none ∧
      (timerUpdate T).log = T.log ++ l := by
  obtain ⟨w₁, l₁, hgoes₁, hholds₁, hlog₁⟩ := execute_goes h true
  obtain ⟨w₂, hgoes₂, hholds₂⟩ := shift_goes hholds₁ (timerExecute_near T) (near_valid T.time)
  obtain ⟨w₃, l₃, hgoes₃, hholds₃, hlog₃⟩ := execute_goes hholds₂ false
  have hgoes₄ := idle_goes hholds₃ (timerExecute_near _) (near_valid _)
  refine ⟨w₃, l₁ ++ l₃, ?_, hholds₃, ?_⟩
  · have hgoes := (hgoes₁.trans hgoes₂).trans (hgoes₃.trans hgoes₄)
    rwa [List.append_nil, List.append_nil] at hgoes
  · obtain ⟨-, -, -, hlog₂⟩ := timerShift_frame (TimeWheel.timerExecute T)
    rw [timerUpdate, hlog₃, hlog₂, hlog₁, List.append_assoc]

-- ---------------------------------------------------------------------------
-- Every call
-- ---------------------------------------------------------------------------

def newNode : Cell := ⟨⟨0, 0, 0, 0⟩, none⟩

/-- The call as one on memory, where `malloc` returns the next address. -/
def Op.of (T : Timer) : TimeWheel.Op → Op
  | .addTimer time func threadid => .addTimer time func threadid T.fresh newNode
  | .timerUpdate => .timerUpdate
  | .delTimer node => .delTimer node

theorem allocate_cell (w : Wheel) (time : BitVec 32) (func : Handler) (threadid : BitVec 32)
    (a : Addr) : (allocate w time func threadid a newNode).heap (.node a) =
      some ⟨⟨time + w.time, func, 0, threadid⟩, none⟩ := Function.update_self ..

theorem allocate_node (T : Timer) (time : BitVec 32) (func : Handler) (threadid : BitVec 32) :
    (TimeWheel.allocate T time func threadid).node T.fresh = ⟨time + T.time, func, 0, threadid⟩ :=
  Function.update_self ..

theorem Holds.allocate (h : Holds w T [] none) (time : BitVec 32) (func : Handler)
    (threadid : BitVec 32) : Holds (allocate w time func threadid T.fresh newNode)
      (TimeWheel.allocate T time func threadid) [] (some T.fresh) := by
  have hnone := h.fresh T.fresh (Nat.le_refl _)
  have hkept := h.kept.allocate hnone time func threadid newNode
  have hcell := allocate_cell w time func threadid T.fresh
  have hheap {a : Addr} (hne : a ≠ T.fresh) :
      (Nodes.allocate w time func threadid T.fresh newNode).heap (.node a) = w.heap (.node a) :=
    write_heap_of_ne _ fun heq => hne (Ptr.node.inj heq)
  refine ⟨{ hkept with temp := ?_ }, h.time, fun a ha => ?_, fun a ha => ?_⟩
  · rintro p ⟨⟩
    exact ⟨⟨T.fresh, rfl⟩, by simp [hcell], mt (h.kept.pending _).mpr (h.kept.not_on hnone)⟩
  · by_cases heq : a = T.fresh
    · subst heq
      rw [hcell, h.time, allocate_node]
      rfl
    · have hnode : (TimeWheel.allocate T time func threadid).node a = T.node a :=
        Function.update_of_ne heq ..
      rw [hheap heq, hnode]
      exact h.nodes a (.inl (ha.resolve_right fun he => heq (Option.some.inj he).symm))
  · rw [hheap (Nat.ne_of_gt ha)]
    exact h.fresh a (Nat.le_of_lt ha)

theorem add_goes (h : Holds w T [] none) (time : BitVec 32) (func : Handler)
    (threadid : BitVec 32) : ∃ w' l,
      Goes ⟨w, .idle⟩ l ⟨w', .idle⟩ ∧
        Holds w' (TimeWheel.addTimer T time func threadid).1 [] none ∧
        (TimeWheel.addTimer T time func threadid).1.log = T.log ++ l := by
  have hnone := h.fresh T.fresh (Nat.le_refl _)
  have hlegal : Legal ⟨w, .idle⟩ (.addTimer time func threadid T.fresh newNode) :=
    ⟨hnone, .inl rfl⟩
  have hnew := h.allocate time func threadid
  have hcell := allocate_cell w time func threadid T.fresh
  rw [addTimer_eq]
  by_cases hdue : time.toInt ≤ 0
  · rw [if_pos hdue]
    obtain ⟨w', hfree, hholds⟩ := hnew.free
    have hcalling : calling ⟨allocate w time func threadid T.fresh newNode,
        .direct (.node T.fresh)⟩ = [⟨T.fresh, func, T.time⟩] := by
      simp only [calling, Control.taken, hcell, Option.toList_some, List.map_cons, List.map_nil]
      rw [← h.time]
      rfl
    have hdirect : Goes ⟨allocate w time func threadid T.fresh newNode, .direct (.node T.fresh)⟩
        [⟨T.fresh, func, T.time⟩] ⟨w', .idle⟩ := by
      rw [← hcalling]
      refine (List.append_nil (calling _)) ▸ Goes.advance ?_ (by simp) (.refl _)
      simp only [Nodes.advance, hfree, Option.bind_eq_bind, Option.bind_some]
    refine ⟨w', _, .step (.addTimer time func threadid T.fresh newNode)
      ⟨hlegal, 0, if_pos hdue⟩ hdirect, ⟨hholds.kept, hholds.time, hholds.nodes, hholds.fresh⟩, ?_⟩
    rw [runCallback, allocate_node]
    rfl
  · rw [if_neg hdue]
    have hoff := h.kept.not_on hnone
    have hslot : slotOf (time + T.time) T.time = slotOf (time + w.time) w.time := by rw [h.time]
    obtain ⟨w₁, hcall, hsame, hkept⟩ := (h.kept.allocate hnone time func threadid newNode).linkNew
      hcell hoff (by simp) hslot
    have hlists : pointers (linkAt (TimeWheel.allocate T time func threadid)
        (slotOf (time + T.time) T.time) T.fresh) = Function.update (pointers T)
          (slotOf (time + T.time) T.time)
          (pointers T (slotOf (time + T.time) T.time) ++ [.node T.fresh]) :=
      pointers_linkAt ..
    rw [← hlists] at hkept
    have hlinked : Holds (w₁.record (.linked (.node T.fresh)))
        (linkAt (TimeWheel.allocate T time func threadid) (slotOf (time + T.time) T.time) T.fresh)
        [] none := by
      refine hnew.relinked hsame rfl rfl hkept fun b hb => ?_
      have hlinkAt := hb.resolve_right (Option.some_ne_none _).symm
      rcases (on_linkAt (slotOf_valid ..)).mp hlinkAt with heq | hon
      · exact .inr (congrArg some (Ptr.node.inj heq).symm)
      · exact .inl hon
    refine ⟨_, _, .step (.addTimer time func threadid T.fresh newNode) ⟨hlegal, 0, ?_⟩
      (.refl _), hlinked, ?_⟩
    · simp only [call, addTimer, if_neg hdue, hcall, Option.map_some]
    · rw [linkAt_log]
      exact (List.append_nil _).symm

theorem del_holds (h : Holds w T [] none) (a : Addr) :
    Holds (delTimer w a) (TimeWheel.delTimer T a) [] none := by
  refine ⟨h.kept.delTimer a, ?_, fun b hb => ?_, fun b hb => ?_⟩
  · rw [delTimer]
    split <;> exact h.time
  · obtain ⟨cell, hcell, hnode⟩ := h.cell (a := b) hb
    by_cases hba : b = a
    · subst hba
      simp [delTimer, hcell, Wheel.write, TimeWheel.delTimer, ← hnode]
    · have hheap : (delTimer w a).heap (.node b) = w.heap (.node b) := by
        rw [delTimer]
        split
        · exact write_heap_of_ne _ fun heq => hba (Ptr.node.inj heq)
        · rfl
      have hnode : (TimeWheel.delTimer T a).node b = T.node b := Function.update_of_ne hba ..
      rw [hheap, hnode]
      exact h.nodes b hb
  · have hb' := h.fresh b hb
    rw [delTimer]
    split
    · next cell hcell =>
      have hne : b ≠ a := by
        rintro rfl
        cases hb'.symm.trans hcell
      rw [write_heap_of_ne _ fun heq => hne (Ptr.node.inj heq)]
      exact hb'
    · exact hb'

/-- One call on the lists is a call on memory and what it runs. -/
theorem step_goes (h : Holds w T [] none) (op : TimeWheel.Op) : ∃ w' l,
    Goes ⟨w, .idle⟩ l ⟨w', .idle⟩ ∧ Holds w' (step T op) [] none ∧
      (step T op).log = T.log ++ l := by
  cases op with
  | addTimer time func threadid => exact add_goes h time func threadid
  | timerUpdate =>
    obtain ⟨w', l, hgoes, hholds, hlog⟩ := update_goes h
    exact ⟨w', l, .step .timerUpdate ⟨rfl, 0, rfl⟩ hgoes, hholds, hlog⟩
  | delTimer a =>
    refine ⟨_, [], .step (.delTimer a) ⟨trivial, 0, rfl⟩ (.refl _), del_holds h a, ?_⟩
    exact (List.append_nil _).symm

theorem create_holds (time : BitVec 32) :
    Holds { timerCreateTimer with time := time } (TimeWheel.timerCreateTimer time) [] none := by
  have hpointers : pointers (TimeWheel.timerCreateTimer time) = fun _ => [] := by
    funext s
    cases s <;> rfl
  refine ⟨?_, rfl, fun a ha => ?_, fun _ _ => rfl⟩
  · rw [hpointers]
    exact Inv.create.kept.of_next rfl rfl fun _ _ => rfl
  · rw [hpointers] at ha
    rcases ha.resolve_right (Option.some_ne_none _).symm with hon | ⟨s, -, hon⟩
    · cases hon
    · cases hon

theorem ops_goes (h : Holds w T [] none) (ops : List TimeWheel.Op) : ∃ w' l,
    Goes ⟨w, .idle⟩ l ⟨w', .idle⟩ ∧ Holds w' (run T ops) [] none ∧
      (run T ops).log = T.log ++ l := by
  induction ops generalizing w T with
  | nil => exact ⟨w, [], .refl _, h, (List.append_nil _).symm⟩
  | cons op ops ih =>
    obtain ⟨w₁, l₁, hgoes₁, hholds₁, hlog₁⟩ := step_goes h op
    obtain ⟨w₂, l₂, hgoes₂, hholds₂, hlog₂⟩ := ih hholds₁
    refine ⟨w₂, l₁ ++ l₂, hgoes₁.trans hgoes₂, hholds₂, ?_⟩
    rw [← List.append_assoc, ← hlog₁]
    exact hlog₂

/-- Any calls on the lists are a run over memory, with the same callbacks in order. -/
theorem run_goes (time : BitVec 32) (ops : List TimeWheel.Op) : ∃ w,
    Goes ⟨{ timerCreateTimer with time := time }, .idle⟩
        (run (TimeWheel.timerCreateTimer time) ops).log ⟨w, .idle⟩ ∧
      Holds w (run (TimeWheel.timerCreateTimer time) ops) [] none := by
  obtain ⟨w, l, hgoes, hholds, hlog⟩ := ops_goes (create_holds time) ops
  have hcalled : (run (TimeWheel.timerCreateTimer time) ops).log = l := hlog
  exact ⟨w, hcalled ▸ hgoes, hholds⟩

end LearningCode.TimeWheel.Nodes
