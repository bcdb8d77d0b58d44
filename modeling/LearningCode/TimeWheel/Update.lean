import LearningCode.TimeWheel.Placement

/-!
# One update of the wheel, slot by slot

Each function gets one equation saying what every list, the clock and the log
are afterwards; no later proof unfolds the code again.
-/

namespace LearningCode.TimeWheel

def runsOf (T : Timer) (a : Addr) : List Event := T.log.filter (·.node = a)

def Linked (T : Timer) (a : Addr) (s : Slot) : Prop :=
  ∀ s', (T.list s').count a = if s' = s then 1 else 0

def Unlinked (T : Timer) (a : Addr) : Prop := ∀ s, a ∉ T.list s

-- ---------------------------------------------------------------------------
-- Linking
-- ---------------------------------------------------------------------------

@[simp] theorem linkAt_time : (linkAt T s a).time = T.time := by cases s <;> rfl
@[simp] theorem linkAt_node : (linkAt T s a).node = T.node := by cases s <;> rfl
@[simp] theorem linkAt_fresh : (linkAt T s a).fresh = T.fresh := by cases s <;> rfl
@[simp] theorem linkAt_log : (linkAt T s a).log = T.log := by cases s <;> rfl

theorem linkAt_list : (linkAt T s a).list s' = T.list s' ++ if s' = s then [a] else [] := by
  cases s with
  | near idx =>
    cases s' with
    | near idx' =>
      by_cases h : idx' = idx
      · subst h; simp [linkAt, linkNear, Timer.list, link]
      · simp [linkAt, linkNear, Timer.list, h]
    | level => simp [linkAt, linkNear, Timer.list]
  | level level idx =>
    cases s' with
    | near => simp [linkAt, linkLevel, Timer.list]
    | level level' idx' =>
      by_cases hl : level' = level
      · subst hl
        by_cases hi : idx' = idx
        · subst hi; simp [linkAt, linkLevel, Timer.list, link]
        · simp [linkAt, linkLevel, Timer.list, hi]
      · simp [linkAt, linkLevel, Timer.list, hl]

theorem linkAll_frame (l : List Addr) :
    (l.foldl addNode T).time = T.time ∧ (l.foldl addNode T).node = T.node ∧
      (l.foldl addNode T).fresh = T.fresh ∧ (l.foldl addNode T).log = T.log := by
  induction l generalizing T with
  | nil => simp
  | cons b l ih =>
    obtain ⟨h1, h2, h3, h4⟩ := ih (T := addNode T b)
    rw [List.foldl_cons, h1, h2, h3, h4, addNode_eq]
    exact ⟨linkAt_time, linkAt_node, linkAt_fresh, linkAt_log⟩

theorem linkAll_list (l : List Addr) :
    (l.foldl addNode T).list s =
      T.list s ++ l.filter fun b => slotOf (T.node b).expire T.time = s := by
  induction l generalizing T with
  | nil => simp
  | cons b l ih =>
    rw [List.foldl_cons, ih, addNode_eq]
    simp only [linkAt_node, linkAt_time, linkAt_list, List.filter_cons, List.append_assoc]
    by_cases h : slotOf (T.node b).expire T.time = s
    · simp [h]
    · simp [h, Ne.symm h]

-- ---------------------------------------------------------------------------
-- move_list and timer_shift
-- ---------------------------------------------------------------------------

def detach (T : Timer) (level idx : Nat) : Timer :=
  { T with t := Function.update T.t level (Function.update (T.t level) idx []) }

theorem detach_list :
    (detach T level idx).list s = if s = .level level idx then [] else T.list s := by
  cases s with
  | near => simp [detach, Timer.list]
  | level level' idx' =>
    by_cases hl : level' = level
    · subst hl
      by_cases hi : idx' = idx
      · subst hi; simp [detach, Timer.list]
      · simp [detach, Timer.list, hi]
    · simp [detach, Timer.list, hl]

theorem moveList_eq : moveList T level idx = (T.t level idx).foldl addNode (detach T level idx) := rfl

theorem moveList_frame :
    (moveList T level idx).time = T.time ∧ (moveList T level idx).node = T.node ∧
      (moveList T level idx).fresh = T.fresh ∧ (moveList T level idx).log = T.log :=
  linkAll_frame _

theorem moveList_list :
    (moveList T level idx).list s =
      (if s = .level level idx then [] else T.list s) ++
        (T.t level idx).filter fun b => slotOf (T.node b).expire T.time = s := by
  rw [moveList_eq, linkAll_list, detach_list]
  rfl

theorem and_mask_eq_zero (x : BitVec 32) (hl : level < 4) :
    x &&& (BitVec.ofNat 32 (span level) - 1) = 0 ↔ x.toNat % span level = 0 := by
  have hm : BitVec.ofNat 32 (span level) - 1 = BitVec.ofNat 32 (span level - 1) := by
    obtain rfl | rfl | rfl | rfl : level = 0 ∨ level = 1 ∨ level = 2 ∨ level = 3 := by omega
    all_goals rfl
  have hlt : span level - 1 < 2 ^ 32 := by
    obtain rfl | rfl | rfl | rfl : level = 0 ∨ level = 1 ∨ level = 2 ∨ level = 3 := by omega
    all_goals decide
  rw [hm, ← BitVec.toNat_inj, BitVec.toNat_and, BitVec.toNat_ofNat, Nat.mod_eq_of_lt hlt, span,
    Nat.and_two_pow_sub_one_eq_mod]
  rfl

theorem mask_shift (hi : i < 4) :
    BitVec.ofNat 32 (span i) <<< TIME_LEVEL_SHIFT = BitVec.ofNat 32 (span (i + 1)) := by
  obtain rfl | rfl | rfl | rfl : i = 0 ∨ i = 1 ∨ i = 2 ∨ i = 3 := by omega
  all_goals rfl

theorem time_shift (ct : BitVec 32) (i : Nat) :
    ct >>> (TIME_NEAR_SHIFT + i * TIME_LEVEL_SHIFT) >>> TIME_LEVEL_SHIFT =
      ct >>> (TIME_NEAR_SHIFT + (i + 1) * TIME_LEVEL_SHIFT) := by
  rw [← BitVec.shiftRight_add]
  congr 1
  show 8 + i * 6 + 6 = 8 + (i + 1) * 6
  omega

theorem timerShiftLoop_step (hi : i < 4) :
    timerShiftLoop T ct (ct >>> (TIME_NEAR_SHIFT + i * TIME_LEVEL_SHIFT))
        (BitVec.ofNat 32 (span i)) i (levels + 1) =
      if ct.toNat % span i ≠ 0 then T
      else if ct.toNat / span i % TIME_LEVEL ≠ 0 then
        moveList T i (ct.toNat / span i % TIME_LEVEL)
      else
        timerShiftLoop T ct (ct >>> (TIME_NEAR_SHIFT + (i + 1) * TIME_LEVEL_SHIFT))
          (BitVec.ofNat 32 (span (i + 1))) (i + 1) levels := by
  simp only [timerShiftLoop, and_mask_eq_zero ct hi, toNat_shift_and, mask_shift hi, time_shift]
  split_ifs <;> simp_all [span]

def tick (T : Timer) : Timer := { T with time := T.time + 1 }

/-- `timer_shift` moves the list `cascade` names, if it names one. -/
theorem timerShift_eq (T : Timer) :
    timerShift T =
      match cascade (T.time + 1).toNat with
      | some (.level level idx) => moveList (tick T) level idx
      | _ => tick T := by
  have hloop : ∀ ct, timerShiftLoop (tick T) ct (ct >>> TIME_NEAR_SHIFT)
      (BitVec.ofNat 32 TIME_NEAR) 0 4 = timerShiftLoop (tick T) ct
        (ct >>> (TIME_NEAR_SHIFT + 0 * TIME_LEVEL_SHIFT)) (BitVec.ofNat 32 (span 0)) 0 (3 + 1) :=
    fun _ => rfl
  unfold timerShift cascade
  generalize hct : T.time + 1 = ct
  have hT : { T with time := ct } = tick T := by rw [← hct]; rfl
  simp only [hT]
  have h0 : ct = 0 ↔ ct.toNat = 0 := by rw [← BitVec.toNat_inj]; rfl
  have hlt := ct.isLt
  by_cases hz : ct = 0
  · rw [if_pos hz, if_pos (h0.mp hz)]
  rw [if_neg hz, if_neg (mt h0.mpr hz), hloop, timerShiftLoop_step (i := 0) (by omega)]
  clear hloop hT hct
  by_cases hlow : ct.toNat % span 0 ≠ 0
  · rw [if_pos hlow, if_pos hlow]
  rw [if_neg hlow, if_neg hlow]
  -- at each level either the slot is moved, or its bits of the clock are clear as well
  by_cases hlevel0 : ct.toNat / span 0 % TIME_LEVEL ≠ 0
  · rw [if_pos hlevel0, if_pos hlevel0]
  rw [if_neg hlevel0, if_neg hlevel0, timerShiftLoop_step (i := 1) (by omega),
    if_neg (by simp [level_eq] at *; omega)]
  by_cases hlevel1 : ct.toNat / span 1 % TIME_LEVEL ≠ 0
  · rw [if_pos hlevel1, if_pos hlevel1]
  rw [if_neg hlevel1, if_neg hlevel1, timerShiftLoop_step (i := 2) (by omega),
    if_neg (by simp [level_eq] at *; omega)]
  by_cases hlevel2 : ct.toNat / span 2 % TIME_LEVEL ≠ 0
  · rw [if_pos hlevel2, if_pos hlevel2]
  rw [if_neg hlevel2, if_neg hlevel2, timerShiftLoop_step (i := 3) (by omega),
    if_neg (by simp [level_eq] at *; omega), if_pos]
  have hpos := mt h0.mpr hz
  simp only [span_zero, span_one, span_two, span_three, level_eq, ne_eq, Decidable.not_not] at *
  omega

theorem timerShift_frame (T : Timer) :
    (timerShift T).time = T.time + 1 ∧ (timerShift T).node = T.node ∧
      (timerShift T).fresh = T.fresh ∧ (timerShift T).log = T.log := by
  rw [timerShift_eq]
  split
  · exact moveList_frame
  · exact ⟨rfl, rfl, rfl, rfl⟩

theorem timerShift_list (T : Timer) :
    (timerShift T).list s =
      match cascade (T.time + 1).toNat with
      | some (.level level idx) => (if s = .level level idx then [] else T.list s) ++
          (T.t level idx).filter fun b => slotOf (T.node b).expire (T.time + 1) = s
      | _ => T.list s := by
  rw [timerShift_eq]
  split
  · exact moveList_list
  · rfl

theorem count_filter_ite [DecidableEq α] (l : List α) (p : α → Bool) (a : α) :
    (l.filter p).count a = if p a then l.count a else 0 := by
  by_cases h : p a = true
  · rw [if_pos h, List.count_filter h]
  · rw [if_neg h]
    exact List.count_eq_zero.mpr fun hm => h (List.mem_filter.mp hm).2

theorem Linked.shift (h : Linked T a s) :
    Linked (timerShift T) a
      (if cascade (T.time + 1).toNat = some s then slotOf (T.node a).expire (T.time + 1) else s) := by
  intro s'
  rw [timerShift_list]
  split
  · next level idx hc =>
    have hm : (T.t level idx).count a = if .level level idx = s then 1 else 0 := h (.level level idx)
    have hs := h s'
    simp only [hc, Option.some.injEq, List.count_append, count_filter_ite, hm, decide_eq_true_eq]
    by_cases hmoved : Slot.level level idx = s
    · subst hmoved
      by_cases hstay : s' = .level level idx
      · simp [hstay, eq_comm]
      · simp [hstay, hs, eq_comm]
    · have hne : s' = .level level idx → s' ≠ s := fun e => e ▸ hmoved
      by_cases hdrop : s' = .level level idx
      · simp [hmoved, hdrop]
      · simp [hmoved, hdrop, hs]
  · next hc =>
    have hcs : cascade (T.time + 1).toNat ≠ some s := by
      cases s with
      | near idx => exact cascade_ne_near
      | level level idx => exact fun e => hc level idx e
    rw [if_neg hcs]
    exact h s'

theorem Unlinked.shift (h : Unlinked T a) : Unlinked (timerShift T) a := by
  intro s
  rw [timerShift_list]
  split
  · next level idx _ =>
    have hm : a ∉ T.t level idx := h (.level level idx)
    have hs := h s
    simp only [List.mem_append, List.mem_filter, not_or]
    refine ⟨?_, fun hf => hm hf.1⟩
    split
    · exact List.not_mem_nil
    · exact hs
  · exact h s

-- ---------------------------------------------------------------------------
-- timer_execute
-- ---------------------------------------------------------------------------

theorem dispatchList_eq (T : Timer) (l : List Addr) :
    dispatchList T l = { T with
      log := T.log ++ (l.filter fun b => (T.node b).cancel = 0#8).map
        fun b => ⟨b, (T.node b).callback, T.time⟩ } := by
  induction l generalizing T with
  | nil => simp [dispatchList]
  | cons b l ih =>
    rw [dispatchList, ih]
    by_cases h : (T.node b).cancel = 0#8
    · simp only [h, ↓reduceIte, decide_true, List.filter_cons_of_pos, List.map_cons, runCallback,
        List.append_assoc, List.singleton_append]
    · simp only [h, ↓reduceIte, decide_false, Bool.false_eq_true, not_false_eq_true,
        List.filter_cons_of_neg]

theorem timerExecute_eq (T : Timer) :
    timerExecute T =
      dispatchList { T with near := Function.update T.near (T.time.toNat % TIME_NEAR) [] }
        (T.near (T.time.toNat % TIME_NEAR)) := by
  rw [timerExecute, toNat_and_near]
  generalize T.time.toNat % TIME_NEAR = idx
  rw [timerExecuteLoop]
  split
  · next h =>
    rw [h, dispatchList]
    simp only [← h, Function.update_eq_self]
  · rw [timerExecuteLoop, if_pos (by simp [dispatchList_near, linkClear])]
    rfl

theorem timerExecute_frame (T : Timer) :
    (timerExecute T).time = T.time ∧ (timerExecute T).node = T.node ∧
      (timerExecute T).fresh = T.fresh := by
  rw [timerExecute_eq, dispatchList_eq]
  exact ⟨rfl, rfl, rfl⟩

theorem timerExecute_list (T : Timer) :
    (timerExecute T).list s = if s = .near (T.time.toNat % TIME_NEAR) then [] else T.list s := by
  rw [timerExecute_eq, dispatchList_eq]
  cases s with
  | near idx =>
    by_cases h : idx = T.time.toNat % TIME_NEAR
    · subst h; simp [Timer.list]
    · simp [Timer.list, h]
  | level => simp [Timer.list]

theorem runsOf_dispatch (l : List Addr) (f : Addr → Event) (hf : ∀ b, (f b).node = b)
    (q : Addr → Bool) :
    ((l.filter q).map f).filter (·.node = a) = if q a then List.replicate (l.count a) (f a) else [] := by
  induction l with
  | nil => simp
  | cons b l ih =>
    cases hq : q b with
    | false =>
      rw [List.filter_cons_of_neg (by simp [hq]), ih]
      by_cases hb : b = a
      · subst hb; simp [hq]
      · rw [List.count_cons_of_ne hb]
    | true =>
      rw [List.filter_cons_of_pos hq, List.map_cons]
      by_cases hb : b = a
      · subst hb
        rw [List.filter_cons_of_pos (by simp [hf]), ih, if_pos hq, if_pos hq, List.count_cons_self,
          List.replicate_succ]
      · rw [List.filter_cons_of_neg (by simp [hf, hb]), ih, List.count_cons_of_ne hb]

theorem runsOf_timerExecute (T : Timer) :
    runsOf (timerExecute T) a = runsOf T a ++
      if (T.node a).cancel = 0#8 then
        List.replicate ((T.near (T.time.toNat % TIME_NEAR)).count a)
          ⟨a, (T.node a).callback, T.time⟩
      else [] := by
  rw [timerExecute_eq, dispatchList_eq]
  unfold runsOf
  rw [List.filter_append, runsOf_dispatch _ _ (fun _ => rfl)]
  simp only [decide_eq_true_eq]

theorem Unlinked.execute (h : Unlinked T a) : Unlinked (timerExecute T) a := by
  intro s
  rw [timerExecute_list]
  split
  · exact List.not_mem_nil
  · exact h s

theorem Linked.execute (h : Linked T a s) (hs : s ≠ .near (T.time.toNat % TIME_NEAR)) :
    Linked (timerExecute T) a s := by
  intro s'
  rw [timerExecute_list]
  split
  · next e => subst e; simp [Ne.symm hs]
  · exact h s'

theorem Linked.execute_due (h : Linked T a (.near (T.time.toNat % TIME_NEAR))) :
    Unlinked (timerExecute T) a := by
  intro s
  rw [timerExecute_list]
  split
  · exact List.not_mem_nil
  · next hs =>
    have := h s
    rw [if_neg hs] at this
    exact List.count_eq_zero.mp this

end LearningCode.TimeWheel
