import LearningCode.TimeWheel.Update

/-!
# Every timer fires on its tick, unless it is parked

A pending node is linked once, in a slot that is emptied in time; an update
brings it one tick nearer and runs it when none is left. A parked node is in a
slot no update empties. One step lemma for each, then an induction over what
the threads do afterwards.
-/

namespace LearningCode.TimeWheel

def Reachable (T : Timer) : Prop := ∃ time ops, T = run (timerCreateTimer time) ops

structure Allocated (T : Timer) : Prop where
  linked : ∀ s, ∀ a ∈ T.list s, a < T.fresh
  ran : ∀ e ∈ T.log, e.node < T.fresh

/-- What only the caller of `del_timer` may change in a node. -/
structure Node (T : Timer) (a : Addr) (expire : BitVec 32) (func : Handler) : Prop where
  allocated : a < T.fresh
  expire : (T.node a).expire = expire
  callback : (T.node a).callback = func
  cancel : (T.node a).cancel = 0#8

/-- Linked once where it will be found in time, and not run so far. -/
structure Pending (T : Timer) (a : Addr) (expire : BitVec 32) (func : Handler) : Prop where
  node : Node T a expire func
  due : 0 < delay expire T.time
  runs : runsOf T a = []
  linked : ∃ s, Linked T a s ∧ WellPlaced expire T.time s

/-- Run once, with the clock at `expire`, and off every list. -/
structure Fired (T : Timer) (a : Addr) (expire : BitVec 32) (func : Handler) : Prop where
  node : Node T a expire func
  runs : runsOf T a = [⟨a, func, expire⟩]
  unlinked : Unlinked T a

structure Stranded (T : Timer) (a : Addr) : Prop where
  allocated : a < T.fresh
  runs : runsOf T a = []
  linked : ∃ s, Linked T a s ∧ Parked s

-- ---------------------------------------------------------------------------
-- timer_update
-- ---------------------------------------------------------------------------

theorem timerUpdate_frame (T : Timer) :
    (timerUpdate T).time = T.time + 1 ∧ (timerUpdate T).node = T.node ∧
      (timerUpdate T).fresh = T.fresh := by
  obtain ⟨t1, n1, f1⟩ := timerExecute_frame T
  obtain ⟨t2, n2, f2, -⟩ := timerShift_frame (timerExecute T)
  obtain ⟨t3, n3, f3⟩ := timerExecute_frame (timerShift (timerExecute T))
  unfold timerUpdate
  exact ⟨by rw [t3, t2, t1], by rw [n3, n2, n1], by rw [f3, f2, f1]⟩

theorem runsOf_timerShift (T : Timer) : runsOf (timerShift T) a = runsOf T a := by
  rw [runsOf, (timerShift_frame T).2.2.2, runsOf]

theorem runsOf_timerExecute_of_not_mem (h : a ∉ T.near (T.time.toNat % TIME_NEAR)) :
    runsOf (timerExecute T) a = runsOf T a := by
  rw [runsOf_timerExecute, List.count_eq_zero.mpr h]
  split <;> simp

theorem Linked.not_mem (h : Linked T a s) (hs : s' ≠ s) : a ∉ T.list s' := by
  have := h s'
  rw [if_neg hs] at this
  exact List.count_eq_zero.mp this

theorem WellPlaced.ne_near (h : WellPlaced expire now s) (hd : 0 < delay expire now) :
    s ≠ .near (now.toNat % TIME_NEAR) := by
  rintro rfl
  obtain ⟨he, hlt⟩ := h
  have hl := expire.isLt
  unfold delay at *
  simp [near_eq] at *
  omega

theorem WellPlaced.eq_near (h : WellPlaced now now s) : s = .near (now.toNat % TIME_NEAR) := by
  have hd : delay now now = 0 := delay_zero_iff.mpr rfl
  cases s with
  | near idx => rw [h.1]
  | level level idx =>
    obtain ⟨-, -, -, hlt, -⟩ := h
    rw [hd] at hlt
    exact absurd hlt (Nat.not_lt_zero _)

theorem WellPlaced.shift (h : WellPlaced expire now s) (hd : 0 < delay expire now) :
    WellPlaced expire (now + 1)
      (if cascade (now + 1).toNat = some s then slotOf expire (now + 1) else s) := by
  cases s with
  | near idx =>
    rw [if_neg cascade_ne_near]
    exact tick_near h hd
  | level level idx =>
    split
    · next hc => exact slotOf_due h.1 (tick_due h hc)
    · next hc => exact tick_not_due h hc

/-- The node is dispatched by the second `timer_execute` of its tick, and by
no other. -/
theorem Pending.update (h : Pending T a expire func) :
    if delay expire T.time = 1 then Fired (timerUpdate T) a expire func
    else Pending (timerUpdate T) a expire func ∧
      delay expire (timerUpdate T).time = delay expire T.time - 1 := by
  obtain ⟨⟨hfresh, hexp, hcb, hcan⟩, hdue, hruns, s, hs, hw⟩ := h
  obtain ⟨t1, n1, -⟩ := timerExecute_frame T
  obtain ⟨t2, n2, -, -⟩ := timerShift_frame (timerExecute T)
  obtain ⟨ht, hn, hf⟩ := timerUpdate_frame T
  rw [t1] at t2
  rw [n1] at n2
  have hnode : Node (timerUpdate T) a expire func := ⟨hf ▸ hfresh, hn ▸ hexp, hn ▸ hcb, hn ▸ hcan⟩
  have hmid := (hs.execute (hw.ne_near hdue)).shift
  have hwell := hw.shift hdue
  rw [t1, n1, hexp] at hmid
  generalize (if cascade (T.time + 1).toNat = some s then slotOf expire (T.time + 1) else s) = s'
    at hmid hwell
  have hrun : runsOf (timerShift (timerExecute T)) a = [] := by
    rw [runsOf_timerShift, runsOf_timerExecute_of_not_mem (hs.not_mem (hw.ne_near hdue).symm), hruns]
  have htick := delay_tick hdue
  split
  · next hone =>
    have hexpire : T.time + 1 = expire := delay_zero_iff.mp (by omega)
    rw [hexpire] at hwell
    have hs' := hwell.eq_near
    rw [← hexpire, ← t2] at hs'
    subst hs'
    refine ⟨hnode, ?_, hmid.execute_due⟩
    have hcount := hmid (.near ((timerShift (timerExecute T)).time.toNat % TIME_NEAR))
    rw [if_pos rfl] at hcount
    unfold timerUpdate
    rw [runsOf_timerExecute, hrun, n2, if_pos hcan, hcb, t2, hexpire]
    rw [t2, hexpire] at hcount
    show [] ++ List.replicate (List.count a (Timer.list _ (.near _))) _ = _
    rw [hcount]
    rfl
  · next hmore =>
    have hpos : 0 < delay expire (T.time + 1) := by omega
    have hne : s' ≠ .near ((timerShift (timerExecute T)).time.toNat % TIME_NEAR) := by
      rw [t2]; exact hwell.ne_near hpos
    refine ⟨⟨hnode, by rwa [ht], ?_, s', hmid.execute hne, by rwa [ht]⟩, by rw [ht, htick]⟩
    unfold timerUpdate
    rw [runsOf_timerExecute_of_not_mem (hmid.not_mem hne.symm), hrun]

theorem Fired.update (h : Fired T a expire func) : Fired (timerUpdate T) a expire func := by
  obtain ⟨⟨hfresh, hexp, hcb, hcan⟩, hruns, hun⟩ := h
  obtain ⟨-, hn, hf⟩ := timerUpdate_frame T
  refine ⟨⟨hf ▸ hfresh, hn ▸ hexp, hn ▸ hcb, hn ▸ hcan⟩, ?_, hun.execute.shift.execute⟩
  unfold timerUpdate
  rw [runsOf_timerExecute_of_not_mem (hun.execute.shift (.near _)), runsOf_timerShift,
    runsOf_timerExecute_of_not_mem (hun (.near _)), hruns]

/-- A parked node is not on the due list, and its slot is never the one moved. -/
theorem Stranded.update (h : Stranded T a) : Stranded (timerUpdate T) a := by
  obtain ⟨hfresh, hruns, s, hs, hp⟩ := h
  obtain ⟨-, -, hf⟩ := timerUpdate_frame T
  have hne : ∀ idx, s ≠ .near idx := by
    rintro idx rfl
    exact hp
  have hstay : ∀ ct, cascade ct ≠ some s := by
    cases s with
    | near idx => exact hp.elim
    | level level idx => obtain ⟨hl, rfl⟩ := hp; exact fun ct => cascade_ne_parked hl
  have hmid := (hs.execute (hne _)).shift
  rw [if_neg (hstay _)] at hmid
  refine ⟨hf ▸ hfresh, ?_, s, hmid.execute (hne _), hp⟩
  unfold timerUpdate
  rw [runsOf_timerExecute_of_not_mem (hmid.not_mem (hne _).symm), runsOf_timerShift,
    runsOf_timerExecute_of_not_mem (hs.not_mem (hne _).symm), hruns]

-- ---------------------------------------------------------------------------
-- Calls about other nodes
-- ---------------------------------------------------------------------------

structure Untouched (T T' : Timer) (a : Addr) : Prop where
  time : T'.time = T.time
  fresh : T.fresh ≤ T'.fresh
  node : T'.node a = T.node a
  lists : ∀ s, (T'.list s).count a = (T.list s).count a
  runs : runsOf T' a = runsOf T a

theorem Untouched.linked (h : Untouched T T' a) (hs : Linked T a s) : Linked T' a s := by
  intro s'
  rw [h.lists]
  exact hs s'

theorem Untouched.pending (h : Untouched T T' a) (hp : Pending T a expire func) :
    Pending T' a expire func := by
  obtain ⟨⟨hfresh, hexp, hcb, hcan⟩, hdue, hruns, s, hs, hw⟩ := hp
  exact ⟨⟨Nat.lt_of_lt_of_le hfresh h.fresh, h.node ▸ hexp, h.node ▸ hcb, h.node ▸ hcan⟩,
    h.time ▸ hdue, h.runs ▸ hruns, s, h.linked hs, h.time ▸ hw⟩

theorem Untouched.fired (h : Untouched T T' a) (hf : Fired T a expire func) :
    Fired T' a expire func := by
  obtain ⟨⟨hfresh, hexp, hcb, hcan⟩, hruns, hun⟩ := hf
  refine ⟨⟨Nat.lt_of_lt_of_le hfresh h.fresh, h.node ▸ hexp, h.node ▸ hcb, h.node ▸ hcan⟩,
    h.runs ▸ hruns, fun s => ?_⟩
  rw [← List.count_eq_zero, h.lists]
  exact List.count_eq_zero.mpr (hun s)

theorem Untouched.stranded (h : Untouched T T' a) (hs : Stranded T a) : Stranded T' a := by
  obtain ⟨hfresh, hruns, s, hl, hp⟩ := hs
  exact ⟨Nat.lt_of_lt_of_le hfresh h.fresh, h.runs ▸ hruns, s, h.linked hl, hp⟩

def allocate (T : Timer) (time : BitVec 32) (func : Handler) (threadid : BitVec 32) : Timer :=
  { T with
    fresh := T.fresh + 1
    node := Function.update T.node T.fresh ⟨time + T.time, func, 0, threadid⟩ }

theorem addTimer_eq (T : Timer) :
    addTimer T time func threadid =
      if time.toInt ≤ 0 then (runCallback (allocate T time func threadid) T.fresh, none)
      else (linkAt (allocate T time func threadid) (slotOf (time + T.time) T.time) T.fresh,
        some T.fresh) := by
  have hslot : addNode (allocate T time func threadid) T.fresh =
      linkAt (allocate T time func threadid) (slotOf (time + T.time) T.time) T.fresh := by
    rw [addNode_eq]
    simp [allocate]
  rw [← hslot]
  rfl

theorem addTimer_untouched (T : Timer) (h : a < T.fresh) :
    Untouched T (addTimer T time func threadid).1 a := by
  have hne : a ≠ T.fresh := Nat.ne_of_lt h
  have hnode : (allocate T time func threadid).node a = T.node a := by simp [allocate, hne]
  rw [addTimer_eq]
  split
  · refine ⟨rfl, Nat.le_succ _, hnode, fun _ => rfl, ?_⟩
    simp [runsOf, runCallback, allocate, hne.symm]
  · refine ⟨linkAt_time, ?_, ?_, fun s => ?_, ?_⟩
    · simp [allocate]
    · simpa using hnode
    · rw [linkAt_list, List.count_append]
      have : List.count a (if s = slotOf (time + T.time) T.time then [T.fresh] else []) = 0 := by
        split <;> simp [hne.symm]
      rw [this]
      rfl
    · simp [runsOf, allocate]

theorem delTimer_untouched (T : Timer) (h : a ≠ b) : Untouched T (delTimer T b) a :=
  ⟨rfl, Nat.le_refl _, by simp [delTimer, h], fun _ => rfl, rfl⟩

-- ---------------------------------------------------------------------------
-- Whole runs
-- ---------------------------------------------------------------------------

theorem step_untouched (h : a < T.fresh) (hop : op ≠ .timerUpdate) (hdel : op ≠ .delTimer a) :
    Untouched T (step T op) a := by
  cases op with
  | addTimer time func threadid => exact addTimer_untouched T h
  | timerUpdate => exact absurd rfl hop
  | delTimer b => exact delTimer_untouched T fun e => hdel (e ▸ rfl)

/-- What updates keep of a node, and the other calls that leave it alone, holds after any
calls but its cancellation. -/
theorem run_kept {P : Timer → Prop} (hallocated : ∀ T, P T → a < T.fresh)
    (hupdate : ∀ T, P T → P (timerUpdate T)) (hother : ∀ T T', P T → Untouched T T' a → P T')
    (h : P T) (hdel : .delTimer a ∉ ops) : P (run T ops) := by
  induction ops generalizing T with
  | nil => exact h
  | cons op ops ih =>
    rw [List.mem_cons, not_or] at hdel
    refine ih ?_ hdel.2
    by_cases hop : op = .timerUpdate
    · subst hop
      exact hupdate T h
    · exact hother T _ h (step_untouched (hallocated T h) hop (Ne.symm hdel.1))

theorem Fired.run (h : Fired T a expire func) (hdel : .delTimer a ∉ ops) :
    Fired (run T ops) a expire func :=
  run_kept (fun _ h => h.node.allocated) (fun _ h => h.update) (fun _ _ h hu => hu.fired h) h hdel

theorem Stranded.run (h : Stranded T a) (hdel : .delTimer a ∉ ops) : Stranded (run T ops) a :=
  run_kept (fun _ h => h.allocated) (fun _ h => h.update) (fun _ _ h hu => hu.stranded h) h hdel

/-- A pending node waits for as many updates as ticks remain, then has fired. -/
theorem Pending.run (h : Pending T a expire func) (hdel : .delTimer a ∉ ops) :
    if ops.count .timerUpdate < delay expire T.time then Pending (run T ops) a expire func
    else Fired (run T ops) a expire func := by
  induction ops generalizing T with
  | nil => rw [List.count_nil, if_pos h.due]; exact h
  | cons op ops ih =>
    rw [List.mem_cons, not_or] at hdel
    by_cases hop : op = .timerUpdate
    · subst hop
      have hu := h.update
      rw [List.count_cons_self]
      by_cases hone : delay expire T.time = 1
      · rw [if_pos hone] at hu
        rw [if_neg (by omega)]
        exact hu.run hdel.2
      · rw [if_neg hone] at hu
        have := ih hu.1 hdel.2
        have hd := h.due
        have hcount : ops.count .timerUpdate + 1 < delay expire T.time ↔
            ops.count .timerUpdate < delay expire (timerUpdate T).time := by omega
        simp only [hcount]
        exact this
    · have hu := step_untouched h.node.allocated hop (Ne.symm hdel.1)
      have := ih (hu.pending h) hdel.2
      rwa [hu.time, ← List.count_cons_of_ne hop] at this

theorem runsOf_pending (h : Pending T a expire func) (hdel : .delTimer a ∉ ops) :
    runsOf (run T ops) a =
      if ops.count .timerUpdate < delay expire T.time then [] else [⟨a, func, expire⟩] := by
  have := h.run hdel
  split at this
  · next hlt => rw [if_pos hlt]; exact this.runs
  · next hge => rw [if_neg hge]; exact this.runs

-- ---------------------------------------------------------------------------
-- Reachable wheels
-- ---------------------------------------------------------------------------

theorem Allocated.execute (h : Allocated T) : Allocated (timerExecute T) := by
  obtain ⟨-, -, hf⟩ := timerExecute_frame T
  refine ⟨fun s a ha => ?_, fun e he => ?_⟩
  · rw [timerExecute_list] at ha
    split at ha
    · exact absurd ha List.not_mem_nil
    · exact hf ▸ h.linked s a ha
  · rw [hf]
    rw [timerExecute_eq, dispatchList_eq] at he
    rcases List.mem_append.mp he with he | he
    · exact h.ran e he
    · obtain ⟨b, hb, rfl⟩ := List.mem_map.mp he
      exact h.linked (.near _) b (List.mem_filter.mp hb).1

theorem Allocated.shift (h : Allocated T) : Allocated (timerShift T) := by
  obtain ⟨-, -, hf, hl⟩ := timerShift_frame T
  refine ⟨fun s a ha => ?_, fun e he => hf ▸ h.ran e (hl ▸ he)⟩
  rw [hf]
  rw [timerShift_list] at ha
  split at ha
  · next level idx _ =>
    rcases List.mem_append.mp ha with ha | ha
    · split at ha
      · exact absurd ha List.not_mem_nil
      · exact h.linked s a ha
    · exact h.linked (.level level idx) a (List.mem_filter.mp ha).1
  · exact h.linked s a ha

theorem Allocated.add (h : Allocated T) : Allocated (addTimer T time func threadid).1 := by
  rw [addTimer_eq]
  split
  · refine ⟨fun s a ha => Nat.lt_succ_of_lt (h.linked s a ha), fun e he => ?_⟩
    rcases List.mem_append.mp he with he | he
    · exact Nat.lt_succ_of_lt (h.ran e he)
    · rw [List.mem_singleton.mp he]
      exact Nat.lt_succ_self _
  · refine ⟨fun s a ha => ?_, fun e he => ?_⟩
    · rw [linkAt_list] at ha
      rw [linkAt_fresh]
      rcases List.mem_append.mp ha with ha | ha
      · exact Nat.lt_succ_of_lt (h.linked s a ha)
      · split at ha
        · rw [List.mem_singleton.mp ha]
          exact Nat.lt_succ_self _
        · exact absurd ha List.not_mem_nil
    · rw [linkAt_log] at he
      rw [linkAt_fresh]
      exact Nat.lt_succ_of_lt (h.ran e he)

theorem Allocated.step (h : Allocated T) (op : Op) : Allocated (step T op) := by
  cases op with
  | addTimer time func threadid => exact h.add
  | timerUpdate => exact h.execute.shift.execute
  | delTimer b => exact ⟨h.linked, h.ran⟩

theorem Reachable.allocated (h : Reachable T) : Allocated T := by
  obtain ⟨time, ops, rfl⟩ := h
  have hinit : Allocated (timerCreateTimer time) :=
    ⟨fun s a ha => by cases s <;> exact absurd ha List.not_mem_nil,
      fun e he => absurd he List.not_mem_nil⟩
  generalize timerCreateTimer time = T at hinit
  induction ops generalizing T with
  | nil => exact hinit
  | cons op ops ih => exact ih _ (hinit.step op)

theorem Allocated.added (h : Allocated T) (htime : 0 < time.toInt) :
    (addTimer T time func threadid).2 = some T.fresh ∧
      Node (addTimer T time func threadid).1 T.fresh (time + T.time) func ∧
      (addTimer T time func threadid).1.time = T.time ∧
      runsOf (addTimer T time func threadid).1 T.fresh = [] ∧
      Linked (addTimer T time func threadid).1 T.fresh (slotOf (time + T.time) T.time) := by
  rw [addTimer_eq, if_neg (by omega)]
  refine ⟨rfl, ⟨?_, ?_, ?_, ?_⟩, linkAt_time, ?_, fun s => ?_⟩
  · rw [linkAt_fresh]
    exact Nat.lt_succ_self _
  · simp [allocate]
  · simp [allocate]
  · simp [allocate]
  · rw [runsOf, linkAt_log, List.filter_eq_nil_iff]
    intro e he
    simpa using Nat.ne_of_lt (h.ran e he)
  · have hold : ((allocate T time func threadid).list s).count T.fresh = 0 :=
      List.count_eq_zero.mpr fun hm => Nat.lt_irrefl _ (h.linked s _ hm)
    rw [linkAt_list, List.count_append, hold]
    split <;> simp

/-- `func` runs exactly once, during the `time`-th update from now on and with
the clock at the node's `expire`, whatever else is done to the wheel. -/
def FiresOnTick (T : Timer) (time : BitVec 32) (func : Handler) (threadid : BitVec 32) : Prop :=
  ∃ node, (addTimer T time func threadid).2 = some node ∧
    ∀ ops, .delTimer node ∉ ops →
      runsOf (run (addTimer T time func threadid).1 ops) node =
        if ops.count .timerUpdate < time.toNat then []
        else [⟨node, func, ((addTimer T time func threadid).1.node node).expire⟩]

theorem delay_add (time now : BitVec 32) : delay (time + now) now = time.toNat := by
  rw [delay, BitVec.add_sub_cancel]

theorem not_firesOnTick_of_parked (hT : Reachable T) (htime : 0 < time.toInt)
    (hp : Parked (slotOf (time + T.time) T.time)) : ¬ FiresOnTick T time func threadid := by
  obtain ⟨hsome, hnode, -, hruns, hlinked⟩ := hT.allocated.added htime
  rintro ⟨node, hsome', hfires⟩
  obtain rfl := Option.some.inj (hsome.symm.trans hsome')
  have hst : Stranded (addTimer T time func threadid).1 T.fresh :=
    ⟨hnode.allocated, hruns, _, hlinked, hp⟩
  -- as many updates as the delay asks for, and nothing else
  have hdel : Op.delTimer T.fresh ∉ List.replicate time.toNat Op.timerUpdate := by
    simp [List.mem_replicate]
  have := hfires _ hdel
  rw [(hst.run hdel).runs, List.count_replicate_self, if_neg (Nat.lt_irrefl _)] at this
  exact absurd this (List.cons_ne_nil _ _).symm

theorem firesOnTick_of_not_parked (hT : Reachable T) (htime : 0 < time.toInt)
    (hp : ¬ Parked (slotOf (time + T.time) T.time)) : FiresOnTick T time func threadid := by
  obtain ⟨hsome, hnode, hnow, hruns, hlinked⟩ := hT.allocated.added htime
  have hpos : 0 < delay (time + T.time) T.time := by
    rw [delay_add]
    have := BitVec.toInt_eq_toNat_cond time
    split at this <;> omega
  have hpend : Pending (addTimer T time func threadid).1 T.fresh (time + T.time) func :=
    ⟨hnode, hnow.symm ▸ hpos, hruns, _, hlinked,
      hnow.symm ▸ (slotOf_wellPlaced_or_parked _ _).resolve_right hp⟩
  refine ⟨T.fresh, hsome, fun ops hdel => ?_⟩
  rw [runsOf_pending hpend hdel, hnow, delay_add, hnode.expire]

/-- The delay reaches past the lists of one level while `expire` has that
level's six bits clear: the node goes to slot 0, which `timer_shift` skips. -/
def MissesCascade (time expire : BitVec 32) : Prop :=
  (2 ^ 8 ≤ time.toNat ∧ time.toNat < 2 ^ 14 ∧ expire.toNat / 2 ^ 8 % 2 ^ 6 = 0) ∨
    (2 ^ 14 ≤ time.toNat ∧ time.toNat < 2 ^ 20 ∧ expire.toNat / 2 ^ 14 % 2 ^ 6 = 0) ∨
    (2 ^ 20 ≤ time.toNat ∧ time.toNat < 2 ^ 26 ∧ expire.toNat / 2 ^ 20 % 2 ^ 6 = 0)

instance : Decidable (MissesCascade time expire) := by
  unfold MissesCascade
  infer_instance

theorem parked_slotOf_iff (time now : BitVec 32) :
    Parked (slotOf (time + now) now) ↔ MissesCascade time (time + now) := by
  unfold slotOf MissesCascade
  rw [delay_add]
  split_ifs <;> simp only [Parked, false_iff, span_zero, span_one, span_two,
    span_three, level_eq] at * <;> omega

/-- `add_timer` fires on its tick exactly when the node does not go to slot 0
of a level below the last. -/
theorem addTimer_fires_iff (hT : Reachable T) (htime : 0 < time.toInt) :
    FiresOnTick T time func threadid ↔ ¬ MissesCascade time (time + T.time) := by
  rw [← parked_slotOf_iff]
  constructor
  · intro hf hp
    exact not_firesOnTick_of_parked hT htime hp hf
  · exact firesOnTick_of_not_parked hT htime

theorem addTimer_fires_300 : FiresOnTick (timerCreateTimer 0) 300 7 0 :=
  (addTimer_fires_iff ⟨0, [], rfl⟩ (by decide)).mpr (by decide)

/-- One tick after the start, a delay of 16383 expires at 16384, whose bits 8
to 13 are clear: that timer never fires. -/
theorem addTimer_never_fires :
    Reachable (run (timerCreateTimer 0) [.timerUpdate]) ∧ 0 < BitVec.toInt (16383#32) ∧
      ¬ FiresOnTick (run (timerCreateTimer 0) [.timerUpdate]) 16383 7 0 := by
  have hT : Reachable (run (timerCreateTimer 0) [.timerUpdate]) := ⟨0, _, rfl⟩
  have hnow : (run (timerCreateTimer 0) [.timerUpdate]).time = 1 := (timerUpdate_frame _).1
  refine ⟨hT, by decide, not_firesOnTick_of_parked hT (by decide) ?_⟩
  rw [parked_slotOf_iff, hnow]
  decide

end LearningCode.TimeWheel
