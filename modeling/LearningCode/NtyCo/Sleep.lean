import LearningCode.NtyCo.Links

/-!
# What `nty_coroutine_sleep` promises

With 0 it puts the coroutine at the end of the ready queue and yields, so whatever was
in the queue has its turn first. With a time it only links the coroutine into
`sleeping`: the call returns at once.
-/

namespace LearningCode.NtyCo

open Transition Schedule

variable {s s' t : Schedule} {p q : Ptr} {ret : Pc} {i : Action} {l : List Action}
  {msecs now : UInt64}

/-- On the way it ran, or the scheduler freed it, as its descriptor had hung up. -/
def HadTurn (s : Schedule) (l : List Action) (q : Ptr) : Prop :=
  ∃ l₁ l₂ t, l = l₁ ++ l₂ ∧ coroutines.Path s l₁ t ∧ (t.currThread = some q ∨ t.heap q = none)

structure SleepKept (now : UInt64) (l : List Action) : Prop where
  /-- After a call, the coroutine runs again when the other ready ones have had a turn and
  the time is over. -/
  returns : ∀ l₁ msecs l₂ l₃ s s' t p, l = l₁ ++ .sleep msecs :: (l₂ ++ l₃) →
    coroutines.Path (fresh now) l₁ s → s.currThread = some p →
    step s (.sleep msecs) = some s' → coroutines.Path s' l₂ t → t.currThread = some p →
    (∀ q ∈ s.ready, q ≠ p → HadTurn s' l₂ q) ∧
      (msecs ≠ 0 → s.now.toNat + msecs.toNat * 1000 ≤ t.now.toNat)
  /-- What a coroutine calls leaves the others in the tree. -/
  entries : ∀ l₁ i l₂ s s' p, l = l₁ ++ i :: l₂ → coroutines.Path (fresh now) l₁ s →
    s.currThread = some p → step s i = some s' → ∀ q ∈ s.sleeping, q ≠ p → q ∈ s'.sleeping

def Before (q p : Ptr) (l : List Ptr) : Prop := ∃ a b c, l = a ++ q :: b ++ p :: c

-- ---------------------------------------------------------------------------
-- The call with a time
-- ---------------------------------------------------------------------------

theorem step_sleep (h : step s (.sleep msecs) = some s') :
    ∃ p ret, s.currThread = some p ∧ ntyCoroutineSleep s p msecs ret = some s' := by
  unfold step at h
  split at h
  · cases h
  · split at h
    any_goals contradiction
    exact ⟨_, _, by assumption, h⟩

theorem insertSleep_cases {co : Coroutine} {fuel : Nat} {usecs : UInt64}
    (h : insertSleep s p co fuel usecs = some s') :
    s'.currThread = s.currThread ∧ s'.now = s.now ∧ s'.sleeping = p :: s.sleeping := by
  induction fuel generalizing usecs with
  | zero => cases h
  | succ fuel ih =>
    rw [insertSleep] at h
    split at h
    · exact ih h
    · obtain rfl := Option.some.inj h
      exact ⟨rfl, rfl, rfl⟩

/-- It is the entry with the key of the last sleep that goes, whosever it is. -/
theorem schedSleepdown_cases (hmsecs : msecs ≠ 0)
    (h : ntyScheduleSchedSleepdown s p msecs = some s') :
    s'.currThread = s.currThread ∧ s'.now = s.now ∧ ∃ co, s.heap p = some co ∧
      s'.sleeping = p :: (s.rbFindSleep co.sleepUsecs).elim s.sleeping s.sleeping.erase := by
  simp only [ntyScheduleSchedSleepdown, Option.bind_eq_bind, Option.bind_eq_some_iff,
    if_pos hmsecs] at h
  obtain ⟨co, hco, h⟩ := h
  obtain ⟨hcurr, hnow, hsleeping⟩ := insertSleep_cases h
  refine ⟨hcurr.trans ?_, hnow.trans ?_, co, hco, hsleeping.trans ?_⟩
  · cases s.rbFindSleep co.sleepUsecs <;> simp
  · cases s.rbFindSleep co.sleepUsecs <;> simp
  · cases hfind : s.rbFindSleep co.sleepUsecs with
    | none => rfl
    | some q =>
      have hmem : q ∈ s.sleeping := List.mem_of_find?_eq_some hfind
      simp [rbRemoveSleep, hmem]

theorem sleep_returns (hmsecs : msecs ≠ 0) (hcurr : s.currThread = some p)
    (h : step s (.sleep msecs) = some s') : s'.currThread = some p ∧ s'.now = s.now := by
  obtain ⟨q, ret, hq, hsleep⟩ := step_sleep h
  obtain rfl := Option.some.inj (hcurr.symm.trans hq)
  rw [ntyCoroutineSleep, if_neg hmsecs] at hsleep
  obtain ⟨hsame, hnow, -⟩ := schedSleepdown_cases hmsecs hsleep
  exact ⟨hsame.trans hcurr, hnow⟩

-- ---------------------------------------------------------------------------
-- The ready queue
-- ---------------------------------------------------------------------------

theorem deschedWait_frame {fd : Int} (h : ntyScheduleDeschedWait s fd = some s') :
    s'.ready = s.ready ∧ s'.currThread = s.currThread := by
  simp only [ntyScheduleDeschedWait, ntyScheduleDeschedSleepdown, Option.bind_eq_bind,
    Option.bind_eq_some_iff] at h
  obtain ⟨p, -, co, -, co', -, h⟩ := h
  split at h
  · obtain rfl := Option.some.inj h
    simp
  · obtain rfl := Option.some.inj h
    simp

theorem resume_frame (h : ntyCoroutineResume s p ret = some s') :
    s'.ready = s.ready ∧ s'.currThread = some p := by
  obtain ⟨co, co', -, -, ⟨-, rfl⟩ | ⟨fd, -, hdesched⟩⟩ := ntyCoroutineResume_cases h
  · exact ⟨rfl, rfl⟩
  · exact deschedWait_frame hdesched

theorem free_ready (s : Schedule) (p : Ptr) : (ntyCoroutineFree s p).ready = s.ready := by
  unfold ntyCoroutineFree
  split <;> rfl

theorem yield_ready {point : Point} (h : ntyCoroutineYield s p point ret = some s') :
    s'.ready = s.ready := by
  obtain ⟨co, -, ⟨-, rfl⟩ | ⟨-, rfl⟩⟩ := ntyCoroutineYield_cases h
  · exact free_ready ..
  · rfl

theorem create_ready (h : ntyCoroutineCreate s p = some s') :
    ∃ l, s'.ready = s.ready ++ l := by
  obtain ⟨-, rfl⟩ := ntyCoroutineCreate_cases h
  unfold tailqInsertTail
  split
  · exact ⟨[], (List.append_nil _).symm⟩
  · exact ⟨[p], rfl⟩

theorem sleep_ready (h : Inv s) (hcurr : s.currThread = some p)
    (hstep : ntyCoroutineSleep s p 0 ret = some s') : s'.ready = s.ready ++ [p] := by
  have hready : p ∉ s.ready := fun hmem => (h.running p hcurr).1 (List.mem_append_left _ hmem)
  rw [ntyCoroutineSleep, if_pos rfl, tailqInsertTail_of_not_mem hready] at hstep
  exact yield_ready hstep

theorem body_ready (h : Inv s) (hguard : Unslept s i) (hcurr : s.currThread = some p)
    (hstep : body s p ret i = some s') : ∃ l, s'.ready = s.ready ++ l := by
  cases i with
  | create q => exact create_ready hstep
  | sleep msecs =>
    obtain rfl := hguard msecs rfl
    exact ⟨[p], sleep_ready h hcurr hstep⟩
  | wait call fd added =>
    obtain ⟨co, state, epfd, -, -, hyield⟩ := ntyEpollInner_cases hstep
    exact ⟨[], (yield_ready hyield).trans (List.append_nil _).symm⟩
  | exit =>
    simp only [body, execEnd, Option.bind_eq_bind, Option.bind_eq_some_iff] at hstep
    obtain ⟨co, -, hyield⟩ := hstep
    exact ⟨[], (yield_ready hyield).trans (List.append_nil _).symm⟩
  | _ => cases hstep

theorem readyTurn_ready (h : Inv s) {last : Option Ptr} (hstep : readyTurn s last = some s') :
    s'.ready = s.ready ∨
      ∃ q, s.ready = q :: s'.ready ∧ (s'.currThread = some q ∨ s'.heap q = none) := by
  unfold readyTurn at hstep
  split at hstep
  · obtain rfl := Option.some.inj hstep
    exact .inl rfl
  · next q rest hready =>
    simp only [Option.bind_eq_bind, Option.bind_eq_some_iff] at hstep
    obtain ⟨co, hco, hstep⟩ := hstep
    split at hstep
    · obtain rfl := Option.some.inj hstep
      have hnodup := h.nodup
      rw [hready, List.cons_append, List.nodup_cons] at hnodup
      rw [free_unlinked (s := { s with ready := rest }) h.asleep hnodup.1]
      exact .inr ⟨q, hready, .inr (Function.update_self ..)⟩
    · obtain ⟨hrest, hcurr⟩ := resume_frame hstep
      exact .inr ⟨q, hready.trans (congrArg _ hrest.symm), .inl hcurr⟩

theorem step_ready (h : Inv s) (hguard : Unslept s i) (hstep : step s i = some s') :
    (∃ l, s'.ready = s.ready ++ l) ∨
      ∃ q, s.ready = q :: s'.ready ∧ (s'.currThread = some q ∨ s'.heap q = none) := by
  have hkept {s' : Schedule} (hsame : s'.ready = s.ready) : ∃ l, s'.ready = s.ready ++ l :=
    ⟨[], hsame.trans (List.append_nil _).symm⟩
  obtain ⟨now, pc, rfl, -⟩ | ⟨p, hstep⟩ | hstep | ⟨p, ret, hcurr, hstep⟩ := step_cases hstep
  · exact .inl (hkept rfl)
  · exact .inl (create_ready hstep)
  · obtain ⟨-, ⟨pc, rfl⟩ | ⟨p, hmin, -⟩ | ⟨last, hstep⟩ | ⟨fd, isEof, rest, hstep⟩⟩ :=
      schedule_cases hstep
    · exact .inl (hkept rfl)
    · have hmem := List.mem_of_find?_eq_some hmin
      rw [h.asleep] at hmem
      cases hmem
    · exact (readyTurn_ready h hstep).imp_left hkept
    · obtain ⟨p, co, status, -, -, -, hres⟩ := eventTurn_cases hstep
      exact .inl (hkept (resume_frame hres).1)
  · exact .inl (body_ready h hguard hcurr hstep)

-- ---------------------------------------------------------------------------
-- The call with 0
-- ---------------------------------------------------------------------------

theorem Before.mem {l : List Ptr} (h : Before q p l) : p ∈ l := by
  obtain ⟨a, b, c, rfl⟩ := h
  simp

theorem HadTurn.cons (hstep : step s i = some s') (h : HadTurn s' l q) : HadTurn s (i :: l) q := by
  obtain ⟨l₁, l₂, t, rfl, hpath, hturn⟩ := h
  exact ⟨i :: l₁, l₂, t, rfl, .cons hstep hpath, hturn⟩

theorem before_step (h : Inv s) (hguard : Unslept s i) (hstep : step s i = some s')
    (hbefore : Before q p s.ready) : Before q p s'.ready ∨ HadTurn s [i] q := by
  obtain ⟨a, b, c, hready⟩ := hbefore
  obtain ⟨l, hl⟩ | ⟨r, hr, hturn⟩ := step_ready h hguard hstep
  · refine .inl ⟨a, b, c ++ l, ?_⟩
    rw [hl, hready]
    simp
  · rw [hready] at hr
    cases a with
    | nil =>
      obtain ⟨rfl, -⟩ := List.cons.inj hr
      exact .inr ⟨[i], [], s', rfl, .cons hstep (.nil s'), hturn⟩
    | cons r' a =>
      obtain ⟨-, hrest⟩ := List.cons.inj hr
      exact .inl ⟨a, b, c, hrest.symm⟩

theorem hadTurn_of_before (h : Inv s) (hpath : coroutines.Path s l t)
    (hguard : ∀ i ∈ l, ∀ t, Unslept t i) (hbefore : Before q p s.ready)
    (hcurr : t.currThread = some p) : HadTurn s l q := by
  induction hpath with
  | nil s => exact absurd (List.mem_append_left _ hbefore.mem) (h.running p hcurr).1
  | @cons s s' t i l hstep hpath ih =>
    have hi := hguard i List.mem_cons_self s
    obtain hnext | hturn := before_step h hi hstep hbefore
    · exact (ih (h.step hi hstep) (fun j hj => hguard j (List.mem_cons_of_mem _ hj)) hnext
        hcurr).cons hstep
    · obtain ⟨l₁, l₂, t', hl, hpath', hturn⟩ := hturn
      exact ⟨l₁, l₂ ++ l, t', by rw [← List.append_assoc, ← hl]; rfl, hpath', hturn⟩

theorem Inv.path (hpath : coroutines.Path (fresh now) l s) (hguard : ∀ i ∈ l, ∀ t, Unslept t i) :
    Inv s := .reach (Reach.path (.init ⟨now, rfl⟩) hpath hguard)

theorem sleepKept_of_unslept (hguard : ∀ i ∈ l, ∀ t, Unslept t i) : SleepKept now l := by
  refine ⟨?_, ?_⟩
  · rintro l₁ msecs l₂ l₃ s s' t p rfl hpath hcurr hstep hlater hrun
    have hs : Inv s := Inv.path hpath fun i hi => hguard i (List.mem_append_left _ hi)
    have hcall := hguard (.sleep msecs) (by simp)
    obtain rfl := hcall s msecs rfl
    refine ⟨fun q hq _ => ?_, fun hne => absurd rfl hne⟩
    obtain ⟨p', ret, hp', hsleep⟩ := step_sleep hstep
    obtain rfl := Option.some.inj (hcurr.symm.trans hp')
    obtain ⟨a, b, hab⟩ := List.append_of_mem hq
    have hbefore : Before q p s'.ready := ⟨a, b, [], by rw [sleep_ready hs hcurr hsleep, hab]⟩
    exact hadTurn_of_before (hs.step (hcall s) hstep) hlater (fun i hi => hguard i (by simp [hi]))
      hbefore hrun
  · rintro l₁ i l₂ s s' p rfl hpath hcurr hstep q hq
    have hs : Inv s := Inv.path hpath fun i hi => hguard i (List.mem_append_left _ hi)
    rw [hs.asleep] at hq
    cases hq

/-- The promises are kept if and only if all the calls are with 0. -/
theorem sleep_kept_iff (h : coroutines.Path (fresh now) l s) :
    SleepKept now l ↔ ∀ msecs, .sleep msecs ∈ l → msecs = 0 := by
  constructor
  · intro hkept msecs hmem
    by_contra hmsecs
    obtain ⟨l₁, l₂, rfl⟩ := List.append_of_mem hmem
    obtain ⟨t, t', hbefore, hstep, -⟩ := h.split
    obtain ⟨p, ret, hcurr, -⟩ := step_sleep hstep
    obtain ⟨hrun, hnow⟩ := sleep_returns hmsecs hcurr hstep
    have hlate := (hkept.returns l₁ msecs [] l₂ t t' t' p rfl hbefore hcurr hstep (.nil t') hrun).2
      hmsecs
    have hpos : 0 < msecs.toNat := Nat.pos_of_ne_zero fun hzero => hmsecs (UInt64.toNat.inj hzero)
    rw [hnow] at hlate
    omega
  · intro hzero
    exact sleepKept_of_unslept fun i hi t msecs heq => hzero msecs (heq ▸ hi)

/-- Two coroutines, one of which sleeps for 0 before it returns. -/
theorem sleep_kept_iff_two : SleepKept 0 [.create 1, .create 2, .run, .schedule, .schedule, .schedule,
    .sleep 0, .schedule, .exit, .epoll [], .schedule, .schedule, .schedule, .schedule, .exit] := by
  have hpath : ∃ s, coroutines.Path (fresh 0) [.create 1, .create 2, .run, .schedule, .schedule,
      .schedule, .sleep 0, .schedule, .exit, .epoll [], .schedule, .schedule, .schedule, .schedule,
      .exit] s :=
    ⟨_, .cons rfl <| .cons rfl <| .cons rfl <| .cons rfl <| .cons rfl <| .cons rfl <| .cons rfl <|
      .cons rfl <| .cons rfl <| .cons rfl <| .cons rfl <| .cons rfl <| .cons rfl <| .cons rfl <|
      .cons rfl <| .nil _⟩
  obtain ⟨s, hpath⟩ := hpath
  refine (sleep_kept_iff hpath).mpr fun msecs hmem => ?_
  simpa using hmem

/-- `nty_coroutine_sleep(10)`, and the coroutine goes on. -/
theorem sleep_too_short : ¬ ∀ l s, coroutines.Path (fresh 0) l s → SleepKept 0 l := by
  intro h
  obtain ⟨s, hstep⟩ : ∃ s, step firstTurn (.sleep 10) = some s := ⟨_, rfl⟩
  have hcurr : firstTurn.currThread = some 1 := rfl
  have hrun : coroutines.Path (fresh 0)
      [.create 1, .run, .schedule, .schedule, .schedule, .sleep 10] s := path_firstTurn.snoc hstep
  obtain ⟨hcurr', hnow⟩ := sleep_returns (by decide) hcurr hstep
  have hlate := ((h _ s hrun).returns [.create 1, .run, .schedule, .schedule, .schedule] 10 [] []
    firstTurn s s 1 rfl path_firstTurn hcurr hstep (.nil s) hcurr').2 (by decide)
  have hten : (10 : UInt64).toNat = 10 := rfl
  rw [hnow] at hlate
  omega

end LearningCode.NtyCo
