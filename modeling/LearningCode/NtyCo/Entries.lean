import LearningCode.NtyCo.Model

/-!
# Where coroutines go on

`nty_schedule_sched_wait` ORs `NTY_COROUTINE_STATUS_WAIT_WRITE`, which is 3, to the status,
and bit 0 of it is that of `NTY_COROUTINE_STATUS_NEW`. Where no coroutine waits to write, the
bit is set at most until the first resume, and the context is that of the last yield.
-/

namespace LearningCode.NtyCo

open Transition Schedule

variable {s s' : Schedule} {p q : Ptr} {co co' : Coroutine} {ret : Pc} {n : Nat} {l : List Event}

def Resumed (n : Nat) (l : List Event) : Prop := ∃ point, .resume n point ∈ l

def lastYield (n : Nat) : List Event → Option Point
  | [] => none
  | .resume _ _ :: l => lastYield n l
  | .yield m point :: l => if m = n then some point else lastYield n l

/-- The first resume of a coroutine enters `_exec`, and every other one goes on where it yielded. -/
def Continues : List Event → Prop
  | [] => True
  | .resume n point :: l =>
    (point = .exec ↔ ¬ Resumed n l) ∧ (Resumed n l → lastYield n l = some point) ∧ Continues l
  | .yield _ _ :: l => Continues l

def New (co : Coroutine) : Prop := has co.status NTY_COROUTINE_STATUS_NEW

structure StartsOnce (s : Schedule) : Prop where
  continues : Continues s.log
  new : ∀ p co, s.heap p = some co → New co → ¬ Resumed co.serial s.log

def ReadOnly (_ : Schedule) (i : Action) : Prop :=
  ∀ call fd added, i = .wait call fd added → call.events &&& POLLIN ≠ 0

def Event.serial : Event → Nat
  | .resume n _ => n
  | .yield n _ => n

@[simp] theorem resumed_resume {m : Nat} {point : Point} :
    Resumed n (.resume m point :: l) ↔ n = m ∨ Resumed n l := by
  simp only [Resumed, List.mem_cons, Event.resume.injEq]
  constructor
  · rintro ⟨_, ⟨rfl, -⟩ | h⟩
    · exact .inl rfl
    · exact .inr ⟨_, h⟩
  · rintro (rfl | ⟨_, h⟩)
    · exact ⟨_, .inl ⟨rfl, rfl⟩⟩
    · exact ⟨_, .inr h⟩

@[simp] theorem resumed_yield {m : Nat} {point : Point} :
    Resumed n (.yield m point :: l) ↔ Resumed n l := by
  simp [Resumed]

structure Entered (s : Schedule) : Prop where
  serial : ∀ p co, s.heap p = some co → co.serial < s.serials
  logged : ∀ e ∈ s.log, e.serial < s.serials
  apart : ∀ p q co co', s.heap p = some co → s.heap q = some co' → co.serial = co'.serial → p = q
  new : ∀ p co, s.heap p = some co → New co → ¬ Resumed co.serial s.log
  saved : ∀ p co, s.heap p = some co → ¬ New co → s.currThread ≠ some p →
    Resumed co.serial s.log ∧ lastYield co.serial s.log = some co.ctx ∧ co.ctx ≠ .exec
  waiting : ∀ p ∈ s.waiting, ∃ co, s.heap p = some co ∧ ¬ New co
  running : ∀ p, s.currThread = some p →
    (∃ co, s.heap p = some co ∧ ¬ New co ∧ Resumed co.serial s.log) ∧ ∃ ret, s.pc = .running ret
  continues : Continues s.log

theorem Entered.startsOnce (h : Entered s) : StartsOnce s := ⟨h.continues, h.new⟩

theorem Entered.congr (h : Entered s) (hheap : s'.heap = s.heap) (hserials : s'.serials = s.serials)
    (hlog : s'.log = s.log) (hwaiting : s'.waiting = s.waiting)
    (hcurr : s'.currThread = s.currThread) (hpc : s'.pc = s.pc ∨ s.currThread = none) :
    Entered s' := by
  refine ⟨?_, ?_, ?_, ?_, ?_, ?_, ?_, hlog ▸ h.continues⟩
  · rw [hheap, hserials]
    exact h.serial
  · rw [hlog, hserials]
    exact h.logged
  · rw [hheap]
    exact h.apart
  · rw [hheap, hlog]
    exact h.new
  · rw [hheap, hlog, hcurr]
    exact h.saved
  · rw [hheap, hwaiting]
    exact h.waiting
  · rcases hpc with hpc | hnone
    · rw [hheap, hlog, hcurr, hpc]
      exact h.running
    · rw [hcurr, hnone]
      nofun

structure Same (co co' : Coroutine) : Prop where
  serial : co'.serial = co.serial
  ctx : co'.ctx = co.ctx
  new : New co' ↔ New co

theorem Entered.put (h : Entered s) (hco : s.heap p = some co) (hsame : Same co co') :
    Entered (s.put p co') := by
  have hother {q : Ptr} {c : Coroutine} (hq : (s.put p co').heap q = some c) :
      ∃ c', s.heap q = some c' ∧ Same c' c := by
    rcases heap_put_cases hq with ⟨rfl, rfl⟩ | ⟨-, hq⟩
    · exact ⟨co, hco, hsame⟩
    · exact ⟨c, hq, ⟨rfl, rfl, .rfl⟩⟩
  have hold {q : Ptr} {c : Coroutine} (hq : s.heap q = some c) :
      ∃ c', (s.put p co').heap q = some c' ∧ Same c c' := by
    rw [heap_put]
    rcases eq_or_ne q p with rfl | hne
    · obtain rfl := Option.some.inj (hco.symm.trans hq)
      exact ⟨co', Function.update_self .., hsame⟩
    · exact ⟨c, by rwa [Function.update_of_ne hne], ⟨rfl, rfl, .rfl⟩⟩
  refine ⟨fun q c hq => ?_, h.logged, fun q r c d hq hr hserial => ?_, fun q c hq hnew => ?_,
    fun q c hq hnew hcurr => ?_, fun q hq => ?_, fun q hq => ?_, h.continues⟩
  · obtain ⟨c', hc', hs⟩ := hother hq
    exact hs.serial ▸ h.serial q c' hc'
  · obtain ⟨c', hc', hs⟩ := hother hq
    obtain ⟨d', hd', ht⟩ := hother hr
    exact h.apart q r c' d' hc' hd' (hs.serial.symm.trans (hserial.trans ht.serial))
  · obtain ⟨c', hc', hs⟩ := hother hq
    exact hs.serial ▸ h.new q c' hc' (hs.new.mp hnew)
  · obtain ⟨c', hc', hs⟩ := hother hq
    rw [hs.serial, hs.ctx]
    exact h.saved q c' hc' (fun hn => hnew (hs.new.mpr hn)) hcurr
  · obtain ⟨c, hc, hnew⟩ := h.waiting q hq
    obtain ⟨c', hc', hs⟩ := hold hc
    exact ⟨c', hc', fun hn => hnew (hs.new.mp hn)⟩
  · obtain ⟨⟨c, hc, hnew, hres⟩, hpc⟩ := h.running q hq
    obtain ⟨c', hc', hs⟩ := hold hc
    exact ⟨⟨c', hc', fun hn => hnew (hs.new.mp hn), hs.serial ▸ hres⟩, hpc⟩

-- ---------------------------------------------------------------------------
-- Resuming and yielding
-- ---------------------------------------------------------------------------

theorem new_init (co : Coroutine) : ¬ New (ntyCoroutineInit co) := by
  have hready : ¬ has (BIT NTY_COROUTINE_STATUS_READY) NTY_COROUTINE_STATUS_NEW := by decide
  exact hready

theorem Entered.switch (h : Entered s) (hcurr : s.currThread = none) (hco : s.heap p = some co)
    (hserial : co'.serial = co.serial) (hnew : ¬ New co')
    (hctx : New co ∧ co'.ctx = .exec ∨ ¬ New co ∧ co'.ctx = co.ctx) :
    Entered (s.switch p co' ret) := by
  have hheap : (s.switch p co' ret).heap = Function.update s.heap p (some co') := rfl
  have hlog : (s.switch p co' ret).log = .resume co.serial co'.ctx :: s.log := by
    rw [← hserial]
    rfl
  have hother {q : Ptr} {c : Coroutine} (hq : (s.switch p co' ret).heap q = some c) :
      q = p ∧ c = co' ∨ q ≠ p ∧ s.heap q = some c := heap_put_cases hq
  have hold {q : Ptr} {c : Coroutine} (hq : (s.switch p co' ret).heap q = some c) :
      ∃ c', s.heap q = some c' ∧ c'.serial = c.serial := by
    rcases hother hq with ⟨rfl, rfl⟩ | ⟨-, hq⟩
    · exact ⟨co, hco, hserial.symm⟩
    · exact ⟨c, hq, rfl⟩
  refine ⟨fun q c hq => ?_, fun e he => ?_, fun q r c d hq hr heq => ?_, fun q c hq hn => ?_,
    fun q c hq hn hne => ?_, fun q hq => ?_, fun q hq => ?_, ?_⟩
  · obtain ⟨c', hc', hs⟩ := hold hq
    exact hs ▸ h.serial q c' hc'
  · rw [hlog] at he
    rcases List.mem_cons.mp he with rfl | he
    · exact h.serial p co hco
    · exact h.logged e he
  · obtain ⟨c', hc', hs⟩ := hold hq
    obtain ⟨d', hd', ht⟩ := hold hr
    exact h.apart q r c' d' hc' hd' (hs.trans (heq.trans ht.symm))
  · rcases hother hq with ⟨rfl, rfl⟩ | ⟨hne, hq⟩
    · exact absurd hn hnew
    · rw [hlog, resumed_resume, not_or]
      exact ⟨fun heq => hne (h.apart q p c co hq hco heq), h.new q c hq hn⟩
  · rcases hother hq with ⟨rfl, rfl⟩ | ⟨-, hq⟩
    · exact absurd rfl hne
    · obtain ⟨hres, hlast⟩ := h.saved q c hq hn (by simp [hcurr])
      rw [hlog, resumed_resume]
      exact ⟨.inr hres, hlast⟩
  · rw [hheap]
    rcases eq_or_ne q p with rfl | hne
    · exact ⟨co', Function.update_self .., hnew⟩
    · rw [Function.update_of_ne hne]
      exact h.waiting q hq
  · obtain rfl : p = q := Option.some.inj hq
    refine ⟨⟨co', Function.update_self .., hnew, ?_⟩, ret, rfl⟩
    rw [hlog, resumed_resume]
    exact .inl hserial
  · rw [hlog]
    rcases hctx with ⟨hn, hexec⟩ | ⟨hn, hctx⟩
    · have hfirst := h.new p co hco hn
      exact ⟨iff_of_true hexec hfirst, fun hres => absurd hres hfirst, h.continues⟩
    · obtain ⟨hres, hlast, hexec⟩ := h.saved p co hco hn (by simp [hcurr])
      rw [hctx]
      exact ⟨iff_of_false hexec (not_not_intro hres), fun _ => hlast, h.continues⟩

theorem Entered.back (h : Entered s) (hcurr : s.currThread = some p) (hco : s.heap p = some co)
    {point : Point} (hpoint : point ≠ .exec) : Entered (s.back p co point ret) := by
  have hlog : (s.back p co point ret).log = .yield co.serial point :: s.log := rfl
  have hother {q : Ptr} {c : Coroutine} (hq : (s.back p co point ret).heap q = some c) :
      q = p ∧ c = { co with ctx := point } ∨ q ≠ p ∧ s.heap q = some c := heap_put_cases hq
  have hold {q : Ptr} {c : Coroutine} (hq : (s.back p co point ret).heap q = some c) :
      ∃ c', s.heap q = some c' ∧ c'.serial = c.serial ∧ (New c ↔ New c') := by
    rcases hother hq with ⟨rfl, rfl⟩ | ⟨-, hq⟩
    · exact ⟨co, hco, rfl, .rfl⟩
    · exact ⟨c, hq, rfl, .rfl⟩
  refine ⟨fun q c hq => ?_, fun e he => ?_, fun q r c d hq hr heq => ?_, fun q c hq hn => ?_,
    fun q c hq hn _ => ?_, fun q hq => ?_, nofun, h.continues⟩
  · obtain ⟨c', hc', hs, -⟩ := hold hq
    exact hs ▸ h.serial q c' hc'
  · rcases List.mem_cons.mp he with rfl | he
    · exact h.serial p co hco
    · exact h.logged e he
  · obtain ⟨c', hc', hs, -⟩ := hold hq
    obtain ⟨d', hd', ht, -⟩ := hold hr
    exact h.apart q r c' d' hc' hd' (hs.trans (heq.trans ht.symm))
  · obtain ⟨c', hc', hs, hiff⟩ := hold hq
    rw [hlog, resumed_yield, ← hs]
    exact h.new q c' hc' (hiff.mp hn)
  · rw [hlog, resumed_yield]
    rcases hother hq with ⟨rfl, rfl⟩ | ⟨hne, hq⟩
    · obtain ⟨⟨c, hc, -, hres⟩, -⟩ := h.running q hcurr
      obtain rfl := Option.some.inj (hco.symm.trans hc)
      exact ⟨hres, if_pos rfl, hpoint⟩
    · obtain ⟨hres, hlast, hexec⟩ := h.saved q c hq hn fun heq =>
        hne (Option.some.inj (heq.symm.trans hcurr))
      refine ⟨hres, ?_, hexec⟩
      rw [lastYield, if_neg fun heq => hne (h.apart q p c co hq hco heq.symm), hlast]
  · obtain ⟨c, hc, hn⟩ := h.waiting q hq
    rcases eq_or_ne q p with rfl | hne
    · obtain rfl := Option.some.inj (hco.symm.trans hc)
      exact ⟨_, Function.update_self .., hn⟩
    · exact ⟨c, (Function.update_of_ne hne ..).trans hc, hn⟩

theorem Entered.free (h : Entered s) (hcurr : s.currThread = none) :
    Entered (ntyCoroutineFree s p) := by
  unfold ntyCoroutineFree
  split
  · exact h.congr rfl rfl rfl rfl rfl (.inl rfl)
  · next hnot =>
    refine ⟨fun q c hq => h.serial q c (heap_of_freed hq), h.logged,
      fun q r c d hq hr => h.apart q r c d (heap_of_freed hq) (heap_of_freed hr),
      fun q c hq => h.new q c (heap_of_freed hq), fun q c hq => h.saved q c (heap_of_freed hq),
      fun q hq => ?_, fun q hq => by simp [hcurr] at hq, h.continues⟩
    have hne : q ≠ p := fun heq => hnot (.inr (.inr (heq ▸ hq)))
    obtain ⟨c, hc, hn⟩ := h.waiting q hq
    exact ⟨c, (Function.update_of_ne hne ..).trans hc, hn⟩

theorem Entered.tailqInsertTail (h : Entered s) (p : Ptr) : Entered (s.tailqInsertTail p) := by
  unfold Schedule.tailqInsertTail
  split <;> exact h.congr rfl rfl rfl rfl rfl (.inl rfl)

theorem Entered.create (h : Entered s) (hstep : ntyCoroutineCreate s p = some s') : Entered s' := by
  obtain ⟨hnone, rfl⟩ := ntyCoroutineCreate_cases hstep
  refine Entered.tailqInsertTail ?_ p
  have hnew : has (BIT NTY_COROUTINE_STATUS_NEW) NTY_COROUTINE_STATUS_NEW := by decide
  have hne {q : Ptr} {c : Coroutine} (hq : s.heap q = some c) : q ≠ p := by
    rintro rfl
    simp [hnone] at hq
  have hkeep {q : Ptr} {c : Coroutine} (hq : s.heap q = some c) :
      Function.update s.heap p (some ⟨.zero, BIT NTY_COROUTINE_STATUS_NEW, -1, 0, 0, s.serials⟩) q =
        some c := (Function.update_of_ne (hne hq) ..).trans hq
  refine ⟨fun q c hq => ?_, fun e he => Nat.lt_succ_of_lt (h.logged e he), fun q r c d hq hr heq => ?_,
    fun q c hq hn => ?_, fun q c hq hn hcurr => ?_, fun q hq => ?_, fun q hq => ?_, h.continues⟩
  · rcases heap_put_cases hq with ⟨-, rfl⟩ | ⟨-, hq⟩
    · exact Nat.lt_succ_self _
    · exact Nat.lt_succ_of_lt (h.serial q c hq)
  · rcases heap_put_cases hq with ⟨hqp, rfl⟩ | ⟨-, hq'⟩ <;>
      rcases heap_put_cases hr with ⟨hrp, rfl⟩ | ⟨-, hr'⟩
    · exact hqp.trans hrp.symm
    · exact absurd heq.symm (Nat.ne_of_lt (h.serial r d hr'))
    · exact absurd heq (Nat.ne_of_lt (h.serial q c hq'))
    · exact h.apart q r c d hq' hr' heq
  · rcases heap_put_cases hq with ⟨rfl, rfl⟩ | ⟨-, hq⟩
    · rintro ⟨point, hmem⟩
      exact Nat.lt_irrefl _ (h.logged _ hmem)
    · exact h.new q c hq hn
  · rcases heap_put_cases hq with ⟨rfl, rfl⟩ | ⟨-, hq⟩
    · exact absurd hnew hn
    · exact h.saved q c hq hn hcurr
  · obtain ⟨c, hc, hn⟩ := h.waiting q hq
    exact ⟨c, hkeep hc, hn⟩
  · obtain ⟨⟨c, hc, hn⟩, hpc⟩ := h.running q hq
    exact ⟨⟨c, hkeep hc, hn⟩, hpc⟩

-- ---------------------------------------------------------------------------
-- What a coroutine calls
-- ---------------------------------------------------------------------------

theorem Same.status (co : Coroutine) (status : BitVec 32)
    (h : has status NTY_COROUTINE_STATUS_NEW = has co.status NTY_COROUTINE_STATUS_NEW) :
    Same co { co with status := status } :=
  ⟨rfl, rfl, by simp only [New, h]⟩

theorem Entered.rbRemoveSleep (h : Entered s) (p : Ptr) : Entered (s.rbRemoveSleep p) := by
  unfold Schedule.rbRemoveSleep
  split <;> exact h.congr rfl rfl rfl rfl rfl (.inl rfl)

theorem Entered.rbRemoveWait (h : Entered s) (p : Ptr) : Entered (s.rbRemoveWait p) := by
  unfold Schedule.rbRemoveWait
  split
  · exact ⟨h.serial, h.logged, h.apart, h.new, h.saved,
      fun q hq => h.waiting q (List.mem_of_mem_erase hq), h.running, h.continues⟩
  · exact h.congr rfl rfl rfl rfl rfl (.inl rfl)

theorem Entered.deschedSleepdown (h : Entered s) (hstep : ntyScheduleDeschedSleepdown s p = some s') :
    Entered s' := by
  simp only [ntyScheduleDeschedSleepdown, Option.bind_eq_bind, Option.bind_eq_some_iff] at hstep
  obtain ⟨co, hco, hstep⟩ := hstep
  split at hstep
  · obtain rfl := Option.some.inj hstep
    have hbit : has (CLEARBIT NTY_COROUTINE_STATUS_SLEEPING) NTY_COROUTINE_STATUS_NEW := by decide
    exact (h.rbRemoveSleep p).put (by rwa [heap_rbRemoveSleep]) (Same.status co _ (by simp [hbit]))
  · obtain rfl := Option.some.inj hstep
    exact h

theorem Entered.deschedWait (h : Entered s) {fd : Int}
    (hstep : ntyScheduleDeschedWait s fd = some s') : Entered s' := by
  simp only [ntyScheduleDeschedWait, Option.bind_eq_bind, Option.bind_eq_some_iff] at hstep
  obtain ⟨p, -, co, hco, hstep⟩ := hstep
  have hread : has (CLEARBIT NTY_COROUTINE_STATUS_WAIT_READ) NTY_COROUTINE_STATUS_NEW := by decide
  have hwrite : has (CLEARBIT NTY_COROUTINE_STATUS_WAIT_WRITE) NTY_COROUTINE_STATUS_NEW := by decide
  exact ((h.rbRemoveWait p).put hco (Same.status co _ (by simp [hread, hwrite]))).deschedSleepdown
    hstep

theorem Entered.resume (h : Entered s) (hcurr : s.currThread = none)
    (hres : ntyCoroutineResume s p ret = some s') : Entered s' := by
  obtain ⟨co, co', hco, rfl, hres⟩ := ntyCoroutineResume_cases hres
  have hswitch : Entered (s.switch p
      (if has co.status NTY_COROUTINE_STATUS_NEW then ntyCoroutineInit co else co) ret) := by
    split
    · next hnew => exact h.switch hcurr hco rfl (new_init co) (.inl ⟨hnew, rfl⟩)
    · next hnew => exact h.switch hcurr hco rfl hnew (.inr ⟨hnew, rfl⟩)
  rcases hres with ⟨-, rfl⟩ | ⟨fd, -, hdesched⟩
  · exact hswitch
  · refine Entered.deschedWait ?_ hdesched
    exact hswitch.congr rfl rfl rfl rfl rfl (.inl rfl)

theorem Entered.yield (h : Entered s) (hcurr : s.currThread = some p) {point : Point}
    (hstep : ntyCoroutineYield s p point ret = some s') (hpoint : point ≠ .exec) : Entered s' := by
  obtain ⟨co, hco, hstep⟩ := ntyCoroutineYield_cases hstep
  have hback : Entered (s.back p co point ret) := h.back hcurr hco hpoint
  rcases hstep with ⟨-, rfl⟩ | ⟨-, rfl⟩
  · exact hback.free rfl
  · exact hback

theorem Entered.insertSleep (h : Entered s) (hco : s.heap p = some co) {fuel : Nat} {usecs : UInt64}
    (hstep : insertSleep s p co fuel usecs = some s') : Entered s' := by
  induction fuel generalizing usecs with
  | zero => cases hstep
  | succ fuel ih =>
    rw [NtyCo.insertSleep] at hstep
    split at hstep
    · exact ih hstep
    · obtain rfl := Option.some.inj hstep
      have hbit : ¬ has (BIT NTY_COROUTINE_STATUS_SLEEPING) NTY_COROUTINE_STATUS_NEW := by decide
      have hsame : Same co { co with
          sleepUsecs := usecs, status := co.status ||| BIT NTY_COROUTINE_STATUS_SLEEPING } :=
        ⟨rfl, rfl, by simp [New, hbit]⟩
      exact (h.put hco hsame).congr rfl rfl rfl rfl rfl (.inl rfl)

theorem Entered.schedSleepdown (h : Entered s) {msecs : UInt64}
    (hstep : ntyScheduleSchedSleepdown s p msecs = some s') : Entered s' := by
  simp only [ntyScheduleSchedSleepdown, Option.bind_eq_bind, Option.bind_eq_some_iff] at hstep
  obtain ⟨co, hco, hstep⟩ := hstep
  have hremoved : Entered ((s.rbFindSleep co.sleepUsecs).elim s s.rbRemoveSleep) ∧
      ((s.rbFindSleep co.sleepUsecs).elim s s.rbRemoveSleep).heap = s.heap := by
    cases s.rbFindSleep co.sleepUsecs with
    | none => exact ⟨h, rfl⟩
    | some q => exact ⟨h.rbRemoveSleep q, heap_rbRemoveSleep s q⟩
  obtain ⟨hremoved, hheap⟩ := hremoved
  split at hstep
  · exact hremoved.insertSleep (by rwa [hheap]) hstep
  · obtain rfl := Option.some.inj hstep
    exact hremoved.put ((congrFun hheap p).trans hco) ⟨rfl, rfl, .rfl⟩

theorem Entered.sleep (h : Entered s) (hcurr : s.currThread = some p) {msecs : UInt64}
    (hstep : ntyCoroutineSleep s p msecs ret = some s') : Entered s' := by
  rw [ntyCoroutineSleep] at hstep
  split at hstep
  · refine (h.tailqInsertTail p).yield ?_ hstep nofun
    unfold Schedule.tailqInsertTail
    split <;> exact hcurr
  · exact h.schedSleepdown hstep

theorem Entered.linkWaiting (h : Entered s) (hcurr : s.currThread = some p) (epfd : Int → Bool) :
    Entered { s with waiting := p :: s.waiting, epfd := epfd } := by
  refine ⟨h.serial, h.logged, h.apart, h.new, h.saved, fun q hq => ?_, h.running, h.continues⟩
  rcases List.mem_cons.mp hq with rfl | hq
  · obtain ⟨⟨co, hco, hnew, -⟩, -⟩ := h.running q hcurr
    exact ⟨co, hco, hnew⟩
  · exact h.waiting q hq

/-- To read: the constant is 2, which is bit 1. -/
theorem Entered.wait (h : Entered s) (hcurr : s.currThread = some p) {fd : Int} {events : Nat}
    {added : Bool} (hread : events &&& POLLIN ≠ 0)
    (hstep : ntyEpollInner s p fd events added ret = some s') : Entered s' := by
  obtain ⟨co, state, epfd, hco, hstate, hyield⟩ := ntyEpollInner_cases hstep
  obtain rfl : NTY_COROUTINE_STATUS_WAIT_READ = state := by
    simpa [waitState, hread] using hstate
  have hbit : ¬ has (BitVec.ofNat 32 NTY_COROUTINE_STATUS_WAIT_READ) NTY_COROUTINE_STATUS_NEW := by
    decide
  have hsame : Same co { co with
      status := co.status ||| BitVec.ofNat 32 NTY_COROUTINE_STATUS_WAIT_READ, fd := fd,
      events := events } := ⟨rfl, rfl, by simp only [New, has_or, hbit, Bool.or_false]⟩
  exact ((h.put hco hsame).linkWaiting hcurr epfd).yield hcurr hyield nofun

theorem Entered.exit (h : Entered s) (hcurr : s.currThread = some p)
    (hstep : execEnd s p ret = some s') : Entered s' := by
  simp only [execEnd, Option.bind_eq_bind, Option.bind_eq_some_iff] at hstep
  obtain ⟨co, hco, hstep⟩ := hstep
  have hbit : ¬ has exitBits NTY_COROUTINE_STATUS_NEW := by decide
  exact (h.put hco (Same.status co _ (by simp [hbit]))).yield hcurr hstep nofun

-- ---------------------------------------------------------------------------
-- The loop
-- ---------------------------------------------------------------------------

theorem Entered.idle (h : Entered s) (hpc : ∀ ret, s.pc ≠ .running ret) : s.currThread = none := by
  cases hcurr : s.currThread with
  | none => rfl
  | some p =>
    obtain ⟨-, ret, hret⟩ := h.running p hcurr
    exact absurd hret (hpc ret)

theorem Entered.readyTurn (h : Entered s) (hcurr : s.currThread = none) {last : Option Ptr}
    (hstep : readyTurn s last = some s') : Entered s' := by
  unfold NtyCo.readyTurn at hstep
  split at hstep
  · obtain rfl := Option.some.inj hstep
    exact h.congr rfl rfl rfl rfl rfl (.inr hcurr)
  · next p rest hready =>
    have hpop : Entered { s with ready := rest } := h.congr rfl rfl rfl rfl rfl (.inl rfl)
    simp only [Option.bind_eq_bind, Option.bind_eq_some_iff] at hstep
    obtain ⟨co, hco, hstep⟩ := hstep
    split at hstep
    · obtain rfl := Option.some.inj hstep
      have hnone : (ntyCoroutineFree { s with ready := rest } p).currThread = none := by
        unfold ntyCoroutineFree
        split <;> exact hcurr
      exact (hpop.free hcurr).congr rfl rfl rfl rfl rfl (.inr hnone)
    · exact hpop.resume hcurr hstep

theorem Entered.eventTurn (h : Entered s) (hcurr : s.currThread = none) {fd : Int} {isEof : Bool}
    {rest : List (Int × Bool)} (hstep : eventTurn s fd isEof rest = some s') : Entered s' := by
  obtain ⟨p, co, status, hfind, hco, hstatus, hres⟩ := eventTurn_cases hstep
  obtain ⟨c, hc, hnew⟩ := h.waiting p (List.mem_of_find?_eq_some hfind)
  obtain rfl := Option.some.inj (hco.symm.trans hc)
  have hold : ¬ has status NTY_COROUTINE_STATUS_NEW := by
    rcases hstatus with rfl | rfl <;> decide
  have hsame : Same co { co with status := status } := ⟨rfl, rfl, iff_of_false hold hnew⟩
  exact (h.put hco hsame).resume hcurr hres

theorem Entered.schedule (h : Entered s) (hstep : schedule s = some s') : Entered s' := by
  obtain ⟨hpc, hstep⟩ := schedule_cases hstep
  have hidle := h.idle hpc
  rcases hstep with ⟨pc, rfl⟩ | ⟨p, -, hres⟩ | ⟨last, hstep⟩ | ⟨fd, isEof, rest, hstep⟩
  · exact h.congr rfl rfl rfl rfl rfl (.inr hidle)
  · exact (h.rbRemoveSleep p).resume (by rwa [currThread_rbRemoveSleep]) hres
  · exact h.readyTurn hidle hstep
  · exact h.eventTurn hidle hstep

theorem Entered.body (h : Entered s) {i : Action} (hguard : ReadOnly s i)
    (hcurr : s.currThread = some p) (hstep : body s p ret i = some s') : Entered s' := by
  cases i with
  | create q => exact h.create hstep
  | sleep msecs => exact h.sleep hcurr hstep
  | wait call fd added => exact h.wait hcurr (hguard call fd added rfl) hstep
  | exit => exact h.exit hcurr hstep
  | _ => cases hstep

theorem Entered.step (h : Entered s) {i : Action} (hguard : ReadOnly s i)
    (hstep : step s i = some s') : Entered s' := by
  rcases step_cases hstep with ⟨now, pc, rfl, hpc | hpc⟩ | ⟨p, hstep⟩ | hstep | ⟨p, ret, hcurr, hstep⟩
  · exact h.congr rfl rfl rfl rfl rfl (.inl hpc)
  · exact h.congr rfl rfl rfl rfl rfl (.inr (h.idle hpc))
  · exact h.create hstep
  · exact h.schedule hstep
  · exact h.body hguard hcurr hstep

/-- Where every wait is to read, every coroutine starts once. -/
theorem starts_once (h : Reach coroutines ReadOnly s) : StartsOnce s := by
  suffices hinv : Entered s from hinv.startsOnce
  refine h.invariant (P := Entered) ?_ fun s i s' hs hg hstep => hs.step hg hstep
  rintro s ⟨now, rfl⟩
  exact ⟨nofun, nofun, nofun, nofun, nofun, nofun, nofun, trivial⟩

/-- A coroutine that sleeps and then waits for a descriptor to be read. -/
theorem starts_once_recv : ∃ s, StartsOnce s ∧
    s.log = [.resume 0 (.epollInner 7), .yield 0 (.epollInner 7), .resume 0 .exec] := by
  have h0 : Reach coroutines ReadOnly firstTurn := reach_firstTurn fun _ => ⟨nofun, nofun, nofun⟩
  have h1 := h0.step (i := Action.sleep 10) nofun rfl
  have hrecv (s : Schedule) : ReadOnly s (.wait .recv 7 true) := by
    rintro call fd added ⟨⟩
    decide
  have h2 := h1.step (i := Action.wait .recv 7 true) (hrecv _) rfl
  have h3 := h2.step (i := Action.epoll [(7, false)]) nofun rfl
  have h4 := h3.step (i := Action.schedule) nofun rfl
  exact ⟨_, starts_once h4, rfl⟩

/-- `nty_coroutine_sleep(10)` and `nty_connect`: when the sleep is over, the coroutine starts again. -/
theorem started_twice : ¬ ∀ s, Reach coroutines free s → StartsOnce s := by
  intro h
  have h0 : Reach coroutines free firstTurn := reach_firstTurn fun _ => ⟨trivial, trivial, trivial⟩
  have h1 := h0.step (i := Action.sleep 10) trivial rfl
  have h2 := h1.step (i := Action.wait .connect 7 true) trivial rfl
  have h3 := h2.step (i := Action.epoll []) trivial rfl
  have h4 := h3.step (i := Action.schedule) trivial rfl
  have h5 := h4.step (i := Action.schedule) trivial rfl
  have h6 := h5.step (i := Action.tick 10000) trivial rfl
  have h7 := h6.step (i := Action.schedule) trivial rfl
  have hlog : Continues [.resume 0 .exec, .yield 0 (.epollInner 7), .resume 0 .exec] :=
    (h _ h7).continues
  exact hlog.1.mp rfl ⟨.exec, by simp⟩

end LearningCode.NtyCo
