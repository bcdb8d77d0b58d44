import Mathlib.Data.List.Basic
import LearningCode.NtyCo.Model

/-!
# Linked coroutines

`nty_coroutine_sleep` with `msecs > 0` links the coroutine into `sleeping` and does not
yield. In a run without it, a coroutine is in one of `ready` and `waiting`, or it is
running and in neither, and what it resumes to fits.
-/

namespace LearningCode.NtyCo

open Transition Schedule

variable {s s' : Schedule} {p : Ptr} {co : Coroutine} {ret : Pc}

/-- `nty_coroutine_free` and `RB_REMOVE` were never applied to what they must not be. -/
def Sound (s : Schedule) : Prop := ∀ p, s.fault ≠ some (.free p) ∧ s.fault ≠ some (.remove p)

def Unslept (_ : Schedule) (i : Action) : Prop := ∀ msecs, i = .sleep msecs → msecs = 0

/-- Neither bit is set where another coroutine, or the scheduler, can see it. -/
def Awake (status : BitVec 32) : Prop :=
  ¬ has status NTY_COROUTINE_STATUS_SLEEPING ∧ ¬ has status NTY_COROUTINE_STATUS_EXITED

theorem Awake.or {a b : BitVec 32} (ha : Awake a) (hb : Awake b) : Awake (a ||| b) :=
  ⟨by simp [ha.1, hb.1], by simp [ha.2, hb.2]⟩

theorem Awake.and {a : BitVec 32} (ha : Awake a) (b : BitVec 32) : Awake (a &&& b) :=
  ⟨by simp [ha.1], by simp [ha.2]⟩

theorem awake_new : Awake (BIT NTY_COROUTINE_STATUS_NEW) := ⟨by decide, by decide⟩

theorem awake_ready : Awake (BIT NTY_COROUTINE_STATUS_READY) := ⟨by decide, by decide⟩

structure Inv (s : Schedule) : Prop where
  fault : s.fault = none
  asleep : s.sleeping = []
  nodup : (s.ready ++ s.waiting).Nodup
  alive : ∀ p ∈ s.ready ++ s.waiting, (s.heap p).isSome
  awake : ∀ p co, s.heap p = some co → Awake co.status
  ready : ∀ p ∈ s.ready, ∀ co, s.heap p = some co →
    has co.status NTY_COROUTINE_STATUS_NEW ∨ co.ctx = .sleep
  waiting : ∀ p ∈ s.waiting, ∀ co, s.heap p = some co → co.ctx = .epollInner co.fd
  running : ∀ p, s.currThread = some p →
    p ∉ s.ready ++ s.waiting ∧ (s.heap p).isSome ∧ ∃ ret, s.pc = .running ret

theorem Inv.congr (h : Inv s) (hheap : s'.heap = s.heap) (hready : s'.ready = s.ready)
    (hwaiting : s'.waiting = s.waiting) (hsleeping : s'.sleeping = s.sleeping)
    (hfault : s'.fault = s.fault)
    (hcurr : s'.currThread = s.currThread ∧ s'.pc = s.pc ∨ s'.currThread = none) : Inv s' := by
  refine ⟨hfault ▸ h.fault, hsleeping ▸ h.asleep, ?_, ?_, ?_, ?_, ?_, ?_⟩
  · rw [hready, hwaiting]
    exact h.nodup
  · rw [hready, hwaiting, hheap]
    exact h.alive
  · rw [hheap]
    exact h.awake
  · rw [hready, hheap]
    exact h.ready
  · rw [hwaiting, hheap]
    exact h.waiting
  · rcases hcurr with ⟨hcurr, hpc⟩ | hcurr
    · rw [hready, hwaiting, hheap, hcurr, hpc]
      exact h.running
    · rw [hcurr]
      nofun

theorem Inv.put (h : Inv s) (hawake : Awake co.status)
    (hready : p ∈ s.ready → has co.status NTY_COROUTINE_STATUS_NEW ∨ co.ctx = .sleep)
    (hwaiting : p ∈ s.waiting → co.ctx = .epollInner co.fd) : Inv (s.put p co) := by
  have halive {q : Ptr} (hq : (s.heap q).isSome) : ((s.put p co).heap q).isSome := by
    rw [heap_put]
    rcases eq_or_ne q p with rfl | hne
    · rw [Function.update_self]
      rfl
    · rwa [Function.update_of_ne hne]
  refine ⟨h.fault, h.asleep, h.nodup, fun q hq => ?_, fun q c hc => ?_, fun q hq c hc => ?_,
    fun q hq c hc => ?_, fun q hq => ?_⟩
  · exact halive (h.alive q hq)
  · rcases heap_put_cases hc with ⟨-, rfl⟩ | ⟨-, hc⟩
    · exact hawake
    · exact h.awake q c hc
  · rcases heap_put_cases hc with ⟨rfl, rfl⟩ | ⟨-, hc⟩
    · exact hready hq
    · exact h.ready q hq c hc
  · rcases heap_put_cases hc with ⟨rfl, rfl⟩ | ⟨-, hc⟩
    · exact hwaiting hq
    · exact h.waiting q hq c hc
  · obtain ⟨hnot, hsome, hpc⟩ := h.running q hq
    exact ⟨hnot, halive hsome, hpc⟩

theorem free_unlinked (hsleeping : s.sleeping = []) (hp : p ∉ s.ready ++ s.waiting) :
    ntyCoroutineFree s p = { s with heap := Function.update s.heap p none } := by
  rw [ntyCoroutineFree, if_neg]
  simpa [hsleeping] using hp

theorem Inv.free (h : Inv s) (hp : p ∉ s.ready ++ s.waiting) (hcurr : s.currThread = none) :
    Inv { s with heap := Function.update s.heap p none } := by
  refine ⟨h.fault, h.asleep, h.nodup, fun q hq => ?_, fun q c hc => h.awake q c (heap_of_freed hc),
    fun q hq c hc => h.ready q hq c (heap_of_freed hc),
    fun q hq c hc => h.waiting q hq c (heap_of_freed hc), fun q hq => by simp [hcurr] at hq⟩
  have hne : q ≠ p := fun heq => hp (heq ▸ hq)
  simpa [Function.update_of_ne hne] using h.alive q hq

-- ---------------------------------------------------------------------------
-- Resuming
-- ---------------------------------------------------------------------------

theorem Inv.switch (h : Inv s) (hp : p ∉ s.ready ++ s.waiting) (hawake : Awake co.status) :
    Inv (s.switch p co ret) := by
  obtain ⟨hready, hwaiting⟩ : p ∉ s.ready ∧ p ∉ s.waiting := by simpa using hp
  have hput : Inv (s.put p co) := h.put hawake (absurd · hready) (absurd · hwaiting)
  refine ⟨hput.fault, hput.asleep, hput.nodup, hput.alive, hput.awake, hput.ready, hput.waiting,
    fun q hq => ?_⟩
  obtain rfl : p = q := Option.some.inj hq
  exact ⟨hp, by simp [Schedule.switch], ret, rfl⟩

theorem Inv.resume_ready (h : Inv s) (hp : p ∉ s.ready ++ s.waiting)
    (hpoint : ∀ co, s.heap p = some co → has co.status NTY_COROUTINE_STATUS_NEW ∨ co.ctx = .sleep)
    (hres : ntyCoroutineResume s p ret = some s') : Inv s' := by
  obtain ⟨co, co', hco, rfl, hres⟩ := ntyCoroutineResume_cases hres
  rcases hres with ⟨-, rfl⟩ | ⟨fd, hctx, -⟩
  · refine h.switch hp ?_
    split
    · exact awake_ready
    · exact h.awake p co hco
  · split at hctx
    · cases hctx
    · next hnew =>
      rw [(hpoint co hco).resolve_left hnew] at hctx
      cases hctx

theorem Inv.unlinkWaiting (h : Inv s) (p : Ptr) :
    Inv { s with waiting := s.waiting.erase p } := by
  have hsub : (s.ready ++ s.waiting.erase p).Sublist (s.ready ++ s.waiting) :=
    List.erase_sublist.append_left _
  exact ⟨h.fault, h.asleep, hsub.nodup h.nodup, fun q hq => h.alive q (hsub.subset hq), h.awake,
    h.ready, fun q hq => h.waiting q (List.mem_of_mem_erase hq),
    fun q hq => (h.running q hq).imp_left fun hnot hmem => hnot (hsub.subset hmem)⟩

theorem not_mem_unlinkWaiting (h : Inv s) (hp : p ∈ s.waiting) :
    p ∉ s.ready ++ s.waiting.erase p := by
  obtain ⟨-, hwaiting, hdisjoint⟩ := List.nodup_append.mp h.nodup
  rw [List.mem_append, not_or]
  exact ⟨fun hmem => hdisjoint p hmem p hp rfl, hwaiting.not_mem_erase⟩

theorem rbFindWait_congr (hheap : s'.heap = s.heap) (hwaiting : s'.waiting = s.waiting) (fd : Int) :
    s'.rbFindWait fd = s.rbFindWait fd := by
  rw [rbFindWait, rbFindWait, hheap, hwaiting]

theorem ntyScheduleDeschedWait_awake {fd : Int} (hfind : s.rbFindWait fd = some p)
    (hheap : s.heap p = some co) (hawake : Awake co.status) :
    ∃ status, Awake status ∧ ntyScheduleDeschedWait s fd =
      some ({ s with waiting := s.waiting.erase p }.put p { co with status := status }) := by
  refine ⟨_, (hawake.and (CLEARBIT NTY_COROUTINE_STATUS_WAIT_READ)).and
    (CLEARBIT NTY_COROUTINE_STATUS_WAIT_WRITE), ?_⟩
  simp only [ntyScheduleDeschedWait, hfind, rbRemoveWait, List.mem_of_find?_eq_some hfind, if_true,
    Option.bind_eq_bind, Option.bind_some, hheap, ntyScheduleDeschedSleepdown, heap_put,
    Function.update_self]
  rw [if_neg ((hawake.and _).and _).1]

theorem Inv.resume_waiting (h : Inv s) {fd : Int} (hfind : s.rbFindWait fd = some p)
    (hold : ∀ co, s.heap p = some co → ¬ has co.status NTY_COROUTINE_STATUS_NEW)
    (hres : ntyCoroutineResume s p ret = some s') : Inv s' := by
  obtain ⟨co, co', hco, rfl, hres⟩ := ntyCoroutineResume_cases hres
  have hmem : p ∈ s.waiting := List.mem_of_find?_eq_some hfind
  have hfd : co.fd = fd := by simpa [hco] using List.find?_some hfind
  have hctx := h.waiting p hmem co hco
  rw [if_neg (hold co hco)] at hres
  rcases hres with ⟨hbad, -⟩ | ⟨fd', hctx', hdesched⟩
  · rw [hctx] at hbad
    simp at hbad
  · obtain rfl : fd = fd' := by simpa [hctx, hfd] using hctx'
    have hsame : (s.switch p co ret).heap = s.heap := by
      rw [Schedule.switch, heap_put, ← hco, Function.update_eq_self]
    have hfind' : Schedule.rbFindWait { s.switch p co ret with
        epfd := Function.update s.epfd fd false } fd = some p :=
      (rbFindWait_congr hsame rfl fd).trans hfind
    obtain ⟨status, hawake, heq⟩ := ntyScheduleDeschedWait_awake hfind'
      ((congrFun hsame p).trans hco) (h.awake p co hco)
    rw [heq, Option.some.injEq] at hdesched
    subst hdesched
    have hnot := not_mem_unlinkWaiting h hmem
    have hswitch : Inv ({ s with waiting := s.waiting.erase p }.switch p co ret) :=
      (h.unlinkWaiting p).switch hnot (h.awake p co hco)
    refine Inv.congr (s := ({ s with waiting := s.waiting.erase p }.switch p co ret).put p
      { co with status := status }) (hswitch.put hawake ?_ ?_) rfl rfl rfl rfl rfl (.inl ⟨rfl, rfl⟩)
    · exact fun hready => absurd (List.mem_append_left _ hready) hnot
    · exact fun hwaiting => absurd (List.mem_append_right _ hwaiting) hnot

-- ---------------------------------------------------------------------------
-- Yielding
-- ---------------------------------------------------------------------------

theorem Inv.back (co : Coroutine) (h : Inv s) (point : Point) (ret : Pc)
    (hawake : Awake co.status) (hp : p ∉ s.ready ++ s.waiting) :
    Inv (s.back p co point ret) := by
  obtain ⟨hready, hwaiting⟩ : p ∉ s.ready ∧ p ∉ s.waiting := by simpa using hp
  have hput : Inv (s.put p { co with ctx := point }) :=
    h.put hawake (absurd · hready) (absurd · hwaiting)
  exact hput.congr rfl rfl rfl rfl rfl (.inr rfl)

theorem Inv.link (h : Inv s) {ready waiting : List Ptr}
    (hperm : (ready ++ waiting).Perm (p :: (s.ready ++ s.waiting))) (hp : p ∉ s.ready ++ s.waiting)
    (hheap : s.heap p = some co) (hcurr : s.currThread ≠ some p)
    (hready : ∀ q ∈ ready, q ∈ s.ready ∨
      q = p ∧ (has co.status NTY_COROUTINE_STATUS_NEW ∨ co.ctx = .sleep))
    (hwaiting : ∀ q ∈ waiting, q ∈ s.waiting ∨ q = p ∧ co.ctx = .epollInner co.fd) :
    Inv { s with ready := ready, waiting := waiting } := by
  refine ⟨h.fault, h.asleep, hperm.nodup_iff.mpr (List.nodup_cons.mpr ⟨hp, h.nodup⟩), fun q hq => ?_,
    h.awake, fun q hq c hc => ?_, fun q hq c hc => ?_, fun q hq => ?_⟩
  · rcases List.mem_cons.mp (hperm.mem_iff.mp hq) with rfl | hq
    · exact hheap ▸ rfl
    · exact h.alive q hq
  · rcases hready q hq with hq | ⟨rfl, hpoint⟩
    · exact h.ready q hq c hc
    · obtain rfl : co = c := Option.some.inj (hheap.symm.trans hc)
      exact hpoint
  · rcases hwaiting q hq with hq | ⟨rfl, hpoint⟩
    · exact h.waiting q hq c hc
    · obtain rfl : co = c := Option.some.inj (hheap.symm.trans hc)
      exact hpoint
  · refine (h.running q hq).imp_left fun hnot hmem => ?_
    rcases List.mem_cons.mp (hperm.mem_iff.mp hmem) with rfl | hmem
    · exact hcurr hq
    · exact hnot hmem

theorem Inv.linkReady (h : Inv s) (hp : p ∉ s.ready ++ s.waiting) (hheap : s.heap p = some co)
    (hpoint : has co.status NTY_COROUTINE_STATUS_NEW ∨ co.ctx = .sleep)
    (hcurr : s.currThread ≠ some p) : Inv { s with ready := s.ready ++ [p] } := by
  have hperm : (s.ready ++ [p] ++ s.waiting).Perm (p :: (s.ready ++ s.waiting)) := by
    rw [List.append_assoc]
    exact List.perm_middle
  refine h.link hperm hp hheap hcurr (fun q hq => ?_) fun q hq => .inl hq
  exact (List.mem_append.mp hq).imp_right fun hq => ⟨List.mem_singleton.mp hq, hpoint⟩

theorem Inv.linkWaiting (h : Inv s) (hp : p ∉ s.ready ++ s.waiting) (hheap : s.heap p = some co)
    (hpoint : co.ctx = .epollInner co.fd) (hcurr : s.currThread ≠ some p) :
    Inv { s with waiting := p :: s.waiting } := by
  refine h.link List.perm_middle hp hheap hcurr (fun q hq => .inl hq) fun q hq => ?_
  exact (List.mem_cons.mp hq).symm.imp_right fun hq => ⟨hq, hpoint⟩

theorem Inv.sleep (h : Inv s) (hcurr : s.currThread = some p)
    (hstep : ntyCoroutineSleep s p 0 ret = some s') : Inv s' := by
  obtain ⟨hp, -, -⟩ := h.running p hcurr
  have hready : p ∉ s.ready := fun hmem => hp (List.mem_append_left _ hmem)
  rw [ntyCoroutineSleep, if_pos rfl, tailqInsertTail_of_not_mem hready] at hstep
  obtain ⟨co, hco, hstep⟩ := ntyCoroutineYield_cases hstep
  rcases hstep with ⟨hexit, -⟩ | ⟨-, rfl⟩
  · exact absurd hexit (h.awake p co hco).2
  · exact (h.back co .sleep ret (h.awake p co hco) hp).linkReady hp (Function.update_self ..)
      (.inr rfl) nofun

theorem awake_waitState {events state : Nat} (h : waitState events = some state) :
    Awake (BitVec.ofNat 32 state) := by
  unfold waitState at h
  split at h
  · cases h
    exact ⟨by decide, by decide⟩
  · split at h
    · cases h
      exact ⟨by decide, by decide⟩
    · cases h

theorem Inv.wait (h : Inv s) (hcurr : s.currThread = some p) {fd : Int} {events : Nat} {added : Bool}
    (hstep : ntyEpollInner s p fd events added ret = some s') : Inv s' := by
  obtain ⟨hp, -, -⟩ := h.running p hcurr
  obtain ⟨co, state, epfd, hco, hstate, hyield⟩ := ntyEpollInner_cases hstep
  have hawake : Awake (co.status ||| BitVec.ofNat 32 state) :=
    (h.awake p co hco).or (awake_waitState hstate)
  obtain ⟨co', hco', hyield⟩ := ntyCoroutineYield_cases hyield
  simp only [heap_put, Function.update_self, Option.some.injEq] at hco'
  subst hco'
  rcases hyield with ⟨hexit, -⟩ | ⟨-, rfl⟩
  · exact absurd hexit hawake.2
  · have hback := h.back
      { co with status := co.status ||| BitVec.ofNat 32 state, fd := fd, events := events }
      (.epollInner fd) ret hawake hp
    have hlink := hback.linkWaiting hp (Function.update_self ..) rfl nofun
    refine hlink.congr ?_ rfl rfl rfl rfl (.inr rfl)
    simp [Schedule.back]

theorem Inv.exit (h : Inv s) (hcurr : s.currThread = some p) (hstep : execEnd s p ret = some s') :
    Inv s' := by
  obtain ⟨hp, -, -⟩ := h.running p hcurr
  simp only [execEnd, Option.bind_eq_bind, Option.bind_eq_some_iff] at hstep
  obtain ⟨co, hco, hstep⟩ := hstep
  obtain ⟨co', hco', hyield⟩ := ntyCoroutineYield_cases hstep
  rw [heap_put, Function.update_self, Option.some.injEq] at hco'
  subst hco'
  rcases hyield with ⟨-, rfl⟩ | ⟨hbits, -⟩
  · have hidle : Inv { s with currThread := none } := h.congr rfl rfl rfl rfl rfl (.inr rfl)
    rw [free_unlinked (s := Schedule.back (s.put p _) p _ _ ret) h.asleep hp]
    exact (hidle.free hp rfl).congr (by simp [Schedule.back]) rfl rfl rfl rfl (.inr rfl)
  · exact absurd ⟨by simp, by simp⟩ hbits

theorem Inv.create (h : Inv s) (hstep : ntyCoroutineCreate s p = some s') : Inv s' := by
  obtain ⟨hnone, rfl⟩ := ntyCoroutineCreate_cases hstep
  have hp : p ∉ s.ready ++ s.waiting := fun hmem => by simpa [hnone] using h.alive p hmem
  have hready : p ∉ s.ready := fun hmem => hp (List.mem_append_left _ hmem)
  have hwaiting : p ∉ s.waiting := fun hmem => hp (List.mem_append_right _ hmem)
  have hput : Inv (s.put p ⟨.zero, BIT NTY_COROUTINE_STATUS_NEW, -1, 0, 0, s.serials⟩) :=
    h.put awake_new (absurd · hready) (absurd · hwaiting)
  have hcurr : s.currThread ≠ some p := fun hcurr => by simpa [hnone] using (h.running p hcurr).2.1
  have hnew : has (BIT NTY_COROUTINE_STATUS_NEW) NTY_COROUTINE_STATUS_NEW := by decide
  rw [tailqInsertTail_of_not_mem (by exact hready)]
  exact (hput.linkReady hp (Function.update_self ..) (.inl hnew) hcurr).congr
    rfl rfl rfl rfl rfl (.inl ⟨rfl, rfl⟩)

-- ---------------------------------------------------------------------------
-- The loop
-- ---------------------------------------------------------------------------

theorem Inv.readyTurn (h : Inv s) (hcurr : s.currThread = none) {last : Option Ptr}
    (hstep : readyTurn s last = some s') : Inv s' := by
  unfold NtyCo.readyTurn at hstep
  split at hstep
  · obtain rfl := Option.some.inj hstep
    exact h.congr rfl rfl rfl rfl rfl (.inr hcurr)
  · next p rest hready =>
    simp only [Option.bind_eq_bind, Option.bind_eq_some_iff] at hstep
    obtain ⟨co, hco, hstep⟩ := hstep
    have hnodup := h.nodup
    rw [hready, List.cons_append, List.nodup_cons] at hnodup
    obtain ⟨hp, hrest⟩ := hnodup
    have hpop : Inv { s with ready := rest } := by
      refine ⟨h.fault, h.asleep, hrest, fun q hq => h.alive q ?_, h.awake, fun q hq => h.ready q ?_,
        h.waiting, fun q hq => by simp [hcurr] at hq⟩
      · rw [hready]
        exact List.mem_cons_of_mem _ hq
      · rw [hready]
        exact List.mem_cons_of_mem _ hq
    split at hstep
    · obtain rfl := Option.some.inj hstep
      rw [free_unlinked (s := { s with ready := rest }) h.asleep hp]
      exact (hpop.free hp hcurr).congr rfl rfl rfl rfl rfl (.inr hcurr)
    · refine hpop.resume_ready hp (fun c hc => h.ready p ?_ c hc) hstep
      rw [hready]
      exact List.mem_cons_self

theorem rbFindWait_put {co' : Coroutine} (hheap : s.heap p = some co) (hfd : co'.fd = co.fd)
    (fd : Int) : (s.put p co').rbFindWait fd = s.rbFindWait fd := by
  rw [rbFindWait, rbFindWait, waiting_put, heap_put]
  congr 1
  funext q
  rcases eq_or_ne q p with rfl | hne
  · simp [hheap, hfd]
  · rw [Function.update_of_ne hne]

theorem Inv.eventTurn (h : Inv s) {fd : Int} {isEof : Bool} {rest : List (Int × Bool)}
    (hstep : eventTurn s fd isEof rest = some s') : Inv s' := by
  obtain ⟨p, co, status, hfind, hco, hstatus, hres⟩ := eventTurn_cases hstep
  have hmem : p ∈ s.waiting := List.mem_of_find?_eq_some hfind
  have hready : p ∉ s.ready := fun hready =>
    (List.nodup_append.mp h.nodup).2.2 p hready p hmem rfl
  have hawake : Awake status := by
    rcases hstatus with rfl | rfl <;> exact ⟨by decide, by decide⟩
  have hold : ¬ has status NTY_COROUTINE_STATUS_NEW := by
    rcases hstatus with rfl | rfl <;> decide
  have hput : Inv (s.put p { co with status := status }) :=
    h.put hawake (absurd · hready) fun _ => h.waiting p hmem co hco
  have hfind' : (s.put p { co with status := status }).rbFindWait fd = some p := by
    rwa [rbFindWait_put hco]
    rfl
  refine hput.resume_waiting hfind' (fun c hc => ?_) hres
  rw [heap_put, Function.update_self, Option.some.injEq] at hc
  exact hc ▸ hold

theorem Inv.idle (h : Inv s) (hpc : ∀ ret, s.pc ≠ .running ret) : s.currThread = none := by
  cases hcurr : s.currThread with
  | none => rfl
  | some p =>
    obtain ⟨-, -, ret, hret⟩ := h.running p hcurr
    exact absurd hret (hpc ret)

theorem Inv.schedule (h : Inv s) (hstep : schedule s = some s') : Inv s' := by
  obtain ⟨hpc, hstep⟩ := schedule_cases hstep
  have hidle := h.idle hpc
  rcases hstep with ⟨pc, rfl⟩ | ⟨p, hmin, -⟩ | ⟨last, hstep⟩ | ⟨fd, isEof, rest, hstep⟩
  · exact h.congr rfl rfl rfl rfl rfl (.inr hidle)
  · have hmem := List.mem_of_find?_eq_some hmin
    rw [h.asleep] at hmem
    cases hmem
  · exact h.readyTurn hidle hstep
  · exact h.eventTurn hstep

theorem Inv.body (h : Inv s) {i : Action} (hguard : Unslept s i) (hcurr : s.currThread = some p)
    (hstep : body s p ret i = some s') : Inv s' := by
  cases i with
  | create q => exact h.create hstep
  | sleep msecs =>
    obtain rfl := hguard msecs rfl
    exact h.sleep hcurr hstep
  | wait call fd added => exact h.wait hcurr hstep
  | exit => exact h.exit hcurr hstep
  | _ => cases hstep

theorem Inv.step (h : Inv s) {i : Action} (hguard : Unslept s i) (hstep : step s i = some s') :
    Inv s' := by
  rcases step_cases hstep with ⟨now, pc, rfl, hpc | hpc⟩ | ⟨p, hstep⟩ | hstep | ⟨p, ret, hcurr, hstep⟩
  · exact h.congr rfl rfl rfl rfl rfl (.inl ⟨rfl, hpc⟩)
  · exact h.congr rfl rfl rfl rfl rfl (.inr (h.idle hpc))
  · exact h.create hstep
  · exact h.schedule hstep
  · exact h.body hguard hcurr hstep

theorem Inv.reach (h : Reach coroutines Unslept s) : Inv s := by
  refine h.invariant (P := Inv) ?_ fun s i s' hs hg hstep => hs.step hg hstep
  rintro s ⟨now, rfl⟩
  exact ⟨rfl, rfl, .nil, nofun, nofun, nofun, nofun, nofun⟩

/-- Without `nty_coroutine_sleep` for a time, nothing linked is freed and nothing absent removed. -/
theorem links_sound (h : Reach coroutines Unslept s) : Sound s := by
  have hinv : Inv s := .reach h
  exact fun p => by simp [hinv.fault]

/-- A coroutine that waits for a descriptor once and returns. -/
theorem links_sound_recv : ∃ s, s.log.length = 4 ∧ s.waiting = [] ∧ Sound s := by
  have h0 : Reach coroutines Unslept firstTurn := reach_firstTurn fun _ => ⟨nofun, nofun, nofun⟩
  have h1 := h0.step (i := Action.wait .recv 7 true) nofun rfl
  have h2 := h1.step (i := Action.epoll [(7, false)]) nofun rfl
  have h3 := h2.step (i := Action.schedule) nofun rfl
  have h4 := h3.step (i := Action.exit) nofun rfl
  exact ⟨_, rfl, rfl, links_sound h4⟩

/-- `nty_coroutine_sleep(10)` and a return. -/
theorem sleeping_freed : ¬ ∀ s, Reach coroutines free s → Sound s := by
  intro h
  have h0 : Reach coroutines free firstTurn := reach_firstTurn fun _ => ⟨trivial, trivial, trivial⟩
  have h1 := h0.step (i := Action.sleep 10) trivial rfl
  have h2 := h1.step (i := Action.exit) trivial rfl
  exact (h _ h2 1).1 rfl

end LearningCode.NtyCo
