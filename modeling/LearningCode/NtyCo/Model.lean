import Mathlib.Data.UInt
import Mathlib.Logic.Function.Basic
import LearningCode.Lib.Transition

/-!
# The coroutines

`nty_coroutine.c`, `nty_schedule.c` and the waiting in `nty_socket.c`. `_switch` goes on
where the `eip` it loads points to; what a body does between its calls is not seen.
`nty_tree.h` and `nty_queue.h` are lists of coroutines, and a call that breaks one of
them or frees what it holds ends the run.
-/

namespace LearningCode.NtyCo

abbrev Ptr := Nat

-- ---------------------------------------------------------------------------
-- The status word
-- ---------------------------------------------------------------------------

def NTY_COROUTINE_STATUS_NEW : Nat := 0
def NTY_COROUTINE_STATUS_READY : Nat := 1
def NTY_COROUTINE_STATUS_WAIT_READ : Nat := 2
def NTY_COROUTINE_STATUS_WAIT_WRITE : Nat := 3
def NTY_COROUTINE_STATUS_SLEEPING : Nat := 4
def NTY_COROUTINE_STATUS_EXITED : Nat := 5
def NTY_COROUTINE_STATUS_FDEOF : Nat := 6
def NTY_COROUTINE_STATUS_DETACH : Nat := 7

def BIT (x : Nat) : BitVec 32 := 1#32 <<< x

def CLEARBIT (x : Nat) : BitVec 32 := ~~~BIT x

def has (status : BitVec 32) (x : Nat) : Bool := status &&& BIT x ≠ 0

theorem has_eq (status : BitVec 32) (x : Nat) : has status x = status.getLsbD x := by
  rw [has, BIT, ← BitVec.twoPow_eq, BitVec.and_twoPow]
  cases hx : status.getLsbD x with
  | false => simp
  | true =>
    have hlt : x < 32 := BitVec.lt_of_getLsbD hx
    have hne : BitVec.twoPow 32 x ≠ 0#32 := fun h => by
      simpa [hlt] using congrArg (BitVec.getLsbD · x) h
    simp [hne]

section
variable (a b : BitVec 32) (x y : Nat)

@[simp] theorem has_or : has (a ||| b) x = (has a x || has b x) := by simp [has_eq]
@[simp] theorem has_and : has (a &&& b) x = (has a x && has b x) := by simp [has_eq]
@[simp] theorem has_zero : has 0 x = false := by simp [has_eq]

@[simp] theorem has_BIT : has (BIT y) x = (decide (y < 32) && decide (y = x)) := by
  rw [has_eq, BIT, ← BitVec.twoPow_eq, BitVec.getLsbD_twoPow]

@[simp] theorem has_ofNat : has (BitVec.ofNat 32 y) x = (decide (x < 32) && y.testBit x) := by
  rw [has_eq, BitVec.getLsbD_ofNat]

end

-- ---------------------------------------------------------------------------
-- The state
-- ---------------------------------------------------------------------------

inductive Point
  /-- As `calloc` leaves it. -/
  | zero
  | exec
  /-- Behind the yield of `nty_coroutine_sleep`. -/
  | sleep
  /-- Behind the yield of `nty_epoll_inner`. -/
  | epollInner (fd : Int)
  /-- Behind the yield at the end of `_exec`. -/
  | exited
  deriving DecidableEq

structure Coroutine where
  ctx : Point
  status : BitVec 32
  fd : Int
  events : Nat
  sleepUsecs : UInt64
  /-- Which one it is: an address and an `id` come back. -/
  serial : Nat

inductive Pc
  | main
  | isdone
  | expired
  | ready (last : Option Ptr)
  | epoll
  /-- The events to go, in the order the loop takes them. -/
  | events (l : List (Int × Bool))
  /-- In `curr_thread`, to return from `nty_coroutine_resume` to here. -/
  | running (ret : Pc)
  | done

inductive Event
  | resume (serial : Nat) (point : Point)
  | yield (serial : Nat) (point : Point)
  deriving DecidableEq

inductive Fault
  /-- `nty_coroutine_free` of a coroutine that is linked. -/
  | free (p : Ptr)
  /-- `RB_REMOVE` of a coroutine that is not in the tree. -/
  | remove (p : Ptr)
  /-- `TAILQ_INSERT_TAIL` of a coroutine that is in the queue. -/
  | insert (p : Ptr)
  deriving DecidableEq

structure Schedule where
  heap : Ptr → Option Coroutine
  ready : List Ptr
  sleeping : List Ptr
  waiting : List Ptr
  /-- The descriptors of `epfd`. -/
  epfd : Int → Bool
  birth : UInt64
  /-- `nty_coroutine_usec_now` -/
  now : UInt64
  currThread : Option Ptr
  pc : Pc
  /-- How many there have been. -/
  serials : Nat
  /-- Newest first. -/
  log : List Event
  fault : Option Fault

namespace Schedule

def put (s : Schedule) (p : Ptr) (co : Coroutine) : Schedule :=
  { s with heap := Function.update s.heap p (some co) }

section
variable (s : Schedule) (p : Ptr) (co : Coroutine)

@[simp] theorem heap_put : (s.put p co).heap = Function.update s.heap p (some co) := rfl
@[simp] theorem ready_put : (s.put p co).ready = s.ready := rfl
@[simp] theorem sleeping_put : (s.put p co).sleeping = s.sleeping := rfl
@[simp] theorem waiting_put : (s.put p co).waiting = s.waiting := rfl
@[simp] theorem currThread_put : (s.put p co).currThread = s.currThread := rfl
@[simp] theorem fault_put : (s.put p co).fault = s.fault := rfl
@[simp] theorem log_put : (s.put p co).log = s.log := rfl
@[simp] theorem serials_put : (s.put p co).serials = s.serials := rfl

end

def tailqInsertTail (s : Schedule) (p : Ptr) : Schedule :=
  if p ∈ s.ready then { s with fault := some (.insert p) } else { s with ready := s.ready ++ [p] }

theorem heap_put_cases {s : Schedule} {p q : Ptr} {co c : Coroutine}
    (h : (s.put p co).heap q = some c) : q = p ∧ c = co ∨ q ≠ p ∧ s.heap q = some c := by
  rw [heap_put] at h
  rcases eq_or_ne q p with rfl | hne
  · rw [Function.update_self, Option.some.injEq] at h
    exact .inl ⟨rfl, h.symm⟩
  · rw [Function.update_of_ne hne] at h
    exact .inr ⟨hne, h⟩

theorem tailqInsertTail_of_not_mem {s : Schedule} {p : Ptr} (h : p ∉ s.ready) :
    s.tailqInsertTail p = { s with ready := s.ready ++ [p] } := if_neg h

def rbFindWait (s : Schedule) (fd : Int) : Option Ptr :=
  s.waiting.find? fun p => (s.heap p).any fun co => co.fd = fd

def rbFindSleep (s : Schedule) (usecs : UInt64) : Option Ptr :=
  s.sleeping.find? fun p => (s.heap p).any fun co => co.sleepUsecs = usecs

def rbRemoveWait (s : Schedule) (p : Ptr) : Schedule :=
  if p ∈ s.waiting then { s with waiting := s.waiting.erase p }
  else { s with fault := some (.remove p) }

def rbRemoveSleep (s : Schedule) (p : Ptr) : Schedule :=
  if p ∈ s.sleeping then { s with sleeping := s.sleeping.erase p }
  else { s with fault := some (.remove p) }

@[simp] theorem heap_rbRemoveWait (s : Schedule) (p : Ptr) : (s.rbRemoveWait p).heap = s.heap := by
  unfold rbRemoveWait
  split <;> rfl

@[simp] theorem heap_rbRemoveSleep (s : Schedule) (p : Ptr) : (s.rbRemoveSleep p).heap = s.heap := by
  unfold rbRemoveSleep
  split <;> rfl

@[simp] theorem ready_rbRemoveWait (s : Schedule) (p : Ptr) : (s.rbRemoveWait p).ready = s.ready := by
  unfold rbRemoveWait
  split <;> rfl

@[simp] theorem ready_rbRemoveSleep (s : Schedule) (p : Ptr) : (s.rbRemoveSleep p).ready = s.ready := by
  unfold rbRemoveSleep
  split <;> rfl

@[simp] theorem currThread_rbRemoveWait (s : Schedule) (p : Ptr) :
    (s.rbRemoveWait p).currThread = s.currThread := by
  unfold rbRemoveWait
  split <;> rfl

@[simp] theorem currThread_rbRemoveSleep (s : Schedule) (p : Ptr) :
    (s.rbRemoveSleep p).currThread = s.currThread := by
  unfold rbRemoveSleep
  split <;> rfl

@[simp] theorem now_rbRemoveSleep (s : Schedule) (p : Ptr) : (s.rbRemoveSleep p).now = s.now := by
  unfold rbRemoveSleep
  split <;> rfl

def sleepUsecs (s : Schedule) (p : Ptr) : UInt64 := (s.heap p).elim 0 Coroutine.sleepUsecs

def rbMinSleep (s : Schedule) : Option Ptr :=
  s.sleeping.find? fun p => s.sleeping.all fun q => s.sleepUsecs p ≤ s.sleepUsecs q

end Schedule

open Schedule

-- ---------------------------------------------------------------------------
-- nty_schedule.c, the sets
-- ---------------------------------------------------------------------------

/-- The loop of `nty_schedule_sched_sleepdown`, which ends as the tree has fewer nodes
than there are keys. -/
def insertSleep (s : Schedule) (p : Ptr) (co : Coroutine) : (fuel : Nat) → UInt64 → Option Schedule
  | 0, _ => none
  | fuel + 1, usecs =>
    if (s.rbFindSleep usecs).isSome then insertSleep s p co fuel (usecs + 1)
    else
      let co := { co with
        sleepUsecs := usecs, status := co.status ||| BIT NTY_COROUTINE_STATUS_SLEEPING }
      some { s.put p co with sleeping := p :: s.sleeping }

def ntyScheduleSchedSleepdown (s : Schedule) (p : Ptr) (msecs : UInt64) : Option Schedule := do
  let co ← s.heap p
  let s := (s.rbFindSleep co.sleepUsecs).elim s s.rbRemoveSleep
  let usecs := s.now - s.birth + msecs * 1000
  if msecs ≠ 0 then insertSleep s p co (s.sleeping.length + 1) usecs
  else some (s.put p { co with sleepUsecs := usecs })

def POLLIN : Nat := 1
def POLLOUT : Nat := 4
def POLLERR : Nat := 8
def POLLHUP : Nat := 16

/-- What `nty_schedule_sched_wait` ORs to the status: the constant and not its bit. -/
def waitState (events : Nat) : Option Nat :=
  if events &&& POLLIN ≠ 0 then some NTY_COROUTINE_STATUS_WAIT_READ
  else if events &&& POLLOUT ≠ 0 then some NTY_COROUTINE_STATUS_WAIT_WRITE
  else none

/-- `none` where an assertion fails. -/
def ntyScheduleSchedWait (s : Schedule) (p : Ptr) (fd : Int) (events : Nat) (timeout : UInt64) :
    Option Schedule := do
  let co ← s.heap p
  if has co.status NTY_COROUTINE_STATUS_WAIT_READ ∨ has co.status NTY_COROUTINE_STATUS_WAIT_WRITE then
    none
  else
    let state ← waitState events
    let s := s.put p { co with
      status := co.status ||| BitVec.ofNat 32 state, fd := fd, events := events }
    if (s.rbFindWait fd).isSome then none
    else
      let s := { s with waiting := p :: s.waiting }
      if timeout = 1 then some s else ntyScheduleSchedSleepdown s p timeout

theorem ntyScheduleSchedWait_cases {s s' : Schedule} {p : Ptr} {fd : Int} {events : Nat}
    (h : ntyScheduleSchedWait s p fd events 1 = some s') : ∃ co state, s.heap p = some co ∧
      waitState events = some state ∧
      s' = { s.put p { co with
        status := co.status ||| BitVec.ofNat 32 state, fd := fd, events := events } with
          waiting := p :: s.waiting } := by
  simp only [ntyScheduleSchedWait, Option.bind_eq_bind, Option.bind_eq_some_iff] at h
  obtain ⟨co, hco, h⟩ := h
  split at h
  · cases h
  · simp only [Option.bind_eq_some_iff] at h
    obtain ⟨state, hstate, h⟩ := h
    split at h
    · cases h
    · exact ⟨co, state, hco, hstate, (Option.some.inj h).symm⟩

def ntyScheduleDeschedSleepdown (s : Schedule) (p : Ptr) : Option Schedule := do
  let co ← s.heap p
  if has co.status NTY_COROUTINE_STATUS_SLEEPING then
    some ((s.rbRemoveSleep p).put p { co with
      status := co.status &&& CLEARBIT NTY_COROUTINE_STATUS_SLEEPING })
  else some s

/-- `none` where it writes through NULL. -/
def ntyScheduleDeschedWait (s : Schedule) (fd : Int) : Option Schedule := do
  let p ← s.rbFindWait fd
  let s := s.rbRemoveWait p
  let co ← s.heap p
  let status := co.status &&& CLEARBIT NTY_COROUTINE_STATUS_WAIT_READ &&&
    CLEARBIT NTY_COROUTINE_STATUS_WAIT_WRITE
  ntyScheduleDeschedSleepdown (s.put p { co with status := status }) p

def ntyScheduleSearchWait (s : Schedule) (fd : Int) : Option (Schedule × Ptr × Coroutine) := do
  let p ← s.rbFindWait fd
  let co ← s.heap p
  some (s.put p { co with status := 0 }, p, { co with status := 0 })

-- ---------------------------------------------------------------------------
-- nty_coroutine.c
-- ---------------------------------------------------------------------------

def ntyCoroutineCreate (s : Schedule) (p : Ptr) : Option Schedule :=
  if (s.heap p).isSome then none
  else
    let co := ⟨.zero, BIT NTY_COROUTINE_STATUS_NEW, -1, 0, 0, s.serials⟩
    some ({ s.put p co with serials := s.serials + 1 }.tailqInsertTail p)

theorem ntyCoroutineCreate_cases {s s' : Schedule} {p : Ptr} (h : ntyCoroutineCreate s p = some s') :
    s.heap p = none ∧ s' = Schedule.tailqInsertTail
      { s.put p ⟨.zero, BIT NTY_COROUTINE_STATUS_NEW, -1, 0, 0, s.serials⟩ with
        serials := s.serials + 1 } p := by
  unfold ntyCoroutineCreate at h
  split at h
  · cases h
  · next hnone => exact ⟨by simpa using hnone, (Option.some.inj h).symm⟩

def ntyCoroutineInit (co : Coroutine) : Coroutine :=
  { co with ctx := .exec, status := BIT NTY_COROUTINE_STATUS_READY }

def ntyCoroutineFree (s : Schedule) (p : Ptr) : Schedule :=
  if p ∈ s.ready ∨ p ∈ s.sleeping ∨ p ∈ s.waiting then { s with fault := some (.free p) }
  else { s with heap := Function.update s.heap p none }

def Schedule.switch (s : Schedule) (p : Ptr) (co : Coroutine) (ret : Pc) : Schedule :=
  { s.put p co with
    currThread := some p, log := .resume co.serial co.ctx :: s.log, pc := .running ret }

/-- Up to where the body goes on. -/
def ntyCoroutineResume (s : Schedule) (p : Ptr) (ret : Pc) : Option Schedule := do
  let co ← s.heap p
  let co := if has co.status NTY_COROUTINE_STATUS_NEW then ntyCoroutineInit co else co
  let s := s.switch p co ret
  match co.ctx with
  | .zero => none
  | .exec => some s
  | .sleep => some s
  | .epollInner fd =>
    ntyScheduleDeschedWait { s with epfd := Function.update s.epfd fd false } fd
  | .exited => none

theorem ntyCoroutineResume_cases {s s' : Schedule} {p : Ptr} {ret : Pc}
    (h : ntyCoroutineResume s p ret = some s') : ∃ co co', s.heap p = some co ∧
      co' = (if has co.status NTY_COROUTINE_STATUS_NEW then ntyCoroutineInit co else co) ∧
      ((co'.ctx = .exec ∨ co'.ctx = .sleep) ∧ s' = s.switch p co' ret ∨
        ∃ fd, co'.ctx = .epollInner fd ∧ ntyScheduleDeschedWait { s.switch p co' ret with
          epfd := Function.update s.epfd fd false } fd = some s') := by
  simp only [ntyCoroutineResume, Option.bind_eq_bind, Option.bind_eq_some_iff] at h
  obtain ⟨co, hco, h⟩ := h
  refine ⟨co, _, hco, rfl, ?_⟩
  generalize (if has co.status NTY_COROUTINE_STATUS_NEW then ntyCoroutineInit co else co) = co' at *
  cases hctx : co'.ctx with
  | zero => simp [hctx] at h
  | exec =>
    simp only [hctx, Option.some.injEq] at h
    exact .inl ⟨.inl rfl, h.symm⟩
  | sleep =>
    simp only [hctx, Option.some.injEq] at h
    exact .inl ⟨.inr rfl, h.symm⟩
  | epollInner fd =>
    simp only [hctx] at h
    exact .inr ⟨fd, rfl, h⟩
  | exited => simp [hctx] at h

def Schedule.back (s : Schedule) (p : Ptr) (co : Coroutine) (point : Point) (ret : Pc) : Schedule :=
  { s.put p { co with ctx := point } with
    currThread := none, log := .yield co.serial point :: s.log, pc := ret }

/-- With the end of the `nty_coroutine_resume` it returns to. -/
def ntyCoroutineYield (s : Schedule) (p : Ptr) (point : Point) (ret : Pc) : Option Schedule := do
  let co ← s.heap p
  let s := s.back p co point ret
  if has co.status NTY_COROUTINE_STATUS_EXITED ∧ has co.status NTY_COROUTINE_STATUS_DETACH then
    some (ntyCoroutineFree s p)
  else some s

theorem ntyCoroutineYield_cases {s s' : Schedule} {p : Ptr} {point : Point} {ret : Pc}
    (h : ntyCoroutineYield s p point ret = some s') : ∃ co, s.heap p = some co ∧
      (has co.status NTY_COROUTINE_STATUS_EXITED ∧
          s' = ntyCoroutineFree (s.back p co point ret) p ∨
        ¬ (has co.status NTY_COROUTINE_STATUS_EXITED ∧ has co.status NTY_COROUTINE_STATUS_DETACH) ∧
          s' = s.back p co point ret) := by
  simp only [ntyCoroutineYield, Option.bind_eq_bind, Option.bind_eq_some_iff] at h
  obtain ⟨co, hco, h⟩ := h
  refine ⟨co, hco, ?_⟩
  split at h
  · next hexit => exact .inl ⟨hexit.1, (Option.some.inj h).symm⟩
  · next hexit => exact .inr ⟨hexit, (Option.some.inj h).symm⟩

def ntyCoroutineSleep (s : Schedule) (p : Ptr) (msecs : UInt64) (ret : Pc) : Option Schedule :=
  if msecs = 0 then ntyCoroutineYield (s.tailqInsertTail p) p .sleep ret
  else ntyScheduleSchedSleepdown s p msecs

def exitBits : BitVec 32 :=
  BIT NTY_COROUTINE_STATUS_EXITED ||| BIT NTY_COROUTINE_STATUS_FDEOF ||| BIT NTY_COROUTINE_STATUS_DETACH

@[simp] theorem has_exitBits_exited : has exitBits NTY_COROUTINE_STATUS_EXITED := by decide
@[simp] theorem has_exitBits_detach : has exitBits NTY_COROUTINE_STATUS_DETACH := by decide

def execEnd (s : Schedule) (p : Ptr) (ret : Pc) : Option Schedule := do
  let co ← s.heap p
  ntyCoroutineYield (s.put p { co with status := co.status ||| exitBits }) p .exited ret

/-- Up to its yield; `added` says whether `epoll_ctl` succeeded. -/
def ntyEpollInner (s : Schedule) (p : Ptr) (fd : Int) (events : Nat) (added : Bool) (ret : Pc) :
    Option Schedule := do
  let s := if added then { s with epfd := Function.update s.epfd fd true } else s
  let co ← s.heap p
  let s ← ntyScheduleSchedWait (s.put p { co with events := events }) p fd events 1
  ntyCoroutineYield s p (.epollInner fd) ret

theorem ntyEpollInner_cases {s s' : Schedule} {p : Ptr} {fd : Int} {events : Nat} {added : Bool}
    {ret : Pc} (h : ntyEpollInner s p fd events added ret = some s') : ∃ co state epfd,
      s.heap p = some co ∧ waitState events = some state ∧
      ntyCoroutineYield { s.put p { co with
          status := co.status ||| BitVec.ofNat 32 state, fd := fd, events := events } with
        waiting := p :: s.waiting, epfd := epfd } p (.epollInner fd) ret = some s' := by
  simp only [ntyEpollInner, Option.bind_eq_bind, Option.bind_eq_some_iff] at h
  obtain ⟨co, hco, t, hwait, hyield⟩ := h
  obtain ⟨co', state, hco', hstate, rfl⟩ := ntyScheduleSchedWait_cases hwait
  rw [heap_put, Function.update_self, Option.some.injEq] at hco'
  subst hco'
  simp only [Schedule.put, Function.update_idem] at hyield
  cases added <;> exact ⟨co, state, _, hco, hstate, hyield⟩

/-- The calls that wait, each round of their loops in `nty_epoll_inner`. -/
inductive Call
  | accept
  | recv
  | send
  | connect

def Call.events : Call → Nat
  | .accept => POLLIN ||| POLLERR ||| POLLHUP
  | .recv => POLLIN ||| POLLERR ||| POLLHUP
  | .send => POLLOUT ||| POLLERR ||| POLLHUP
  | .connect => POLLOUT ||| POLLERR ||| POLLHUP

-- ---------------------------------------------------------------------------
-- nty_schedule_run
-- ---------------------------------------------------------------------------

def defaultTimeout : UInt64 := 3000000

def ntyScheduleIsdone (s : Schedule) : Bool :=
  s.waiting.isEmpty && s.sleeping.isEmpty && s.ready.isEmpty

def ntyScheduleExpired (s : Schedule) : Option (Schedule × Ptr) := do
  let p ← s.rbMinSleep
  if s.sleepUsecs p ≤ s.now - s.birth then some (s.rbRemoveSleep p, p) else none

def ntyScheduleMinTimeout (s : Schedule) : UInt64 :=
  match s.rbMinSleep with
  | none => defaultTimeout
  | some p =>
    if s.sleepUsecs p > s.now - s.birth then s.sleepUsecs p - (s.now - s.birth) else 0

def readyTurn (s : Schedule) (last : Option Ptr) : Option Schedule :=
  match s.ready with
  | [] => some { s with pc := .epoll }
  | p :: ready => do
    let s := { s with ready := ready }
    let co ← s.heap p
    if has co.status NTY_COROUTINE_STATUS_FDEOF then
      some { ntyCoroutineFree s p with pc := .epoll }
    else ntyCoroutineResume s p (if last = some p then .epoll else .ready last)

def eventTurn (s : Schedule) (fd : Int) (isEof : Bool) (rest : List (Int × Bool)) :
    Option Schedule := do
  let (s, p, co) ← ntyScheduleSearchWait s fd
  let s :=
    if isEof then
      s.put p { co with status := co.status ||| BIT NTY_COROUTINE_STATUS_FDEOF }
    else s
  ntyCoroutineResume s p (.events rest)

theorem eventTurn_cases {s s' : Schedule} {fd : Int} {isEof : Bool} {rest : List (Int × Bool)}
    (h : eventTurn s fd isEof rest = some s') : ∃ p co status, s.rbFindWait fd = some p ∧
      s.heap p = some co ∧ (status = 0 ∨ status = 0 ||| BIT NTY_COROUTINE_STATUS_FDEOF) ∧
      ntyCoroutineResume (s.put p { co with status := status }) p (.events rest) = some s' := by
  simp only [eventTurn, ntyScheduleSearchWait, Option.bind_eq_bind, Option.bind_eq_some_iff,
    Option.some.injEq] at h
  obtain ⟨_, ⟨p, hp, co, hco, rfl⟩, h⟩ := h
  cases isEof with
  | false => exact ⟨p, co, _, hp, hco, .inl rfl, h⟩
  | true =>
    simp only [if_true, Schedule.put, Function.update_idem] at h
    exact ⟨p, co, _, hp, hco, .inr rfl, h⟩

inductive Action
  | tick (now : UInt64)
  | create (p : Ptr)
  /-- `main` calls `nty_schedule_run`. -/
  | run
  /-- The next turn of the loops of `nty_schedule_run`. -/
  | schedule
  /-- What `epoll_wait` fills `eventlist` with. -/
  | epoll (l : List (Int × Bool))
  | sleep (msecs : UInt64)
  | wait (call : Call) (fd : Int) (added : Bool)
  /-- The body returns. -/
  | exit

def schedule (s : Schedule) : Option Schedule :=
  match s.pc with
  | .isdone => some { s with pc := if ntyScheduleIsdone s then .done else .expired }
  | .expired =>
    match ntyScheduleExpired s with
    | some (s, p) => ntyCoroutineResume s p .expired
    | none => some { s with pc := .ready s.ready.getLast? }
  | .ready last => readyTurn s last
  | .events [] => some { s with pc := .isdone }
  | .events ((fd, isEof) :: rest) => eventTurn s fd isEof rest
  | _ => none

def body (s : Schedule) (p : Ptr) (ret : Pc) : Action → Option Schedule
  | .create q => ntyCoroutineCreate s q
  | .sleep msecs => ntyCoroutineSleep s p msecs ret
  | .wait call fd added => ntyEpollInner s p fd call.events added ret
  | .exit => execEnd s p ret
  | _ => none

def step (s : Schedule) (i : Action) : Option Schedule :=
  if s.fault.isSome then none
  else
    match i, s.pc, s.currThread with
    | .tick now, _, _ => if s.now ≤ now then some { s with now := now } else none
    | .run, .main, _ => some { s with pc := .isdone }
    | .create q, .main, _ => ntyCoroutineCreate s q
    | .schedule, _, _ => schedule s
    | .epoll l, .epoll, _ =>
      if ntyScheduleMinTimeout s ≠ 0 ∧ s.ready = [] then
        if (l.map Prod.fst).Nodup ∧ ∀ e ∈ l, s.epfd e.1 then some { s with pc := .events l }
        else none
      else if l = [] then some { s with pc := .events [] } else none
    | i, .running ret, some p => body s p ret i
    | _, _, _ => none

theorem schedule_cases {s s' : Schedule} (h : schedule s = some s') : (∀ ret, s.pc ≠ .running ret) ∧
    ((∃ pc, s' = { s with pc := pc }) ∨
      (∃ p, s.rbMinSleep = some p ∧ ntyCoroutineResume (s.rbRemoveSleep p) p .expired = some s') ∨
      (∃ last, readyTurn s last = some s') ∨
      ∃ fd isEof rest, eventTurn s fd isEof rest = some s') := by
  unfold schedule at h
  split at h
  · next hpc => exact ⟨by simp [hpc], .inl ⟨_, (Option.some.inj h).symm⟩⟩
  · next hpc =>
    refine ⟨by simp [hpc], ?_⟩
    split at h
    · next hexpired =>
      simp only [ntyScheduleExpired, Option.bind_eq_bind, Option.bind_eq_some_iff,
        Option.ite_none_right_eq_some, Option.some.injEq, Prod.mk.injEq] at hexpired
      obtain ⟨p, hmin, -, rfl, rfl⟩ := hexpired
      exact .inr (.inl ⟨p, hmin, h⟩)
    · exact .inl ⟨_, (Option.some.inj h).symm⟩
  · next hpc => exact ⟨by simp [hpc], .inr (.inr (.inl ⟨_, h⟩))⟩
  · next hpc => exact ⟨by simp [hpc], .inl ⟨_, (Option.some.inj h).symm⟩⟩
  · next hpc => exact ⟨by simp [hpc], .inr (.inr (.inr ⟨_, _, _, h⟩))⟩
  · cases h

theorem step_cases {s s' : Schedule} {i : Action} (h : step s i = some s') :
    (∃ now pc, s' = { s with now := now, pc := pc } ∧ (pc = s.pc ∨ ∀ ret, s.pc ≠ .running ret)) ∨
      (∃ p, ntyCoroutineCreate s p = some s') ∨ schedule s = some s' ∨
      ∃ p ret, s.currThread = some p ∧ body s p ret i = some s' := by
  unfold step at h
  split at h
  · cases h
  · split at h
    · split at h
      · exact .inl ⟨_, s.pc, (Option.some.inj h).symm, .inl rfl⟩
      · cases h
    · next hpc => exact .inl ⟨s.now, .isdone, (Option.some.inj h).symm, .inr (by simp [hpc])⟩
    · exact .inr (.inl ⟨_, h⟩)
    · exact .inr (.inr (.inl h))
    · next l hpc =>
      suffices hpc' : ∃ l, s' = { s with pc := .events l } by
        obtain ⟨l, rfl⟩ := hpc'
        exact .inl ⟨s.now, .events l, rfl, .inr (by simp [hpc])⟩
      split at h
      · split at h
        · exact ⟨_, (Option.some.inj h).symm⟩
        · cases h
      · split at h
        · exact ⟨_, (Option.some.inj h).symm⟩
        · cases h
    · next hcurr => exact .inr (.inr (.inr ⟨_, _, hcurr, h⟩))
    · cases h

/-- What is left when a coroutine is gone was there before. -/
theorem heap_of_freed {heap : Ptr → Option Coroutine} {p q : Ptr} {co : Coroutine}
    (h : Function.update heap p none q = some co) : heap q = some co := by
  rcases eq_or_ne q p with rfl | hne
  · rw [Function.update_self] at h
    cases h
  · rwa [Function.update_of_ne hne] at h

def fresh (now : UInt64) : Schedule :=
  ⟨fun _ => none, [], [], [], fun _ => false, now, now, none, .main, 0, [], none⟩

def coroutines : Transition Schedule Action where
  init s := ∃ now, s = fresh now
  step s i s' := step s i = some s'

def firstTurn : Schedule :=
  let co : Coroutine := ⟨.zero, BIT NTY_COROUTINE_STATUS_NEW, -1, 0, 0, 0⟩
  Schedule.switch { (fresh 0).put 1 co with serials := 1 } 1 (ntyCoroutineInit co) .epoll

theorem path_firstTurn :
    coroutines.Path (fresh 0) [.create 1, .run, .schedule, .schedule, .schedule] firstTurn :=
  .cons rfl <| .cons rfl <| .cons rfl <| .cons rfl <| .cons rfl <| .nil _

theorem reach_firstTurn {guard : Schedule → Action → Prop}
    (hguard : ∀ s, guard s (.create 1) ∧ guard s .run ∧ guard s .schedule) :
    Transition.Reach coroutines guard firstTurn := by
  refine Transition.Reach.path (.init ⟨0, rfl⟩) path_firstTurn fun i hi s => ?_
  obtain ⟨hcreate, hrun, hschedule⟩ := hguard s
  simp only [List.mem_cons, List.not_mem_nil, or_false, or_self] at hi
  rcases hi with rfl | rfl | rfl
  · exact hcreate
  · exact hrun
  · exact hschedule

end LearningCode.NtyCo
