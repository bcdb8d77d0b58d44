import LearningCode.Lib.Transition

/-!
# Flush and the condition variable

`yqueue_producer_thread_condition` and `yqueue_consumer_thread_condition` of
`4_test_lock_free_queue.cpp`, one producer and one consumer of `itemNum` items.
A write with its flush publishes an item in one step, and the flush reports a
sleeping reader when the last failed read has not been answered. The consumer
does not look at the queue again between a failed read and its wait, so what
matters is whether the producer's last notify falls in between.
-/

namespace LearningCode.Ypipe

open Transition

inductive Thread
  | producer
  | consumer
deriving DecidableEq

inductive Producer
  | loop (i : Nat)
  | lock (i : Nat)
  | notify (i : Nat)
  | unlock (i : Nat)
  | lastLock
  | lastNotify
  | lastUnlock
  | done
deriving DecidableEq

inductive Consumer
  | read
  | count
  | lock
  | wait
  | blocked
  | woken
  | unlock
  | check
  | done
deriving DecidableEq

structure State where
  countPush : Nat
  countPop : Nat
  published : Nat
  taken : Nat
  /-- A read has failed and no flush has answered it. -/
  asleep : Bool
  /-- The owner of `ypipe_mutex_`. -/
  mutex : Option Thread
  producer : Producer
  consumer : Consumer
deriving DecidableEq

/-- A thread in `ypipe_cond_.wait` wakes and has to take the mutex again. -/
def notifyOne : Consumer → Consumer
  | .blocked => .woken
  | c => c

def produce (itemNum : Nat) (s : State) : Option State :=
  match s.producer with
  | .loop i =>
    if i < itemNum then
      let flush := !s.asleep
      some { s with
        countPush := s.countPush + 1, published := s.published + 1, asleep := false
        producer := if flush then .loop (i + 1) else .lock (i + 1) }
    else some { s with producer := .lastLock }
  | .lock i =>
    if s.mutex = none then some { s with mutex := some .producer, producer := .notify i } else none
  | .notify i => some { s with consumer := notifyOne s.consumer, producer := .unlock i }
  | .unlock i => some { s with mutex := none, producer := .loop i }
  | .lastLock =>
    if s.mutex = none then some { s with mutex := some .producer, producer := .lastNotify } else none
  | .lastNotify => some { s with consumer := notifyOne s.consumer, producer := .lastUnlock }
  | .lastUnlock => some { s with mutex := none, producer := .done }
  | .done => none

def consume (itemNum : Nat) (s : State) : Option State :=
  match s.consumer with
  | .read =>
    if s.taken < s.published then some { s with taken := s.taken + 1, consumer := .count }
    else some { s with asleep := true, consumer := .lock }
  | .count => some { s with countPop := s.countPop + 1, consumer := .check }
  | .lock =>
    if s.mutex = none then some { s with mutex := some .consumer, consumer := .wait } else none
  | .wait => some { s with mutex := none, consumer := .blocked }
  | .blocked => none
  | .woken =>
    if s.mutex = none then some { s with mutex := some .consumer, consumer := .unlock } else none
  | .unlock => some { s with mutex := none, consumer := .check }
  | .check =>
    if s.countPop ≥ itemNum * 1 then some { s with consumer := .done }
    else some { s with consumer := .read }
  | .done => none

def step (itemNum : Nat) (s : State) : Thread → Option State
  | .producer => produce itemNum s
  | .consumer => consume itemNum s

def start : State := ⟨0, 0, 0, 0, false, none, .loop 0, .read⟩

def threads (itemNum : Nat) : Transition State Thread where
  init s := s = start
  step s t s' := step itemNum s t = some s'

/-- The producer is through, and the consumer sleeps beside unread items. -/
def Lost (s : State) : Prop :=
  s.producer = .done ∧ s.consumer = .blocked ∧ s.taken < s.published

/-- The last notify, with the consumer between a failed read and its wait. -/
def Gap (s : State) (t : Thread) : Prop :=
  t = .producer ∧ s.producer = .lastNotify ∧ s.consumer = .lock ∧ s.taken < s.published

instance (s : State) (t : Thread) : Decidable (Gap s t) :=
  inferInstanceAs (Decidable (_ ∧ _ ∧ _ ∧ _))

-- ---------------------------------------------------------------------------
-- What every run keeps
-- ---------------------------------------------------------------------------

def Producer.locked : Producer → Bool
  | .notify _ => true
  | .unlock _ => true
  | .lastNotify => true
  | .lastUnlock => true
  | _ => false

def Consumer.locked : Consumer → Bool
  | .wait => true
  | .unlock => true
  | _ => false

def Consumer.retires : Consumer → Bool
  | .lock => true
  | .wait => true
  | .blocked => true
  | _ => false

def Producer.final : Producer → Bool
  | .lastUnlock => true
  | .done => true
  | _ => false

structure Inv (s : State) : Prop where
  producer : s.producer.locked = true ↔ s.mutex = some .producer
  consumer : s.consumer.locked = true ↔ s.mutex = some .consumer
  awake : s.producer.final = true → s.consumer.retires = true → s.published ≤ s.taken

variable {itemNum : Nat} {s s' : State} {t : Thread}

@[simp] theorem notifyOne_locked (c : Consumer) : (notifyOne c).locked = c.locked := by
  cases c <;> rfl

theorem Inv.start : Inv start := by
  refine ⟨?_, ?_, ?_⟩ <;> simp [Ypipe.start, Producer.locked, Consumer.locked, Producer.final]

theorem Inv.produce (h : Inv s) (hgap : ¬Gap s .producer) (hs : produce itemNum s = some s') :
    Inv s' := by
  obtain ⟨hp, hc, hawake⟩ := h
  unfold Ypipe.produce at hs
  split at hs
  case h_1 i heq =>
    simp only [heq, Producer.locked] at hp
    split at hs <;> cases hs
    · cases s.asleep <;> exact ⟨hp, hc, by simp [Producer.final]⟩
    · exact ⟨hp, hc, by simp [Producer.final]⟩
  case h_2 i heq =>
    split at hs <;> cases hs
    next hfree => exact ⟨by simp [Producer.locked], by simp [hc, hfree], by simp [Producer.final]⟩
  case h_3 i heq =>
    cases hs
    simp only [heq, Producer.locked] at hp
    exact ⟨by simpa [Producer.locked] using hp, by simpa using hc, by simp [Producer.final]⟩
  case h_4 i heq =>
    cases hs
    simp only [heq, Producer.locked, true_iff] at hp
    exact ⟨by simp [Producer.locked], by simp [hc, hp], by simp [Producer.final]⟩
  case h_5 heq =>
    split at hs <;> cases hs
    next hfree => exact ⟨by simp [Producer.locked], by simp [hc, hfree], by simp [Producer.final]⟩
  case h_6 heq =>
    cases hs
    simp only [heq, Producer.locked, true_iff] at hp
    refine ⟨by simp [hp, Producer.locked], by simpa using hc, fun _ hretires => ?_⟩
    cases hcons : s.consumer with
    | lock => exact Nat.le_of_not_lt fun hlt => hgap ⟨rfl, heq, hcons, hlt⟩
    | wait =>
      -- a waiting consumer would own the mutex
      rw [hcons, hp] at hc
      simp [Consumer.locked] at hc
    | _ => simp [hcons, notifyOne, Consumer.retires] at hretires
  case h_7 heq =>
    cases hs
    simp only [heq, Producer.locked, true_iff] at hp
    refine ⟨by simp [Producer.locked], by simp [hc, hp], fun _ hretires => ?_⟩
    exact hawake (by rw [heq]; rfl) hretires
  case h_8 heq => cases hs

theorem Inv.consume (h : Inv s) (hs : consume itemNum s = some s') : Inv s' := by
  obtain ⟨hp, hc, hawake⟩ := h
  unfold Ypipe.consume at hs
  split at hs
  case h_1 heq =>
    simp only [heq, Consumer.locked] at hc
    split at hs <;> cases hs
    · exact ⟨hp, by simpa [Consumer.locked] using hc, by simp [Consumer.retires]⟩
    · next hnone =>
      exact ⟨hp, by simpa [Consumer.locked] using hc, fun _ _ => Nat.le_of_not_lt hnone⟩
  case h_2 heq =>
    cases hs
    simp only [heq, Consumer.locked] at hc
    exact ⟨hp, by simpa [Consumer.locked] using hc, by simp [Consumer.retires]⟩
  case h_3 heq =>
    split at hs <;> cases hs
    next hfree =>
      exact ⟨by simp [hp, hfree], by simp [Consumer.locked],
        fun hfinal _ => hawake hfinal (by rw [heq]; rfl)⟩
  case h_4 heq =>
    cases hs
    simp only [heq, Consumer.locked, true_iff] at hc
    exact ⟨by simp [hp, hc], by simp [Consumer.locked],
      fun hfinal _ => hawake hfinal (by rw [heq]; rfl)⟩
  case h_5 heq => cases hs
  case h_6 heq =>
    split at hs <;> cases hs
    next hfree =>
      exact ⟨by simp [hp, hfree], by simp [Consumer.locked], by simp [Consumer.retires]⟩
  case h_7 heq =>
    cases hs
    simp only [heq, Consumer.locked, true_iff] at hc
    exact ⟨by simp [hp, hc], by simp [Consumer.locked], by simp [Consumer.retires]⟩
  case h_8 heq =>
    simp only [heq, Consumer.locked] at hc
    split at hs <;> cases hs <;>
      exact ⟨hp, by simpa [Consumer.locked] using hc, by simp [Consumer.retires]⟩
  case h_9 heq => cases hs

theorem Inv.not_lost (h : Inv s) : ¬Lost s := by
  rintro ⟨hdone, hblocked, hlt⟩
  exact Nat.not_le_of_lt hlt (h.awake (by rw [hdone]; rfl) (by rw [hblocked]; rfl))

def steps (itemNum : Nat) : State → List Thread → Option State
  | s, [] => some s
  | s, t :: ts => (step itemNum s t).bind fun s' => steps itemNum s' ts

/-- No wake-up is lost in a run whose last notify does not fall into the gap;
where it does, it is lost if the producer goes on first. -/
theorem wakeUp_lost_iff_gap (itemNum : Nat) :
    (∀ s, Reach (threads itemNum) (fun s t => ¬Gap s t) s → ¬Lost s) ∧
      ∀ s, Gap s .producer →
        ∃ s', steps itemNum s [.producer, .producer, .consumer, .consumer] = some s' ∧ Lost s' := by
  constructor
  · intro s hr
    refine (hr.invariant (P := Inv) ?_ ?_).not_lost
    · rintro s rfl
      exact Inv.start
    · intro s t s' h hgap hs
      cases t with
      | producer => exact h.produce hgap hs
      | consumer => exact h.consume hs
  · rintro s ⟨-, hp, hc, hlt⟩
    refine ⟨{ s with mutex := none, producer := .done, consumer := .blocked }, ?_, rfl, rfl, hlt⟩
    simp [steps, step, produce, consume, hp, hc, notifyOne]

theorem reach_steps {l : List Thread} (h : Reach (threads itemNum) free s)
    (hs : steps itemNum s l = some s') : Reach (threads itemNum) free s' := by
  induction l generalizing s with
  | nil =>
    cases hs
    exact h
  | cons t l ih =>
    obtain ⟨u, hu, hs⟩ := Option.bind_eq_some_iff.mp hs
    exact ih (.step h trivial hu) hs

def spared (itemNum : Nat) : State → List Thread → Option State
  | s, [] => some s
  | s, t :: ts =>
    if Gap s t then none else (step itemNum s t).bind fun s' => spared itemNum s' ts

theorem reach_spared {l : List Thread} (h : Reach (threads itemNum) (fun s t => ¬Gap s t) s)
    (hs : spared itemNum s l = some s') : Reach (threads itemNum) (fun s t => ¬Gap s t) s' := by
  induction l generalizing s with
  | nil =>
    cases hs
    exact h
  | cons t l ih =>
    obtain ⟨hgap, hs⟩ := Option.ite_none_left_eq_some.mp hs
    obtain ⟨u, hu, hs⟩ := Option.bind_eq_some_iff.mp hs
    exact ih (.step h hgap hu) hs

/-- One item; the consumer sleeps before it is published, and the producer, now
through, has woken it up. -/
def roused : State := ⟨1, 0, 1, 0, false, none, .done, .woken⟩

theorem reach_roused : Reach (threads 1) (fun s t => ¬Gap s t) roused := by
  refine reach_spared (l := [.consumer, .consumer, .consumer, .producer, .producer, .producer,
    .producer, .producer, .producer, .producer, .producer]) (.init rfl) ?_
  decide

/-- One item; the consumer reads before it is published, and stops before it
takes the mutex. -/
def gap : State := ⟨1, 0, 1, 0, false, some .producer, .lastNotify, .lock⟩

theorem reach_gap : Reach (threads 1) free gap := by
  refine reach_steps (l := [.consumer, .producer, .producer, .producer, .producer, .producer,
    .producer]) (.init rfl) ?_
  decide

theorem wakeUp_lost_iff_gap_one :
    ¬Lost roused ∧ Reach (threads 1) free gap ∧ ∃ s', steps 1 gap
      [.producer, .producer, .consumer, .consumer] = some s' ∧ Lost s' :=
  ⟨(wakeUp_lost_iff_gap 1).1 roused reach_roused, reach_gap,
    (wakeUp_lost_iff_gap 1).2 gap ⟨rfl, rfl, rfl, Nat.zero_lt_one⟩⟩

theorem wakeUp_lost : ¬∀ itemNum s, Reach (threads itemNum) free s → ¬Lost s := by
  intro h
  refine h 1 ⟨1, 0, 1, 0, false, none, .done, .blocked⟩ ?_ ⟨rfl, rfl, Nat.zero_lt_one⟩
  refine reach_steps (l := [.producer, .producer, .consumer, .consumer]) reach_gap ?_
  decide

end LearningCode.Ypipe
