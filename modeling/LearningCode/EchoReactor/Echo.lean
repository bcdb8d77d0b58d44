import Mathlib.Tactic.SplitIfs
import LearningCode.EchoReactor.Model

/-!
# What a connection gets back

A connection whose record waits for reading has been sent what it was received
from, and one whose record waits for writing all but the bytes of the send buffer.
After a short `send` the buffer is sent from its start again, and from then on the
connection has been sent more than it was received from.
-/

namespace LearningCode.EchoReactor

open Transition (Reach free)

variable {r r' : Reactor} {fd listenfd : Nat} {item : Nitem} {w : Wire} {data : List UInt8}

def Wire.Settled (w : Wire) : Prop :=
  if w.short then w.received.length < w.accepted.length else w.accepted = w.received

/-- The last bytes received, `data`, are still to be sent; `done` are those before. -/
def Wire.Pending (w : Wire) (data : List UInt8) : Prop :=
  data ≠ [] ∧ ∃ done, w.received = done ++ data ∧
    if w.short then done.length < w.accepted.length else w.accepted = done

/-- What the record of a descriptor says is what `epoll` does, and what became of
its connection. -/
def Sound (listenfd fd : Nat) (item : Nitem) (interest : Option Nat) (w : Wire) : Prop :=
  match item.events with
  | .NOSET_CB => interest = none ∧ w.Settled
  | .READ_CB => interest = some EPOLLIN ∧ item.readCb = .readCallback ∧ w.Settled
  | .WRITE_CB => interest = some EPOLLOUT ∧ item.writeCb = .writeCallback ∧
      ∃ data, item.sbuffer.take data.length = data ∧ item.slength = data.length ∧ w.Pending data
  | .ACCEPT_CB => interest = some EPOLLIN ∧ item.acceptCb = .acceptCallback ∧ fd = listenfd ∧
      w = Wire.silent

structure Inv (listenfd : Nat) (r : Reactor) : Prop where
  sound : ∀ fd, Sound listenfd fd (r.items fd) (r.interest fd) (r.wire fd)
  /-- A descriptor that is not open has a record that is not registered. -/
  closed : ∀ fd, r.opened fd = false → (r.items fd).events = .NOSET_CB
  listens : (r.items listenfd).events = .ACCEPT_CB

-- ---------------------------------------------------------------------------
-- the wire
-- ---------------------------------------------------------------------------

theorem Wire.silent_settled : Wire.silent.Settled := rfl

theorem Wire.Settled.receive (h : w.Settled) (hne : data ≠ []) : (w.receive data).Pending data :=
  ⟨hne, w.received, rfl, h⟩

theorem Wire.Pending.send_all {sbuffer : List UInt8} (h : w.Pending data)
    (hbuf : sbuffer.take data.length = data) {ret : Int} (hret : ret = data.length) :
    (w.send sbuffer data.length ret).Settled := by
  obtain ⟨hne, done, hrec, hacc⟩ := h
  have hpos := List.length_pos_of_ne_nil hne
  subst hret
  simp only [Wire.send, Settled, Int.toNat_natCast, hbuf, lt_self_iff_false, and_false, decide_false,
    Bool.or_false, hrec, List.length_append]
  split_ifs at hacc ⊢
  · omega
  · rw [hacc]

theorem Wire.Pending.send_less {sbuffer : List UInt8} (h : w.Pending data)
    (hbuf : sbuffer.take data.length = data) {ret : Int}
    (hret : ret = -1 ∨ 1 ≤ ret ∧ ret < data.length) :
    (w.send sbuffer data.length ret).Pending data := by
  obtain ⟨hne, done, hrec, hacc⟩ := h
  have hlen : data.length ≤ sbuffer.length := by
    have := congrArg List.length hbuf
    rw [List.length_take] at this
    omega
  refine ⟨hne, done, hrec, ?_⟩
  rcases hret with rfl | ⟨hone, hless⟩
  · simpa [Wire.send] using hacc
  · have hshort : (w.send sbuffer data.length ret).short = true := by
      simp [Wire.send, hless, Int.lt_of_lt_of_le Int.one_pos hone]
    rw [if_pos hshort]
    simp only [Wire.send, List.length_append, List.length_take]
    split_ifs at hacc
    · omega
    · rw [hacc]
      omega

-- ---------------------------------------------------------------------------
-- steps
-- ---------------------------------------------------------------------------

theorem reactorSetEvent_eq (cb : NtyCallBack) (event : Event)
    (h : r.interest fd = if (r.items fd).events = .NOSET_CB then none
      else some (r.items fd).events.toEpoll) :
    reactorSetEvent r fd cb event =
      { r.put fd { (r.items fd).setCb cb event with events := event } with
        interest := Function.update r.interest fd (some event.toEpoll) } := by
  have hcb : ((r.items fd).setCb cb event).events = (r.items fd).events := by cases event <;> rfl
  simp only [reactorSetEvent, hcb]
  by_cases hnoset : (r.items fd).events = .NOSET_CB
  · rw [if_pos hnoset] at h
    simp [hnoset, h]
  · rw [if_neg hnoset] at h
    by_cases hsame : (r.items fd).events = event
    · have hself (item : Nitem) (h : item.events = event) : { item with events := event } = item := by
        subst h
        rfl
      have hinterest : Function.update r.interest fd (some event.toEpoll) = r.interest := by
        rw [← hsame, ← h, Function.update_eq_self]
      rw [if_neg hnoset, if_neg (not_not.mpr hsame), hself _ (hcb.trans hsame), hinterest]
      rfl
    · simp [hnoset, hsame, h]

theorem Sound.interest {interest : Option Nat} (h : Sound listenfd fd item interest w) :
    interest = if item.events = .NOSET_CB then none else some item.events.toEpoll := by
  unfold Sound at h
  split at h <;> simp_all [Event.toEpoll]

theorem Sound.read (h : Sound listenfd fd item (some EPOLLIN) w) (hne : fd ≠ listenfd) :
    item.events = .READ_CB ∧ w.Settled := by
  unfold Sound at h
  split at h
  · exact nomatch h.1
  · exact ⟨‹_›, h.2.2⟩
  · exact nomatch h.1
  · exact absurd h.2.2.1 hne

theorem Sound.write (h : Sound listenfd fd item (some EPOLLOUT) w) : item.events = .WRITE_CB ∧
    ∃ data, item.sbuffer.take data.length = data ∧ item.slength = data.length ∧ w.Pending data := by
  unfold Sound at h
  split at h
  · exact nomatch h.1
  · exact nomatch h.1
  · exact ⟨‹_›, h.2.2⟩
  · exact nomatch h.1

theorem Inv.update (h : Inv listenfd r) (fd : Nat)
    (hframe : ∀ fd' ≠ fd, r'.items fd' = r.items fd' ∧ r'.interest fd' = r.interest fd' ∧
      r'.opened fd' = r.opened fd' ∧ r'.wire fd' = r.wire fd')
    (hsound : Sound listenfd fd (r'.items fd) (r'.interest fd) (r'.wire fd))
    (hclosed : r'.opened fd = false → (r'.items fd).events = .NOSET_CB) (hne : fd ≠ listenfd) :
    Inv listenfd r' where
  sound fd' := by
    by_cases hfd : fd' = fd
    · rw [hfd]
      exact hsound
    · obtain ⟨hitem, hinterest, -, hwire⟩ := hframe fd' hfd
      rw [hitem, hinterest, hwire]
      exact h.sound fd'
  closed fd' hopened := by
    by_cases hfd : fd' = fd
    · rw [hfd] at hopened ⊢
      exact hclosed hopened
    · obtain ⟨hitem, -, hopen, -⟩ := hframe fd' hfd
      rw [hitem]
      exact h.closed fd' (hopen ▸ hopened)
  listens := by
    rw [(hframe listenfd hne.symm).1]
    exact h.listens

theorem Inv.acceptCallback (h : Inv listenfd r) {connfd : Nat} (hopened : r.opened connfd = false) :
    Inv listenfd (acceptCallback r connfd) := by
  have hnoset := h.closed connfd hopened
  have hinterest := (h.sound connfd).interest
  have hne : connfd ≠ listenfd := by
    rintro rfl
    exact nomatch hnoset.symm.trans h.listens
  rw [EchoReactor.acceptCallback, reactorSetEvent_eq _ _ (by exact hinterest)]
  refine h.update connfd (fun fd' hfd => ?_) ?_ ?_ hne
  · simp [Reactor.put, hfd]
  · simp [Sound, Reactor.put, Nitem.setCb, Event.toEpoll, Wire.silent_settled]
  · simp [Reactor.put]

theorem Inv.readCallback (h : Inv listenfd r) (hne : fd ≠ listenfd)
    (hinterest : r.interest fd = some EPOLLIN) (data : Option (List UInt8)) :
    Inv listenfd (readCallback r fd data) := by
  obtain ⟨hevents, hsettled⟩ := (hinterest ▸ h.sound fd).read hne
  match data with
  | none => exact h
  | some [] =>
    refine h.update fd (fun fd' hfd => ?_) ?_ ?_ hne
    · simp [EchoReactor.readCallback, reactorDelEvent, Reactor.put, Reactor.close, hfd]
    · simpa [EchoReactor.readCallback, Sound, reactorDelEvent, Reactor.put, Reactor.close]
    · simp [EchoReactor.readCallback, reactorDelEvent, Reactor.put, Reactor.close]
  | some (c :: data) =>
    change Inv listenfd (reactorSetEvent _ fd .writeCallback .WRITE_CB)
    rw [reactorSetEvent_eq _ _ (by
      simpa [Reactor.put, Nitem.receive] using (h.sound fd).interest)]
    refine h.update fd (fun fd' hfd => ?_) ?_ ?_ hne
    · simp [Reactor.put, hfd]
    · simp only [Sound, Reactor.put, Nitem.setCb, Function.update_self, Event.toEpoll, true_and]
      exact ⟨c :: data, by simp [Nitem.receive], rfl, hsettled.receive nofun⟩
    · intro hopened
      exact nomatch hevents.symm.trans (h.closed fd hopened)

theorem Inv.writeCallback (h : Inv listenfd r) (hne : fd ≠ listenfd)
    (hinterest : r.interest fd = some EPOLLOUT) {ret : Int}
    (hret : ret = -1 ∨ 1 ≤ ret ∧ ret ≤ (r.items fd).slength) :
    Inv listenfd (writeCallback r fd ret) := by
  obtain ⟨hevents, data, hbuf, hlen, hpending⟩ := (hinterest ▸ h.sound fd).write
  have hopened (hclosed : r.opened fd = false) (P : Prop) : P :=
    nomatch hevents.symm.trans (h.closed fd hclosed)
  rw [hlen] at hret
  simp only [EchoReactor.writeCallback]
  split_ifs with hless
  · rw [hlen] at hless
    rw [reactorSetEvent_eq _ _ (by exact (h.sound fd).interest)]
    refine h.update fd (fun fd' hfd => ?_) ?_ (fun hclosed => hopened hclosed _) hne
    · simp [Reactor.put, hfd]
    · simp only [Sound, Reactor.put, Nitem.setCb, Function.update_self, Event.toEpoll, true_and, hlen]
      exact ⟨data, hbuf, rfl, hpending.send_less hbuf (hret.imp_right fun h => ⟨h.1, hless⟩)⟩
  · rw [hlen] at hless
    rw [reactorSetEvent_eq _ _ (by exact (h.sound fd).interest)]
    refine h.update fd (fun fd' hfd => ?_) ?_ (fun hclosed => hopened hclosed _) hne
    · simp [Reactor.put, hfd]
    · simp only [Sound, Reactor.put, Nitem.setCb, Function.update_self, Event.toEpoll, true_and, hlen]
      exact hpending.send_all hbuf (by omega)

theorem Inv.start {opened : Nat → Bool} (hopened : opened listenfd = true) :
    Inv listenfd (start listenfd opened) := by
  rw [EchoReactor.start, reactorSetEvent_eq _ _ (by rfl)]
  refine ⟨fun fd => ?_, fun fd hclosed => ?_, by simp [Reactor.put]⟩
  · by_cases hfd : fd = listenfd
    · simp [Sound, Reactor.put, Nitem.setCb, Event.toEpoll, hfd]
    · simp [Sound, Reactor.put, hfd, zeroed, Wire.silent_settled]
  · by_cases hfd : fd = listenfd
    · rw [hfd] at hclosed
      exact nomatch hopened.symm.trans hclosed
    · simp [Reactor.put, hfd, zeroed]

theorem Inv.step (h : Inv listenfd r) {i : Action} (hstep : step listenfd r i = some r') :
    Inv listenfd r' := by
  cases i with
  | accept connfd =>
    obtain ⟨⟨-, -, hopened, -⟩, hr'⟩ := Option.ite_none_right_eq_some.mp hstep
    obtain rfl := Option.some.inj hr'
    exact h.acceptCallback hopened
  | recv fd data =>
    obtain ⟨⟨hne, hinterest, -, -⟩, hr'⟩ := Option.ite_none_right_eq_some.mp hstep
    obtain rfl := Option.some.inj hr'
    exact h.readCallback hne hinterest data
  | send fd ret =>
    obtain ⟨⟨hne, hinterest, -, hret⟩, hr'⟩ := Option.ite_none_right_eq_some.mp hstep
    obtain rfl := Option.some.inj hr'
    exact h.writeCallback hne hinterest hret

theorem reach_inv (h : Reach (reactor listenfd) free r) : Inv listenfd r :=
  h.invariant (fun _ ⟨_, hopened, hr⟩ => hr ▸ Inv.start hopened) fun _ _ _ hinv _ hstep => hinv.step hstep

-- ---------------------------------------------------------------------------
-- short sends
-- ---------------------------------------------------------------------------

@[simp] theorem wire_reactorSetEvent (r : Reactor) (fd : Nat) (cb : NtyCallBack) (event : Event) :
    (reactorSetEvent r fd cb event).wire = r.wire := by
  simp only [reactorSetEvent]
  split_ifs <;> rfl

theorem short_of_step {i : Action} (hstep : step listenfd r i = some r') (hi : Whole fd r i)
    (h : (r.wire fd).short = false) : (r'.wire fd).short = false := by
  cases i with
  | accept connfd =>
    obtain ⟨-, hr'⟩ := Option.ite_none_right_eq_some.mp hstep
    obtain rfl := Option.some.inj hr'
    by_cases hfd : fd = connfd
    · simp [acceptCallback, hfd, Wire.silent]
    · simpa [acceptCallback, hfd] using h
  | recv fd' data =>
    obtain ⟨-, hr'⟩ := Option.ite_none_right_eq_some.mp hstep
    obtain rfl := Option.some.inj hr'
    match data with
    | none => exact h
    | some [] => exact h
    | some (c :: data) =>
      change ((reactorSetEvent _ fd' .writeCallback .WRITE_CB).wire fd).short = false
      by_cases hfd : fd = fd'
      · subst hfd
        simpa [Wire.receive, Reactor.put] using h
      · simpa [hfd, Reactor.put] using h
  | send fd' ret =>
    obtain ⟨-, hr'⟩ := Option.ite_none_right_eq_some.mp hstep
    obtain rfl := Option.some.inj hr'
    have hwire : ((writeCallback r fd' ret).wire fd) = Function.update r.wire fd'
        ((r.wire fd').send (r.items fd').sbuffer (r.items fd').slength ret) fd := by
      simp only [writeCallback]
      split_ifs <;> simp
    rw [hwire]
    by_cases hfd : fd' = fd
    · subst hfd
      simp only [Function.update_self, Wire.send, h, Bool.false_or, decide_eq_false_iff_not]
      exact hi rfl
    · rwa [Function.update_of_ne (Ne.symm hfd)]

theorem short_of_whole (h : Reach (reactor listenfd) (Whole fd) r) : (r.wire fd).short = false := by
  refine h.invariant (P := fun r => (r.wire fd).short = false) ?_ fun r i r' hshort hi hstep =>
    short_of_step hstep hi hshort
  rintro r ⟨opened, -, rfl⟩
  rw [start, wire_reactorSetEvent]
  rfl

/-- A connection whose `send`s were never short, and the end of the stream of one
that had a short one. -/
theorem echoes_whole (h : Reach (reactor listenfd) free r) (fd : Nat) :
    (Reach (reactor listenfd) (Whole fd) r →
      (r.wire fd).accepted <+: (r.wire fd).received ∧
        ((r.items fd).events = .READ_CB → (r.wire fd).accepted = (r.wire fd).received)) ∧
      ((r.wire fd).short = true → (r.items fd).events = .READ_CB →
        ¬ (r.wire fd).accepted <+: (r.wire fd).received) := by
  have hsound := (reach_inv h).sound fd
  unfold Sound at hsound
  constructor
  · intro hwhole
    have hshort := short_of_whole hwhole
    have settled (hw : (r.wire fd).Settled) : (r.wire fd).accepted = (r.wire fd).received := by
      simpa [Wire.Settled, hshort] using hw
    split at hsound <;> rename_i hevents
    · exact ⟨settled hsound.2 ▸ List.prefix_rfl, fun _ => settled hsound.2⟩
    · exact ⟨settled hsound.2.2 ▸ List.prefix_rfl, fun _ => settled hsound.2.2⟩
    · obtain ⟨-, -, data, -, -, -, done, hrec, hacc⟩ := hsound
      rw [hshort] at hacc
      rw [hrec, show (r.wire fd).accepted = done from hacc]
      exact ⟨List.prefix_append _ _, fun hread => nomatch hevents.symm.trans hread⟩
    · rw [hsound.2.2.2]
      exact ⟨List.prefix_rfl, fun _ => rfl⟩
  · intro hshort hread hprefix
    rw [hread] at hsound
    have hlt : (r.wire fd).received.length < (r.wire fd).accepted.length := by
      simpa [Wire.Settled, hshort] using hsound.2.2
    exact absurd hprefix.length_le (Nat.not_le.mpr hlt)

theorem echoes_two : ∃ r : Reactor, (r.wire 5).received = [97, 98] ∧ (r.items 5).events = .READ_CB ∧
    (r.wire 5).accepted = (r.wire 5).received := by
  have h0 : (reactor 4).init (start 4 fun fd => fd == 4) := ⟨_, rfl, rfl⟩
  have h := (((Reach.init h0 : Reach _ (Whole 5) _).step (i := Action.accept 5) trivial rfl).step
    (i := Action.recv 5 (some [97, 98])) trivial rfl).step (i := Action.send 5 2)
    (fun _ => by decide) rfl
  exact ⟨_, rfl, rfl, ((echoes_whole (h.mono fun _ _ _ => trivial) 5).1 h).2 rfl⟩

/-- Of two bytes `send` takes one, and then both. -/
theorem short_send_repeats : ¬ ∀ (listenfd fd : Nat) (r : Reactor), Reach (reactor listenfd) free r →
    (r.wire fd).accepted <+: (r.wire fd).received ∧
      ((r.items fd).events = .READ_CB → (r.wire fd).accepted = (r.wire fd).received) := by
  intro h
  have h0 : (reactor 4).init (start 4 fun fd => fd == 4) := ⟨_, rfl, rfl⟩
  have h1 := (((Reach.init h0 : Reach _ free _).step (i := Action.accept 5) trivial rfl).step
    (i := Action.recv 5 (some [97, 98])) trivial rfl).step (i := Action.send 5 1) trivial rfl
  have h2 := h1.step (i := Action.send 5 2) trivial rfl
  exact absurd (h 4 5 _ h2).1 (by decide)

end LearningCode.EchoReactor
