import Mathlib.Tactic.SplitIfs
import LearningCode.SelectServer.Model

/-!
# What a client of the select server gets

A client that is not waited for has been sent all that it sent. One that is waited
for lacks the bytes of one `recv`, and they are in `buff` as long as that `recv`
was the last of all.
-/

namespace LearningCode.SelectServer

open Transition (Reach free)

variable {s s' : Server} {i listenfd : Nat}

def Owes (s : Server) (i : Nat) : Prop :=
  ∃ data, s.received i = s.sent i ++ data ∧ (i ∉ s.wfds → data = []) ∧
    (i ∈ s.wfds → s.last = some i → s.buff.take s.n.toNat = data)

def Server.Ahead (s : Server) (j : Nat) : Prop :=
  match s.control with
  | .select => False
  | .listen => True
  | .scan i => i ≤ j

structure Inv (s : Server) : Prop where
  owes : ∀ i, Owes s i
  holder : ∀ i, s.last = some i → i ∈ s.opened
  ahead : ∀ j ∈ s.wset, s.Ahead j → j ∈ s.wfds

theorem Owes.begins (h : Owes s i) : s.sent i <+: s.received i := by
  obtain ⟨data, hdata, -, -⟩ := h
  exact hdata ▸ List.prefix_append _ _

theorem Inv.started (h : Started listenfd s) : Inv s where
  owes i := ⟨[], by simp [h.received, h.sent], fun _ => rfl, fun hi => by simp [h.wfds] at hi⟩
  holder i hi := by simp [h.last] at hi
  ahead j _ hj := by simp [Server.Ahead, h.control] at hj

theorem Inv.afterRecv (howes : ∀ j, Owes s j) (hholder : ∀ j, s.last = some j → j ∈ s.opened)
    (hahead : ∀ j ∈ s.wset, i + 1 ≤ j → j ∈ s.wfds) : Inv (afterRecv s i) := by
  unfold SelectServer.afterRecv
  split_ifs
  · exact ⟨howes, hholder, fun _ _ hj => hj.elim⟩
  · exact ⟨howes, hholder, hahead⟩

theorem Inv.recv (h : Inv s) (hcontrol : s.control = .scan i) {data : Option (List UInt8)}
    (hopen : i ∈ s.opened ∨ data = none) (hi : Alternating s (.recv data))
    (hstep : recv s i data = some s') : Inv s' := by
  have hahead (j : Nat) (hj : j ∈ s.wset) (hij : i + 1 ≤ j) : j ∈ s.wfds :=
    h.ahead j hj (by rw [Server.Ahead, hcontrol]; exact Nat.le_of_succ_le hij)
  match data with
  | none =>
    obtain rfl := Option.some.inj hstep
    refine Inv.afterRecv (fun j => ?_) nofun hahead
    obtain ⟨data, hdata, hsettled, -⟩ := h.owes j
    exact ⟨data, hdata, hsettled, nofun⟩
  | some [] =>
    obtain rfl := Option.some.inj hstep
    refine Inv.afterRecv (fun j => ?_) nofun hahead
    obtain ⟨data, hdata, hsettled, -⟩ := h.owes j
    exact ⟨data, hdata, hsettled, nofun⟩
  | some (c :: data) =>
    have hwait : i ∉ s.wfds := hi i hcontrol
    obtain ⟨-, hs'⟩ := Option.ite_none_right_eq_some.mp hstep
    obtain rfl := Option.some.inj hs'
    refine Inv.afterRecv (fun j => ?_) (fun j hj => ?_) fun j hj hij => ?_
    · obtain ⟨owed, howed, hsettled, hbuff⟩ := h.owes j
      by_cases hj : j = i
      · subst hj
        refine ⟨c :: data, ?_, ?_, fun _ _ => ?_⟩
        · simpa [hsettled hwait] using howed
        · exact fun hj => absurd (Finset.mem_insert_self ..) hj
        · simp
      · refine ⟨owed, ?_, ?_, ?_⟩
        · simpa [Function.update_of_ne hj] using howed
        · exact fun hjw => hsettled fun hw => hjw (Finset.mem_insert_of_mem hw)
        · exact fun _ hlast => absurd (Option.some.inj hlast).symm hj
    · rw [← Option.some.inj hj]
      exact hopen.resolve_right nofun
    · exact Finset.mem_insert_of_mem (hahead j hj hij)

theorem Inv.send (h : Inv s) (hcontrol : s.control = .scan i) (hi : Alternating s .send)
    (hwset : i ∈ s.wset) (hstep : send s i = some s') : Inv s' := by
  have hlast : s.last = some i := hi i hcontrol
  have hwfds : i ∈ s.wfds := h.ahead i hwset (by rw [Server.Ahead, hcontrol])
  obtain ⟨-, hs'⟩ := Option.ite_none_left_eq_some.mp hstep
  obtain rfl := Option.some.inj hs'
  refine ⟨fun j => ?_, h.holder, fun j hj hij => ?_⟩
  · obtain ⟨owed, howed, hsettled, hbuff⟩ := h.owes j
    by_cases hj : j = i
    · subst hj
      refine ⟨[], ?_, fun _ => rfl, fun hw => absurd rfl (Finset.ne_of_mem_erase hw)⟩
      simp [howed, hbuff hwfds hlast]
    · refine ⟨owed, ?_, ?_, ?_⟩
      · simpa [Function.update_of_ne hj] using howed
      · exact fun hjw => hsettled fun hw => hjw (Finset.mem_erase_of_ne_of_mem hj hw)
      · exact fun _ hlast' => absurd (Option.some.inj (hlast'.symm.trans hlast)) hj
  · refine Finset.mem_erase_of_ne_of_mem (Nat.ne_of_gt hij) ?_
    exact h.ahead j hj (by rw [Server.Ahead, hcontrol]; exact Nat.le_of_succ_le hij)

theorem Inv.accept (h : Inv s) {connfd : Nat} (hcontrol : s.control = .listen)
    (hopen : connfd ∉ s.opened) : Inv (accept listenfd s connfd) := by
  refine ⟨fun j => ?_, fun j hj => Finset.mem_insert_of_mem (h.holder j hj), fun j hj _ => ?_⟩
  · obtain ⟨owed, howed, hsettled, hbuff⟩ := h.owes j
    by_cases hj : j = connfd
    · subst hj
      refine ⟨[], by simp [SelectServer.accept], fun _ => rfl, fun _ hlast => ?_⟩
      exact absurd (h.holder j hlast) hopen
    · refine ⟨owed, ?_, hsettled, hbuff⟩
      simpa [SelectServer.accept, Function.update_of_ne hj] using howed
  · exact h.ahead j hj (by rw [Server.Ahead, hcontrol]; trivial)

theorem Inv.step (h : Inv s) {a : Action} (ha : Alternating s a)
    (hstep : step listenfd s a = some s') : Inv s' := by
  cases a with
  | ready rset wset =>
    obtain ⟨⟨-, -, hwset, -⟩, hs'⟩ := Option.ite_none_right_eq_some.mp hstep
    obtain rfl := Option.some.inj hs'
    exact ⟨h.owes, h.holder, fun j hj _ => hwset hj⟩
  | failed =>
    obtain ⟨-, hs'⟩ := Option.ite_none_right_eq_some.mp hstep
    obtain rfl := Option.some.inj hs'
    exact ⟨h.owes, h.holder, fun j hj _ => hj⟩
  | accept connfd =>
    obtain ⟨⟨hcontrol, -, hopen, -⟩, hs'⟩ := Option.ite_none_right_eq_some.mp hstep
    obtain rfl := Option.some.inj hs'
    exact h.accept hcontrol hopen
  | recv data =>
    simp only [SelectServer.step] at hstep
    split at hstep
    · rename_i i hcontrol
      obtain ⟨⟨-, -, hopen, -⟩, hs'⟩ := Option.ite_none_right_eq_some.mp hstep
      exact h.recv hcontrol hopen ha hs'
    · exact nomatch hstep
  | send =>
    simp only [SelectServer.step] at hstep
    split at hstep
    · rename_i i hcontrol
      obtain ⟨⟨-, -, hwset⟩, hs'⟩ := Option.ite_none_right_eq_some.mp hstep
      exact h.send hcontrol ha hwset hs'
    · exact nomatch hstep
  | next =>
    simp only [SelectServer.step] at hstep
    split at hstep
    · exact nomatch hstep
    · rename_i hcontrol
      obtain ⟨-, hs'⟩ := Option.ite_none_left_eq_some.mp hstep
      obtain rfl := Option.some.inj hs'
      exact ⟨h.owes, h.holder, fun j hj _ => h.ahead j hj (by rw [Server.Ahead, hcontrol]; trivial)⟩
    · rename_i i hcontrol
      split_ifs at hstep
      · obtain rfl := Option.some.inj hstep
        exact ⟨h.owes, h.holder, fun _ _ hj => hj.elim⟩
      · obtain rfl := Option.some.inj hstep
        refine ⟨h.owes, h.holder, fun j hj hij => h.ahead j hj ?_⟩
        rw [Server.Ahead, hcontrol]
        exact Nat.le_of_succ_le hij

/-- In the runs that alternate, a client is sent a prefix of what it sent. -/
theorem sent_prefix_received (h : Reach (server listenfd) Alternating s) (i : Nat) :
    s.sent i <+: s.received i := by
  have hinv := h.invariant (fun _ h => Inv.started h) fun _ _ _ hinv ha hstep => hinv.step ha hstep
  exact (hinv.owes i).begins

def initial : Server where
  control := .select
  rfds := {4}
  wfds := ∅
  rset := ∅
  wset := ∅
  nready := 0
  maxFd := 4
  buff := List.replicate MAX_LEN 0
  n := 0
  opened := {4}
  received _ := []
  sent _ := []
  last := none

theorem initial_started : Started 4 initial :=
  ⟨rfl, rfl, rfl, rfl, List.length_replicate, Finset.mem_singleton_self 4, fun _ => rfl, fun _ => rfl, rfl⟩

-- ---------------------------------------------------------------------------
-- two runs
-- ---------------------------------------------------------------------------

theorem step_ready {rset wset : Finset Nat} (h : s.control = .select ∧ rset ⊆ s.rfds ∧ wset ⊆ s.wfds ∧
    0 < rset.card + wset.card) : step listenfd s (.ready rset wset) = some { s with
      rset := rset, wset := wset, nready := rset.card + wset.card, control := .listen } :=
  if_pos h

theorem step_accept {connfd : Nat} (h : s.control = .listen ∧ listenfd ∈ s.rset ∧ connfd ∉ s.opened ∧
    connfd < FD_SETSIZE) : step listenfd s (.accept connfd) = some (accept listenfd s connfd) :=
  if_pos h

theorem step_listen (hcontrol : s.control = .listen) (h : listenfd ∉ s.rset) :
    step listenfd s .next = some { s with control := .scan (listenfd + 1) } := by
  simp only [step, hcontrol]
  exact if_neg h

theorem step_recv {data : List UInt8} (hcontrol : s.control = .scan i) (hi : i ≤ s.maxFd ∧ i ∈ s.rset)
    (hopen : i ∈ s.opened) (hlen : data.length ≤ MAX_LEN) :
    step listenfd s (.recv (some data)) = recv s i (some data) := by
  simp only [step, hcontrol]
  exact if_pos ⟨hi.1, hi.2, .inl hopen, hlen⟩

theorem step_send (hcontrol : s.control = .scan i) (h : i ≤ s.maxFd ∧ i ∉ s.rset ∧ i ∈ s.wset) :
    step listenfd s .send = send s i := by
  simp only [step, hcontrol]
  exact if_pos h

/-- A client is accepted on descriptor 5, sends two bytes and gets them back. -/
theorem sent_prefix_received_one : ∃ s : Server, s.received 5 = [97, 98] ∧ s.sent 5 = [97, 98] ∧
    s.sent 5 <+: s.received 5 := by
  have h0 : Reach (server 4) Alternating initial := .init initial_started
  have h1 := h0.step (i := Action.ready {4} ∅) trivial (step_ready ⟨rfl, by decide, by decide, by decide⟩)
  have h2 := h1.step (i := Action.accept 5) trivial (step_accept ⟨rfl, by decide, by decide, by decide⟩)
  have h3 := h2.step (i := Action.ready {5} ∅) trivial (step_ready ⟨rfl, by decide, by decide, by decide⟩)
  have h4 := h3.step (i := Action.next) trivial (step_listen rfl (by decide))
  have h5 := h4.step (i := Action.recv (some [97, 98])) (fun _ _ => Finset.notMem_empty _)
    ((step_recv (i := 5) rfl (by decide) (by decide) (by decide)).trans rfl)
  have h6 := h5.step (i := Action.ready ∅ {5}) trivial (step_ready ⟨rfl, by decide, by decide, by decide⟩)
  have h7 := h6.step (i := Action.next) trivial (step_listen rfl (by decide))
  have h8 := h7.step (i := Action.send) (fun _ hi => congrArg some (Control.scan.inj hi))
    ((step_send (i := 5) rfl (by decide)).trans rfl)
  exact ⟨_, rfl, rfl, sent_prefix_received h8 5⟩

/-- Two clients send a byte each before the first is answered, with the byte of the second. -/
theorem sent_to_another : ¬ ∀ (listenfd : Nat) (s : Server), Reach (server listenfd) free s →
    ∀ i, s.sent i <+: s.received i := by
  intro h
  have h0 : Reach (server 4) free initial := .init initial_started
  have h1 := h0.step (i := Action.ready {4} ∅) trivial (step_ready ⟨rfl, by decide, by decide, by decide⟩)
  have h2 := h1.step (i := Action.accept 5) trivial (step_accept ⟨rfl, by decide, by decide, by decide⟩)
  have h3 := h2.step (i := Action.ready {4} ∅) trivial (step_ready ⟨rfl, by decide, by decide, by decide⟩)
  have h4 := h3.step (i := Action.accept 6) trivial (step_accept ⟨rfl, by decide, by decide, by decide⟩)
  have h5 := h4.step (i := Action.ready {5, 6} ∅) trivial
    (step_ready ⟨rfl, by decide, by decide, by decide⟩)
  have h6 := h5.step (i := Action.next) trivial (step_listen rfl (by decide))
  have h7 := h6.step (i := Action.recv (some [97])) trivial
    ((step_recv (i := 5) rfl (by decide) (by decide) (by decide)).trans rfl)
  have h8 := h7.step (i := Action.recv (some [98])) trivial
    ((step_recv (i := 6) rfl (by decide) (by decide) (by decide)).trans rfl)
  have h9 := h8.step (i := Action.ready ∅ {5}) trivial (step_ready ⟨rfl, by decide, by decide, by decide⟩)
  have h10 := h9.step (i := Action.next) trivial (step_listen rfl (by decide))
  have h11 := h10.step (i := Action.send) trivial ((step_send (i := 5) rfl (by decide)).trans rfl)
  exact absurd (h 4 _ h11 5) (by decide)

end LearningCode.SelectServer
