import Mathlib.Data.List.Perm.Subperm
import LearningCode.Lib.Transition
import Mathlib.Logic.Function.Basic

/-!
# The accept loop

`start` of `server.cc` and the first step of the threads it creates. All
iterations keep `resfd` in one place, and a thread reads it through the pointer
whenever it gets to run. A store behind the end of `fds` has no successor.
-/

namespace LearningCode.ImServer

open Transition

inductive Pc
  | accept
  | create
  | store
  deriving DecidableEq

structure Server where
  resfd : Int
  fds : Fin 100 → Int
  size : Nat
  pc : Pc
  /-- What `accept` returned, in order. -/
  accepted : List Int
  created : Nat
  /-- The threads that have not read their argument. -/
  pending : List Nat
  /-- The others, with their `tempFd`. -/
  handled : List (Nat × Int)

inductive Action
  | accept (fd : Int)
  /-- The next statement of the loop. -/
  | next
  /-- `int tempFd = *(int*)p` -/
  | recvMsg (thread : Nat)

def step (s : Server) : Action → Option Server
  | .accept fd =>
    if s.pc = .accept then
      some { s with resfd := fd, accepted := s.accepted ++ [fd], pc := .create }
    else none
  | .next =>
    match s.pc with
    | .accept => none
    | .create =>
      some { s with created := s.created + 1, pending := s.created :: s.pending, pc := .store }
    | .store =>
      if h : s.size < 100 then
        some { s with
          fds := Function.update s.fds ⟨s.size, h⟩ s.resfd, size := s.size + 1, pc := .accept }
      else none
  | .recvMsg thread =>
    if thread ∈ s.pending then
      some { s with
        pending := s.pending.erase thread, handled := s.handled ++ [(thread, s.resfd)] }
    else none

def server : Transition Server Action where
  init s := ∃ resfd fds, s = ⟨resfd, fds, 0, .accept, [], 0, [], []⟩
  step s i s' := step s i = some s'

/-- No thread still has to read what `accept` is about to overwrite. -/
def Copied (s : Server) (i : Action) : Prop := ∀ fd, i = .accept fd → s.pending = []

structure Handled (s : Server) : Prop where
  threads : (s.handled.map Prod.fst).Nodup
  once : (s.handled.map Prod.snd).Subperm s.accepted
  each : s.pending = [] → s.pc ≠ .create → (s.handled.map Prod.snd).Perm s.accepted

-- ---------------------------------------------------------------------------
-- Every run
-- ---------------------------------------------------------------------------

/-- The descriptor on its way to a thread: in `resfd`, from `accept` until it is read. -/
def Server.due (s : Server) : List Int :=
  if s.pc = .create ∨ s.pending ≠ [] then [s.resfd] else []

structure Inv (s : Server) : Prop where
  threads : (s.pending ++ s.handled.map Prod.fst).Nodup
  fresh : ∀ t ∈ s.pending ++ s.handled.map Prod.fst, t < s.created
  single : s.pending.length ≤ 1
  create : s.pc = .create → s.pending = []
  balance : (s.handled.map Prod.snd ++ s.due).Perm s.accepted

variable {s s' : Server} {i : Action}

theorem due_of_some (h : s.pc = .create ∨ s.pending ≠ []) : s.due = [s.resfd] := if_pos h

theorem due_of_none (hpc : s.pc ≠ .create) (hpending : s.pending = []) : s.due = [] :=
  if_neg fun h => h.elim hpc fun hne => hne hpending

theorem Inv.accept (h : Inv s) {fd : Int} (hpc : s.pc = .accept) (hpending : s.pending = []) :
    Inv { s with resfd := fd, accepted := s.accepted ++ [fd], pc := .create } := by
  have hbalance := h.balance
  rw [due_of_none (by simp [hpc]) hpending, List.append_nil] at hbalance
  refine ⟨h.threads, h.fresh, h.single, fun _ => hpending, ?_⟩
  rw [due_of_some (.inl rfl)]
  exact hbalance.append_right _

theorem Inv.pthreadCreate (h : Inv s) (hpc : s.pc = .create) : Inv { s with
    created := s.created + 1, pending := s.created :: s.pending, pc := .store } := by
  have hpending := h.create hpc
  have hbalance := h.balance
  have hnew : s.created ∉ s.pending ++ s.handled.map Prod.fst := fun hmem =>
    Nat.lt_irrefl _ (h.fresh _ hmem)
  rw [due_of_some (.inl hpc)] at hbalance
  refine ⟨List.nodup_cons.mpr ⟨hnew, h.threads⟩, ?_, by simp [hpending], nofun, ?_⟩
  · intro t ht
    rcases List.mem_cons.mp ht with rfl | ht
    · exact Nat.lt_succ_self _
    · exact Nat.lt_succ_of_lt (h.fresh t ht)
  · rw [due_of_some (.inr (by simp))]
    exact hbalance

theorem Inv.store (h : Inv s) (hpc : s.pc = .store) (hsize : s.size < 100) : Inv { s with
    fds := Function.update s.fds ⟨s.size, hsize⟩ s.resfd
    size := s.size + 1
    pc := .accept } := by
  refine ⟨h.threads, h.fresh, h.single, nofun, ?_⟩
  have hbalance := h.balance
  simp only [Server.due, hpc, reduceCtorEq, false_or] at hbalance ⊢
  exact hbalance

theorem Inv.recvMsg (h : Inv s) {thread : Nat} (hmem : thread ∈ s.pending) : Inv { s with
    pending := s.pending.erase thread, handled := s.handled ++ [(thread, s.resfd)] } := by
  obtain ⟨t, ht⟩ : ∃ t, s.pending = [t] :=
    List.length_eq_one_iff.mp (Nat.le_antisymm h.single (List.length_pos_of_mem hmem))
  obtain rfl : thread = t := by simpa [ht] using hmem
  have hnil : s.pending.erase thread = [] := by simp [ht]
  have hne : s.pc ≠ .create := by
    intro hpc
    rw [h.create hpc] at hmem
    cases hmem
  have hperm : (s.pending.erase thread ++ (s.handled ++ [(thread, s.resfd)]).map Prod.fst).Perm
      (s.pending ++ s.handled.map Prod.fst) := by
    rw [hnil, ht, List.nil_append, List.map_append]
    exact List.perm_append_comm
  refine ⟨hperm.nodup_iff.mpr h.threads, fun t ht => h.fresh t (hperm.mem_iff.mp ht),
    by simp [hnil], fun hpc => absurd hpc hne, ?_⟩
  have hbalance := h.balance
  rw [due_of_some (.inr (by simp [ht]))] at hbalance
  have hdue := due_of_none (s := { s with
    pending := s.pending.erase thread, handled := s.handled ++ [(thread, s.resfd)] }) hne hnil
  rw [hdue, List.append_nil, List.map_append]
  exact hbalance

theorem Inv.step (h : Inv s) (hguard : Copied s i) (hstep : step s i = some s') : Inv s' := by
  cases i with
  | accept fd =>
    simp only [ImServer.step, Option.ite_none_right_eq_some, Option.some.injEq] at hstep
    obtain ⟨hpc, rfl⟩ := hstep
    exact h.accept hpc (hguard fd rfl)
  | next =>
    cases hpc : s.pc with
    | accept =>
      simp only [ImServer.step, hpc] at hstep
      cases hstep
    | create =>
      simp only [ImServer.step, hpc, Option.some.injEq] at hstep
      subst hstep
      exact h.pthreadCreate hpc
    | store =>
      simp only [ImServer.step, hpc, Option.dite_none_right_eq_some, Option.some.injEq] at hstep
      obtain ⟨hsize, rfl⟩ := hstep
      exact h.store hpc hsize
  | recvMsg thread =>
    simp only [ImServer.step, Option.ite_none_right_eq_some, Option.some.injEq] at hstep
    obtain ⟨hmem, rfl⟩ := hstep
    exact h.recvMsg hmem

theorem Inv.handled (h : Inv s) : Handled s := by
  refine ⟨(List.nodup_append.mp h.threads).2.1, ?_, fun hpending hpc => ?_⟩
  · exact (List.sublist_append_left _ _).subperm.trans h.balance.subperm
  · have hbalance := h.balance
    rwa [due_of_none hpc hpending, List.append_nil] at hbalance

/-- While every thread reads its argument before the next `accept` returns, every
descriptor is handled once. -/
theorem descriptors_handled (h : Reach server Copied s) : Handled s := by
  suffices hinv : Inv s from hinv.handled
  refine h.invariant (P := Inv) ?_ fun s i s' hs hg hstep => hs.step hg hstep
  rintro s ⟨resfd, fds, rfl⟩
  exact ⟨.nil, nofun, Nat.zero_le _, nofun, .nil⟩

/-- Two clients, the thread of each started in time. -/
theorem descriptors_handled_inTurn : ∃ s : Server, s.accepted = [4, 5] ∧ s.pending = [] ∧
    Handled s := by
  have h0 : Reach server Copied ⟨0, fun _ => 0, 0, .accept, [], 0, [], []⟩ := .init ⟨0, _, rfl⟩
  have h1 := h0.step (i := Action.accept 4) (fun _ _ => rfl) rfl
  have h2 := h1.step (i := Action.next) nofun rfl
  have h3 := h2.step (i := Action.recvMsg 0) nofun rfl
  have h4 := h3.step (i := Action.next) nofun rfl
  have h5 := h4.step (i := Action.accept 5) (fun _ _ => rfl) rfl
  have h6 := h5.step (i := Action.next) nofun rfl
  have h7 := h6.step (i := Action.recvMsg 1) nofun rfl
  exact ⟨_, rfl, rfl, descriptors_handled h7⟩

/-- The second `accept` returns before the first thread has read its argument. -/
theorem descriptor_overwritten : ¬ ∀ s, Reach server free s → Handled s := by
  intro h
  have h0 : Reach server free ⟨0, fun _ => 0, 0, .accept, [], 0, [], []⟩ := .init ⟨0, _, rfl⟩
  have h1 := h0.step (i := Action.accept 4) trivial rfl
  have h2 := h1.step (i := Action.next) trivial rfl
  have h3 := h2.step (i := Action.next) trivial rfl
  have h4 := h3.step (i := Action.accept 5) trivial rfl
  have h5 := h4.step (i := Action.next) trivial rfl
  have h6 := h5.step (i := Action.recvMsg 0) trivial rfl
  have h7 := h6.step (i := Action.recvMsg 1) trivial rfl
  have hperm : ([5, 5] : List Int).Perm [4, 5] := (h _ h7).each rfl nofun
  revert hperm
  decide

end LearningCode.ImServer
