import LearningCode.ThreadPoll.Process

/-!
# What `thread_destroy` reads while the workers leave

A worker whose flag is set may free itself at once, and `thread_destroy` still
needs its link. Where workers free themselves only behind it, it reads no freed
worker and sets every flag.
-/

namespace LearningCode.ThreadPoll

open Transition

variable {P P' : Process} {w : Ptr} {links : Heap} {l : List Ptr}

def MainPc.walking : MainPc → Prop
  | .visit _ => True
  | .next _ => True
  | _ => False

/-- While `thread_destroy` is on the list, a worker frees itself only behind it; and there
is no call of it once a worker is freed. -/
def freesBehind (P : Process) : Action → Prop
  | .worker w => P.pc w = .free → P.main.walking → w ∈ P.passed
  | .destroy => ∀ w, P.pc w ≠ .exited
  | _ => True

structure Same (P P' : Process) : Prop where
  main : P'.main = P.main
  passed : P'.passed = P.passed
  workers : P'.pool.workers = P.pool.workers
  termination : P'.pool.termination = P.pool.termination

structure Goes (P : Process) (w : Ptr) (P' : Process) (k : WorkerPc) : Prop where
  pc : P'.pc = Function.update P.pc w k
  born : P.pc w ≠ .none
  alive : P.pc w ≠ .exited
  free : k = .free → P.pool.termination w = true
  exited : k = .exited → P.pc w = .free
  kept : ∀ v, v ≠ w ∨ k ≠ .exited → P'.nodes v = P.nodes v
  freed : k = .exited → P'.nodes w = none
  same : Same P P'

theorem goes_on {k k' : WorkerPc} (hpc : P.pc w = k) (hk : k ≠ .none ∧ k ≠ .exited)
    (hpc' : P'.pc = Function.update P.pc w k') (hk' : k' ≠ .exited)
    (hfree : k' = .free → P.pool.termination w = true) (hnodes : P'.nodes = P.nodes) (hsame : Same P P') :
    Goes P w P' k' := by
  refine ⟨hpc', hpc ▸ hk.1, hpc ▸ hk.2, hfree, fun h => absurd h hk', fun v _ => ?_,
    fun h => absurd h hk', hsame⟩
  rw [hnodes]

theorem take_goes (hpc : P.pc w = .take) (h : take P w = some P') : ∃ k, Goes P w P' k := by
  unfold take at h
  split at h
  · cases h
    exact ⟨_, goes_on hpc (by decide) rfl nofun nofun rfl ⟨rfl, rfl, rfl, rfl⟩⟩
  · obtain ⟨⟨heap, tasks⟩, -, h⟩ := Option.bind_eq_some_iff.mp h
    cases h
    exact ⟨_, goes_on hpc (by decide) rfl nofun nofun rfl ⟨rfl, rfl, rfl, rfl⟩⟩

theorem threadCallback_goes (h : threadCallback P w = some P') : ∃ k, Goes P w P' k := by
  unfold threadCallback at h
  split at h
  case h_1 => cases h
  case h_2 hpc =>
    obtain ⟨-, h⟩ := Option.ite_none_right_eq_some.mp h
    cases h
    exact ⟨_, goes_on hpc (by decide) rfl nofun nofun rfl ⟨rfl, rfl, rfl, rfl⟩⟩
  case h_3 hpc =>
    cases h
    refine ⟨_, goes_on hpc (by decide) rfl ?_ ?_ rfl ⟨rfl, rfl, rfl, rfl⟩⟩
    all_goals split <;> nofun
  case h_4 hpc =>
    split at h <;> cases h
    all_goals exact ⟨_, goes_on hpc (by decide) rfl nofun nofun rfl ⟨rfl, rfl, rfl, rfl⟩⟩
  case h_5 hpc =>
    obtain ⟨-, h⟩ := Option.ite_none_right_eq_some.mp h
    cases h
    exact ⟨_, goes_on hpc (by decide) rfl nofun nofun rfl ⟨rfl, rfl, rfl, rfl⟩⟩
  case h_6 hpc =>
    split at h
    · next hflag =>
      cases h
      exact ⟨_, goes_on hpc (by decide) rfl nofun (fun _ => hflag) rfl ⟨rfl, rfl, rfl, rfl⟩⟩
    · cases h
      exact ⟨_, goes_on hpc (by decide) rfl nofun nofun rfl ⟨rfl, rfl, rfl, rfl⟩⟩
  case h_7 hpc => exact take_goes hpc h
  case h_8 task hpc =>
    cases h
    exact ⟨_, goes_on hpc ⟨nofun, nofun⟩ rfl nofun nofun rfl ⟨rfl, rfl, rfl, rfl⟩⟩
  case h_9 hpc =>
    cases h
    refine ⟨.exited, rfl, by simp [hpc], by simp [hpc], nofun, fun _ => hpc, fun v hv => ?_,
      fun _ => Function.update_self .., rfl, rfl, rfl, rfl⟩
    exact Function.update_of_ne (hv.resolve_right (· rfl)) _ _
  case h_10 => cases h

-- ---------------------------------------------------------------------------
-- The invariant
-- ---------------------------------------------------------------------------

/-- What `thread_destroy` has done, and what it has in front of it. -/
def Walk (P : Process) (l : List Ptr) : MainPc → Prop
  | .create => ∀ w, P.pool.termination w = false
  | .add _ => ∀ w, P.pool.termination w = false
  | .visit worker => ∃ ahead, l = P.passed.reverse ++ ahead ∧ worker = ahead.head? ∧
      (∀ w ∈ ahead, P.pc w ≠ .exited) ∧ ∀ w ∈ P.passed, P.pool.termination w = true
  | .next w => ∃ ahead, l = P.passed.reverse ++ w :: ahead ∧
      (∀ v ∈ w :: ahead, P.pc v ≠ .exited) ∧ ∀ v ∈ w :: P.passed, P.pool.termination v = true
  | .broadcast => ∀ w ∈ l, P.pool.termination w = true
  | .destroyed => ∀ w ∈ l, P.pool.termination w = true
  | .fault => False

/-- The workers on the list, with the links they have or had until they were freed. -/
structure Chained (P : Process) (links : Heap) (l : List Ptr) : Prop where
  linked : Linked links l
  first : P.pool.workers = l.head?
  nodup : l.Nodup
  kept : ∀ w, P.pc w ≠ .exited → P.nodes w = links w
  freed : ∀ w, P.pc w = .exited → P.nodes w = none
  added : ∀ w, P.main = .add w → w ∉ l ∧ links w ≠ none
  born : ∀ w, P.pc w ≠ .none → w ∈ l ∨ P.main = .add w
  flag : ∀ w, P.pc w = .free ∨ P.pc w = .exited → P.pool.termination w = true
  walk : Walk P l P.main

theorem Walk.congr {m : MainPc} (h : Walk P l m) (hnodup : l.Nodup) (hpassed : P'.passed = P.passed)
    (hflag : P'.pool.termination = P.pool.termination)
    (hpc : m.walking → ∀ w ∈ l, w ∉ P.passed → P.pc w ≠ .exited → P'.pc w ≠ .exited) :
    Walk P' l m := by
  cases m with
  | visit worker =>
    obtain ⟨ahead, rfl, hw, halive, hset⟩ := h
    rw [List.nodup_append] at hnodup
    refine ⟨ahead, by rw [hpassed], hw, fun w hw => ?_, by rwa [hpassed, hflag]⟩
    refine hpc trivial w (by simp [hw]) (fun hp => ?_) (halive w hw)
    exact hnodup.2.2 w (by simp [hp]) w hw rfl
  | next w =>
    obtain ⟨ahead, rfl, halive, hset⟩ := h
    rw [List.nodup_append] at hnodup
    refine ⟨ahead, by rw [hpassed], fun v hv => ?_, by rwa [hpassed, hflag]⟩
    refine hpc trivial v (List.mem_append_right _ hv) (fun hp => ?_) (halive v hv)
    exact hnodup.2.2 v (by simp [hp]) v hv rfl
  | fault => exact h
  | _ =>
    simp only [Walk, hflag] at h ⊢
    exact h

theorem Chained.goes {k : WorkerPc} (h : Chained P links l) (hgoes : Goes P w P' k)
    (hguard : P.pc w = .free → P.main.walking → w ∈ P.passed) : Chained P' links l := by
  have hw : P'.pc w = k := by rw [hgoes.pc, Function.update_self]
  have hpc (v : Ptr) (hv : v ≠ w) : P'.pc v = P.pc v := by rw [hgoes.pc, Function.update_of_ne hv]
  refine ⟨h.linked, hgoes.same.workers.trans h.first, h.nodup, fun v hv => ?_, fun v hv => ?_,
    hgoes.same.main ▸ h.added, fun v hv => ?_, fun v hv => ?_, ?_⟩
  · by_cases hvw : v = w
    · subst hvw
      exact (hgoes.kept v (.inr (hw ▸ hv))).trans (h.kept v hgoes.alive)
    · exact (hgoes.kept v (.inl hvw)).trans (h.kept v (hpc v hvw ▸ hv))
  · by_cases hvw : v = w
    · subst hvw
      exact hgoes.freed (hw.symm.trans hv)
    · exact (hgoes.kept v (.inl hvw)).trans (h.freed v (hpc v hvw ▸ hv))
  · rw [hgoes.same.main]
    by_cases hvw : v = w
    · exact h.born v (hvw ▸ hgoes.born)
    · exact h.born v (hpc v hvw ▸ hv)
  · rw [hgoes.same.termination]
    by_cases hvw : v = w
    · subst hvw
      rw [hw] at hv
      exact hv.elim hgoes.free fun hk => h.flag v (.inl (hgoes.exited hk))
    · exact h.flag v (hpc v hvw ▸ hv)
  · rw [hgoes.same.main]
    refine h.walk.congr h.nodup hgoes.same.passed hgoes.same.termination fun hwalk v _ hv halive => ?_
    by_cases hvw : v = w
    · subst hvw
      rw [hw]
      exact fun hk => hv (hguard (hgoes.exited hk) hwalk)
    · rwa [hpc v hvw]

/-- As long as no flag is set, no worker is freed. -/
theorem Chained.alive (h : Chained P links l) (hflag : ∀ w, P.pool.termination w = false) (w : Ptr) :
    P.pc w ≠ .exited ∧ P.nodes w = links w := by
  have halive : P.pc w ≠ .exited := fun hpc => by simpa [hflag] using h.flag w (.inr hpc)
  exact ⟨halive, h.kept w halive⟩

theorem Chained.create (h : Chained P links l) (hmain : P.main = .create) (hw : P.nodes w = none) :
    ∃ links, Chained
      ({ P with
        nodes := Function.update P.nodes w (some ⟨none, none⟩)
        pool := { P.pool with termination := Function.update P.pool.termination w false }
        main := .add w }.goto w .lock) links l := by
  have hflag : ∀ w, P.pool.termination w = false := by simpa [Walk, hmain] using h.walk
  have hsame : Function.update P.pool.termination w false = P.pool.termination :=
    Function.update_eq_self_iff.mpr (hflag w).symm
  have hwl : w ∉ l := fun hwl =>
    h.linked.ne_none hwl ((h.alive hflag w).2.symm.trans hw)
  have hne (v : Ptr) (hv : v ∈ l) : v ≠ w := by
    rintro rfl
    exact hwl hv
  refine ⟨Function.update links w (some ⟨none, none⟩), h.linked.congr ?_ ?_, h.first, h.nodup,
    fun v _ => ?_, fun v hv => ?_, ?_, fun v hv => ?_, fun v hv => ?_, ?_⟩
  · intro v hv
    simp [Heap.next, hne v hv]
  · intro v hv
    simp [Heap.prev, hne v hv]
  · by_cases hvw : v = w
    · simp [Process.goto, hvw]
    · simp [Process.goto, hvw, (h.alive hflag v).2]
  · by_cases hvw : v = w
    · simp [Process.goto, hvw] at hv
    · exact absurd (by simpa [Process.goto, hvw] using hv) (h.alive hflag v).1
  · rintro _ ⟨⟩
    exact ⟨hwl, by simp⟩
  · by_cases hvw : v = w
    · exact .inr (by rw [hvw]; rfl)
    · refine .inl ((h.born v ?_).resolve_right (by simp [hmain]))
      simpa [Process.goto, hvw] using hv
  · simp only [Process.goto, hsame]
    by_cases hvw : v = w
    · simp [Process.goto, hvw] at hv
    · exact h.flag v (by simpa [Process.goto, hvw] using hv)
  · simp only [Walk, Process.goto, hsame]
    exact hflag

theorem Chained.add (h : Chained P links l) (hmain : P.main = .add w) : ∃ nodes,
    llAdd P.nodes w P.pool.workers = some (nodes, some w) ∧
      Chained { P with
        nodes := nodes, pool := { P.pool with workers := some w }, main := .create } nodes (w :: l) := by
  have hflag : ∀ w, P.pool.termination w = false := by simpa [Walk, hmain] using h.walk
  obtain rfl : P.nodes = links := funext fun v => (h.alive hflag v).2
  obtain ⟨hwl, hw⟩ := h.added w hmain
  obtain ⟨nodes, hadd, hlinked⟩ := llAdd_spec h.linked hw hwl h.nodup
  refine ⟨nodes, h.first ▸ hadd, hlinked, rfl, List.nodup_cons.mpr ⟨hwl, h.nodup⟩, fun _ _ => rfl,
    fun v hv => absurd hv (h.alive hflag v).1, nofun, fun v hv => .inl ?_, h.flag, hflag⟩
  rcases h.born v hv with hv | hv
  · exact List.mem_cons_of_mem _ hv
  · cases hmain.symm.trans hv
    exact List.mem_cons_self

theorem Chained.visit (h : Chained P links l) (hmain : P.main = .visit (some w)) :
    P.nodes w ≠ none ∧
      Chained { P with
        pool := { P.pool with termination := Function.update P.pool.termination w true },
        main := .next w } links l := by
  have hwalk := h.walk
  rw [hmain] at hwalk
  obtain ⟨ahead, rfl, hhead, halive, hset⟩ := hwalk
  obtain ⟨ahead, rfl⟩ := List.head?_eq_some_iff.mp hhead.symm
  have hwl : w ∈ P.passed.reverse ++ w :: ahead := by simp
  have hraise (v : Ptr) (hv : P.pool.termination v = true) :
      Function.update P.pool.termination w true v = true := by
    by_cases hvw : v = w
    · simp [hvw]
    · simpa [hvw] using hv
  refine ⟨?_, h.linked, h.first, h.nodup, h.kept, h.freed, nofun, fun v hv => .inl ?_, fun v hv => ?_,
    ahead, rfl, halive, ?_⟩
  · rw [h.kept w (halive w List.mem_cons_self)]
    exact h.linked.ne_none hwl
  · exact (h.born v hv).resolve_right (by simp [hmain])
  · exact hraise v (h.flag v hv)
  · exact List.forall_mem_cons.mpr ⟨Function.update_self .., fun v hv => hraise v (hset v hv)⟩

theorem Chained.next (h : Chained P links l) (hmain : P.main = .next w) : ∃ n, P.nodes w = some n ∧
    Chained { P with passed := w :: P.passed, main := .visit n.next } links l := by
  have hwalk := h.walk
  rw [hmain] at hwalk
  obtain ⟨ahead, rfl, halive, hset⟩ := hwalk
  rw [List.forall_mem_cons] at halive
  obtain ⟨n, hn⟩ := Option.ne_none_iff_exists'.mp (h.linked.ne_none (p := w) (by simp))
  have hnext : n.next = ahead.head? := by
    have hlink := h.linked.links.2
    rw [Heap.next, hn] at hlink
    exact Option.some.inj hlink
  refine ⟨n, (h.kept w halive.1).trans hn, h.linked, h.first, h.nodup, h.kept, h.freed, by rintro _ ⟨⟩,
    fun v hv => .inl ?_, h.flag, ahead, by simp, hnext, halive.2, hset⟩
  exact (h.born v hv).resolve_right (by simp [hmain])

theorem Chained.mainThread (h : Chained P links l) (hstep : mainThread P = some P') :
    ∃ links l, Chained P' links l := by
  have hwalk := h.walk
  unfold ThreadPoll.mainThread at hstep
  split at hstep
  case h_1 => cases hstep
  case h_2 w hmain =>
    obtain ⟨nodes, hadd, h'⟩ := h.add hmain
    rw [hadd] at hstep
    cases hstep
    exact ⟨_, _, h'⟩
  case h_3 hmain =>
    cases hstep
    refine ⟨links, l, h.linked, h.first, h.nodup, h.kept, h.freed, nofun, fun v hv => .inl ?_, h.flag, ?_⟩
    · exact (h.born v hv).resolve_right (by simp [hmain])
    · rw [hmain] at hwalk
      obtain ⟨ahead, rfl, hhead, -, hset⟩ := hwalk
      obtain rfl : ahead = [] := List.head?_eq_none_iff.mp hhead.symm
      simpa [Walk] using hset
  case h_4 w hmain =>
    obtain ⟨hw, h'⟩ := h.visit hmain
    split at hstep
    · next hnone => exact absurd hnone hw
    · cases hstep
      exact ⟨_, _, h'⟩
  case h_5 w hmain =>
    obtain ⟨n, hn, h'⟩ := h.next hmain
    rw [hn] at hstep
    cases hstep
    exact ⟨_, _, h'⟩
  case h_6 hmain =>
    obtain ⟨-, hstep⟩ := Option.ite_none_right_eq_some.mp hstep
    cases hstep
    refine ⟨links, l, h.linked, h.first, h.nodup, h.kept, h.freed, nofun, fun v hv => .inl ?_, h.flag, ?_⟩
    · exact (h.born v hv).resolve_right (by simp [hmain])
    · rwa [hmain] at hwalk
  case h_7 => cases hstep
  case h_8 => cases hstep

theorem Chained.destroy (h : Chained P links l) (hmain : P.main = .create ∨ P.main = .destroyed)
    (halive : ∀ w, P.pc w ≠ .exited) :
    Chained { P with main := .visit P.pool.workers, passed := [] } links l := by
  refine ⟨h.linked, h.first, h.nodup, h.kept, h.freed, nofun, fun v hv => .inl ?_, h.flag, l, rfl, h.first,
    fun v _ => halive v, nofun⟩
  refine (h.born v hv).resolve_right ?_
  rcases hmain with hmain | hmain <;> simp [hmain]

theorem Chained.step {i : Action} (h : Chained P links l) (hguard : freesBehind P i)
    (hstep : Process.Step P i P') : ∃ links l, Chained P' links l := by
  cases hstep with
  | create hmain hw =>
    obtain ⟨links, h'⟩ := h.create hmain hw
    exact ⟨links, l, h'⟩
  | main hstep => exact h.mainThread hstep
  | destroy hmain => exact ⟨links, l, h.destroy hmain hguard⟩
  | push _ _ hpush =>
    obtain ⟨⟨heap, tasks⟩, -, hpush⟩ := Option.bind_eq_some_iff.mp hpush
    cases hpush
    exact ⟨links, l, h.linked, h.first, h.nodup, h.kept, h.freed, h.added, h.born, h.flag,
      h.walk.congr h.nodup rfl rfl fun _ _ _ _ => id⟩
  | own _ =>
    exact ⟨links, l, h.linked, h.first, h.nodup, h.kept, h.freed, h.added, h.born, h.flag,
      h.walk.congr h.nodup rfl rfl fun _ _ _ _ => id⟩
  | worker hstep =>
    obtain ⟨k, hgoes⟩ := threadCallback_goes hstep
    exact ⟨links, l, h.goes hgoes hguard⟩

theorem exists_chained (h : Reach process freesBehind P) : ∃ links l, Chained P links l := by
  refine h.invariant (P := fun P => ∃ links l, Chained P links l) ?_ ?_
  · rintro P ⟨hworkers, -, -, hflag, hnodes, -, hpc, hmain, -, -⟩
    refine ⟨P.nodes, [], trivial, hworkers, .nil, fun _ _ => rfl, fun w _ => hnodes w, by simp [hmain],
      fun w hw => ?_, fun w hw => ?_, hmain ▸ hflag⟩
    · exact absurd (hpc w) hw
    · simp [hpc] at hw
  · rintro P i P' ⟨links, l, h⟩ hguard hstep
    exact h.step hguard hstep

theorem first_call (h : Reach process freesBehind P) (hmain : P.main = .create) :
    freesBehind P .destroy := by
  obtain ⟨links, l, h⟩ := exists_chained h
  have hwalk := h.walk
  rw [hmain] at hwalk
  exact fun w => (h.alive hwalk w).1

/-- No freed worker is accessed, and in the end every worker has its flag set. -/
theorem thread_destroy_safe (h : Reach process freesBehind P) : P.main ≠ .fault ∧
    (P.main = .destroyed → ∀ w, P.pc w ≠ .none → P.pool.termination w = true) := by
  obtain ⟨links, l, h⟩ := exists_chained h
  have hwalk := h.walk
  constructor
  · intro hmain
    rwa [hmain] at hwalk
  · intro hmain w hw
    rw [hmain] at hwalk
    exact hwalk w ((h.born w hw).resolve_right (by simp [hmain]))

-- ---------------------------------------------------------------------------
-- A worker freed in front of `thread_destroy`
-- ---------------------------------------------------------------------------

abbrev Walks (P : Process) (n : Nat) (P' : Process) : Prop :=
  Path process P (List.replicate n .main) P'

theorem Walks.step {n : Nat} {P₁ : Process} (hstep : ThreadPoll.mainThread P = some P₁)
    (h : Walks P₁ n P') : Walks P (n + 1) P' := by
  rw [Walks, List.replicate_succ]
  exact .cons (.main hstep) h

theorem visit_faults {ahead : List Ptr} (hlinks : ∀ v ∈ ahead, P.nodes v = none ∨ P.nodes v = links v)
    {before : Option Ptr} (hlinked : TwoWay.Doubly links.next links.prev before ahead)
    (hmain : P.main = .visit ahead.head?) (hw : w ∈ ahead) (hfreed : P.nodes w = none) :
    ∃ n P', Walks P n P' ∧ P'.main = .fault := by
  induction ahead generalizing P before with
  | nil => cases hw
  | cons v ahead ih =>
    rw [List.forall_mem_cons] at hlinks
    cases hv : P.nodes v with
    | none =>
      refine ⟨1, { P with main := .fault }, Walks.step ?_ (.nil _), rfl⟩
      simp [mainThread, hmain, hv]
    | some n =>
      obtain ⟨-, hnext, hrest⟩ := hlinked
      have hn : n.next = ahead.head? := by
        rw [Heap.next, ← hlinks.1.resolve_left (by simp [hv]), hv] at hnext
        exact Option.some.inj hnext
      have hwv : w ≠ v := by
        rintro rfl
        cases hv.symm.trans hfreed
      have hset : mainThread P = some { P with
          pool := { P.pool with termination := Function.update P.pool.termination v true },
          main := .next v } := by
        simp [mainThread, hmain, hv]
      obtain ⟨m, P', hwalks, hfault⟩ := ih (P := { P with
          pool := { P.pool with termination := Function.update P.pool.termination v true },
          passed := v :: P.passed, main := .visit n.next })
        hlinks.2 hrest (congrArg MainPc.visit hn) ((List.mem_cons.mp hw).resolve_left hwv) hfreed
      refine ⟨m + 2, P', Walks.step hset (Walks.step ?_ hwalks), hfault⟩
      simp [mainThread, hv]

/-- A worker that frees itself before its link is read: if nothing else happens,
`thread_destroy` accesses it. -/
theorem freed_ahead_faults (h : Reach process freesBehind P) (hwalk : P.main.walking)
    (hpc : P.pc w = .free) (hahead : w ∉ P.passed) :
    ∃ P₁ n P', Process.Step P (.worker w) P₁ ∧ Walks P₁ n P' ∧ P'.main = .fault := by
  obtain ⟨links, l, h⟩ := exists_chained h
  have hfree : threadCallback P w =
      some ({ P with nodes := Function.update P.nodes w none }.goto w .exited) := by
    simp [threadCallback, hpc]
  have hlinks (v : Ptr) (hv : P.pc v ≠ .exited) : Function.update P.nodes w none v = none ∨
      Function.update P.nodes w none v = links v := by
    by_cases hvw : v = w
    · simp [hvw]
    · simp [hvw, h.kept v hv]
  have hwl : w ∈ l := by
    refine (h.born w (by simp [hpc])).resolve_right fun hadd => ?_
    simp [hadd, MainPc.walking] at hwalk
  have hdo := h.walk
  cases hmain : P.main with
  | visit worker =>
    rw [hmain] at hdo
    obtain ⟨ahead, rfl, hhead, halive, -⟩ := hdo
    obtain ⟨before, hlinked⟩ := h.linked.suffix
    have hin : w ∈ ahead := by simpa [hahead] using hwl
    obtain ⟨n, P', hwalks, hfault⟩ := visit_faults
      (P := { P with nodes := Function.update P.nodes w none }.goto w .exited)
      (fun v hv => hlinks v (halive v hv)) hlinked (hmain.trans (congrArg _ hhead)) hin
      (Function.update_self ..)
    exact ⟨_, n, P', .worker hfree, hwalks, hfault⟩
  | next v =>
    rw [hmain] at hdo
    obtain ⟨ahead, rfl, halive, -⟩ := hdo
    rw [List.forall_mem_cons] at halive
    by_cases hvw : w = v
    · subst hvw
      refine ⟨_, 1, { P with nodes := Function.update P.nodes w none, main := .fault }.goto w .exited,
        .worker hfree, Walks.step ?_ (.nil _), rfl⟩
      simp [mainThread, Process.goto, hmain]
    · obtain ⟨before, hlinked⟩ := h.linked.suffix
      obtain ⟨n, hn, -⟩ := h.next hmain
      have hnext : n.next = ahead.head? := by
        have hlink := hlinked.2.1
        rw [Heap.next, ← h.kept v halive.1, hn] at hlink
        exact Option.some.inj hlink
      have hin : w ∈ ahead := by simpa [hahead, hvw] using hwl
      obtain ⟨n', P', hwalks, hfault⟩ := visit_faults
        (P := { P with
          nodes := Function.update P.nodes w none, passed := v :: P.passed,
          main := .visit n.next }.goto w .exited)
        (fun v hv => hlinks v (halive.2 v hv)) hlinked.2.2 (congrArg MainPc.visit hnext) hin
        (Function.update_self ..)
      refine ⟨_, n' + 1, P', .worker hfree, Walks.step ?_ hwalks, hfault⟩
      simp [mainThread, Process.goto, hmain, Function.update_of_ne (Ne.symm hvw), hn]
  | _ => simp [hmain, MainPc.walking] at hwalk

/-- Another call of `thread_destroy` once a worker is freed accesses it. -/
theorem destroy_again_faults (h : Reach process freesBehind P) (hmain : P.main = .destroyed)
    (hpc : P.pc w = .exited) :
    ∃ P₁ n P', Process.Step P .destroy P₁ ∧ Walks P₁ n P' ∧ P'.main = .fault := by
  obtain ⟨links, l, h⟩ := exists_chained h
  have hwl : w ∈ l := (h.born w (by simp [hpc])).resolve_right (by simp [hmain])
  have hlinks (v : Ptr) (_ : v ∈ l) : P.nodes v = none ∨ P.nodes v = links v := by
    by_cases hv : P.pc v = .exited
    · exact .inl (h.freed v hv)
    · exact .inr (h.kept v hv)
  obtain ⟨n, P', hwalks, hfault⟩ := visit_faults
    (P := { P with main := .visit P.pool.workers, passed := [] })
    hlinks h.linked (congrArg MainPc.visit h.first) hwl (h.freed w hpc)
  exact ⟨_, n, P', .destroy (.inr hmain), hwalks, hfault⟩

/-- One worker, which frees itself after `thread_destroy` has returned. -/
theorem thread_destroy_safe_oneWorker : ∃ P : Process, P.main = .destroyed ∧ P.pc 7 = .exited ∧
    P.main ≠ .fault ∧ (P.main = .destroyed → ∀ w, P.pc w ≠ .none → P.pool.termination w = true) := by
  have hblank : Reach process freesBehind blank := .init process_blank
  have hcreate := hblank.step (i := Action.create 7) trivial (.create rfl rfl)
  have hadd := hcreate.step (i := Action.main) trivial (.main rfl)
  have hcall := hadd.step (i := Action.destroy) (first_call hadd rfl) (.destroy (.inl rfl))
  have hset := hcall.step (i := Action.main) trivial (.main rfl)
  have hnext := hset.step (i := Action.main) trivial (.main rfl)
  have hend := hnext.step (i := Action.main) trivial (.main rfl)
  have hdone := hend.step (i := Action.main) trivial (.main rfl)
  have hlock := hdone.step (i := Action.worker 7) nofun (.worker rfl)
  have hloop := hlock.step (i := Action.worker 7) nofun (.worker rfl)
  have hcheck := hloop.step (i := Action.worker 7) nofun (.worker rfl)
  have hfree := hcheck.step (i := Action.worker 7) (fun _ => nofun) (.worker rfl)
  exact ⟨_, rfl, rfl, thread_destroy_safe hfree⟩

/-- One worker, which frees itself as soon as its flag is set: `worker->next` is read from
what was freed. -/
theorem thread_destroy_reads_freed : ¬ ∀ P, Reach process free P → P.main ≠ .fault ∧
    (P.main = .destroyed → ∀ w, P.pc w ≠ .none → P.pool.termination w = true) := by
  have hblank : Reach process free blank := .init process_blank
  have hcreate := hblank.step (i := Action.create 7) trivial (.create rfl rfl)
  have hadd := hcreate.step (i := Action.main) trivial (.main rfl)
  have hcall := hadd.step (i := Action.destroy) trivial (.destroy (.inl rfl))
  have hset := hcall.step (i := Action.main) trivial (.main rfl)
  have hlock := hset.step (i := Action.worker 7) trivial (.worker rfl)
  have hloop := hlock.step (i := Action.worker 7) trivial (.worker rfl)
  have hcheck := hloop.step (i := Action.worker 7) trivial (.worker rfl)
  have hfree := hcheck.step (i := Action.worker 7) trivial (.worker rfl)
  have hnext := hfree.step (i := Action.main) trivial (.main rfl)
  intro h
  exact (h _ hnext).1 rfl

end LearningCode.ThreadPoll
