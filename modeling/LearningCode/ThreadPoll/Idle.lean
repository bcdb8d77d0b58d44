import LearningCode.ThreadPoll.Process

/-!
# Whether a worker without a task waits

The loop around the wait looks at `workers`, not at `tasks`. A worker that holds
the mutex keeps the tasks as they are, so one that leaves the loop finds a task
just when there was one as it looked at `workers`.
-/

namespace LearningCode.ThreadPoll

open Transition

variable {P P' : Process} {w : Ptr}

/-- A worker whose flag is 0 looks at `workers` only while it is NULL, or there is a task. -/
def blocksIdle (P : Process) : Action → Prop
  | .worker w => P.pc w = .loop → P.pool.termination w = false →
      P.pool.workers = none ∨ P.pool.tasks ≠ none
  | _ => True

def WorkerPc.inside : WorkerPc → Bool
  | .loop => true
  | .leave => true
  | .check => true
  | .take => true
  | _ => false

/-- A worker past the loop has a task to take, or will see its flag. -/
structure Supplied (P : Process) : Prop where
  idle : P.idle = []
  locked : ∀ w, (P.pc w).inside → P.mutex = some w
  check : ∀ w, P.pc w = .check → P.pool.termination w = false → P.pool.tasks ≠ none
  take : ∀ w, P.pc w = .take → P.pool.tasks ≠ none

theorem Supplied.goes {k : WorkerPc} (h : Supplied P) (hidle : P'.idle = [])
    (hpc : P'.pc = Function.update P.pc w k) (hk : k.inside → P'.mutex = some w)
    (hmutex : P.mutex = none ∨ P.mutex = some w ∨ P'.mutex = P.mutex ∧
      P'.pool.tasks = P.pool.tasks ∧
        ∀ v, v ≠ w → P'.pool.termination v = P.pool.termination v)
    (hcheck : k = .check → P'.pool.termination w = false → P'.pool.tasks ≠ none)
    (htake : k = .take → P'.pool.tasks ≠ none) : Supplied P' := by
  have hw : P'.pc w = k := by rw [hpc, Function.update_self]
  have hother (v : Ptr) (hvw : v ≠ w) (hv : (P'.pc v).inside) :
      P'.pc v = P.pc v ∧ P'.mutex = some v ∧ P'.pool.tasks = P.pool.tasks ∧
        P'.pool.termination v = P.pool.termination v := by
    have hpcv : P'.pc v = P.pc v := by rw [hpc, Function.update_of_ne hvw]
    have hlocked := h.locked v (hpcv ▸ hv)
    rcases hmutex with hnone | hsome | ⟨hmutex, htasks, hflag⟩
    · cases hlocked.symm.trans hnone
    · exact absurd (Option.some.inj (hlocked.symm.trans hsome)) hvw
    · exact ⟨hpcv, hmutex.trans hlocked, htasks, hflag v hvw⟩
  refine ⟨hidle, fun v hv => ?_, fun v hv hflag => ?_, fun v hv => ?_⟩
  · by_cases hvw : v = w
    · subst hvw
      exact hk (hw ▸ hv)
    · exact (hother v hvw hv).2.1
  · by_cases hvw : v = w
    · subst hvw
      exact hcheck (hw.symm.trans hv) hflag
    · obtain ⟨hpcv, -, htasks, hsame⟩ := hother v hvw (by rw [hv]; rfl)
      rw [htasks]
      exact h.check v (hpcv.symm.trans hv) (hsame.symm.trans hflag)
  · by_cases hvw : v = w
    · subst hvw
      exact htake (hw.symm.trans hv)
    · obtain ⟨hpcv, -, htasks, -⟩ := hother v hvw (by rw [hv]; rfl)
      rw [htasks]
      exact h.take v (hpcv.symm.trans hv)

theorem Supplied.takeStep (h : Supplied P) (hpc : P.pc w = .take) (hstep : ThreadPoll.take P w = some P') :
    Supplied P' := by
  have hmutex := h.locked w (by rw [hpc]; rfl)
  unfold ThreadPoll.take at hstep
  split at hstep
  · next hnone => exact absurd hnone (h.take w hpc)
  · obtain ⟨⟨heap, tasks⟩, -, hstep⟩ := Option.bind_eq_some_iff.mp hstep
    cases hstep
    exact h.goes h.idle rfl nofun (.inr (.inl hmutex)) nofun nofun

theorem Supplied.worker (h : Supplied P) (hguard : blocksIdle P (.worker w))
    (hstep : threadCallback P w = some P') : Supplied P' := by
  have hlocked := h.locked w
  unfold threadCallback at hstep
  split at hstep
  case h_1 => cases hstep
  case h_2 hpc =>
    obtain ⟨hmutex, hstep⟩ := Option.ite_none_right_eq_some.mp hstep
    cases hstep
    exact h.goes h.idle rfl (fun _ => rfl) (.inl hmutex) nofun nofun
  case h_3 hpc =>
    cases hstep
    have hmutex := hlocked (by rw [hpc]; rfl)
    refine h.goes h.idle rfl (fun _ => hmutex) (.inr (.inl hmutex)) (fun hk hflag => ?_) ?_
    · -- out of the loop: `workers` is not NULL
      have hworkers : P.pool.workers ≠ none := fun hnone => by simp [hnone] at hk
      exact (hguard hpc hflag).resolve_left hworkers
    · split <;> nofun
  case h_4 hpc =>
    have hmutex := hlocked (by rw [hpc]; rfl)
    split at hstep
    · next hset =>
      cases hstep
      refine h.goes h.idle rfl (fun _ => hmutex) (.inr (.inl hmutex)) (fun _ hflag => ?_) nofun
      cases hset.symm.trans hflag
    · cases hstep
      exact h.goes h.idle rfl nofun (.inr (.inl hmutex)) nofun nofun
  case h_5 hpc =>
    obtain ⟨hmutex, hstep⟩ := Option.ite_none_right_eq_some.mp hstep
    cases hstep
    exact h.goes h.idle rfl (fun _ => rfl) (.inl hmutex) nofun nofun
  case h_6 hpc =>
    have hmutex := hlocked (by rw [hpc]; rfl)
    split at hstep
    · cases hstep
      exact h.goes h.idle rfl nofun (.inr (.inl hmutex)) nofun nofun
    · next hclear =>
      cases hstep
      refine h.goes h.idle rfl (fun _ => hmutex) (.inr (.inl hmutex)) nofun fun _ => ?_
      exact h.check w hpc (Bool.eq_false_iff.mpr hclear)
  case h_7 hpc => exact h.takeStep hpc hstep
  case h_8 hpc =>
    cases hstep
    exact h.goes h.idle rfl nofun (.inr (.inr ⟨rfl, rfl, fun _ _ => rfl⟩)) nofun nofun
  case h_9 hpc =>
    cases hstep
    exact h.goes h.idle rfl nofun (.inr (.inr ⟨rfl, rfl, fun _ _ => rfl⟩)) nofun nofun
  case h_10 => cases hstep

theorem Supplied.keeps (h : Supplied P) (hidle : P'.idle = P.idle) (hpc : P'.pc = P.pc)
    (hmutex : P'.mutex = P.mutex)
    (hflag : ∀ w, P.pool.termination w = true → P'.pool.termination w = true)
    (htasks : P.pool.tasks ≠ none → P'.pool.tasks ≠ none) : Supplied P' := by
  refine ⟨hidle.trans h.idle, fun w hw => ?_, fun w hw hclear => ?_, fun w hw => ?_⟩
  · rw [hmutex]
    exact h.locked w (hpc ▸ hw)
  · refine htasks (h.check w (hpc ▸ hw) (Bool.eq_false_iff.mpr fun hset => ?_))
    cases (hflag w hset).symm.trans hclear
  · exact htasks (h.take w (hpc ▸ hw))

theorem Supplied.main (h : Supplied P) (hstep : mainThread P = some P') : Supplied P' := by
  unfold mainThread at hstep
  split at hstep
  case h_1 => cases hstep
  case h_2 =>
    obtain ⟨⟨nodes, workers⟩, -, hstep⟩ := Option.bind_eq_some_iff.mp hstep
    cases hstep
    exact h.keeps rfl rfl rfl (fun _ => id) id
  case h_3 =>
    cases hstep
    exact h.keeps rfl rfl rfl (fun _ => id) id
  case h_4 w _ =>
    split at hstep <;> cases hstep
    · exact h.keeps rfl rfl rfl (fun _ => id) id
    · refine h.keeps rfl rfl rfl (fun v hv => ?_) id
      by_cases hvw : v = w
      · simp [hvw]
      · simpa [hvw] using hv
  case h_5 =>
    split at hstep <;> cases hstep
    all_goals exact h.keeps rfl rfl rfl (fun _ => id) id
  case h_6 =>
    obtain ⟨-, hstep⟩ := Option.ite_none_right_eq_some.mp hstep
    cases hstep
    exact h.keeps rfl rfl rfl (fun _ => id) id
  case h_7 => cases hstep
  case h_8 => cases hstep

theorem Supplied.step {i : Action} (h : Supplied P) (hguard : blocksIdle P i)
    (hstep : Process.Step P i P') : Supplied P' := by
  cases hstep with
  | create _ _ =>
    refine h.goes h.idle rfl nofun (.inr (.inr ⟨rfl, rfl, fun v hv => ?_⟩)) nofun nofun
    exact Function.update_of_ne hv _ _
  | main hstep => exact h.main hstep
  | destroy _ => exact h.keeps rfl rfl rfl (fun _ => id) id
  | push _ _ hpush =>
    obtain ⟨⟨heap, tasks⟩, hadd, hpush⟩ := Option.bind_eq_some_iff.mp hpush
    cases hpush
    refine h.keeps rfl rfl rfl (fun _ => id) fun _ => ?_
    simp [llAdd_first hadd]
  | own _ => exact h.keeps rfl rfl rfl (fun _ => id) id
  | worker hstep => exact h.worker hguard hstep

theorem supplied (h : Reach process blocksIdle P) : Supplied P := by
  refine h.invariant ?_ fun P i P' h hguard hstep => h.step hguard hstep
  rintro P ⟨-, -, -, -, -, -, hpc, -, -, hidle⟩
  refine ⟨hidle, ?_, ?_, ?_⟩
  all_goals simp [hpc, WorkerPc.inside]

/-- No worker goes round without a task, and past the wait there is one. -/
theorem get_task_blocks (h : Reach process blocksIdle P) : P.idle = [] ∧
    ∀ w, P.pc w = .check ∨ P.pc w = .take → P.pool.termination w = false →
      P.pool.tasks ≠ none := by
  have hsupplied := supplied h
  refine ⟨hsupplied.idle, fun w hw hflag => ?_⟩
  rcases hw with hw | hw
  · exact hsupplied.check w hw hflag
  · exact hsupplied.take w hw

/-- A worker that starts before it is on the list waits, and takes the task pushed then. -/
theorem get_task_blocks_oneTask : ∃ P : Process, P.pc 7 = .running 9 ∧ P.idle = [] ∧
    ∀ w, P.pc w = .check ∨ P.pc w = .take → P.pool.termination w = false →
      P.pool.tasks ≠ none := by
  have hblank : Reach process blocksIdle blank := .init process_blank
  have hcreate := hblank.step (i := Action.create 7) trivial (.create rfl rfl)
  have hlock := hcreate.step (i := Action.worker 7) nofun (.worker rfl)
  have hloop := hlock.step (i := Action.worker 7) (fun _ _ => .inl rfl) (.worker rfl)
  have hwait := hloop.step (i := Action.worker 7) nofun (.worker rfl)
  have hadd := hwait.step (i := Action.main) trivial (.main rfl)
  have hmalloc := hadd.step (i := Action.own 9 (some ⟨none, none⟩)) trivial (.own id)
  have hpush := hmalloc.step (i := Action.push 9) trivial (.push rfl id rfl)
  have hwake := hpush.step (i := Action.worker 7) nofun (.worker rfl)
  have hagain := hwake.step (i := Action.worker 7) (fun _ _ => .inr nofun) (.worker rfl)
  have hcheck := hagain.step (i := Action.worker 7) nofun (.worker rfl)
  have htake := hcheck.step (i := Action.worker 7) nofun (.worker rfl)
  exact ⟨_, rfl, get_task_blocks htake⟩

/-- Where the guard fails, the worker goes round without a task in three steps of its own. -/
theorem get_task_spins (hpc : P.pc w = .loop) (hflag : P.pool.termination w = false)
    (hworkers : P.pool.workers ≠ none) (htasks : P.pool.tasks = none) : ∃ P',
    Path process P [.worker w, .worker w, .worker w] P' ∧ P'.idle = w :: P.idle := by
  have hloop : threadCallback P w = some (P.goto w .check) := by
    simp [threadCallback, hpc, hworkers]
  have hcheck : threadCallback (P.goto w .check) w = some ((P.goto w .check).goto w .take) := by
    simp [threadCallback, Process.goto, hflag]
  have htake : threadCallback ((P.goto w .check).goto w .take) w =
      some ({ (P.goto w .check).goto w .take with
        mutex := none, idle := w :: P.idle }.goto w .lock) := by
    simp [threadCallback, take, Process.goto, hflag, htasks]
  exact ⟨_, .cons (.worker hloop) (.cons (.worker hcheck) (.cons (.worker htake) (.nil _))), rfl⟩

/-- The first worker on the list, and nothing to do. -/
theorem get_task_spins_oneWorker : ¬ ∀ P, Reach process free P → P.idle = [] ∧
    ∀ w, P.pc w = .check ∨ P.pc w = .take → P.pool.termination w = false →
      P.pool.tasks ≠ none := by
  have hblank : Reach process free blank := .init process_blank
  have hcreate := hblank.step (i := Action.create 7) trivial (.create rfl rfl)
  have hadd := hcreate.step (i := Action.main) trivial (.main rfl)
  have hlock := hadd.step (i := Action.worker 7) trivial (.worker rfl)
  have hloop := hlock.step (i := Action.worker 7) trivial (.worker rfl)
  have hcheck := hloop.step (i := Action.worker 7) trivial (.worker rfl)
  have htake := hcheck.step (i := Action.worker 7) trivial (.worker rfl)
  intro h
  cases (h _ htake).1

end LearningCode.ThreadPoll
