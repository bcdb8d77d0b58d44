import Mathlib.Tactic.SplitIfs
import LearningCode.ZeroThreadpool.Model

/-!
# What `waitForAllDone` waits for

A task is in the queue, with one worker, or finished. The call looks at the
queue alone, so what it returns is right just when no worker still has a task
from before the call.
-/

namespace LearningCode.ZeroThreadpool

open Threads Transition

variable {s s' : Pool} {k k' m : Pc} {i : Action} {task : TaskFunc} {id : Nat} {before : List Nat}

inductive Effect (s : Pool) (k : Pc) (s' : Pool) (k' : Pc) : Prop
  | silent : s'.tasks = s.tasks → s'.execs = s.execs → (∀ id, Finished s' id ↔ Finished s id) →
      k'.held = k.held → Effect s k s' k'
  | take {task : TaskFunc} : s.tasks = task :: s'.tasks → s'.execs = s.execs →
      (∀ id, Finished s' id ↔ Finished s id) → k.held = none → k'.held = some task → Effect s k s' k'
  | finish {task : TaskFunc} : s'.tasks = s.tasks → s'.execs = s.execs →
      (∀ id, Finished s' id ↔ id = task.id ∨ Finished s id) → k.held = some task →
      k'.held = none → Effect s k s' k'
  | push {e : Int} : s'.tasks = s.tasks ++ [⟨s.execs, e⟩] → s'.execs = s.execs + 1 →
      (∀ id, Finished s' id ↔ Finished s id) → k.held = none → k'.held = none → Effect s k s' k'

theorem finished_finish (now : Int) :
    Finished (s.finish now task) id ↔ id = task.id ∨ Finished s id := by
  unfold Pool.finish Finished
  split
  · simp only [List.mem_cons]
    exact or_left_comm
  · simp only [List.mem_cons, or_assoc]

theorem finish_tasks (now : Int) : (s.finish now task).tasks = s.tasks := by
  unfold Pool.finish
  split <;> rfl

theorem finish_execs (now : Int) : (s.finish now task).execs = s.execs := by
  unfold Pool.finish
  split <;> rfl

theorem get_effect (hk : k.held = none) (h : get s = (s', k')) : Effect s k s' k' := by
  obtain ⟨tasks, atomic, bTerminate, execs, returned, ran, dropped⟩ := s
  cases bTerminate with
  | true =>
    obtain ⟨rfl, rfl⟩ : _ = s' ∧ Pc.loop = k' := by simpa [get] using h
    exact .silent rfl rfl (fun _ => Iff.rfl) hk.symm
  | false =>
    cases tasks with
    | nil =>
      cases h
      exact .silent rfl rfl (fun _ => Iff.rfl) hk.symm
    | cons task tasks =>
      cases h
      exact .take rfl rfl (fun _ => Iff.rfl) hk rfl

theorem step_effect (h : step s k i = some (s', k')) : Effect s k s' k' := by
  cases i with
  | exec timeoutMs now =>
    obtain ⟨rfl, h⟩ := Option.ite_none_right_eq_some.mp h
    cases h
    exact .silent rfl rfl (fun _ => Iff.rfl) rfl
  | waitForAllDone millsecond =>
    obtain ⟨rfl, h⟩ := Option.ite_none_right_eq_some.mp h
    cases h
    exact .silent rfl rfl (fun _ => Iff.rfl) rfl
  | run now timeout =>
    cases k with
    | get => exact get_effect rfl (Option.some.inj h)
    | waitTask => exact get_effect rfl (Option.some.inj h)
    | running task =>
      cases h
      exact .finish (finish_tasks now) (finish_execs now) (fun _ => finished_finish now) rfl rfl
    | exec e =>
      cases h
      exact .push rfl rfl (fun _ => Iff.rfl) rfl rfl
    | loop =>
      simp only [step, run] at h
      split at h <;> cases h <;> exact .silent rfl rfl (fun _ => Iff.rfl) rfl
    | waitForAllDone millsecond before =>
      simp only [step, run] at h
      split at h <;> cases h <;> exact .silent rfl rfl (fun _ => Iff.rfl) rfl
    | waitEmpty millsecond before =>
      simp only [step, run] at h
      split_ifs at h <;> cases h <;> exact .silent rfl rfl (fun _ => Iff.rfl) rfl
    | client => cases h
    | exited => cases h
    | _ =>
      cases h
      exact .silent rfl rfl (fun _ => Iff.rfl) rfl

theorem step_done (h : step s k i = some (s', .done true before)) : s'.tasks = [] ∧ s' = s := by
  cases i with
  | exec timeoutMs now => cases (Option.ite_none_right_eq_some.mp h).2
  | waitForAllDone millsecond => cases (Option.ite_none_right_eq_some.mp h).2
  | run now timeout =>
    cases k with
    | waitForAllDone millsecond before =>
      simp only [step, run] at h
      split at h
      · next hempty =>
        cases h
        exact ⟨List.isEmpty_iff.mp hempty, rfl⟩
      · cases h
    | waitEmpty millsecond before =>
      simp only [step, run] at h
      split_ifs at h with hempty
      · cases h
        exact ⟨List.isEmpty_iff.mp hempty, rfl⟩
      all_goals cases h
    | loop =>
      simp only [step, run] at h
      split at h <;> cases h
    | get =>
      simp only [step, run, get] at h
      split at h <;> cases h
    | waitTask =>
      simp only [step, run, get] at h
      split at h <;> cases h
    | _ => cases h

/-- The tasks a thread has put into the queue or was told of. -/
def Pc.known : Pc → List Nat
  | .pushed id => [id]
  | .waitForAllDone _ before => before
  | .waitEmpty _ before => before
  | .done _ before => before
  | _ => []

def Known (s : Pool) (k : Pc) (s' : Pool) (id : Nat) : Prop :=
  id ∈ k.known ∨ id ∈ s.returned ∨ id = s.execs ∧ s'.execs = s.execs + 1

theorem step_known (h : step s k i = some (s', k')) :
    (∀ id ∈ s'.returned, Known s k s' id) ∧ ∀ id ∈ k'.known, Known s k s' id := by
  have hkeep : s'.returned = s.returned → (∀ id ∈ k'.known, Known s k s' id) →
      (∀ id ∈ s'.returned, Known s k s' id) ∧ ∀ id ∈ k'.known, Known s k s' id :=
    fun hreturned hknown => ⟨fun id hid => .inr (.inl (hreturned ▸ hid)), hknown⟩
  cases i with
  | exec timeoutMs now =>
    obtain ⟨rfl, h⟩ := Option.ite_none_right_eq_some.mp h
    cases h
    exact hkeep rfl nofun
  | waitForAllDone millsecond =>
    obtain ⟨rfl, h⟩ := Option.ite_none_right_eq_some.mp h
    cases h
    exact hkeep rfl fun id hid => .inr (.inl hid)
  | run now timeout =>
    cases k with
    | pushed id =>
      cases h
      refine ⟨fun id' hid => ?_, nofun⟩
      rcases List.mem_cons.mp hid with rfl | hid
      · exact .inl List.mem_cons_self
      · exact .inr (.inl hid)
    | exec e =>
      cases h
      refine hkeep rfl fun id hid => .inr (.inr ?_)
      exact ⟨List.mem_singleton.mp hid, rfl⟩
    | waitForAllDone millsecond before =>
      simp only [step, run] at h
      split at h <;> cases h <;> exact hkeep rfl fun id hid => .inl hid
    | waitEmpty millsecond before =>
      simp only [step, run] at h
      split_ifs at h <;> cases h <;> exact hkeep rfl fun id hid => .inl hid
    | running task =>
      cases h
      refine hkeep ?_ nofun
      unfold Pool.finish
      split <;> rfl
    | loop =>
      simp only [step, run] at h
      split at h <;> cases h <;> exact hkeep rfl nofun
    | get =>
      simp only [step, run, get] at h
      split at h <;> cases h <;> exact hkeep rfl nofun
    | waitTask =>
      simp only [step, run, get] at h
      split at h <;> cases h <;> exact hkeep rfl nofun
    | client => cases h
    | exited => cases h
    | _ =>
      cases h
      exact hkeep rfl nofun

-- ---------------------------------------------------------------------------
-- Where the tasks are
-- ---------------------------------------------------------------------------

structure Shared (s : Pool) : Prop where
  nodup : (s.tasks.map TaskFunc.id).Nodup
  queued : ∀ task ∈ s.tasks, task.id < s.execs ∧ ¬ Finished s task.id
  finished : ∀ id, Finished s id → id < s.execs
  returned : ∀ id ∈ s.returned, id < s.execs

structure Here (s : Pool) (k : Pc) : Prop where
  held : ∀ task, k.held = some task →
    task.id < s.execs ∧ task.id ∉ s.tasks.map TaskFunc.id ∧ ¬ Finished s task.id
  known : ∀ id ∈ k.known, id < s.execs

def Apart (k m : Pc) : Prop :=
  ∀ a b, k.held = some a → m.held = some b → a.id ≠ b.id

def outline : Outline Pool Pc Unit where
  shared _ := Shared
  here _ := Here
  apart := Apart

theorem Effect.execs_le (h : Effect s k s' k') : s.execs ≤ s'.execs := by
  cases h with
  | push _ h => exact Nat.le_of_lt (by rw [h]; exact Nat.lt_succ_self _)
  | silent _ h => exact Nat.le_of_eq h.symm
  | take _ h => exact Nat.le_of_eq h.symm
  | finish _ h => exact Nat.le_of_eq h.symm

theorem known_lt (hs : Shared s) (hk : Here s k) (hle : s.execs ≤ s'.execs)
    (h : Known s k s' id) : id < s'.execs := by
  rcases h with h | h | ⟨rfl, h⟩
  · exact Nat.lt_of_lt_of_le (hk.known id h) hle
  · exact Nat.lt_of_lt_of_le (hs.returned id h) hle
  · rw [h]
    exact Nat.lt_succ_self _

structure Told (s s' : Pool) (k' : Pc) : Prop where
  returned : ∀ id ∈ s'.returned, id < s'.execs
  known : ∀ id ∈ k'.known, id < s'.execs
  other : ∀ m, Here s m → ∀ id ∈ m.known, id < s'.execs

theorem told_of_step (hs : Shared s) (hk : Here s k) (hstep : step s k i = some (s', k')) :
    Told s s' k' := by
  have hle := (step_effect hstep).execs_le
  obtain ⟨hreturned, hknown⟩ := step_known hstep
  exact ⟨fun id hid => known_lt hs hk hle (hreturned id hid),
    fun id hid => known_lt hs hk hle (hknown id hid),
    fun m hm id hid => Nat.lt_of_lt_of_le (hm.known id hid) hle⟩

def Kept (s : Pool) (k : Pc) (s' : Pool) (k' : Pc) : Prop :=
  Shared s' ∧ Here s' k' ∧ ∀ m, Here s m → Apart k m → Here s' m ∧ Apart k' m

section
variable (hs : Shared s) (hk : Here s k) (htold : Told s s' k')
include hs hk htold

theorem kept_silent (htasks : s'.tasks = s.tasks) (hexecs : s'.execs = s.execs)
    (hfin : ∀ id, Finished s' id ↔ Finished s id) (hheld : k'.held = k.held) : Kept s k s' k' := by
  refine ⟨⟨htasks ▸ hs.nodup, ?_, ?_, htold.returned⟩, ⟨?_, htold.known⟩, ?_⟩
  · intro task htask
    rw [hexecs, hfin]
    exact hs.queued task (htasks ▸ htask)
  · intro id hid
    rw [hexecs]
    exact hs.finished id ((hfin id).mp hid)
  · intro task htask
    rw [hexecs, htasks, hfin]
    exact hk.held task (hheld ▸ htask)
  · intro m hm hapart
    refine ⟨⟨fun task htask => ?_, htold.other m hm⟩, fun a b ha hb => ?_⟩
    · rw [hexecs, htasks, hfin]
      exact hm.held task htask
    · exact hapart a b (hheld ▸ ha) hb

omit hk in
theorem kept_take (htasks : s.tasks = task :: s'.tasks) (hexecs : s'.execs = s.execs)
    (hfin : ∀ id, Finished s' id ↔ Finished s id) (hsome : k'.held = some task) :
    Kept s k s' k' := by
  obtain ⟨hnew, hnodup⟩ : task.id ∉ s'.tasks.map TaskFunc.id ∧
      (s'.tasks.map TaskFunc.id).Nodup := by
    have hnodup := hs.nodup
    rw [htasks] at hnodup
    exact List.nodup_cons.mp hnodup
  have hmem (a : TaskFunc) (ha : a ∈ s'.tasks) : a ∈ s.tasks := htasks ▸ List.mem_cons_of_mem _ ha
  have htask : task ∈ s.tasks := htasks ▸ List.mem_cons_self
  refine ⟨⟨hnodup, ?_, ?_, htold.returned⟩, ⟨?_, htold.known⟩, ?_⟩
  · intro a ha
    rw [hexecs, hfin]
    exact hs.queued a (hmem a ha)
  · intro id hid
    rw [hexecs]
    exact hs.finished id ((hfin id).mp hid)
  · intro a ha
    cases hsome.symm.trans ha
    rw [hexecs, hfin]
    exact ⟨(hs.queued task htask).1, hnew, (hs.queued task htask).2⟩
  · intro m hm _
    refine ⟨⟨fun a ha => ?_, htold.other m hm⟩, fun a b ha hb => ?_⟩
    · obtain ⟨hlt, hout, hnot⟩ := hm.held a ha
      rw [hexecs, hfin]
      refine ⟨hlt, fun hin => hout ?_, hnot⟩
      rw [htasks]
      exact List.mem_cons_of_mem _ hin
    · cases hsome.symm.trans ha
      intro heq
      exact (hm.held b hb).2.1 (heq ▸ List.mem_map_of_mem htask)

theorem kept_finish (htasks : s'.tasks = s.tasks) (hexecs : s'.execs = s.execs)
    (hfin : ∀ id, Finished s' id ↔ id = task.id ∨ Finished s id) (hsome : k.held = some task)
    (hnone : k'.held = none) : Kept s k s' k' := by
  obtain ⟨hlt, hout, -⟩ := hk.held task hsome
  refine ⟨⟨htasks ▸ hs.nodup, ?_, ?_, htold.returned⟩, ⟨?_, htold.known⟩, ?_⟩
  · intro a ha
    rw [htasks] at ha
    rw [hexecs, hfin]
    refine ⟨(hs.queued a ha).1, ?_⟩
    rintro (heq | hid)
    · exact hout (heq ▸ List.mem_map_of_mem ha)
    · exact (hs.queued a ha).2 hid
  · intro id hid
    rw [hexecs]
    rcases (hfin id).mp hid with rfl | hid
    · exact hlt
    · exact hs.finished id hid
  · intro a ha
    cases hnone.symm.trans ha
  · intro m hm hapart
    refine ⟨⟨fun a ha => ?_, htold.other m hm⟩, fun a b ha _ => ?_⟩
    · obtain ⟨hlt', hout', hnot⟩ := hm.held a ha
      rw [hexecs, htasks, hfin]
      refine ⟨hlt', hout', ?_⟩
      rintro (heq | hid)
      · exact hapart task a hsome ha heq.symm
      · exact hnot hid
    · cases hnone.symm.trans ha

omit hk in
theorem kept_push {e : Int} (htasks : s'.tasks = s.tasks ++ [⟨s.execs, e⟩])
    (hexecs : s'.execs = s.execs + 1) (hfin : ∀ id, Finished s' id ↔ Finished s id)
    (hnone : k'.held = none) : Kept s k s' k' := by
  have hids : s'.tasks.map TaskFunc.id = s.tasks.map TaskFunc.id ++ [s.execs] := by
    rw [htasks, List.map_append]
    rfl
  have hlt : s.execs < s'.execs := hexecs ▸ Nat.lt_succ_self _
  refine ⟨⟨?_, ?_, ?_, htold.returned⟩, ⟨?_, htold.known⟩, ?_⟩
  · rw [hids]
    refine List.nodup_append.mpr ⟨hs.nodup, List.pairwise_singleton .., ?_⟩
    intro id hid id' hid' heq
    obtain ⟨a, ha, rfl⟩ := List.mem_map.mp hid
    rw [List.mem_singleton] at hid'
    exact Nat.ne_of_lt (hs.queued a ha).1 (heq.trans hid')
  · intro a ha
    rw [htasks, List.mem_append, List.mem_singleton] at ha
    rw [hfin]
    rcases ha with ha | rfl
    · exact ⟨Nat.lt_trans (hs.queued a ha).1 hlt, (hs.queued a ha).2⟩
    · exact ⟨hlt, fun hid => Nat.lt_irrefl _ (hs.finished _ hid)⟩
  · intro id hid
    exact Nat.lt_trans (hs.finished id ((hfin id).mp hid)) hlt
  · intro a ha
    cases hnone.symm.trans ha
  · intro m hm _
    refine ⟨⟨fun a ha => ?_, htold.other m hm⟩, fun a b ha _ => ?_⟩
    · obtain ⟨hlt', hout, hnot⟩ := hm.held a ha
      rw [hids, hfin, List.mem_append, List.mem_singleton]
      refine ⟨Nat.lt_trans hlt' hlt, ?_, hnot⟩
      rintro (hin | heq)
      · exact hout hin
      · exact Nat.ne_of_lt hlt' heq
    · cases hnone.symm.trans ha

end

theorem kept_of_step (hs : Shared s) (hk : Here s k) (hstep : step s k i = some (s', k')) :
    Kept s k s' k' := by
  have htold := told_of_step hs hk hstep
  cases step_effect hstep with
  | silent htasks hexecs hfin hheld => exact kept_silent hs hk htold htasks hexecs hfin hheld
  | take htasks hexecs hfin _ hsome => exact kept_take hs htold htasks hexecs hfin hsome
  | finish htasks hexecs hfin hsome hnone =>
    exact kept_finish hs hk htold htasks hexecs hfin hsome hnone
  | push htasks hexecs hfin _ hnone => exact kept_push hs htold htasks hexecs hfin hnone

theorem outline_valid : outline.Valid pool fun _ _ _ _ => True where
  start s hs := by
    cases hs
    refine ⟨(), ⟨.nil, nofun, ?_, nofun⟩, ?_⟩
    · rintro id (h | h) <;> cases h
    · rintro k (rfl | rfl) <;> exact ⟨nofun, nofun⟩
  idle k m hk hm a b ha hb := by rcases hk with rfl | rfl <;> cases ha
  symm k m h a b ha hb := (h b a hb ha).symm
  step g s k i s' k' hs hk hstep := by
    obtain ⟨hs', hk', hother⟩ := kept_of_step hs hk hstep
    exact ⟨(), hs', hk', fun m hm hapart _ => hother m hm hapart⟩

variable {τ : Type} [DecidableEq τ] {st st' : Pool × (τ → Pc)} {t : τ}

def Placed (s : Pool) (pc : τ → Pc) : Prop := ∀ id < s.execs,
  id ∈ s.tasks.map TaskFunc.id ∨ Finished s id ∨ ∃ u task, (pc u).held = some task ∧ task.id = id

theorem Placed.step {pc : τ → Pc} (h : Placed s pc) (heffect : Effect s (pc t) s' k) :
    Placed s' (Function.update pc t k) := by
  have hother (id : Nat) (hnone : (pc t).held = none)
      (hheld : ∃ u task, (pc u).held = some task ∧ task.id = id) :
      ∃ u task, (Function.update pc t k u).held = some task ∧ task.id = id := by
    obtain ⟨u, task, hu, hid⟩ := hheld
    have hut : u ≠ t := by
      rintro rfl
      cases hnone.symm.trans hu
    exact ⟨u, task, by rwa [Function.update_of_ne hut], hid⟩
  intro id hlt
  cases heffect with
  | silent htasks hexecs hfin hheld =>
    rw [htasks]
    refine (h id (hexecs ▸ hlt)).imp_right (.imp (hfin id).mpr ?_)
    rintro ⟨u, task, hu, hid⟩
    by_cases hut : u = t
    · subst hut
      exact ⟨u, task, by rwa [Function.update_self, hheld], hid⟩
    · exact ⟨u, task, by rwa [Function.update_of_ne hut], hid⟩
  | @take task htasks hexecs hfin hnone hsome =>
    rcases h id (hexecs ▸ hlt) with hid | hid | hid
    · rw [htasks, List.map_cons, List.mem_cons] at hid
      rcases hid with rfl | hid
      · exact .inr (.inr ⟨t, task, by rwa [Function.update_self], rfl⟩)
      · exact .inl hid
    · exact .inr (.inl ((hfin id).mpr hid))
    · exact .inr (.inr (hother id hnone hid))
  | @finish task htasks hexecs hfin hsome hnone =>
    rcases h id (hexecs ▸ hlt) with hid | hid | ⟨u, a, hu, hid⟩
    · exact .inl (htasks ▸ hid)
    · exact .inr (.inl ((hfin id).mpr (.inr hid)))
    · by_cases hut : u = t
      · subst hut
        cases hsome.symm.trans hu
        exact .inr (.inl ((hfin id).mpr (.inl hid.symm)))
      · exact .inr (.inr ⟨u, a, by rwa [Function.update_of_ne hut], hid⟩)
  | @push e htasks hexecs hfin hnone hnone' =>
    rw [hexecs] at hlt
    rcases Nat.lt_succ_iff_lt_or_eq.mp hlt with hlt | rfl
    · rcases h id hlt with hid | hid | hid
      · exact .inl (by rw [htasks, List.map_append]; exact List.mem_append_left _ hid)
      · exact .inr (.inl ((hfin id).mpr hid))
      · exact .inr (.inr (hother id hnone hid))
    · exact .inl (by simp [htasks])

theorem placed (h : Reach (pool.threads τ) free st) : Placed st.1 st.2 := by
  refine h.invariant (P := fun st => Placed st.1 st.2) ?_ ?_
  · rintro st ⟨hstart, -⟩ id hid
    rw [hstart] at hid
    cases hid
  · rintro st i st' hst - ⟨k, hstep, hk⟩
    rw [hk]
    exact hst.step (step_effect hstep)

-- ---------------------------------------------------------------------------
-- waitForAllDone
-- ---------------------------------------------------------------------------

/-- A call that returns true is right just when no worker has an older task. -/
theorem done_iff (h : Reach (pool.threads τ) free st) (hstep : (pool.threads τ).step st (t, i) st')
    (hdone : st'.2 t = .done true before) :
    (∀ id ∈ before, Finished st'.1 id) ↔ spares Idle st (t, i) := by
  obtain ⟨g, hst⟩ := outline_valid.holds_free (h.step trivial hstep)
  have hplaced := placed (h.step trivial hstep)
  obtain ⟨s, pc⟩ := st
  obtain ⟨s', pc'⟩ := st'
  obtain ⟨k, hstep, rfl⟩ := hstep
  simp only [Function.update_self] at hdone
  subst hdone
  have hstep : step s (pc t) i = some (s', .done true before) := hstep
  obtain ⟨hempty, rfl⟩ := step_done hstep
  simp only at hplaced ⊢
  constructor
  · intro hfin u hu s'' before' hstep' task hheld hmem
    cases hstep.symm.trans hstep'
    have hhere := (hst.here u).held task
    simp only [Function.update_of_ne hu] at hhere
    exact (hhere hheld).2.2 (hfin _ hmem)
  · intro hidle id hid
    have hlt : id < s'.execs := (hst.here t).known id (by simpa [Pc.known] using hid)
    rcases hplaced id hlt with hin | hfin | ⟨u, task, hu, rfl⟩
    · simp [hempty] at hin
    · exact hfin
    · by_cases hut : u = t
      · subst hut
        simp [Pc.held] at hu
      · simp only [Function.update_of_ne hut] at hu
        exact absurd hid (hidle u hut _ _ hstep task hu)

theorem Effect.finished (h : Effect s k s' k') (hid : Finished s id) : Finished s' id := by
  cases h with
  | silent _ _ hfin => exact (hfin id).mpr hid
  | take _ _ hfin => exact (hfin id).mpr hid
  | finish _ _ hfin => exact (hfin id).mpr (.inr hid)
  | push _ _ hfin => exact (hfin id).mpr hid

/-- Where no call returns true over the head of a worker with an older task,
whatever returned true was right. -/
theorem waitForAllDone_sound (h : Reach (pool.threads τ) (spares Idle) st) (t : τ)
    (before : List Nat) (hdone : st.2 t = .done true before) : ∀ id ∈ before, Finished st.1 id := by
  induction h generalizing t before with
  | init h => rcases h.2 t with hidle | hidle <;> cases hidle.symm.trans hdone
  | @step st st' i hreach hguard hstep ih =>
    by_cases ht : t = i.1
    · subst ht
      have hfree : Reach (pool.threads τ) free st := hreach.mono fun _ _ _ => trivial
      exact (done_iff (i := i.2) hfree hstep hdone).mpr hguard
    · obtain ⟨k, hstep, hk⟩ := hstep
      rw [hk, Function.update_of_ne ht] at hdone
      exact fun id hid => (step_effect hstep).finished (ih t before hdone id hid)

theorem idle_of_held (hm : m.held = none) : Idle s k i m := by
  intro s' before _ task htask
  cases hm.symm.trans htask

theorem guard_other {st : Pool × (Bool → Pc)} (b : Bool) (hm : (st.2 (!b)).held = none)
    (i : Action) : spares Idle st (b, i) := by
  intro u hu
  have hub : u = !b := Bool.eq_not.mpr hu
  exact idle_of_held (hub ▸ hm)

def start : Pool × (Bool → Pc) :=
  (⟨[], 0, false, 0, [], [], []⟩, fun b => if b then .client else .loop)

/-- The client waits until the worker has run the task. -/
theorem waitForAllDone_sound_afterRun : ∃ st : Pool × (Bool → Pc),
    st.2 true = .done true [0] ∧ ∀ id ∈ [0], Finished st.1 id := by
  have h0 : Reach (pool.threads Bool) (spares Idle) start :=
    .init ⟨rfl, fun b => by cases b <;> simp [start, pool]⟩
  have h1 := reach_step h0 (guard_other true rfl (.exec 0 0)) rfl
  have h2 := reach_step h1 (guard_other true rfl (.run 0 false)) rfl
  have h3 := reach_step h2 (guard_other true rfl (.run 0 false)) rfl
  have h4 := reach_step h3 (guard_other false rfl (.run 0 false)) rfl
  have h5 := reach_step h4 (guard_other false rfl (.run 0 false)) rfl
  have h6 := reach_step h5 (guard_other false rfl (.run 0 false)) rfl
  have h7 := reach_step h6 (guard_other false rfl (.run 0 false)) rfl
  have h8 := reach_step h7 (guard_other true rfl (.waitForAllDone (-1))) rfl
  have h9 := reach_step h8 (guard_other true rfl (.run 0 false)) rfl
  exact ⟨_, rfl, waitForAllDone_sound h9 true [0] rfl⟩

def early : List (Bool × Action) :=
  [(true, .exec 0 0), (true, .run 0 false), (true, .run 0 false), (false, .run 0 false),
    (false, .run 0 false), (true, .waitForAllDone (-1)), (true, .run 0 false)]

/-- The queue is empty and the task has been taken, but not run. -/
theorem waitForAllDone_early : ¬ ∀ st : Pool × (Bool → Pc), Reach (pool.threads Bool) free st →
    ∀ t before, st.2 t = .done true before → ∀ id ∈ before, Finished st.1 id := by
  intro h
  have hstart : Reach (pool.threads Bool) free start :=
    .init ⟨rfl, fun b => by cases b <;> simp [start, pool]⟩
  obtain ⟨st, hrun⟩ := Option.isSome_iff_exists.mp (by decide : (schedule step start early).isSome)
  have hreach := reach_schedule (P := pool) (fun _ _ _ _ _ h => h) hstart hrun
  have hfin : Finished st.1 0 := by
    refine h st hreach true [0] ?_ 0 List.mem_cons_self
    cases hrun
    rfl
  cases hrun
  rcases hfin with hfin | hfin <;> cases hfin

end LearningCode.ZeroThreadpool
