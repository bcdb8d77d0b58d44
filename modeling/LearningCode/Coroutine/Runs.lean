import LearningCode.Coroutine.Refine

/-!
# Runs

The steps that do not switch, then all steps, then whole runs: what the
processor does is what the threads do, and no switch touches what is not there.
-/

namespace LearningCode.Coroutine

open Machine (System)
open Transition (Path Reach free)

variable {P : Program} {p q o : Party} {s s' : System} {t : Threads} {a : UInt64}
  {f mem : UInt64 → UInt64} {i : Action} {is : List Action}

theorem overlay_in {Q : UInt64 → Prop} [DecidablePred Q] (h : Q a) : overlay Q f mem a = f a :=
  if_pos h

theorem overlay_out {Q : UInt64 → Prop} [DecidablePred Q] (h : ¬Q a) : overlay Q f mem a = mem a :=
  if_neg h

-- ---------------------------------------------------------------------------
-- Create
-- ---------------------------------------------------------------------------

theorem create_placed (hplaced : Placed P s.parties s.running) (hp : p.Placed) (hnew : p.isNew = true)
    (hapart : ∀ q ∈ s.parties, q.Apart p) : Placed P (s.parties ++ [p]) s.running where
  placed o ho := by
    obtain ho | ho := List.mem_append.mp ho
    · exact hplaced.placed o ho
    · rwa [List.mem_singleton.mp ho]
  apart := by
    refine List.pairwise_append.mpr ⟨hplaced.apart, List.pairwise_singleton _ p, fun q hq o ho => ?_⟩
    rw [List.mem_singleton.mp ho]
    exact hapart q hq
  sched := by
    obtain ⟨u, hu, h⟩ := hplaced.sched
    exact ⟨u, List.mem_append_left _ hu, h⟩
  running := by
    obtain ⟨u, hu, h⟩ := hplaced.running
    exact ⟨u, List.mem_append_left _ hu, h⟩
  fresh o ho hofresh := by
    obtain ho | ho := List.mem_append.mp ho
    · exact hplaced.fresh o ho hofresh
    · rwa [List.mem_singleton.mp ho]

theorem create_sim (hplaced : Placed P s.parties s.running) (hsim : Sim s t) (hp : p.Placed)
    (hfresh : p.started = false) (hapart : ∀ q ∈ s.parties, q.Apart p) :
    Sim ⟨{ s.machine with mem := overlay p.ctxArea.Has (fun _ => 0) s.machine.mem },
      s.parties ++ [p], s.running⟩ { t with parties := t.parties ++ [p] } := by
  have hkeep (q : Party) (hq : q ∈ s.parties) (b : UInt64) (hb : q.ctxArea.Has b) :
      overlay p.ctxArea.Has (fun _ => 0) s.machine.mem b = s.machine.mem b :=
    overlay_out ((hapart q hq).ctx.not_has hb)
  refine ⟨congrArg (· ++ [p]) hsim.parties, hsim.running, hsim.regs, ?_, ?_, ?_⟩
  · intro o ho hstarted hrunning
    obtain ho | ho := List.mem_append.mp ho
    · obtain ⟨hstored, hroom⟩ := hsim.stored o ho hstarted hrunning
      exact ⟨hstored.congr (hplaced.placed o ho).ctx (hkeep o ho), hroom⟩
    · rw [List.mem_singleton.mp ho, hfresh] at hstarted
      cases hstarted
  · intro o ho hofresh r hr
    obtain ho | ho := List.mem_append.mp ho
    · exact (hkeep o ho _ (ctx_has (hplaced.placed o ho).ctx.fits r)).trans
        (hsim.fresh o ho hofresh r hr)
    · rw [List.mem_singleton.mp ho]
      exact overlay_in (f := fun _ => 0) (ctx_has hp.ctx.fits r)
  · intro b hb
    have hout : ¬p.ctxArea.Has b := (hb p (List.mem_append_right _ List.mem_cons_self)).1
    exact (overlay_out (f := fun _ => 0) hout).trans
      (hsim.mem b fun o ho => hb o (List.mem_append_left _ ho))

-- ---------------------------------------------------------------------------
-- Work
-- ---------------------------------------------------------------------------

theorem work_sim (hplaced : Placed P s.parties s.running) (hsim : Sim s t) (regs : Reg → UInt64)
    (f : UInt64 → UInt64) :
    Sim ⟨⟨regs, overlay (Writable s.parties s.running) f s.machine.mem⟩, s.parties, s.running⟩
      { t with
        regs := Function.update t.regs t.running regs
        mem := overlay (Writable t.parties t.running) f t.mem } := by
  have hkeep (q : Party) (hq : q ∈ s.parties) (b : UInt64) (hb : q.ctxArea.Has b) :
      overlay (Writable s.parties s.running) f s.machine.mem b = s.machine.mem b :=
    overlay_out fun h => (h q hq).1 hb
  rw [← hsim.parties, ← hsim.running]
  refine ⟨rfl, rfl, fun r _ => ?_, ?_, ?_, ?_⟩
  · exact (congrFun (Function.update_self _ _ _) r).symm
  · intro o ho hstarted hrunning
    obtain ⟨hstored, hroom⟩ := hsim.stored o ho hstarted hrunning
    dsimp only
    rw [Function.update_of_ne hrunning]
    exact ⟨hstored.congr (hplaced.placed o ho).ctx (hkeep o ho), hroom⟩
  · intro o ho hofresh r hr
    exact (hkeep o ho _ (ctx_has (hplaced.placed o ho).ctx.fits r)).trans
      (hsim.fresh o ho hofresh r hr)
  · intro b hb
    by_cases hwrite : Writable s.parties s.running b
    · exact (overlay_in hwrite).trans (overlay_in hwrite).symm
    · refine (overlay_out hwrite).trans ((hsim.mem b ?_).trans (overlay_out hwrite).symm)
      -- What cannot be written and is seen is on the stack of another party.
      obtain ⟨o, ho, hother, hstack⟩ : ∃ o ∈ s.parties, o.ctx ≠ s.running ∧ o.stack.Has b := by
        by_contra hnone
        refine hwrite fun o ho => ⟨(hb o ho).1, ?_⟩
        by_contra hor
        exact hnone ⟨o, ho, (not_or.mp hor).1, not_not.mp (not_or.mp hor).2⟩
      intro u hu
      obtain ⟨hctx, hlive⟩ := hb u hu
      refine ⟨hctx, fun hst hstarted => ?_⟩
      by_cases hrunning : u.ctx = s.running
      · have hap := hplaced.apart_of_ne ho hu (hrunning ▸ hother)
        exact absurd hst (hap.stack.not_has hstack)
      · simp only [Function.update_of_ne hrunning] at hlive
        exact hlive hst hstarted

-- ---------------------------------------------------------------------------
-- Free
-- ---------------------------------------------------------------------------

theorem free_placed (hplaced : Placed P s.parties s.running) {ctx : UInt64} (hctx : ctx ≠ P.sched) :
    Placed P (s.parties.filter (·.ctx ≠ ctx)) P.sched := by
  obtain ⟨u, hu, husched, hstarted⟩ := hplaced.sched
  have hmem : u ∈ s.parties.filter (·.ctx ≠ ctx) :=
    List.mem_filter.mpr ⟨hu, decide_eq_true (husched ▸ Ne.symm hctx)⟩
  exact ⟨fun o ho => hplaced.placed o (List.mem_filter.mp ho).1, hplaced.apart.filter _,
    ⟨u, hmem, husched, hstarted⟩, ⟨u, hmem, husched, hstarted⟩,
    fun o ho => hplaced.fresh o (List.mem_filter.mp ho).1⟩

theorem free_sim (hplaced : Placed P s.parties s.running) (hsim : Sim s t) (hp : p ∈ s.parties)
    (f : UInt64 → UInt64) :
    Sim ⟨{ s.machine with mem := overlay p.Owns f s.machine.mem },
        s.parties.filter (·.ctx ≠ p.ctx), s.running⟩
      { t with
        mem := overlay p.Owns f t.mem
        parties := t.parties.filter (·.ctx ≠ p.ctx) } := by
  have hmem {o : Party} (ho : o ∈ s.parties.filter (·.ctx ≠ p.ctx)) :
      o ∈ s.parties ∧ o.ctx ≠ p.ctx :=
    ⟨(List.mem_filter.mp ho).1, of_decide_eq_true (List.mem_filter.mp ho).2⟩
  have hkeep {o : Party} (ho : o ∈ s.parties.filter (·.ctx ≠ p.ctx)) (b : UInt64)
      (hb : o.ctxArea.Has b) : overlay p.Owns f s.machine.mem b = s.machine.mem b := by
    have hap := hplaced.apart_of_ne (hmem ho).1 hp (hmem ho).2
    exact overlay_out (not_or.mpr ⟨hap.ctx.not_has hb, hap.ctx_stack.not_has hb⟩)
  refine ⟨congrArg (List.filter (·.ctx ≠ p.ctx)) hsim.parties, hsim.running, hsim.regs, ?_, ?_, ?_⟩
  · intro o ho hstarted hrunning
    obtain ⟨hstored, hroom⟩ := hsim.stored o (hmem ho).1 hstarted hrunning
    exact ⟨hstored.congr (hplaced.placed o (hmem ho).1).ctx (hkeep ho), hroom⟩
  · intro o ho hofresh r hr
    exact (hkeep ho _ (ctx_has (hplaced.placed o (hmem ho).1).ctx.fits r)).trans
      (hsim.fresh o (hmem ho).1 hofresh r hr)
  · intro b hb
    by_cases howns : p.Owns b
    · exact (overlay_in howns).trans (overlay_in howns).symm
    · refine (overlay_out howns).trans ((hsim.mem b fun o ho => ?_).trans (overlay_out howns).symm)
      by_cases hop : o.ctx = p.ctx
      · obtain rfl := hplaced.eq ho hp hop
        obtain ⟨hctx, hstack⟩ := not_or.mp howns
        exact ⟨hctx, fun h => absurd h hstack⟩
      · exact hb o (List.mem_filter.mpr ⟨ho, decide_eq_true hop⟩)

-- ---------------------------------------------------------------------------
-- The NEW bit
-- ---------------------------------------------------------------------------

theorem setNew_sim (hsim : Sim s t) (isNew : Bool) :
    Sim { s with parties := setNew s.parties a isNew } { t with parties := setNew t.parties a isNew } := by
  have hmem {o : Party} (ho : o ∈ setNew s.parties a isNew) :
      ∃ u ∈ s.parties, o.ctx = u.ctx ∧ o.stack = u.stack ∧ o.started = u.started := by
    obtain ⟨u, hu, rfl⟩ := List.mem_map.mp ho
    refine ⟨u, hu, ?_, ?_, setNew_started⟩ <;> split <;> rfl
  refine ⟨congrArg (setNew · a isNew) hsim.parties, hsim.running, hsim.regs, ?_, ?_, ?_⟩
  · intro o ho hstarted hrunning
    obtain ⟨u, hu, hctx, hstack, hu'⟩ := hmem ho
    rw [hctx] at hrunning ⊢
    obtain ⟨hstored, hroom⟩ := hsim.stored u hu (hu' ▸ hstarted) hrunning
    exact ⟨hstored, by rwa [Room, hstack]⟩
  · intro o ho hofresh r hr
    obtain ⟨u, hu, hctx, -, hu'⟩ := hmem ho
    rw [hctx]
    exact hsim.fresh u hu (hu' ▸ hofresh) r hr
  · intro b hb
    refine hsim.mem b fun u hu => ?_
    have hseen := hb _ (List.mem_map_of_mem hu)
    split at hseen <;> exact hseen

-- ---------------------------------------------------------------------------
-- All steps
-- ---------------------------------------------------------------------------

theorem resume_new (ret : UInt64) (hplaced : Placed P s.parties s.running) (hsim : Sim s t)
    (hq : q ∈ s.parties) (hnew : q.isNew = true)
    (hframe : q.started = true → InFrame q s.machine.mem) (hsched : s.running = P.sched)
    (hco : q.ctx ≠ P.sched)
    (hroom : ∀ p ∈ s.parties, p.ctx = s.running → Room p (s.machine.regs .rsp)) :
    ∃ m', s.step P (.resume q.ctx ret) = some ⟨m', start s.parties q.ctx, q.ctx⟩ ∧
      m'.regs .rdi = q.ctx ∧
      Sim ⟨m', start s.parties q.ctx, q.ctx⟩ { (t.enter P q).leave ret with running := q.ctx } ∧
      Placed P (start s.parties q.ctx) q.ctx := by
  obtain ⟨p, hp, hprunning, -⟩ := hplaced.running
  have hqp : q.ctx ≠ p.ctx := by rwa [hprunning, hsched]
  have hentered := enter_sim hplaced hsim hq hnew (hprunning ▸ hqp) hframe
  have hplaced' := hplaced.start q
  have hqmem : { q with started := true, isNew := false } ∈ start s.parties q.ctx :=
    List.mem_map.mpr ⟨q, hq, if_pos rfl⟩
  have hpmem : p ∈ start s.parties q.ctx := List.mem_map.mpr ⟨p, hp, if_neg (Ne.symm hqp)⟩
  obtain ⟨m', hrun, hrdi, hsim'⟩ := handover ret hplaced' hentered hpmem hprunning
    (hroom p hp hprunning) hqmem rfl hqp
  have hrun : (s.init P q).machine.callSwitch q.ctx P.sched ret = some m' := by
    rwa [hprunning, hsched] at hrun
  refine ⟨m', ?_, hrdi, hsim', hplaced'.placed, hplaced'.apart, hplaced'.sched,
    ⟨_, hqmem, rfl, rfl⟩, hplaced'.fresh⟩
  simp only [System.step, hplaced.find hq rfl, hnew, if_true, Option.bind_eq_bind,
    Option.bind_some, hrun]
  rfl

theorem resume_old (ret : UInt64) (hplaced : Placed P s.parties s.running) (hsim : Sim s t)
    (hq : q ∈ s.parties) (hnew : q.isNew = false) (hsched : s.running = P.sched)
    (hco : q.ctx ≠ P.sched)
    (hroom : ∀ p ∈ s.parties, p.ctx = s.running → Room p (s.machine.regs .rsp)) :
    ∃ m', s.step P (.resume q.ctx ret) = some { s with machine := m', running := q.ctx } ∧
      t.step P (.resume q.ctx ret) = some { t.leave ret with running := q.ctx } ∧
      Sim { s with machine := m', running := q.ctx } { t.leave ret with running := q.ctx } ∧
      Placed P s.parties q.ctx := by
  obtain ⟨p, hp, hprunning, -⟩ := hplaced.running
  have hfind := hplaced.find hq rfl
  have hqp : q.ctx ≠ p.ctx := by rwa [hprunning, hsched]
  have hstarted : q.started = true := by
    by_contra hfresh
    rw [hplaced.fresh q hq (Bool.not_eq_true _ ▸ hfresh)] at hnew
    cases hnew
  obtain ⟨m', hrun, -, hsim'⟩ := handover ret hplaced hsim hp hprunning
    (hroom p hp hprunning) hq hstarted hqp
  rw [hprunning, hsched] at hrun
  refine ⟨m', ?_, ?_, hsim', hplaced.placed, hplaced.apart, hplaced.sched, ⟨q, hq, rfl, hstarted⟩,
    hplaced.fresh⟩
  · simp only [System.step, hfind, hnew, Bool.false_eq_true, if_false, Option.bind_eq_bind,
      Option.bind_some, hrun]
    rfl
  · simp only [Threads.step, ← hsim.parties, hfind, Option.bind_eq_bind, Option.bind_some,
      Threads.enter, hnew, Bool.false_eq_true, if_false]
    rfl

theorem handover_sched (ret : UInt64) (hplaced : Placed P s.parties s.running) (hsim : Sim s t)
    (hp : p ∈ s.parties) (hrunning : p.ctx = s.running) (hsched : s.running ≠ P.sched)
    (hroom : Room p (s.machine.regs .rsp)) :
    ∃ m', s.machine.callSwitch P.sched p.ctx ret = some m' ∧
      Sim { s with machine := m', running := P.sched } { t.leave ret with running := P.sched } := by
  obtain ⟨u, hu, husched, hustarted⟩ := hplaced.sched
  have hup : u.ctx ≠ p.ctx := by
    rw [husched, hrunning]
    exact Ne.symm hsched
  obtain ⟨m', hrun, -, hsim'⟩ := handover ret hplaced hsim hp hrunning hroom hu hustarted hup
  rw [husched] at hrun hsim'
  exact ⟨m', hrun, hsim'⟩

/-- A legal step has a result on either side, and these are related again. -/
theorem step_sim (hplaced : Placed P s.parties s.running) (hsim : Sim s t) (hlegal : Legal P s i) :
    ∃ s' t', s.step P i = some s' ∧ t.step P i = some t' ∧ Sim s' t' ∧
      Placed P s'.parties s'.running := by
  obtain ⟨p, hp, hprunning, -⟩ := hplaced.running
  cases i with
  | create co stack =>
    obtain ⟨hnew, hapart⟩ := hlegal
    exact ⟨_, _, rfl, rfl, create_sim hplaced hsim hnew rfl hapart,
      create_placed hplaced hnew rfl hapart⟩
  | resume co ret =>
    obtain ⟨hsched, hco, ⟨q, hq, rfl, hframe⟩, hroom⟩ := hlegal
    have hfind := hplaced.find hq rfl
    cases hnew : q.isNew with
    | true =>
      obtain ⟨m', hrun, -, hsim', hplaced'⟩ := resume_new ret hplaced hsim hq hnew
        (fun hstarted => hframe hstarted hnew) hsched hco hroom
      refine ⟨_, { (t.enter P q).leave ret with running := q.ctx }, hrun, ?_, hsim', hplaced'⟩
      simp only [Threads.step, ← hsim.parties, hfind, Option.bind_eq_bind, Option.bind_some]
      rfl
    | false =>
      obtain ⟨m', hrun, hrun', hsim', hplaced'⟩ := resume_old ret hplaced hsim hq hnew hsched hco
        hroom
      exact ⟨_, _, hrun, hrun', hsim', hplaced'⟩
  | yield ret =>
    obtain ⟨hsched, hroom⟩ := hlegal
    obtain ⟨m', hrun, hsim'⟩ := handover_sched ret hplaced hsim hp hprunning hsched
      (hroom p hp hprunning)
    rw [hprunning] at hrun
    refine ⟨_, _, ?_, rfl, hsim', hplaced.placed, hplaced.apart, hplaced.sched, hplaced.sched,
      hplaced.fresh⟩
    simp only [System.step, hrun, Option.bind_eq_bind, Option.bind_some]
    rfl
  | exit ret f =>
    obtain ⟨hsched, hroom⟩ := hlegal
    obtain ⟨m', hrun, hsim'⟩ := handover_sched ret hplaced hsim hp hprunning hsched
      (hroom p hp hprunning)
    have hfind := hplaced.find hp rfl
    have hfreed := free_sim (P := P) (s := { s with machine := m', running := P.sched })
      ⟨hplaced.placed, hplaced.apart, hplaced.sched, hplaced.sched, hplaced.fresh⟩ hsim' hp f
    refine ⟨_, { t.leave ret with
      mem := overlay p.Owns f t.mem
      parties := t.parties.filter (·.ctx ≠ p.ctx)
      running := P.sched }, ?_, ?_, hfreed, ?_⟩
    · simp only [System.step, ← hprunning, hrun, hfind, Option.bind_eq_bind, Option.bind_some]
      rfl
    · simp only [Threads.step, ← hsim.parties, ← hsim.running, ← hprunning, hfind,
        Option.bind_eq_bind, Option.bind_some]
      rfl
    · exact free_placed hplaced (by rwa [hprunning])
  | schedWait =>
    exact ⟨_, { t with parties := setNew t.parties s.running true }, rfl,
      by rw [hsim.running]; rfl, setNew_sim hsim true, hplaced.setNew fun h => Bool.noConfusion h⟩
  | searchWait co =>
    exact ⟨_, _, rfl, rfl, setNew_sim hsim false, hplaced.setNew fun _ => hlegal.2⟩
  | work regs f =>
    exact ⟨_, _, rfl, rfl, work_sim hplaced hsim regs f, hplaced⟩

def threads (s : System) : Threads :=
  ⟨fun _ => s.machine.regs, s.machine.mem, s.parties, s.running⟩

theorem init_sim (h : Init P s) : Placed P s.parties s.running ∧ Sim s (threads s) := by
  obtain ⟨p, hparties, hctx, hstarted, hplaced, hrunning⟩ := h
  rw [hparties, hrunning]
  refine ⟨⟨?_, List.pairwise_singleton _ p, ⟨p, ?_, hctx, hstarted⟩, ⟨p, ?_, hctx, hstarted⟩,
    fun o ho hofresh => ?_⟩, rfl, rfl, fun _ _ => rfl, ?_, ?_, fun _ _ => rfl⟩
  · simpa using hplaced
  · exact List.mem_cons_self
  · exact List.mem_cons_self
  · rw [List.mem_singleton.mp ho, hstarted] at hofresh
    cases hofresh
  · intro o ho _ hne
    rw [hparties, List.mem_singleton] at ho
    rw [ho, hctx, hrunning] at hne
    exact absurd rfl hne
  · intro o ho hofresh
    rw [hparties, List.mem_singleton] at ho
    rw [ho, hstarted] at hofresh
    cases hofresh

theorem path_sim (hplaced : Placed P s.parties s.running) (hsim : Sim s t)
    (hpath : Path (system P) s is s') :
    ∃ t', t.run P is = some t' ∧ Sim s' t' ∧ Placed P s'.parties s'.running := by
  induction hpath generalizing t with
  | nil s => exact ⟨t, rfl, hsim, hplaced⟩
  | cons hstep _ ih =>
    obtain ⟨hlegal, hstep⟩ := hstep
    obtain ⟨s₁, t₁, hs, ht, hsim₁, hplaced₁⟩ := step_sim hplaced hsim hlegal
    obtain rfl := Option.some.inj (hstep.symm.trans hs)
    obtain ⟨t', hrun, hsim', hplaced'⟩ := ih hplaced₁ hsim₁
    exact ⟨t', by simp only [Threads.run, ht, Option.bind_eq_bind, Option.bind_some, hrun],
      hsim', hplaced'⟩

/-- A run of the processor is a run of the threads, and no step of it can fail. -/
theorem switch_refines (hinit : Init P s) (hpath : Path (system P) s is s') :
    (∃ t', (threads s).run P is = some t' ∧ Sim s' t') ∧
      ∀ i, Legal P s' i → ∃ s'', s'.step P i = some s'' := by
  obtain ⟨hplaced, hsim⟩ := init_sim hinit
  obtain ⟨t', hrun, hsim', hplaced'⟩ := path_sim hplaced hsim hpath
  refine ⟨⟨t', hrun, hsim'⟩, fun i hlegal => ?_⟩
  obtain ⟨s'', -, hstep, -⟩ := step_sim hplaced' hsim' hlegal
  exact ⟨s'', hstep⟩

/-- A scheduler's thread, and one coroutine that spoils every register it can and
waits to write. -/
def demo : Program := ⟨4096, 4194304, 2048⟩

def boot : System :=
  ⟨⟨fun r => if r = .rsp then 34816 else 1, fun _ => 0⟩, [⟨4096, ⟨32768, 4096⟩, true, false⟩], 4096⟩

def created : System := (boot.step demo (.create 8192 65536)).getD boot

def entered : System := (created.step demo (.resume 8192 77)).getD boot

def spoilt : System :=
  (entered.step demo (.work (fun r => if r = .rsp then 67520 else 5) fun _ => 9)).getD boot

def waiting : System := (spoilt.step demo .schedWait).getD boot

def yielded : System := (waiting.step demo (.yield 78)).getD boot

theorem boot_init : Init demo boot :=
  ⟨_, rfl, rfl, rfl, ⟨⟨by decide, by decide⟩, by decide, by decide, by decide, by decide, by decide⟩,
    rfl⟩

theorem boot_created : (system demo).step boot (.create 8192 65536) created := by
  refine ⟨⟨⟨⟨by decide, by decide⟩, by decide, by decide, by decide, by decide, by decide⟩, ?_⟩, rfl⟩
  intro q hq
  rw [List.mem_singleton.mp hq]
  exact ⟨by decide, by decide, by decide, by decide⟩

theorem created_legal : Legal demo created (.resume 8192 77) := by
  refine ⟨rfl, by decide, ⟨_, .tail _ (.head _), rfl, fun h => nomatch h⟩, ?_⟩
  unfold Room
  decide

theorem created_entered : (system demo).step created (.resume 8192 77) entered :=
  ⟨created_legal, rfl⟩

theorem entered_spoilt : (system demo).step entered
    (.work (fun r => if r = .rsp then 67520 else 5) fun _ => 9) spoilt := ⟨trivial, rfl⟩

theorem spoilt_waiting : (system demo).step spoilt .schedWait waiting :=
  ⟨show spoilt.running ≠ demo.sched by decide, rfl⟩

theorem waiting_yielded : (system demo).step waiting (.yield 78) yielded := by
  refine ⟨⟨by decide, ?_⟩, rfl⟩
  unfold Room
  decide

theorem switch_refines_demo :
    let is : List Action := [.create 8192 65536, .resume 8192 77,
      .work (fun r => if r = .rsp then 67520 else 5) fun _ => 9, .schedWait, .yield 78]
    (∃ t', (threads boot).run demo is = some t' ∧ Sim yielded t') ∧
      ∀ i, Legal demo yielded i → ∃ s'', yielded.step demo i = some s'' :=
  switch_refines boot_init (.cons boot_created (.cons created_entered (.cons entered_spoilt
    (.cons spoilt_waiting (.cons waiting_yielded (.nil _))))))

end LearningCode.Coroutine

/-!
## Leaving and coming back

What a party finds when it runs again, whatever ran in between: its registers,
its stack from the stack pointer up, and the address behind its call. And what
a coroutine finds when it runs for the first time.
-/

namespace LearningCode.Coroutine

open Machine (System)
open Transition (Path Reach free)

variable {P : Program} {p q : Party} {s s' s₁ s₂ s₃ : System} {t t' : Threads} {ret : UInt64}
  {i j : Action} {is : List Action} {regs : Reg → UInt64} {mem : UInt64 → UInt64}

theorem reach_sim (hreach : Reach (system P) free s) :
    ∃ t, Placed P s.parties s.running ∧ Sim s t := by
  refine hreach.invariant (P := fun s => ∃ t, Placed P s.parties s.running ∧ Sim s t) ?_ ?_
  · exact fun s hinit => ⟨_, init_sim hinit⟩
  · intro s i s' ⟨t, hplaced, hsim⟩ _ ⟨hlegal, hstep⟩
    obtain ⟨s₁, t₁, hs, -, hsim', hplaced'⟩ := step_sim hplaced hsim hlegal
    obtain rfl := Option.some.inj (hstep.symm.trans hs)
    exact ⟨t₁, hplaced', hsim'⟩

-- ---------------------------------------------------------------------------
-- A thread that does not run
-- ---------------------------------------------------------------------------

structure Holds (t : Threads) (p : Party) (regs : Reg → UInt64) (mem : UInt64 → UInt64) : Prop where
  party : ∃ u ∈ t.parties, u.ctx = p.ctx ∧ u.stack = p.stack
  regs : t.regs p.ctx = regs
  mem : ∀ a, p.stack.Has a → t.mem a = mem a

theorem enter_holds (hplaced : Placed P t.parties t.running) (hq : q ∈ t.parties)
    (hold : q.ctx = p.ctx → q.isNew = false) (h : Holds t p regs mem) :
    Holds (t.enter P q) p regs mem := by
  rw [Threads.enter]
  split
  · next hnew =>
    have hpq : p.ctx ≠ q.ctx := by
      intro hctx
      rw [hold hctx.symm] at hnew
      cases hnew
    have hqp := hplaced.placed q hq
    obtain ⟨u, hu, huctx, hustack⟩ := h.party
    refine ⟨⟨u, List.mem_map.mpr ⟨u, hu, if_neg (huctx ▸ hpq)⟩, huctx, hustack⟩, ?_, fun a ha => ?_⟩
    · exact (Function.update_of_ne hpq _ _).trans h.regs
    · have hout := (hplaced.apart_of_ne hu hq (huctx ▸ hpq)).stack.not_has (hustack ▸ ha)
      have h24 : a ≠ q.top - 24 := by
        rintro rfl
        exact hout (hqp.has_top_sub (by decide) (by decide))
      have h16 : a ≠ q.top - 16 := by
        rintro rfl
        exact hout (hqp.has_top_sub (by decide) (by decide))
      simp only [Function.update_of_ne h24, Function.update_of_ne h16, h.mem a ha]
  · exact h

theorem setNew_holds {ctx : UInt64} {isNew : Bool} (h : Holds t p regs mem) :
    Holds { t with parties := setNew t.parties ctx isNew } p regs mem := by
  obtain ⟨u, hu, huctx, hustack⟩ := h.party
  refine ⟨⟨_, List.mem_map_of_mem hu, ?_, ?_⟩, h.regs, h.mem⟩ <;> split <;> assumption

theorem enter_running : (t.enter P q).running = t.running := by
  rw [Threads.enter]
  split <;> rfl

theorem step_holds (hplaced : Placed P t.parties t.running) (hp : p.ctx ≠ t.running)
    (hold : ∀ co ret, i = .resume co ret → ∀ u ∈ t.parties, u.ctx = co → u.ctx = p.ctx →
      u.isNew = false)
    (h : Holds t p regs mem) (hstep : t.step P i = some t') : Holds t' p regs mem := by
  have hleave {t : Threads} (ret : UInt64) (hp : p.ctx ≠ t.running) (h : Holds t p regs mem) :
      Holds (t.leave ret) p regs mem :=
    ⟨h.party, (leave_other hp).trans h.regs, h.mem⟩
  obtain ⟨u, hu, huctx, hustack⟩ := h.party
  cases i with
  | create co stack =>
    cases hstep
    exact ⟨⟨u, List.mem_append_left _ hu, huctx, hustack⟩, h.regs, h.mem⟩
  | resume co ret =>
    obtain ⟨q, hq, hstep⟩ := Option.bind_eq_some_iff.mp hstep
    cases hstep
    obtain ⟨hqmem, hqctx⟩ := find_some hq
    have hentered := enter_holds hplaced hqmem (hold co ret rfl q hqmem hqctx) h
    have hleft := hleave ret (by rwa [enter_running]) hentered
    exact ⟨hleft.party, hleft.regs, hleft.mem⟩
  | yield ret =>
    cases hstep
    have hleft := hleave ret hp h
    exact ⟨hleft.party, hleft.regs, hleft.mem⟩
  | exit ret f =>
    obtain ⟨q, hq, hstep⟩ := Option.bind_eq_some_iff.mp hstep
    cases hstep
    obtain ⟨hqmem, hqrunning⟩ := find_some hq
    have hleft := hleave ret hp h
    have hap := hplaced.apart_of_ne hu hqmem (huctx ▸ hqrunning ▸ hp)
    refine ⟨⟨u, List.mem_filter.mpr ⟨hu, decide_eq_true (huctx ▸ hp)⟩, huctx, hustack⟩, hleft.regs,
      fun a ha => ?_⟩
    have hust : u.stack.Has a := hustack ▸ ha
    have hout : ¬q.Owns a := not_or.mpr ⟨hap.stack_ctx.not_has hust, hap.stack.not_has hust⟩
    exact (overlay_out hout).trans (h.mem a ha)
  | schedWait =>
    cases hstep
    exact setNew_holds h
  | searchWait co =>
    cases hstep
    exact setNew_holds h
  | work r f =>
    cases hstep
    refine ⟨h.party, (Function.update_of_ne hp _ _).trans h.regs, fun a ha => ?_⟩
    have hout : ¬Writable t.parties t.running a := fun hwrite =>
      (hwrite u hu).2.elim (huctx ▸ hp) fun hstack => hstack (hustack ▸ ha)
    exact (overlay_out hout).trans (h.mem a ha)

theorem leave_holds (hplaced : Placed P t.parties t.running) (hp : p ∈ t.parties)
    (hrunning : p.ctx = t.running) (hi : i = .yield ret ∨ ∃ co, i = .resume co ret)
    (hstep : t.step P i = some t') (hother : t'.running ≠ p.ctx) :
    Holds t' p (Function.update (t.regs p.ctx) .rip ret) t.mem := by
  have hleave {t : Threads} {regs : Reg → UInt64} {mem : UInt64 → UInt64}
      (hrunning : p.ctx = t.running) (h : Holds t p regs mem) :
      Holds (t.leave ret) p (Function.update regs .rip ret) mem := by
    refine ⟨h.party, ?_, h.mem⟩
    rw [hrunning, leave_running, ← hrunning, h.regs]
  have hstart : Holds t p (t.regs p.ctx) t.mem := ⟨⟨p, hp, rfl, rfl⟩, rfl, fun _ _ => rfl⟩
  obtain rfl | ⟨co, rfl⟩ := hi
  · cases hstep
    have hleft := hleave hrunning hstart
    exact ⟨hleft.party, hleft.regs, hleft.mem⟩
  · obtain ⟨q, hq, hstep⟩ := Option.bind_eq_some_iff.mp hstep
    cases hstep
    obtain ⟨hqmem, hqctx⟩ := find_some hq
    have hentered := enter_holds hplaced hqmem (fun hctx => absurd (hqctx ▸ hctx) hother) hstart
    have hleft := hleave (by rwa [enter_running]) hentered
    exact ⟨hleft.party, hleft.regs, hleft.mem⟩

-- ---------------------------------------------------------------------------
-- Coming back
-- ---------------------------------------------------------------------------

theorem resume_running {co : UInt64} (hstep : s.step P (.resume co ret) = some s') :
    s'.running = co := by
  simp only [System.step, Option.bind_eq_bind, Option.bind_eq_some_iff] at hstep
  obtain ⟨p, -, m, -, hstep⟩ := hstep
  exact (congrArg System.running (Option.some.inj hstep)).symm

def away (P : Program) (ctx : UInt64) : Transition System Action where
  init := Init P
  step s i s' := (system P).step s i s' ∧ s'.running ≠ ctx

theorem away_holds {co : UInt64} (hplaced : Placed P s.parties s.running) (hsim : Sim s t)
    (hco : p.ctx = co) (hp : p.ctx ≠ s.running)
    (h : Holds t p regs mem) (hpath : Path (away P co) s is s') :
    ∃ t', Placed P s'.parties s'.running ∧ Sim s' t' ∧ p.ctx ≠ s'.running ∧ Holds t' p regs mem := by
  induction hpath generalizing t with
  | nil s => exact ⟨t, hplaced, hsim, hp, h⟩
  | cons hstep _ ih =>
    obtain ⟨⟨hlegal, hstep⟩, hrunning⟩ := hstep
    obtain ⟨s₁, t₁, hs, ht, hsim₁, hplaced₁⟩ := step_sim hplaced hsim hlegal
    obtain rfl := Option.some.inj (hstep.symm.trans hs)
    have hholds := step_holds (hsim.parties ▸ hsim.running ▸ hplaced) (hsim.running ▸ hp)
      (fun co' ret hi u _ huctx hup => ?_) h ht
    · exact ih hplaced₁ hsim₁ (hco ▸ Ne.symm hrunning) hholds
    · subst hi
      rw [resume_running hstep] at hrunning
      exact absurd (huctx.symm.trans (hup.trans hco)) hrunning

/-- A party that has switched away finds, when control comes back to it after
any steps of the others, its registers and the live part of its stack as they
were, and goes on behind its call of `_switch`; unless it is resumed with NEW set. -/
theorem resumed_as_left (hreach : Reach (system P) free s)
    (hi : i = .yield ret ∨ ∃ co, i = .resume co ret)
    (hleave : (away P s.running).step s i s₁) (hothers : Path (away P s.running) s₁ is s₂)
    (hback : (system P).step s₂ j s₃) (hrunning : s₃.running = s.running)
    (hold : ∀ co ret, j = .resume co ret → ∀ p ∈ s₂.parties, p.ctx = co → p.isNew = false) :
    s₃.machine.regs .rip = ret ∧ s₃.machine.regs .rsp = s.machine.regs .rsp ∧
      (∀ r, Saved r → s₃.machine.regs r = s.machine.regs r) ∧
      ∀ p ∈ s.parties, p.ctx = s.running → ∀ a, p.stack.Has a →
        (s.machine.regs .rsp).toNat ≤ a.toNat → s₃.machine.mem a = s.machine.mem a := by
  obtain ⟨t, hplaced, hsim⟩ := reach_sim hreach
  obtain ⟨p, hp, hprunning, -⟩ := hplaced.running
  obtain ⟨⟨hlegal, hstep⟩, hother⟩ := hleave
  obtain ⟨s', t₁, hs, ht, hsim₁, hplaced₁⟩ := step_sim hplaced hsim hlegal
  obtain rfl := Option.some.inj (hstep.symm.trans hs)
  have hleft := leave_holds (hsim.parties ▸ hsim.running ▸ hplaced) (hsim.parties ▸ hp)
    (hsim.running ▸ hprunning) hi ht (hsim₁.running ▸ hprunning ▸ hother)
  obtain ⟨t₂, hplaced₂, hsim₂, hp₂, hholds₂⟩ := away_holds hplaced₁ hsim₁ hprunning
    (hprunning ▸ Ne.symm hother) hleft hothers
  obtain ⟨s', t₃, hs, ht, hsim₃, hplaced₃⟩ := step_sim hplaced₂ hsim₂ hback.1
  obtain rfl := Option.some.inj (hback.2.symm.trans hs)
  have hholds₃ := step_holds (hsim₂.parties ▸ hsim₂.running ▸ hplaced₂) (hsim₂.running ▸ hp₂)
    (fun co ret hj u hu huctx _ => hold co ret hj u (hsim₂.parties ▸ hu) huctx) hholds₂ ht
  have hregs (r : Reg) (hr : Kept r) :
      s₃.machine.regs r = Function.update (t.regs p.ctx) .rip ret r := by
    rw [hsim₃.regs r hr, hrunning, ← hprunning, hholds₃.regs]
  have hbefore (r : Reg) (hr : Kept r) : s.machine.regs r = t.regs p.ctx r := by
    rw [hsim.regs r hr, hprunning]
  have hrsp : s₃.machine.regs .rsp = s.machine.regs .rsp :=
    (hregs .rsp (.inl rfl)).trans (hbefore .rsp (.inl rfl)).symm
  refine ⟨(hregs .rip (.inr (.inl rfl))).trans (Function.update_self _ _ _), hrsp, fun r hr => ?_, ?_⟩
  · rw [hregs r (.inr (.inr hr)), hbefore r (.inr (.inr hr))]
    cases hr <;> rfl
  · intro q hq hqrunning a ha hlive
    obtain rfl := hplaced.eq hq hp (hqrunning.trans hprunning.symm)
    -- A word of the live part is seen on either side.
    have hseen {s : System} {t : Threads} {u : Party} (hplaced : Placed P s.parties s.running)
        (hu : u ∈ s.parties) (hrsp : (t.regs u.ctx .rsp).toNat ≤ a.toNat) (ha : u.stack.Has a) :
        Visible s.parties t.regs a := by
      intro o ho
      by_cases hou : o.ctx = u.ctx
      · obtain rfl := hplaced.eq ho hu hou
        exact ⟨(hplaced.placed o ho).own.symm.not_has ha, fun _ _ => hrsp⟩
      · have hap := hplaced.apart_of_ne hu ho (Ne.symm hou)
        exact ⟨hap.stack_ctx.not_has ha, fun hst => absurd hst (hap.stack.not_has ha)⟩
    have hrsp₃ : (t₃.regs q.ctx .rsp).toNat ≤ a.toNat := by
      rw [hholds₃.regs]
      show (t.regs q.ctx .rsp).toNat ≤ a.toNat
      rwa [← hbefore .rsp (.inl rfl)]
    obtain ⟨u, hu, huctx, hustack⟩ := hholds₃.party
    rw [hsim₃.mem a (hseen hplaced₃ (hsim₃.parties ▸ hu) (huctx ▸ hrsp₃) (hustack ▸ ha)),
      hholds₃.mem a ha, hsim.mem a (hseen hplaced hq (by rwa [← hbefore .rsp (.inl rfl)]) ha)]

theorem created_reach : Reach (system demo) free created :=
  .step (.init boot_init) trivial boot_created

theorem yielded_reach : Reach (system demo) free yielded :=
  created_reach.path (.cons created_entered (.cons entered_spoilt (.cons spoilt_waiting
    (.cons waiting_yielded (.nil _))))) fun _ _ _ => trivial

/-- The scheduler's thread, after the coroutine. -/
theorem resumed_as_left_demo :
    yielded.machine.regs .rip = 77 ∧ yielded.machine.regs .rsp = created.machine.regs .rsp ∧
      (∀ r, Saved r → yielded.machine.regs r = created.machine.regs r) ∧
      ∀ p ∈ created.parties, p.ctx = created.running → ∀ a, p.stack.Has a →
        (created.machine.regs .rsp).toNat ≤ a.toNat →
        yielded.machine.mem a = created.machine.mem a :=
  resumed_as_left created_reach (.inr ⟨8192, rfl⟩) ⟨created_entered, by decide⟩
    (.cons ⟨entered_spoilt, by decide⟩ (.cons ⟨spoilt_waiting, by decide⟩ (.nil _))) waiting_yielded rfl
    fun _ _ h => nomatch h

-- ---------------------------------------------------------------------------
-- Beginning
-- ---------------------------------------------------------------------------

/-- A coroutine that is resumed with NEW set, for the first time or not, starts in
`_exec` with itself as the argument, on its own stack, aligned as at the entry of
a function, and with no address to return to. -/
theorem exec_entered (hreach : Reach (system P) free s) (hq : q ∈ s.parties)
    (hbegins : q.started = false ∨ q.isNew = true) (hlegal : Legal P s (.resume q.ctx ret)) :
    ∃ s', s.step P (.resume q.ctx ret) = some s' ∧ s'.machine.regs .rip = P.exec ∧
      s'.machine.regs .rdi = q.ctx ∧ q.stack.Has (s'.machine.regs .rsp) ∧
      (s'.machine.regs .rsp).toNat % 16 = 8 ∧ s'.machine.mem (s'.machine.regs .rsp) = 0 := by
  obtain ⟨t, hplaced, hsim⟩ := reach_sim hreach
  have hnew : q.isNew = true := hbegins.elim (hplaced.fresh q hq) id
  obtain ⟨hsched, hco, ⟨u, hu, huctx, hframe⟩, hroom⟩ := hlegal
  rw [hplaced.eq hu hq huctx] at hframe
  obtain ⟨m', hrun, hrdi, hsim', hplaced'⟩ := resume_new ret hplaced hsim hq hnew
    (fun hstarted => hframe hstarted hnew) hsched hco hroom
  have hqp := hplaced.placed q hq
  have hne : q.ctx ≠ (t.enter P q).running := by
    rwa [enter_running, ← hsim.running, hsched]
  have hregs : ((t.enter P q).leave ret).regs q.ctx = entry P q (t.before q) := by
    rw [leave_other hne, Threads.enter, hnew]
    exact Function.update_self _ _ _
  have hrsp : m'.regs .rsp = q.top - 24 :=
    (hsim'.regs .rsp (.inl rfl)).trans (congrFun hregs .rsp)
  have hhas : q.stack.Has (q.top - 24) := hqp.has_top_sub (by decide) (by decide)
  refine ⟨_, hrun, (hsim'.regs .rip (.inr (.inl rfl))).trans (congrFun hregs .rip), hrdi, ?_, ?_, ?_⟩
  · exact hrsp ▸ hhas
  · have haligned := hqp.aligned
    have hmod := hqp.size_mod
    have hle := hqp.size_le
    have h24 : (24 : UInt64).toNat = 24 := rfl
    rw [hrsp, hqp.toNat_top_sub (by decide)]
    omega
  · show m'.mem (m'.regs .rsp) = 0
    rw [hrsp]
    refine (hsim'.mem _ fun o ho => ?_).trans ?_
    · obtain ⟨u, hu, hctx, hstack, -, -⟩ := mem_start ho
      by_cases huq : u.ctx = q.ctx
      · obtain rfl := hplaced.eq hu hq huq
        refine ⟨by simpa only [Party.ctxArea, hctx] using hqp.own.symm.not_has hhas, fun _ _ => ?_⟩
        show (((t.enter P u).leave ret).regs o.ctx .rsp).toNat ≤ _
        rw [hctx, hregs]
        exact Nat.le_refl _
      · have hap := hplaced.apart_of_ne hq hu (Ne.symm huq)
        refine ⟨by simpa only [Party.ctxArea, hctx] using hap.stack_ctx.not_has hhas, fun hst => ?_⟩
        exact absurd (hstack ▸ hst) (hap.stack.not_has hhas)
    · have h16 : q.top - 24 ≠ q.top - 16 := fun heq => by simp at heq
      show ((t.enter P q).leave ret).mem (q.top - 24) = 0
      rw [Threads.enter, hnew]
      exact (Function.update_of_ne h16 _ _).trans (Function.update_self _ _ _)

theorem yielded_legal : Legal demo yielded (.resume 8192 79) := by
  have hframe : InFrame ⟨8192, ⟨65536, 2048⟩, true, true⟩ yielded.machine.mem := by
    unfold InFrame
    decide
  refine ⟨rfl, by decide, ⟨_, .tail _ (.head _), rfl, fun _ _ => hframe⟩, ?_⟩
  unfold Room
  decide

/-- The coroutine of before, which has waited, begins again. -/
theorem exec_entered_demo :
    ∃ s', yielded.step demo (.resume 8192 79) = some s' ∧ s'.machine.regs .rip = 4194304 ∧
      s'.machine.regs .rdi = 8192 ∧ (⟨65536, 2048⟩ : Area).Has (s'.machine.regs .rsp) ∧
      (s'.machine.regs .rsp).toNat % 16 = 8 ∧ s'.machine.mem (s'.machine.regs .rsp) = 0 :=
  exec_entered (q := ⟨8192, ⟨65536, 2048⟩, true, true⟩) yielded_reach (by decide) (.inr rfl)
    yielded_legal

end LearningCode.Coroutine
