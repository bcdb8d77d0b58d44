import LearningCode.Coroutine.Switch

/-!
# The processor behaves like the threads

Each step from related states ends in related states: first the handover that
the three switching steps share, then the five steps, then a run.
-/

namespace LearningCode.Coroutine

open Machine (System)
open Transition (Path)

variable {P : Program} {ps : List Party} {p q o : Party} {s s' : System} {t : Threads}
  {mem : UInt64 → UInt64} {a ret : UInt64}

-- ---------------------------------------------------------------------------
-- The handover
-- ---------------------------------------------------------------------------

theorem Stored.of_regs {regs regs' : Reg → UInt64} {ctx : UInt64} (h : Stored mem ctx regs)
    (hregs : ∀ r, Kept r → regs r = regs' r) : Stored mem ctx regs' where
  rsp := by rw [h.rsp, hregs .rsp (.inl rfl)]
  rip := by rw [h.rip, hregs .rip (.inr (.inl rfl))]
  saved r hr := by rw [h.saved r hr, hregs r (.inr (.inr hr))]

theorem leave_other (hne : p.ctx ≠ t.running) : (t.leave ret).regs p.ctx = t.regs p.ctx :=
  Function.update_of_ne hne _ _

theorem leave_running : (t.leave ret).regs t.running = Function.update (t.regs t.running) .rip ret :=
  Function.update_self _ _ _

theorem leave_rsp : (t.leave ret).regs p.ctx .rsp = t.regs p.ctx .rsp := by
  by_cases hctx : p.ctx = t.running
  · rw [hctx, leave_running]
    rfl
  · rw [leave_other hctx]

theorem Placed.started_of_running {running : UInt64} (h : Placed P ps running) (hp : p ∈ ps)
    (hrunning : p.ctx = running) : p.started = true := by
  obtain ⟨u, hu, huctx, hustarted⟩ := h.running
  rwa [h.eq hp hu (hrunning.trans huctx.symm)]

variable (ret) in
theorem handover (hplaced : Placed P s.parties s.running) (hsim : Sim s t) (hp : p ∈ s.parties)
    (hrunning : p.ctx = s.running) (hroom : Room p (s.machine.regs .rsp)) (hq : q ∈ s.parties)
    (hstarted : q.started = true) (hne : q.ctx ≠ p.ctx) :
    ∃ m', s.machine.callSwitch q.ctx p.ctx ret = some m' ∧ m'.regs .rdi = q.ctx ∧
      Sim { s with machine := m', running := q.ctx } { t.leave ret with running := q.ctx } := by
  have hpp := hplaced.placed p hp
  have hqp := hplaced.placed q hq
  have hpq := hplaced.apart_of_ne hp hq (Ne.symm hne)
  obtain ⟨hstored, hqroom⟩ := hsim.stored q hq hstarted (hrunning ▸ hne)
  have hrsp : s.machine.regs .rsp = t.regs p.ctx .rsp := hrunning ▸ hsim.regs .rsp (.inl rfl)
  obtain ⟨m', hrun, hrsp', hrip', hsaved', hrdi', hstored', hmem'⟩ := callSwitch_spec ret
    hpp.ctx hqp.ctx hpq.ctx hstored hroom.2 (hpp.own.symm.not_has hroom.1)
    (hpq.stack_ctx.not_has hroom.1) hqroom.2 (hpq.ctx_stack.symm.not_has hqroom.1)
  have hrunning' : p.ctx = t.running := hrunning.trans hsim.running
  -- The three places that are written are nobody else's.
  have hothers : ∀ o ∈ s.parties, o.ctx ≠ p.ctx → ∀ b, o.ctxArea.Has b →
      m'.mem b = s.machine.mem b := by
    intro o ho hop b hb
    have hap := hplaced.apart_of_ne ho hp hop
    refine hmem' b (hap.ctx.not_has hb) ?_ ?_
    · rintro rfl
      exact hap.ctx_stack.not_has hb hroom.1
    · rintro rfl
      by_cases hoq : o.ctx = q.ctx
      · rw [hplaced.eq ho hq hoq] at hb
        exact hqp.own.not_has hb hqroom.1
      · exact (hplaced.apart_of_ne ho hq hoq).ctx_stack.not_has hb hqroom.1
  refine ⟨m', hrun, hrdi', hsim.parties, rfl, ?_, ?_, ?_, ?_⟩
  · rintro r (rfl | rfl | hr)
    · rw [hrsp', leave_other (hrunning' ▸ hne)]
    · rw [hrip', leave_other (hrunning' ▸ hne)]
    · rw [hsaved' r hr, leave_other (hrunning' ▸ hne)]
  · intro o ho hostarted hoq
    by_cases hop : o.ctx = p.ctx
    · obtain rfl := hplaced.eq ho hp hop
      rw [hrunning', leave_running, ← hrunning']
      have hroom' : Room o (t.regs o.ctx .rsp) := hrsp ▸ hroom
      refine ⟨hstored'.of_regs fun r hr => ?_, hroom'⟩
      by_cases hrip : r = .rip
      · rw [hrip, Function.update_self, Function.update_self]
      · rw [Function.update_of_ne hrip, Function.update_of_ne hrip, hsim.regs r hr, hrunning]
    · obtain ⟨hostored, horoom⟩ := hsim.stored o ho hostarted (hrunning ▸ hop)
      rw [leave_other (hrunning' ▸ hop)]
      exact ⟨hostored.congr (hplaced.placed o ho).ctx (hothers o ho hop), horoom⟩
  · intro o ho hofresh r hr
    have hop : o.ctx ≠ p.ctx := by
      intro hop
      rw [hplaced.started_of_running ho (hop.trans hrunning)] at hofresh
      cases hofresh
    rw [hothers o ho hop _ (ctx_has (hplaced.placed o ho).ctx.fits r)]
    exact hsim.fresh o ho hofresh r hr
  · intro b hb
    have hvisible : Visible s.parties t.regs b := fun o ho => by
      obtain ⟨hctx, hlive⟩ := hb o ho
      exact ⟨hctx, by simpa only [leave_rsp] using hlive⟩
    have hpstarted : p.started = true := hplaced.started_of_running hp hrunning
    rw [hmem' b (hvisible p hp).1 ?_ ?_, hsim.mem b hvisible]
    · rfl
    · rintro rfl
      have hle := (hvisible p hp).2 hroom.1 hpstarted
      exact absurd (hrsp ▸ hroom.lt hpp) (Nat.not_lt.mpr hle)
    · rintro rfl
      exact absurd (hqroom.lt hqp) (Nat.not_lt.mpr ((hvisible q hq).2 hqroom.1 hstarted))

-- ---------------------------------------------------------------------------
-- A coroutine that has not run yet
-- ---------------------------------------------------------------------------

theorem Party.Placed.toNat_top (hp : p.Placed) : p.top.toNat = p.stack.base.toNat + p.stack.size := by
  have hfits := hp.fits
  have hsize : (UInt64.ofNat p.stack.size).toNat = p.stack.size :=
    UInt64.toNat_ofNat_of_lt' (Nat.lt_of_le_of_lt (Nat.le_add_left _ _) hfits)
  rw [Party.top, UInt64.toNat_add, hsize, Nat.mod_eq_of_lt hfits]

theorem Party.Placed.toNat_top_sub (hp : p.Placed) {k : UInt64} (hk : k.toNat ≤ 32) :
    (p.top - k).toNat = p.stack.base.toNat + p.stack.size - k.toNat := by
  have hle := hp.size_le
  rw [toNat_sub_of_le (by rw [hp.toNat_top]; omega), hp.toNat_top]

theorem Party.Placed.has_top_sub (hp : p.Placed) {k : UInt64} (hk : k.toNat ≤ 32)
    (hpos : 0 < k.toNat) : p.stack.Has (p.top - k) := by
  have hle := hp.size_le
  unfold Area.Has
  rw [hp.toNat_top_sub hk]
  omega

/-- `nty_coroutine_init` writes to the context and the stack of its coroutine. -/
theorem initCtx_other {exec : UInt64} (hq : q.Placed) (ha : ¬q.Owns a) :
    initCtx mem q.ctx q.top exec a = mem a := by
  obtain ⟨hctx, hstack⟩ := not_or.mp ha
  have h24 : a ≠ q.top - 24 := by
    rintro rfl
    exact hstack (hq.has_top_sub (by decide) (by decide))
  have h16 : a ≠ q.top - 16 := by
    rintro rfl
    exact hstack (hq.has_top_sub (by decide) (by decide))
  have h0 : a ≠ q.ctx := by
    rintro rfl
    exact hctx (ctx_has_self q.ctx)
  have h8 : a ≠ q.ctx + 8 := by
    rintro rfl
    exact hctx (ctx_has hq.ctx.fits .rbp)
  have hrip : a ≠ q.ctx + 16 := by
    rintro rfl
    exact hctx (ctx_has hq.ctx.fits .rip)
  simp only [initCtx, Function.update_of_ne h24, Function.update_of_ne h16,
    Function.update_of_ne h0, Function.update_of_ne h8, Function.update_of_ne hrip]

theorem initCtx_stack {exec : UInt64} (hq : q.Placed) (ha : q.stack.Has a) :
    initCtx mem q.ctx q.top exec a =
      Function.update (Function.update mem (q.top - 24) 0) (q.top - 16) q.ctx a := by
  have hne (r : Reg) : a ≠ q.ctx + ctxOff r := by
    rintro rfl
    exact hq.own.not_has (ctx_has hq.ctx.fits r) ha
  have h0 : a ≠ q.ctx := by simpa [ctxOff] using hne .rsp
  have h8 : a ≠ q.ctx + 8 := hne .rbp
  have h16 : a ≠ q.ctx + 16 := hne .rip
  simp only [initCtx, Function.update_of_ne h0, Function.update_of_ne h8, Function.update_of_ne h16]

theorem initCtx_stored {regs : Reg → UInt64} (hq : q.Placed)
    (hsaved : ∀ r, Saved r → mem (q.ctx + ctxOff r) = regs r) :
    Stored (initCtx mem q.ctx q.top P.exec) q.ctx (entry P q regs) := by
  have htop (r : Reg) {k : UInt64} (hk : k.toNat ≤ 32) (hpos : 0 < k.toNat) :
      q.ctx + ctxOff r ≠ q.top - k := by
    intro heq
    exact hq.own.not_has (ctx_has hq.ctx.fits r) (heq ▸ hq.has_top_sub hk hpos)
  have h24 (r : Reg) : q.ctx + ctxOff r ≠ q.top - 24 := htop r (by decide) (by decide)
  have h16 (r : Reg) : q.ctx + ctxOff r ≠ q.top - 16 := htop r (by decide) (by decide)
  refine ⟨?_, ?_, fun r hr => ?_⟩
  · have hsub : q.top - 32 = q.top - 24 - 8 := by
      rw [sub_sub]
      rfl
    simp [initCtx, entry, hsub]
  · simp [initCtx, entry]
  · have hkeep := hsaved r hr
    have ha := h24 r
    have hb := h16 r
    cases hr <;> simp_all [initCtx, entry, ctxOff]

theorem entry_room {regs : Reg → UInt64} (hq : q.Placed) (hstack : o.stack = q.stack) :
    Room o (entry P q regs .rsp) := by
  have hsp : q.top - 24 - 8 = q.top - 32 := by
    rw [sub_sub]
    rfl
  have h32 : (32 : UInt64).toNat = 32 := rfl
  have haligned := hq.aligned
  have hsize := hq.size_mod
  unfold Room
  simp only [entry, hsp, hstack]
  refine ⟨hq.has_top_sub (by decide) (by decide), ?_⟩
  rw [hq.toNat_top_sub (by decide)]
  omega

theorem mem_start (h : o ∈ start ps q.ctx) : ∃ u ∈ ps, o.ctx = u.ctx ∧ o.stack = u.stack ∧
    (u.ctx = q.ctx → o.started = true) ∧ (u.ctx ≠ q.ctx → o = u) := by
  obtain ⟨u, hu, rfl⟩ := List.mem_map.mp h
  refine ⟨u, hu, ?_, ?_, ?_, ?_⟩
  · split <;> rfl
  · split <;> rfl
  · intro hctx
    rw [if_pos hctx]
  · intro hctx
    rw [if_neg hctx]

theorem Party.Placed.congr (h : q.Placed) (hctx : o.ctx = q.ctx) (hstack : o.stack = q.stack) :
    o.Placed := by
  obtain ⟨hc, hown, hal, hmod, hle, hfits⟩ := h
  constructor <;> simp only [Party.ctxArea, hctx, hstack] <;> assumption

theorem Party.Apart.congr {u : Party} (h : q.Apart u) (ho : o.ctx = q.ctx ∧ o.stack = q.stack)
    (hp : p.ctx = u.ctx ∧ p.stack = u.stack) : o.Apart p := by
  obtain ⟨hctx, hstack, hcs, hsc⟩ := h
  constructor <;> simp only [Party.ctxArea, ho.1, ho.2, hp.1, hp.2] <;> assumption

theorem Placed.map {running : UInt64} {f : Party → Party} (h : Placed P ps running)
    (hplace : ∀ u, (f u).ctx = u.ctx ∧ (f u).stack = u.stack)
    (hstarted : ∀ u, u.started = true → (f u).started = true)
    (hfresh : ∀ u ∈ ps, (f u).started = false → (f u).isNew = true) :
    Placed P (ps.map f) running where
  placed o ho := by
    obtain ⟨u, hu, rfl⟩ := List.mem_map.mp ho
    exact (h.placed u hu).congr (hplace u).1 (hplace u).2
  apart := List.pairwise_map.mpr (h.apart.imp fun hab => hab.congr (hplace _) (hplace _))
  sched := by
    obtain ⟨u, hu, hctx, hu'⟩ := h.sched
    exact ⟨f u, List.mem_map_of_mem hu, (hplace u).1.trans hctx, hstarted u hu'⟩
  running := by
    obtain ⟨u, hu, hctx, hu'⟩ := h.running
    exact ⟨f u, List.mem_map_of_mem hu, (hplace u).1.trans hctx, hstarted u hu'⟩
  fresh o ho hofresh := by
    obtain ⟨u, hu, rfl⟩ := List.mem_map.mp ho
    exact hfresh u hu hofresh

theorem Placed.start (h : Placed P ps s.running) (q : Party) :
    Placed P (start ps q.ctx) s.running := by
  refine h.map (fun u => ?_) (fun u hu => ?_) fun u hu hofresh => ?_
  · split <;> exact ⟨rfl, rfl⟩
  · split
    · rfl
    · exact hu
  · split at hofresh
    · cases hofresh
    · next hne =>
      rw [if_neg hne]
      exact h.fresh u hu hofresh

theorem setNew_started {isNew : Bool} {u : Party} :
    (if u.ctx = a then { u with isNew } else u).started = u.started := by
  split <;> rfl

theorem Placed.setNew (h : Placed P ps s.running) {isNew : Bool}
    (ha : isNew = false → ∀ u ∈ ps, u.ctx = a → u.started = true) :
    Placed P (setNew ps a isNew) s.running := by
  refine h.map (fun u => ?_) (fun u hu => setNew_started.trans hu) fun u hu hofresh => ?_
  · split <;> exact ⟨rfl, rfl⟩
  · rw [setNew_started] at hofresh
    split
    · next hctx =>
      cases isNew with
      | true => rfl
      | false => exact absurd (ha rfl u hu hctx) (by simp [hofresh])
    · exact h.fresh u hu hofresh

/-- The saved registers are what the context holds, whether it has been used or not. -/
theorem Sim.before (hsim : Sim s t) (hq : q ∈ s.parties) (hother : q.ctx ≠ s.running) {r : Reg}
    (hr : Saved r) : s.machine.mem (q.ctx + ctxOff r) = t.before q r := by
  rw [Threads.before]
  split
  · next hstarted => exact (hsim.stored q hq hstarted hother).1.saved r hr
  · next hfresh => exact hsim.fresh q hq (Bool.not_eq_true _ ▸ hfresh) r hr

/-- What is seen when a coroutine begins was seen before, also on its own stack. -/
theorem visible_enter {b : UInt64} (hplaced : Placed P s.parties s.running) (hsim : Sim s t)
    (hq : q ∈ s.parties) (hqrunning : q.ctx ≠ s.running)
    (hframe : q.started = true → InFrame q s.machine.mem)
    (hb : Visible (start s.parties q.ctx)
      (Function.update t.regs q.ctx (entry P q (t.before q))) b) :
    ¬q.ctxArea.Has b ∧ Visible s.parties t.regs b := by
  have hold (u : Party) (hu : u ∈ s.parties) : ¬u.ctxArea.Has b ∧
      (u.ctx ≠ q.ctx → u.stack.Has b → u.started = true → (t.regs u.ctx .rsp).toNat ≤ b.toNat) ∧
      (u.ctx = q.ctx → u.stack.Has b → (q.top - 24).toNat ≤ b.toNat) := by
    obtain ⟨hctx, hlive⟩ := hb _ (List.mem_map_of_mem hu)
    refine ⟨by split at hctx <;> exact hctx, fun hne hst hstarted => ?_, fun heq hst => ?_⟩
    · rw [if_neg hne] at hlive
      simp only [Function.update_of_ne hne] at hlive
      exact hlive hst hstarted
    · rw [if_pos heq] at hlive
      simp only [heq, Function.update_self] at hlive
      exact hlive hst trivial
  refine ⟨(hold q hq).1, fun u hu => ?_⟩
  obtain ⟨hctx, hlive, hbegin⟩ := hold u hu
  refine ⟨hctx, fun hst hstarted => ?_⟩
  by_cases heq : u.ctx = q.ctx
  · obtain rfl := hplaced.eq hu hq heq
    have hin : (s.machine.mem u.ctx + 8).toNat ≤ (u.top - 24).toNat := hframe hstarted
    rw [(hsim.stored u hq hstarted hqrunning).1.rsp, sub_add_cancel] at hin
    exact hin.trans (hbegin rfl hst)
  · exact hlive heq hst hstarted

theorem enter_sim (hplaced : Placed P s.parties s.running) (hsim : Sim s t) (hq : q ∈ s.parties)
    (hnew : q.isNew = true) (hqrunning : q.ctx ≠ s.running)
    (hframe : q.started = true → InFrame q s.machine.mem) : Sim (s.init P q) (t.enter P q) := by
  have hqp := hplaced.placed q hq
  have henter : t.enter P q = { t with
      regs := Function.update t.regs q.ctx (entry P q (t.before q))
      mem := Function.update (Function.update t.mem (q.top - 24) 0) (q.top - 16) q.ctx
      parties := start t.parties q.ctx } := by
    rw [Threads.enter, hnew]
    rfl
  have hctxMem : ∀ u ∈ s.parties, u.ctx ≠ q.ctx → ∀ b, u.ctxArea.Has b →
      initCtx s.machine.mem q.ctx q.top P.exec b = s.machine.mem b := by
    intro u hu hne b hb
    have hap := hplaced.apart_of_ne hu hq hne
    exact initCtx_other hqp (not_or.mpr ⟨hap.ctx.not_has hb, hap.ctx_stack.not_has hb⟩)
  rw [henter]
  refine ⟨congrArg (start · q.ctx) hsim.parties, hsim.running, fun r hr => ?_, ?_, ?_, ?_⟩
  · refine (hsim.regs r hr).trans ?_
    exact (congrFun (Function.update_of_ne (Ne.symm hqrunning) _ _) r).symm
  · intro o ho hostarted horunning
    obtain ⟨u, hu, hctx, hstack, -, hother⟩ := mem_start ho
    dsimp only
    by_cases huq : u.ctx = q.ctx
    · obtain rfl := hplaced.eq hu hq huq
      rw [hctx, Function.update_self]
      exact ⟨initCtx_stored hqp fun r hr => hsim.before hq hqrunning hr, entry_room hqp hstack⟩
    · obtain rfl := hother huq
      obtain ⟨hstored, hroom⟩ := hsim.stored o hu hostarted horunning
      rw [Function.update_of_ne huq]
      exact ⟨hstored.congr (hplaced.placed o hu).ctx (hctxMem o hu huq), hroom⟩
  · intro o ho hofresh r hr
    obtain ⟨u, hu, hctx, -, hself, hother⟩ := mem_start ho
    have huq : u.ctx ≠ q.ctx := by
      intro huq
      rw [hself huq] at hofresh
      cases hofresh
    obtain rfl := hother huq
    show initCtx s.machine.mem q.ctx q.top P.exec (o.ctx + ctxOff r) = 0
    rw [hctxMem o hu huq _ (ctx_has (hplaced.placed o hu).ctx.fits r)]
    exact hsim.fresh o hu hofresh r hr
  · intro b hb
    obtain ⟨hctx, hvisible⟩ := visible_enter hplaced hsim hq hqrunning hframe hb
    by_cases hst : q.stack.Has b
    · show initCtx s.machine.mem q.ctx q.top P.exec b = _
      rw [initCtx_stack hqp hst]
      simp only [Function.update_apply, hsim.mem b hvisible]
    · have hne24 : b ≠ q.top - 24 := by
        rintro rfl
        exact hst (hqp.has_top_sub (by decide) (by decide))
      have hne16 : b ≠ q.top - 16 := by
        rintro rfl
        exact hst (hqp.has_top_sub (by decide) (by decide))
      show initCtx s.machine.mem q.ctx q.top P.exec b = _
      rw [initCtx_other hqp (not_or.mpr ⟨hctx, hst⟩), hsim.mem b hvisible]
      simp only [Function.update_of_ne hne24, Function.update_of_ne hne16]

end LearningCode.Coroutine
