import Mathlib.Data.List.Pairwise
import LearningCode.Coroutine.Model

/-!
# One switch

`_switch` saves what the caller of a function may count on into the old context
and takes the same from the new one. It writes nowhere else, but for the word
that holds the return address on either stack.
-/

namespace LearningCode.Coroutine

variable {m : Machine} {mem : UInt64 → UInt64} {regs : Reg → UInt64} {a ctx newCtx curCtx v eip : UInt64}
  {A B : Area} {r : Reg}

-- ---------------------------------------------------------------------------
-- Addresses
-- ---------------------------------------------------------------------------

theorem Area.Apart.symm (h : A.Apart B) : B.Apart A := Or.symm h

theorem Area.Apart.not_has (h : A.Apart B) (ha : A.Has a) : ¬B.Has a := by
  unfold Area.Apart Area.Has at *
  omega

theorem toNat_add_of_fits {x k : UInt64} {n : Nat} (hfits : x.toNat + n < 2 ^ 64)
    (hk : k.toNat ≤ n) : (x + k).toNat = x.toNat + k.toNat := by
  rw [UInt64.toNat_add, Nat.mod_eq_of_lt (by omega)]

theorem toNat_sub_of_le {x k : UInt64} (h : k.toNat ≤ x.toNat) :
    (x - k).toNat = x.toNat - k.toNat :=
  UInt64.toNat_sub_of_le x k (UInt64.le_iff_toNat_le.mpr h)

theorem aligned_add {x k : UInt64} (hx : x.toNat % 8 = 0) (hk : k.toNat % 8 = 0) :
    (x + k).toNat % 8 = 0 := by
  rw [UInt64.toNat_add]
  omega

def ctxOff : Reg → UInt64
  | .rbp => 8
  | .rip => 16
  | .rbx => 24
  | .r12 => 32
  | .r13 => 40
  | .r14 => 48
  | .r15 => 56
  | _ => 0

/-- The registers that a function leaves as they are, but for `rsp`. -/
inductive Saved : Reg → Prop
  | rbp : Saved .rbp
  | rbx : Saved .rbx
  | r12 : Saved .r12
  | r13 : Saved .r13
  | r14 : Saved .r14
  | r15 : Saved .r15

theorem ctxOff_le (r : Reg) : (ctxOff r).toNat ≤ 56 := by cases r <;> decide

theorem ctxOff_aligned (r : Reg) : (ctxOff r).toNat % 8 = 0 := by cases r <;> decide

theorem ctx_has (hfits : ctx.toNat + 88 < 2 ^ 64) (r : Reg) : (⟨ctx, 88⟩ : Area).Has (ctx + ctxOff r) := by
  have hoff := ctxOff_le r
  have hadd := toNat_add_of_fits (k := ctxOff r) hfits (by omega)
  constructor
  · show ctx.toNat ≤ (ctx + ctxOff r).toNat
    omega
  · show (ctx + ctxOff r).toNat < ctx.toNat + 88
    omega

theorem ctx_has_self (ctx : UInt64) : (⟨ctx, 88⟩ : Area).Has ctx :=
  ⟨Nat.le_refl _, Nat.lt_add_of_pos_right (show 0 < 88 by decide)⟩

-- ---------------------------------------------------------------------------
-- The first half
-- ---------------------------------------------------------------------------

/-- The stores of the first half; `eip` is the return address. -/
def storeCtx (mem : UInt64 → UInt64) (ctx : UInt64) (regs : Reg → UInt64) (eip : UInt64) :
    UInt64 → UInt64 :=
  let mem := Function.update mem (ctx + 0) (regs .rsp)
  let mem := Function.update mem (ctx + 8) (regs .rbp)
  let mem := Function.update mem (ctx + 16) eip
  let mem := Function.update mem (ctx + 24) (regs .rbx)
  let mem := Function.update mem (ctx + 32) (regs .r12)
  let mem := Function.update mem (ctx + 40) (regs .r13)
  let mem := Function.update mem (ctx + 48) (regs .r14)
  Function.update mem (ctx + 56) (regs .r15)

theorem storeCtx_saved (hr : Saved r) : storeCtx mem ctx regs eip (ctx + ctxOff r) = regs r := by
  cases hr <;> simp [storeCtx, ctxOff]

theorem storeCtx_rsp : storeCtx mem ctx regs eip ctx = regs .rsp := by
  simp [storeCtx]

theorem storeCtx_rip : storeCtx mem ctx regs eip (ctx + 16) = eip := by
  simp [storeCtx]

theorem storeCtx_other (hfits : ctx.toNat + 88 < 2 ^ 64) (ha : ¬(⟨ctx, 88⟩ : Area).Has a) :
    storeCtx mem ctx regs eip a = mem a := by
  have hne (r : Reg) : a ≠ ctx + ctxOff r := by
    rintro rfl
    exact ha (ctx_has hfits r)
  have h0 : a ≠ ctx + 0 := hne .rsp
  have h8 : a ≠ ctx + 8 := hne .rbp
  have h16 : a ≠ ctx + 16 := hne .rip
  have h24 : a ≠ ctx + 24 := hne .rbx
  have h32 : a ≠ ctx + 32 := hne .r12
  have h40 : a ≠ ctx + 40 := hne .r13
  have h48 : a ≠ ctx + 48 := hne .r14
  have h56 : a ≠ ctx + 56 := hne .r15
  simp only [storeCtx, Function.update_of_ne h0, Function.update_of_ne h8, Function.update_of_ne h16,
    Function.update_of_ne h24, Function.update_of_ne h32, Function.update_of_ne h40,
    Function.update_of_ne h48, Function.update_of_ne h56]

theorem exec_save (is : List Instr) (hcur : (m.regs .rsi).toNat % 8 = 0)
    (hfits : (m.regs .rsi).toNat + 88 < 2 ^ 64) (hsp : (m.regs .rsp).toNat % 8 = 0)
    (hout : ¬(⟨m.regs .rsi, 88⟩ : Area).Has (m.regs .rsp)) :
    exec (switchCode.take 9 ++ is) m =
      exec is ⟨Function.update m.regs .rax (m.mem (m.regs .rsp)),
        storeCtx m.mem (m.regs .rsi) m.regs (m.mem (m.regs .rsp))⟩ := by
  have haligned (r : Reg) : (m.regs .rsi + ctxOff r).toNat % 8 = 0 :=
    aligned_add hcur (ctxOff_aligned r)
  have hne (r : Reg) : m.regs .rsp ≠ m.regs .rsi + ctxOff r := by
    intro heq
    exact hout (heq ▸ ctx_has hfits r)
  have h0 : m.regs .rsp ≠ m.regs .rsi := by simpa [ctxOff] using hne .rsp
  have h8 : m.regs .rsp ≠ m.regs .rsi + 8 := hne .rbp
  have a8 : (m.regs .rsi + 8).toNat % 8 = 0 := haligned .rbp
  have a16 : (m.regs .rsi + 16).toNat % 8 = 0 := haligned .rip
  have a24 : (m.regs .rsi + 24).toNat % 8 = 0 := haligned .rbx
  have a32 : (m.regs .rsi + 32).toNat % 8 = 0 := haligned .r12
  have a40 : (m.regs .rsi + 40).toNat % 8 = 0 := haligned .r13
  have a48 : (m.regs .rsi + 48).toNat % 8 = 0 := haligned .r14
  have a56 : (m.regs .rsi + 56).toNat % 8 = 0 := haligned .r15
  simp only [switchCode, List.take_succ_cons, List.take_zero, List.cons_append, List.nil_append,
    exec, Machine.step, Machine.set, Machine.put, Function.update_apply, reduceCtorEq, if_false,
    if_true, add_zero, hcur, hsp, a8, a16, a24, a32, a40, a48, a56, h0, h8, Option.bind_eq_bind,
    Option.bind_some, storeCtx]

-- ---------------------------------------------------------------------------
-- The second half
-- ---------------------------------------------------------------------------

theorem exec_restore (hnew : (m.regs .rdi).toNat % 8 = 0)
    (hsp : (m.mem (m.regs .rdi)).toNat % 8 = 0) :
    ∃ m', exec (switchCode.drop 9) m = some m' ∧
      m'.mem = Function.update m.mem (m.mem (m.regs .rdi)) (m.mem (m.regs .rdi + 16)) ∧
      (∀ r, Saved r → m'.regs r = m.mem (m.regs .rdi + ctxOff r)) ∧
      m'.regs .rsp = m.mem (m.regs .rdi) + 8 ∧ m'.regs .rip = m.mem (m.regs .rdi + 16) ∧
      m'.regs .rdi = m.regs .rdi := by
  have haligned (r : Reg) : (m.regs .rdi + ctxOff r).toNat % 8 = 0 :=
    aligned_add hnew (ctxOff_aligned r)
  have a8 : (m.regs .rdi + 8).toNat % 8 = 0 := haligned .rbp
  have a16 : (m.regs .rdi + 16).toNat % 8 = 0 := haligned .rip
  have a24 : (m.regs .rdi + 24).toNat % 8 = 0 := haligned .rbx
  have a32 : (m.regs .rdi + 32).toNat % 8 = 0 := haligned .r12
  have a40 : (m.regs .rdi + 40).toNat % 8 = 0 := haligned .r13
  have a48 : (m.regs .rdi + 48).toNat % 8 = 0 := haligned .r14
  have a56 : (m.regs .rdi + 56).toNat % 8 = 0 := haligned .r15
  simp only [switchCode, List.drop_succ_cons, List.drop_zero, exec, Machine.step, Machine.set,
    Machine.put, Function.update_apply, reduceCtorEq, if_false, if_true, add_zero, hnew, hsp, a8,
    a16, a24, a32, a40, a48, a56, Option.bind_eq_bind, Option.bind_some]
  refine ⟨_, rfl, ?_, ?_, ?_, ?_, ?_⟩
  · funext a
    simp only [Function.update_apply]
  · intro r hr
    cases hr <;> simp [ctxOff]
  · simp
  · simp
  · simp

-- ---------------------------------------------------------------------------
-- The call
-- ---------------------------------------------------------------------------

/-- Memory that can be a context. -/
structure IsCtx (ctx : UInt64) : Prop where
  aligned : ctx.toNat % 8 = 0
  fits : ctx.toNat + 88 < 2 ^ 64

/-- What the context holds of a party that is to go on with `regs`. -/
structure Stored (mem : UInt64 → UInt64) (ctx : UInt64) (regs : Reg → UInt64) : Prop where
  rsp : mem ctx = regs .rsp - 8
  rip : mem (ctx + 16) = regs .rip
  saved : ∀ r, Saved r → mem (ctx + ctxOff r) = regs r

theorem Stored.congr {mem' : UInt64 → UInt64} (hctx : IsCtx ctx) (h : Stored mem ctx regs)
    (hmem : ∀ a, (⟨ctx, 88⟩ : Area).Has a → mem' a = mem a) : Stored mem' ctx regs where
  rsp := (hmem _ (ctx_has_self ctx)).trans h.rsp
  rip := (hmem _ (ctx_has hctx.fits .rip)).trans h.rip
  saved r hr := (hmem _ (ctx_has hctx.fits r)).trans (h.saved r hr)

theorem callSwitch_spec {next : Reg → UInt64} (ret : UInt64) (hcur : IsCtx curCtx)
    (hnew : IsCtx newCtx) (hapart : (⟨curCtx, 88⟩ : Area).Apart ⟨newCtx, 88⟩)
    (hstored : Stored m.mem newCtx next)
    (hsp : (m.regs .rsp - 8).toNat % 8 = 0) (hspcur : ¬(⟨curCtx, 88⟩ : Area).Has (m.regs .rsp - 8))
    (hspnew : ¬(⟨newCtx, 88⟩ : Area).Has (m.regs .rsp - 8))
    (hnext : (next .rsp - 8).toNat % 8 = 0) (hnextcur : ¬(⟨curCtx, 88⟩ : Area).Has (next .rsp - 8)) :
    ∃ m', m.callSwitch newCtx curCtx ret = some m' ∧ m'.regs .rsp = next .rsp ∧
      m'.regs .rip = next .rip ∧ (∀ r, Saved r → m'.regs r = next r) ∧ m'.regs .rdi = newCtx ∧
      Stored m'.mem curCtx (Function.update m.regs .rip ret) ∧
      ∀ a, ¬(⟨curCtx, 88⟩ : Area).Has a → a ≠ m.regs .rsp - 8 → a ≠ next .rsp - 8 →
        m'.mem a = m.mem a := by
  let sp := m.regs .rsp - 8
  let m₁ := (((m.set .rdi newCtx).set .rsi curCtx).set .rsp sp).put sp ret
  have hrsi : m₁.regs .rsi = curCtx := rfl
  have hrdi : m₁.regs .rdi = newCtx := rfl
  have hrsp : m₁.regs .rsp = sp := rfl
  have hret : m₁.mem sp = ret := Function.update_self _ _ _
  let m₂ : Machine :=
    ⟨Function.update m₁.regs .rax ret, storeCtx m₁.mem curCtx m₁.regs ret⟩
  have hsave : exec switchCode m₁ = exec (switchCode.drop 9) m₂ := by
    have hcode := exec_save (switchCode.drop 9) (m := m₁) (hrsi ▸ hcur.aligned)
      (hrsi ▸ hcur.fits) (hrsp ▸ hsp) (by rw [hrsi, hrsp]; exact hspcur)
    rwa [List.take_append_drop, hrsi, hrsp, hret] at hcode
  have hkept : Stored m₂.mem newCtx next := by
    refine hstored.congr hnew fun a ha => ?_
    have hne : a ≠ sp := by
      rintro rfl
      exact hspnew ha
    exact (storeCtx_other hcur.fits (hapart.symm.not_has ha)).trans (Function.update_of_ne hne _ _)
  have hrdi₂ : m₂.regs .rdi = newCtx := rfl
  obtain ⟨m', hrun, hmem, hsaved, hrsp', hrip', hrdi'⟩ := exec_restore (m := m₂)
    (by rw [hrdi₂]; exact hnew.aligned) (by rw [hrdi₂, hkept.rsp]; exact hnext)
  rw [hrdi₂] at hmem hsaved hrsp' hrip' hrdi'
  rw [hkept.rsp] at hmem hrsp'
  refine ⟨m', ?_, ?_, ?_, fun r hr => ?_, hrdi', ?_, fun a ha hasp hanext => ?_⟩
  · rw [Machine.callSwitch, if_pos hsp]
    exact hsave.trans hrun
  · rw [hrsp', sub_add_cancel]
  · rw [hrip', hkept.rip]
  · rw [hsaved r hr, hkept.saved r hr]
  · have hstored' : Stored m₂.mem curCtx (Function.update m.regs .rip ret) := by
      refine ⟨storeCtx_rsp, storeCtx_rip, fun r hr => (storeCtx_saved hr).trans ?_⟩
      cases hr <;> rfl
    refine hstored'.congr hcur fun a ha => ?_
    rw [hmem, Function.update_of_ne]
    rintro rfl
    exact hnextcur ha
  · rw [hmem, Function.update_of_ne hanext]
    exact (storeCtx_other hcur.fits ha).trans (Function.update_of_ne hasp _ _)

end LearningCode.Coroutine

/-!
## Coroutines as threads

What the switching is for: every party has registers and a stack of its own,
and one of them runs. In this view a switch moves nothing. The one processor
with its contexts behaves like that, whatever the code between the switches
does with what it owns.
-/

namespace LearningCode.Coroutine

open Machine (System)

variable {P : Program} {ps : List Party} {p q : Party} {s : System} {a ctx running : UInt64}

-- ---------------------------------------------------------------------------
-- The threads
-- ---------------------------------------------------------------------------

structure Threads where
  regs : UInt64 → Reg → UInt64
  mem : UInt64 → UInt64
  parties : List Party
  running : UInt64

def entry (P : Program) (p : Party) (regs : Reg → UInt64) : Reg → UInt64
  | .rsp => p.top - 24
  | .rbp => p.top - 24
  | .rip => P.exec
  | r => regs r

namespace Threads

def leave (t : Threads) (ret : UInt64) : Threads :=
  { t with regs := Function.update t.regs t.running (Function.update (t.regs t.running) .rip ret) }

def before (t : Threads) (p : Party) : Reg → UInt64 :=
  if p.started then t.regs p.ctx else fun _ => 0

/-- A coroutine that is new, or new again, begins in `_exec`, with two words on
its stack. -/
def enter (P : Program) (t : Threads) (p : Party) : Threads :=
  if p.isNew then { t with
    regs := Function.update t.regs p.ctx (entry P p (t.before p))
    mem := Function.update (Function.update t.mem (p.top - 24) 0) (p.top - 16) p.ctx
    parties := start t.parties p.ctx }
  else t

def step (P : Program) (t : Threads) : Action → Option Threads
  | .create co stack =>
    some { t with parties := t.parties ++ [⟨co, ⟨stack, P.stackSize⟩, false, true⟩] }
  | .resume co ret => do
    let p ← find t.parties co
    return { (t.enter P p).leave ret with running := co }
  | .yield ret => some { t.leave ret with running := P.sched }
  | .exit ret f => do
    let p ← find t.parties t.running
    return { t.leave ret with
      mem := overlay p.Owns f t.mem
      parties := t.parties.filter (·.ctx ≠ t.running)
      running := P.sched }
  | .schedWait => some { t with parties := setNew t.parties t.running true }
  | .searchWait co => some { t with parties := setNew t.parties co false }
  | .work regs f =>
    some { t with
      regs := Function.update t.regs t.running regs
      mem := overlay (Writable t.parties t.running) f t.mem }

def run (P : Program) : Threads → List Action → Option Threads
  | t, [] => some t
  | t, i :: is => do run P (← t.step P i) is

end Threads

-- ---------------------------------------------------------------------------
-- Where things are
-- ---------------------------------------------------------------------------

structure Party.Placed (p : Party) : Prop where
  ctx : IsCtx p.ctx
  own : p.ctxArea.Apart p.stack
  aligned : p.stack.base.toNat % 16 = 0
  size_mod : p.stack.size % 16 = 0
  size_le : 32 ≤ p.stack.size
  fits : p.stack.base.toNat + p.stack.size < 2 ^ 64

structure Party.Apart (p q : Party) : Prop where
  ctx : p.ctxArea.Apart q.ctxArea
  stack : p.stack.Apart q.stack
  ctx_stack : p.ctxArea.Apart q.stack
  stack_ctx : p.stack.Apart q.ctxArea

theorem Party.Apart.symm (h : p.Apart q) : q.Apart p :=
  ⟨h.ctx.symm, h.stack.symm, h.stack_ctx.symm, h.ctx_stack.symm⟩

instance : Std.Symm Party.Apart := ⟨fun _ _ => Party.Apart.symm⟩

structure Placed (P : Program) (ps : List Party) (running : UInt64) : Prop where
  placed : ∀ p ∈ ps, p.Placed
  apart : ps.Pairwise Party.Apart
  sched : ∃ p ∈ ps, p.ctx = P.sched ∧ p.started = true
  running : ∃ p ∈ ps, p.ctx = running ∧ p.started = true
  fresh : ∀ p ∈ ps, p.started = false → p.isNew = true

theorem Placed.eq (h : Placed P ps running) (hp : p ∈ ps) (hq : q ∈ ps) (hctx : p.ctx = q.ctx) :
    p = q := by
  by_contra hne
  have hapart := (h.apart.forall hp hq hne).ctx
  simp only [Area.Apart, Party.ctxArea, hctx] at hapart
  omega

theorem Placed.apart_of_ne (h : Placed P ps running) (hp : p ∈ ps) (hq : q ∈ ps)
    (hctx : p.ctx ≠ q.ctx) : p.Apart q := by
  refine h.apart.forall hp hq ?_
  rintro rfl
  exact hctx rfl

theorem find_some (h : find ps ctx = some p) : p ∈ ps ∧ p.ctx = ctx :=
  ⟨List.mem_of_find?_eq_some h, by simpa using List.find?_some h⟩

theorem Placed.find (h : Placed P ps running) (hp : p ∈ ps) (hctx : p.ctx = ctx) :
    find ps ctx = some p := by
  obtain ⟨q, hq⟩ : ∃ q, Coroutine.find ps ctx = some q := by
    rw [← Option.isSome_iff_exists, Coroutine.find, List.find?_isSome]
    exact ⟨p, hp, by simpa using hctx⟩
  obtain ⟨hmem, hqctx⟩ := find_some hq
  rw [hq, h.eq hmem hp (hqctx.trans hctx.symm)]

-- ---------------------------------------------------------------------------
-- Legal steps
-- ---------------------------------------------------------------------------

def Room (p : Party) (sp : UInt64) : Prop := p.stack.Has (sp - 8) ∧ (sp - 8).toNat % 8 = 0

/-- A coroutine that is to begin again had not left the frame that it began with.
The stack pointer it left with is in its context, less the return address. -/
def InFrame (p : Party) (mem : UInt64 → UInt64) : Prop :=
  (mem p.ctx + 8).toNat ≤ (p.top - 24).toNat

def Legal (P : Program) (s : System) : Action → Prop
  | .create co stack =>
    let p : Party := ⟨co, ⟨stack, P.stackSize⟩, false, true⟩
    p.Placed ∧ ∀ q ∈ s.parties, q.Apart p
  | .resume co _ => s.running = P.sched ∧ co ≠ P.sched ∧
      (∃ p ∈ s.parties, p.ctx = co ∧ (p.started = true → p.isNew = true → InFrame p s.machine.mem)) ∧
      ∀ p ∈ s.parties, p.ctx = s.running → Room p (s.machine.regs .rsp)
  | .yield _ | .exit _ _ => s.running ≠ P.sched ∧
      ∀ p ∈ s.parties, p.ctx = s.running → Room p (s.machine.regs .rsp)
  | .schedWait => s.running ≠ P.sched
  | .searchWait co => s.running = P.sched ∧ ∀ p ∈ s.parties, p.ctx = co → p.started = true
  | .work _ _ => True

def Init (P : Program) (s : System) : Prop :=
  ∃ p : Party, s.parties = [p] ∧ p.ctx = P.sched ∧ p.started = true ∧ p.Placed ∧ s.running = P.sched

def system (P : Program) : Transition System Action where
  init := Init P
  step s i s' := Legal P s i ∧ s.step P i = some s'

-- ---------------------------------------------------------------------------
-- The two views of a state
-- ---------------------------------------------------------------------------

def Kept (r : Reg) : Prop := r = .rsp ∨ r = .rip ∨ Saved r

/-- Not in a context, and not below the stack pointer of a party. -/
def Visible (ps : List Party) (regs : UInt64 → Reg → UInt64) (a : UInt64) : Prop :=
  ∀ p ∈ ps, ¬p.ctxArea.Has a ∧
    (p.stack.Has a → p.started = true → (regs p.ctx .rsp).toNat ≤ a.toNat)

structure Sim (s : System) (t : Threads) : Prop where
  parties : s.parties = t.parties
  running : s.running = t.running
  regs : ∀ r, Kept r → s.machine.regs r = t.regs s.running r
  stored : ∀ p ∈ s.parties, p.started = true → p.ctx ≠ s.running →
    Stored s.machine.mem p.ctx (t.regs p.ctx) ∧ Room p (t.regs p.ctx .rsp)
  fresh : ∀ p ∈ s.parties, p.started = false → ∀ r, Saved r →
    s.machine.mem (p.ctx + ctxOff r) = 0
  mem : ∀ a, Visible s.parties t.regs a → s.machine.mem a = t.mem a

theorem Room.lt {sp : UInt64} (hp : p.Placed) (h : Room p sp) : (sp - 8).toNat < sp.toNat := by
  obtain ⟨⟨-, hlt⟩, haligned⟩ := h
  have hfits := hp.fits
  have hbase := hp.aligned
  have hsize := hp.size_mod
  have hadd := congrArg UInt64.toNat (sub_add_cancel sp 8)
  rw [UInt64.toNat_add] at hadd
  have h8 : (8 : UInt64).toNat = 8 := rfl
  omega

end LearningCode.Coroutine
