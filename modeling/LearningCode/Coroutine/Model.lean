import Mathlib.Data.UInt
import Mathlib.Logic.Function.Basic
import LearningCode.Lib.Transition

/-!
# Switching between coroutines

`_switch`, `nty_coroutine_init`, `nty_coroutine_yield`, `nty_coroutine_resume`
and `_exec` of `nty_coroutine.c`, on one processor. The assembler is executed
instruction by instruction. Memory is a word at each address that eight
divides, and an access elsewhere has no result. The C code that runs between
two switches may do anything to the registers, and to the memory it owns. Of
`co->status` there is the bit that `nty_coroutine_resume` asks.
-/

namespace LearningCode.Coroutine

-- ---------------------------------------------------------------------------
-- The processor
-- ---------------------------------------------------------------------------

inductive Reg where
  | rsp | rbp | rbx | r12 | r13 | r14 | r15 | rax | rdi | rsi | rip
deriving Repr, DecidableEq

structure Machine where
  regs : Reg → UInt64
  mem : UInt64 → UInt64

def Machine.set (m : Machine) (r : Reg) (v : UInt64) : Machine :=
  { m with regs := Function.update m.regs r v }

def Machine.put (m : Machine) (a v : UInt64) : Machine :=
  { m with mem := Function.update m.mem a v }

inductive Instr where
  | store (src : Reg) (disp : UInt64) (base : Reg)
  | load (disp : UInt64) (base dst : Reg)
  | ret
deriving Repr, DecidableEq

def Machine.step (m : Machine) : Instr → Option Machine
  | .store src disp base =>
    let a := m.regs base + disp
    if a.toNat % 8 = 0 then some (m.put a (m.regs src)) else none
  | .load disp base dst =>
    let a := m.regs base + disp
    if a.toNat % 8 = 0 then some (m.set dst (m.mem a)) else none
  | .ret =>
    let a := m.regs .rsp
    if a.toNat % 8 = 0 then some ((m.set .rip (m.mem a)).set .rsp (a + 8)) else none

def exec : List Instr → Machine → Option Machine
  | [], m => some m
  | i :: is, m => do exec is (← m.step i)

/-- `_switch(new_ctx, cur_ctx)`. -/
def switchCode : List Instr :=
  [.store .rsp 0 .rsi,
   .store .rbp 8 .rsi,
   .load 0 .rsp .rax,
   .store .rax 16 .rsi,
   .store .rbx 24 .rsi,
   .store .r12 32 .rsi,
   .store .r13 40 .rsi,
   .store .r14 48 .rsi,
   .store .r15 56 .rsi,
   .load 56 .rdi .r15,
   .load 48 .rdi .r14,
   .load 40 .rdi .r13,
   .load 32 .rdi .r12,
   .load 24 .rdi .rbx,
   .load 8 .rdi .rbp,
   .load 0 .rdi .rsp,
   .load 16 .rdi .rax,
   .store .rax 0 .rsp,
   .ret]

/-- The call: the arguments in `rdi` and `rsi`, the return address pushed. -/
def Machine.callSwitch (m : Machine) (newCtx curCtx ret : UInt64) : Option Machine :=
  let sp := m.regs .rsp - 8
  if sp.toNat % 8 = 0 then
    exec switchCode ((((m.set .rdi newCtx).set .rsi curCtx).set .rsp sp).put sp ret)
  else none

-- ---------------------------------------------------------------------------
-- Coroutines
-- ---------------------------------------------------------------------------

structure Area where
  base : UInt64
  size : Nat
deriving Repr, DecidableEq

def Area.Has (A : Area) (a : UInt64) : Prop :=
  A.base.toNat ≤ a.toNat ∧ a.toNat < A.base.toNat + A.size

instance {A : Area} {a : UInt64} : Decidable (A.Has a) := inferInstanceAs (Decidable (_ ∧ _))

def Area.Apart (A B : Area) : Prop :=
  A.base.toNat + A.size ≤ B.base.toNat ∨ B.base.toNat + B.size ≤ A.base.toNat

instance {A B : Area} : Decidable (A.Apart B) := inferInstanceAs (Decidable (_ ∨ _))

/-- One that has a context and a stack: a coroutine, or the thread that runs the
scheduler. A coroutine is where its context is, the first member. -/
structure Party where
  ctx : UInt64
  stack : Area
  /-- It has run. The source does not keep this, and no step asks it. -/
  started : Bool
  /-- `BIT(NTY_COROUTINE_STATUS_NEW)` of the status. -/
  isNew : Bool
deriving Repr, DecidableEq

def Party.ctxArea (p : Party) : Area := ⟨p.ctx, 88⟩

structure Machine.System where
  machine : Machine
  parties : List Party
  running : UInt64

/-- The addresses of `sched->ctx` and of `_exec`, and `sched->stack_size`. -/
structure Program where
  sched : UInt64
  exec : UInt64
  stackSize : Nat

/-- What the running code may write to: all but the contexts and the stacks of
the others. -/
def Writable (ps : List Party) (running a : UInt64) : Prop :=
  ∀ p ∈ ps, ¬p.ctxArea.Has a ∧ (p.ctx = running ∨ ¬p.stack.Has a)

instance {ps : List Party} {running a : UInt64} : Decidable (Writable ps running a) :=
  inferInstanceAs (Decidable (∀ p ∈ ps, _))

def overlay (P : UInt64 → Prop) [DecidablePred P] (f mem : UInt64 → UInt64) (a : UInt64) : UInt64 :=
  if P a then f a else mem a

/-- The stores of `nty_coroutine_init`; `top` is `co->stack + co->stack_size`. -/
def initCtx (mem : UInt64 → UInt64) (co top exec : UInt64) : UInt64 → UInt64 :=
  let mem := Function.update mem (top - 24) 0
  let mem := Function.update mem (top - 16) co
  let mem := Function.update mem co (top - 32)
  let mem := Function.update mem (co + 8) (top - 24)
  Function.update mem (co + 16) exec

def Party.top (p : Party) : UInt64 := p.stack.base + UInt64.ofNat p.stack.size

def start (ps : List Party) (co : UInt64) : List Party :=
  ps.map fun p => if p.ctx = co then { p with started := true, isNew := false } else p

def setNew (ps : List Party) (co : UInt64) (isNew : Bool) : List Party :=
  ps.map fun p => if p.ctx = co then { p with isNew } else p

inductive Action where
  /-- `nty_coroutine_create`, with what `calloc` and `posix_memalign` return. -/
  | create (co stack : UInt64)
  /-- `nty_coroutine_resume`, with the address behind its call of `_switch`. -/
  | resume (co ret : UInt64)
  | yield (ret : UInt64)
  /-- The end of `_exec`, and `nty_coroutine_free` behind the switch. What the
  freed memory holds is whatever. -/
  | exit (ret : UInt64) (f : UInt64 → UInt64)
  /-- `nty_schedule_sched_wait` for POLLOUT, by the coroutine that runs. What it
  adds to the status is WAIT_WRITE, not the bit of that: it sets NEW. -/
  | schedWait
  /-- `nty_schedule_search_wait`, which clears the status of a coroutine that waits. -/
  | searchWait (co : UInt64)
  /-- The C code between two calls. -/
  | work (regs : Reg → UInt64) (f : UInt64 → UInt64)

def Party.Owns (p : Party) (a : UInt64) : Prop := p.ctxArea.Has a ∨ p.stack.Has a

instance {p : Party} : DecidablePred p.Owns := fun _ => inferInstanceAs (Decidable (_ ∨ _))

def find (ps : List Party) (ctx : UInt64) : Option Party := ps.find? (·.ctx = ctx)

namespace Machine.System

def init (P : Program) (s : System) (p : Party) : System :=
  { s with
    machine.mem := initCtx s.machine.mem p.ctx p.top P.exec
    parties := start s.parties p.ctx }

def step (P : Program) (s : System) : Action → Option System
  | .create co stack =>
    let p : Party := ⟨co, ⟨stack, P.stackSize⟩, false, true⟩
    some { s with
      parties := s.parties ++ [p]
      machine.mem := overlay p.ctxArea.Has (fun _ => 0) s.machine.mem }
  | .resume co ret => do
    let p ← find s.parties co
    let s := if p.isNew then s.init P p else s
    let machine ← s.machine.callSwitch co P.sched ret
    return { s with machine, running := co }
  | .yield ret => do
    let machine ← s.machine.callSwitch P.sched s.running ret
    return { s with machine, running := P.sched }
  | .exit ret f => do
    let machine ← s.machine.callSwitch P.sched s.running ret
    let p ← find s.parties s.running
    return {
      machine.regs := machine.regs
      machine.mem := overlay p.Owns f machine.mem
      parties := s.parties.filter (·.ctx ≠ s.running)
      running := P.sched }
  | .schedWait => some { s with parties := setNew s.parties s.running true }
  | .searchWait co => some { s with parties := setNew s.parties co false }
  | .work regs f =>
    some { s with
      machine := ⟨regs, overlay (Writable s.parties s.running) f s.machine.mem⟩ }

end Machine.System

end LearningCode.Coroutine
