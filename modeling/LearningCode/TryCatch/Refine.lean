import LearningCode.Lib.Visits
import LearningCode.TryCatch.Structured

/-!
# The macros against structured exceptions

Each step of the structured machine is one or more of the expanded program. The blocks
that are open are those of the `Try` statements around the current command, and the
stack links the frames of the ones whose body is being run.
-/

namespace LearningCode.TryCatch

open StateTransition TryCatch.Flag Cmd
open Structured (Frame finish innermost nesting active)

def Pending (scope : Scope) : Option (Exc × Site) → Prop
  | none => ∃ flag, scope.flag = some flag ∧ flag ≠ ExceptionThrown
  | some raised => scope.flag = some ExceptionThrown ∧ scope.exception = some raised

def ending (fin : Option Stmt) (control : List Item) : List Item :=
  .run (afterCatches (fin.map expand)) :: .endBlock :: control

def entered (body : Cmd) (catches : Catches) (fin : Option Stmt) (control : List Item)
    (scopes : List Scope) (stack : Option Nat) (exception : Option (Exc × Site)) : Scope :=
  ⟨some ExceptionEntered, exception, some stack,
    some ⟨.run (dispatch body (expandCatches catches) (fin.map expand)) :: .endBlock :: control,
      scopes.length + 1⟩⟩

/-- What is left to run, the open blocks, and the stack. -/
inductive Matches : List Frame → List Item → List Scope → Option Nat → Prop
  | nil : Matches [] [] [] none
  | run {k control scopes stack} (s : Stmt) : Matches k control scopes stack →
      Matches (.run s :: k) (.run (expand s) :: control) scopes stack
  | body {k control scopes stack} (body : Cmd) (catches : Catches) (fin : Option Stmt)
      (exception : Option (Exc × Site)) : Matches k control scopes stack →
      Matches (.body catches fin :: k) (.run popIfEntered :: ending fin control)
        (entered body catches fin control scopes stack exception :: scopes) (some scopes.length)
  | handler {k control scopes stack} {scope : Scope} (fin : Option Stmt) :
      Matches k control scopes stack → scope.flag = some ExceptionHandled →
      Matches (.handler fin :: k) (.run popIfEntered :: ending fin control) (scope :: scopes) stack
  | final {k control scopes stack} {scope : Scope} {pending : Option (Exc × Site)} :
      Matches k control scopes stack → Pending scope pending →
      Matches (.final pending :: k) (.run rethrowIfThrown :: .endBlock :: control) (scope :: scopes) stack
  /-- Behind the commands of `Finally`. -/
  | behind {k control scopes stack} {scope : Scope} {pending : Option (Exc × Site)} {flag : Flag} :
      Matches k control scopes stack → Pending scope pending → scope.flag = some flag →
      flag ≠ ExceptionEntered →
      Matches (.final pending :: k) (.run popIfEntered :: .run rethrowIfThrown :: .endBlock :: control)
        (scope :: scopes) stack

structure Agrees (a : Structured.State) (c : State) : Prop where
  frames : Matches a.control c.control c.scopes c.exceptionStack
  output : c.output = a.output

variable {p : Fn → Stmt} {k : List Frame} {control : List Item} {scopes : List Scope} {scope : Scope}
  {stack : Option Nat} {output : List Output} {fin : Option Stmt} {pending : Option (Exc × Site)}
  {s t u : State} {d n : Nat}

theorem Matches.length (h : Matches k control scopes stack) : scopes.length = nesting k := by
  induction h <;> simp_all [nesting]

-- ---------------------------------------------------------------------------
-- Some steps
-- ---------------------------------------------------------------------------

abbrev code (p : Fn → Stmt) (f : Fn) : Cmd := expand (p f)

def beginsFinally (d : Nat) (c : State) : Bool :=
  match c.control with
  | .run (seq (ifFlag ExceptionEntered (setFlag ExceptionFinalized) skip) _) :: _ => c.scopes.length = d
  | _ => false

theorem beginsFinally_expand (d : Nat) (a : Stmt) (b : Cmd) :
    beginsFinally d ⟨.run (seq (expand a) b) :: control, scopes, stack, output⟩ = false := by
  cases a <;> rfl

/-- Through blocks from the `d`th on, whose `Finally` begins `n` times. -/
def Passes (p : Fn → Stmt) (d n : Nat) (s t : State) : Prop :=
  ∃ l, Visits (step (code p)) l s t ∧ (∀ c ∈ l, d ≤ c.scopes.length) ∧ l.countP (beginsFinally d) = n

theorem Passes.refl (s : State) : Passes p d 0 s s := ⟨[], .nil s, nofun, rfl⟩

theorem Passes.trans {m : Nat} (h : Passes p d n s t) (h' : Passes p d m t u) :
    Passes p d (n + m) s u := by
  obtain ⟨l, hl, hd, rfl⟩ := h
  obtain ⟨l', hl', hd', rfl⟩ := h'
  refine ⟨l ++ l', hl.append hl', fun c hc => ?_, List.countP_append⟩
  exact (List.mem_append.mp hc).elim (hd c) (hd' c)

theorem passes_step (hd : d ≤ s.scopes.length) (hquiet : beginsFinally d s = false)
    (h : step (code p) s = some t) (ht : Passes p d n t u) : Passes p d n s u := by
  obtain ⟨l, hl, hdepth, hcount⟩ := ht
  refine ⟨s :: l, .cons h hl, fun c hc => ?_, ?_⟩
  · obtain rfl | hc := List.mem_cons.mp hc
    · exact hd
    · exact hdepth c hc
  · rw [List.countP_cons_of_neg (by simp [hquiet]), hcount]

theorem step_ifFlag {flag f : Flag} {a b : Cmd} (hflag : scope.flag = some flag) :
    step (code p) ⟨.run (ifFlag f a b) :: control, scope :: scopes, stack, output⟩ =
      some ⟨.run (if flag = f then a else b) :: control, scope :: scopes, stack, output⟩ := by
  simp [step, exec, hflag]

section
variable (hd : d ≤ scopes.length + 1)
include hd

theorem passes_ifFlag {flag f : Flag} {a b : Cmd} (hflag : scope.flag = some flag)
    (h : Passes p d n
      ⟨.run (if flag = f then a else b) :: control, scope :: scopes, stack, output⟩ u) :
    Passes p d n ⟨.run (ifFlag f a b) :: control, scope :: scopes, stack, output⟩ u :=
  passes_step hd rfl (step_ifFlag hflag) h

theorem passes_skip (h : Passes p d n ⟨control, scope :: scopes, stack, output⟩ u) :
    Passes p d n ⟨.run skip :: control, scope :: scopes, stack, output⟩ u :=
  passes_step hd rfl rfl h

theorem passes_seq {a b : Cmd} (hquiet : beginsFinally d
      ⟨.run (seq a b) :: control, scope :: scopes, stack, output⟩ = false)
    (h : Passes p d n ⟨.run a :: .run b :: control, scope :: scopes, stack, output⟩ u) :
    Passes p d n ⟨.run (seq a b) :: control, scope :: scopes, stack, output⟩ u :=
  passes_step hd hquiet rfl h

theorem passes_finally {fin : Cmd} : Passes p d (if scopes.length + 1 = d then 1 else 0)
    ⟨.run (seq (ifFlag ExceptionEntered (setFlag ExceptionFinalized) skip) fin) :: control,
      scope :: scopes, stack, output⟩
    ⟨.run (ifFlag ExceptionEntered (setFlag ExceptionFinalized) skip) :: .run fin :: control,
      scope :: scopes, stack, output⟩ := by
  refine ⟨[_], .cons rfl (.nil _), fun c hc => ?_, ?_⟩
  · rw [List.mem_singleton.mp hc]
    exact hd
  · simp [beginsFinally]

theorem passes_setFlag {f : Flag} (h : Passes p d n
      ⟨control, { scope with flag := some f } :: scopes, stack, output⟩ u) :
    Passes p d n ⟨.run (setFlag f) :: control, scope :: scopes, stack, output⟩ u :=
  passes_step hd rfl rfl h

theorem passes_ifException {e e' : Exc} {site : Site} {a b : Cmd}
    (hexc : scope.exception = some (e, site))
    (h : Passes p d n
      ⟨.run (if e = e' then a else b) :: control, scope :: scopes, stack, output⟩ u) :
    Passes p d n ⟨.run (ifException e' a b) :: control, scope :: scopes, stack, output⟩ u := by
  refine passes_step hd rfl ?_ h
  simp [step, exec, hexc]

end

def Leads (p : Fn → Stmt) (d n : Nat) (a : Structured.State) (s : State) : Prop :=
  ∃ c, Agrees a c ∧ Passes p d n s c

theorem Leads.of_passes {a : Structured.State} {m : Nat} (h : Leads p d n a t)
    (hs : Passes p d m s t) : Leads p d (m + n) a s := by
  obtain ⟨c, hc, ht⟩ := h
  exact ⟨c, hc, hs.trans ht⟩

theorem Leads.of_quiet {a : Structured.State} (h : Leads p d n a t) (hs : Passes p d 0 s t) :
    Leads p d n a s := by
  have hleads := h.of_passes hs
  rwa [Nat.zero_add] at hleads

theorem Pending.flag (h : Pending scope pending) : ∃ flag, scope.flag = some flag := by
  cases pending with
  | none => exact h.imp fun _ h => h.1
  | some _ => exact ⟨_, h.1⟩

/-- How often that of the `d`th is begun, when this block, the `m`th, comes to its `Finally`. -/
def begun (fin : Option Stmt) (m d : Nat) : Nat := if fin.isSome ∧ m = d then 1 else 0

theorem leads_finish (h : Matches k control scopes stack) (hpending : Pending scope pending)
    (hd : d ≤ scopes.length + 1) : Leads p d (begun fin (scopes.length + 1) d)
      ⟨finish fin pending k, output⟩ ⟨ending fin control, scope :: scopes, stack, output⟩ := by
  cases fin with
  | none =>
    exact ⟨⟨ending none control, scope :: scopes, stack, output⟩, ⟨.final h hpending, rfl⟩, .refl _⟩
  | some f =>
    obtain ⟨flag, hflag⟩ := hpending.flag
    suffices hrest : Leads p d 0 ⟨finish (some f) pending k, output⟩
        ⟨.run (ifFlag ExceptionEntered (setFlag ExceptionFinalized) skip) ::
          .run (seq (expand f) popIfEntered) :: .run rethrowIfThrown :: .endBlock :: control,
          scope :: scopes, stack, output⟩ by
      have hbegun : begun (some f) (scopes.length + 1) d = if scopes.length + 1 = d then 1 else 0 := by
        simp [begun]
      rw [hbegun]
      exact (hrest.of_passes (passes_finally hd)).of_quiet (passes_seq hd rfl (.refl _))
    by_cases hentered : flag = ExceptionEntered
    · subst hentered
      obtain rfl : pending = none := by
        cases pending with
        | none => rfl
        | some _ => cases hflag.symm.trans hpending.1
      refine ⟨⟨.run (expand f) :: .run popIfEntered :: .run rethrowIfThrown :: .endBlock :: control,
        { scope with flag := some ExceptionFinalized } :: scopes, stack, output⟩, ⟨?_, rfl⟩, ?_⟩
      · exact .run f (.behind h ⟨_, rfl, nofun⟩ rfl nofun)
      · refine passes_ifFlag hd hflag ?_
        rw [if_pos rfl]
        exact passes_setFlag hd (passes_seq hd (beginsFinally_expand ..) (.refl _))
    · refine ⟨⟨.run (expand f) :: .run popIfEntered :: .run rethrowIfThrown :: .endBlock :: control,
        scope :: scopes, stack, output⟩, ⟨.run f (.behind h hpending hflag hentered), rfl⟩, ?_⟩
      refine passes_ifFlag hd hflag ?_
      rw [if_neg hentered]
      exact passes_skip hd (passes_seq hd (beginsFinally_expand ..) (.refl _))

def caught (e : Exc) (site : Site) (catches : Catches) (fin : Option Stmt) (k : List Frame) :
    List Frame :=
  match Structured.find e catches with
  | some h => .run h :: .handler fin :: k
  | none => finish fin (some (e, site)) k

def begunUncaught (e : Exc) (catches : Catches) (fin : Option Stmt) (m d : Nat) : Nat :=
  if (Structured.find e catches).isSome then 0 else begun fin m d

theorem leads_catches (h : Matches k control scopes stack) {e : Exc} {site : Site}
    (hflag : scope.flag = some ExceptionThrown) (hexc : scope.exception = some (e, site))
    (hd : d ≤ scopes.length + 1) :
    (catches : Catches) → Leads p d (begunUncaught e catches fin (scopes.length + 1) d)
      ⟨caught e site catches fin k, output⟩
      ⟨.run (expandCatches catches) :: ending fin control, scope :: scopes, stack, output⟩
  | .nil => by
    have hpending : Pending scope (some (e, site)) := ⟨hflag, hexc⟩
    exact (leads_finish h hpending hd).of_quiet (passes_skip hd (.refl _))
  | .cons e' handler rest => by
    rw [caught, begunUncaught, Structured.find]
    by_cases heq : e = e'
    · rw [if_pos heq]
      refine ⟨⟨.run (expand handler) :: .run popIfEntered :: ending fin control,
        { scope with flag := some ExceptionHandled } :: scopes, stack, output⟩,
        ⟨.run handler (.handler fin h rfl), rfl⟩, passes_ifException hd hexc ?_⟩
      rw [if_pos heq]
      exact passes_seq hd rfl (passes_setFlag hd (passes_seq hd (beginsFinally_expand ..) (.refl _)))
    · rw [if_neg heq]
      refine (leads_catches h hflag hexc hd rest).of_quiet (passes_ifException hd hexc ?_)
      rw [if_neg heq]
      exact .refl _

-- ---------------------------------------------------------------------------
-- ntyExceptionThrow
-- ---------------------------------------------------------------------------

theorem Matches.stack_none (h : Matches k control scopes stack) (hin : innermost k = none) :
    stack = none := by
  induction h with
  | nil => rfl
  | run s _ ih => exact ih hin
  | body => cases hin
  | handler _ _ _ ih => exact ih hin
  | final _ _ ih => exact ih hin
  | behind _ _ _ _ ih => exact ih hin

/-- The top of the stack is the frame of the innermost active `Try`, with its blocks below. -/
theorem Matches.stack_some (h : Matches k control scopes stack) {catches : Catches} {k' : List Frame}
    (hin : innermost k = some (catches, fin, k')) : ∃ above body control' scopes' stack' exception,
      scopes = above ++ entered body catches fin control' scopes' stack' exception :: scopes' ∧
        stack = some scopes'.length ∧ Matches k' control' scopes' stack' := by
  induction h with
  | nil => cases hin
  | run s _ ih => exact ih hin
  | body body catches fin exception h =>
    cases hin
    exact ⟨[], body, _, _, _, exception, rfl, rfl, h⟩
  | @handler _ _ _ _ scope _ _ _ ih =>
    obtain ⟨above, body, control', scopes', stack', exception, rfl, h⟩ := ih hin
    exact ⟨scope :: above, body, control', scopes', stack', exception, rfl, h⟩
  | @final _ _ _ _ scope _ _ _ ih =>
    obtain ⟨above, body, control', scopes', stack', exception, rfl, h⟩ := ih hin
    exact ⟨scope :: above, body, control', scopes', stack', exception, rfl, h⟩
  | @behind _ _ _ _ scope _ _ _ _ _ _ ih =>
    obtain ⟨above, body, control', scopes', stack', exception, rfl, h⟩ := ih hin
    exact ⟨scope :: above, body, control', scopes', stack', exception, rfl, h⟩

theorem scopeAt_append (above : List Scope) (scope : Scope) (below : List Scope) :
    scopeAt (above ++ scope :: below) below.length = some scope := by
  induction above with
  | nil => simp [scopeAt]
  | cons x above ih =>
    rw [List.cons_append, scopeAt, if_neg]
    · exact ih
    · simp only [List.length_append, List.length_cons]
      omega

theorem setScope_append (above : List Scope) (old scope : Scope) (below : List Scope) :
    setScope scope (above ++ old :: below) below.length = above ++ scope :: below := by
  induction above with
  | nil => simp [setScope]
  | cons x above ih =>
    rw [List.cons_append, setScope, if_neg, ih]
    · rfl
    · simp only [List.length_append, List.length_cons]
      omega

theorem longjmp_append (above : List Scope) (scope : Scope) (below : List Scope) (target : List Item) :
    longjmp ⟨control, above ++ scope :: below, stack, output⟩ ⟨target, below.length + 1⟩ =
      some ⟨target, { scope with flag := some ExceptionThrown } :: below, stack, output⟩ := by
  have hlen : (above ++ scope :: below).length = above.length + (below.length + 1) := by simp
  rw [longjmp, if_neg (by simp only [hlen]; omega)]
  simp [hlen]

theorem leads_throw (output : List Output) (h : Matches k control scopes stack) (above : List Scope)
    (rest : List Item) (e : Exc) (site : Site) (cause : Option String) {catches : Catches} {k' : List Frame}
    (hin : innermost k = some (catches, fin, k')) :
    ∃ t, ntyExceptionThrow ⟨rest, above ++ scopes, stack, output⟩ e site cause = some t ∧
      t.scopes.length = nesting k' + 1 ∧
      ∀ d ≤ nesting k' + 1, Leads p d (begunUncaught e catches fin (nesting k' + 1) d)
        ⟨caught e site catches fin k', output⟩ t := by
  obtain ⟨above', body, control', scopes', stack', exception, rfl, rfl, h'⟩ := h.stack_some hin
  simp only [← List.append_assoc, ← h'.length]
  let thrown : Scope := { entered body catches fin control' scopes' stack' (some (e, site)) with
    flag := some ExceptionThrown }
  refine ⟨⟨.run (dispatch body (expandCatches catches) (fin.map expand)) :: .endBlock :: control',
    thrown :: scopes', stack', output⟩, ?_, rfl, fun d hd => ?_⟩
  · simp only [ntyExceptionThrow, scopeAt_append, setScope_append, entered, Option.bind_eq_bind,
      Option.bind_some]
    exact longjmp_append ..
  · have hcatches : Leads p d (begunUncaught e catches fin (scopes'.length + 1) d)
        ⟨caught e site catches fin k', output⟩
        ⟨.run (expandCatches catches) :: ending fin control', thrown :: scopes', stack', output⟩ :=
      leads_catches h' rfl rfl hd catches
    exact hcatches.of_quiet (passes_seq hd rfl (passes_ifFlag hd rfl (.refl _)))

-- ---------------------------------------------------------------------------
-- One step of the structured machine
-- ---------------------------------------------------------------------------

def Leads₁ (p : Fn → Stmt) (d n : Nat) (a : Structured.State) (s : State) : Prop :=
  ∃ t, step (code p) s = some t ∧ Leads p d n a t

theorem Leads₁.leads {a : Structured.State} (h : Leads₁ p d n a s) (hd : d ≤ s.scopes.length)
    (hquiet : beginsFinally d s = false) : Leads p d n a s := by
  obtain ⟨t, hstep, hleads⟩ := h
  exact hleads.of_quiet (passes_step hd hquiet hstep (.refl t))

theorem Leads₁.reaches₁ {a : Structured.State} (h : Leads₁ p d n a s) :
    ∃ c, Agrees a c ∧ Reaches₁ (step (code p)) s c := by
  obtain ⟨t, hstep, c, hc, l, hl, -⟩ := h
  exact ⟨c, hc, .head' hstep hl.reaches⟩

theorem Agrees.leads {a : Structured.State} (h : Agrees a s) : Leads p d 0 a s := ⟨s, h, .refl s⟩

/-- What agrees is never at the beginning of `Finally`. -/
theorem Agrees.quiet {a : Structured.State} (h : Agrees a s) : beginsFinally d s = false := by
  obtain ⟨control, scopes, stack, output⟩ := s
  obtain ⟨hframes, -⟩ := h
  generalize a.control = frames at hframes
  cases hframes with
  | @run _ _ _ _ s _ =>
    cases s with
    | seq a b => exact beginsFinally_expand d a (expand b)
    | _ => rfl
  | _ => rfl

theorem Agrees.length {a : Structured.State} (h : Agrees a s) : s.scopes.length = nesting a.control :=
  h.frames.length

def begunRaise (e : Exc) (k : List Frame) (d : Nat) : Nat :=
  match innermost k with
  | none => 0
  | some (catches, fin, k') => begunUncaught e catches fin (nesting k' + 1) d

def begunStep (d : Nat) : List Frame → Nat
  | .run (.throw e _ _) :: k => begunRaise e k d
  | .body _ fin :: k => begun fin (nesting k + 1) d
  | .handler fin :: k => begun fin (nesting k + 1) d
  | .final (some (e, _)) :: k => begunRaise e k d
  | _ => 0

theorem nesting_finish (fin : Option Stmt) (pending : Option (Exc × Site)) (k : List Frame) :
    nesting (finish fin pending k) = nesting k + 1 := by
  cases fin <;> rfl

theorem nesting_caught (e : Exc) (site : Site) (catches : Catches) (fin : Option Stmt)
    (k : List Frame) : nesting (caught e site catches fin k) = nesting k + 1 := by
  rw [caught]
  split
  · rfl
  · exact nesting_finish ..

theorem raise_of_none (hin : innermost k = none) (e : Exc) (site : Site) (cause : Option String) :
    Structured.raise ⟨k, output⟩ e site cause = ⟨k, output ++ [.print e cause site]⟩ := by
  rw [Structured.raise, hin]

theorem raise_of_some {catches : Catches} {k' : List Frame}
    (hin : innermost k = some (catches, fin, k')) (e : Exc) (site : Site) (cause : Option String) :
    Structured.raise ⟨k, output⟩ e site cause = ⟨caught e site catches fin k', output⟩ := by
  cases hfind : Structured.find e catches <;> simp [Structured.raise, caught, hin, hfind]

theorem leads_throwStmt (h : Matches k control scopes stack) (e : Exc) (site : Site)
    (cause : Option String)
    (hd : d ≤ nesting (Structured.raise ⟨k, output⟩ e site cause).control) :
    Leads₁ p d (begunRaise e k d) (Structured.raise ⟨k, output⟩ e site cause)
      ⟨.run (.throw e site cause) :: control, scopes, stack, output⟩ := by
  cases hin : innermost k with
  | none =>
    obtain rfl := h.stack_none hin
    rw [begunRaise, hin, raise_of_none hin]
    have hagrees : Agrees ⟨k, output ++ [.print e cause site]⟩
        ⟨control, scopes, none, output ++ [.print e cause site]⟩ := ⟨h, rfl⟩
    exact ⟨_, rfl, hagrees.leads⟩
  | some found =>
    obtain ⟨catches, fin, k'⟩ := found
    rw [raise_of_some hin, nesting_caught] at hd
    rw [begunRaise, hin, raise_of_some hin]
    obtain ⟨t, ht, -, hleads⟩ := leads_throw output h [] control e site cause hin
    exact ⟨t, ht, hleads d hd⟩

def ended (k : List Frame) (output : List Output) : Option (Exc × Site) → Structured.State
  | none => ⟨k, output⟩
  | some (e, site) => Structured.raise ⟨k, output⟩ e site none

/-- The end of `EndTry`; its block is above those the exception goes to. -/
theorem leads_final (h : Matches k control scopes stack) (hpending : Pending scope pending)
    (hd : d ≤ scopes.length + 1) (hd' : d ≤ nesting (ended k output pending).control) :
    Leads₁ p d (begunStep d (.final pending :: k)) (ended k output pending)
      ⟨.run rethrowIfThrown :: .endBlock :: control, scope :: scopes, stack, output⟩ := by
  have hend (l : List Output) : Leads p d 0 ⟨k, l⟩ ⟨.endBlock :: control, scope :: scopes, stack, l⟩ := by
    have hagrees : Agrees ⟨k, l⟩ ⟨control, scopes, stack, l⟩ := ⟨h, rfl⟩
    exact hagrees.leads.of_quiet (passes_step hd rfl rfl (.refl _))
  cases pending with
  | none =>
    obtain ⟨flag, hflag, hne⟩ := hpending
    refine ⟨_, step_ifFlag hflag, ?_⟩
    rw [if_neg hne]
    exact (hend output).of_quiet (passes_skip hd (.refl _))
  | some raised =>
    obtain ⟨e, site⟩ := raised
    obtain ⟨hflag, hexc⟩ := hpending
    refine ⟨_, step_ifFlag hflag, ?_⟩
    rw [if_pos rfl]
    rw [ended] at hd' ⊢
    cases hin : innermost k with
    | none =>
      obtain rfl := h.stack_none hin
      rw [raise_of_none hin, begunStep, begunRaise, hin]
      refine (hend _).of_quiet (passes_step hd rfl ?_ (.refl _))
      simp [step, exec, hexc, ntyExceptionThrow]
    | some found =>
      obtain ⟨catches, fin, k'⟩ := found
      rw [raise_of_some hin, nesting_caught] at hd'
      rw [raise_of_some hin, begunStep, begunRaise, hin]
      obtain ⟨t, ht, -, hleads⟩ := leads_throw output h [scope] (.endBlock :: control) e site none hin
      refine (hleads d hd').of_quiet (passes_step hd rfl ?_ (.refl _))
      simpa [step, exec, hexc] using ht

theorem leads_try (output : List Output) (h : Matches k control scopes stack) (body : Stmt)
    (catches : Catches) (fin : Option Stmt) (hd : d ≤ scopes.length + 1) :
    Leads₁ p d 0 ⟨.run body :: .body catches fin :: k, output⟩
      ⟨.run (tryBlock (expand body) (expandCatches catches) (fin.map expand)) :: control, scopes,
        stack, output⟩ := by
  refine ⟨_, rfl, ⟨.run (expand body) :: .run popIfEntered :: ending fin control,
    entered (expand body) catches fin control scopes stack none :: scopes, some scopes.length, output⟩,
    ⟨.run body (.body _ catches fin none h), rfl⟩, ?_⟩
  refine passes_seq hd rfl (passes_step hd rfl rfl (passes_seq hd rfl (passes_step hd rfl rfl ?_)))
  refine passes_seq hd rfl (passes_ifFlag hd rfl ?_)
  exact passes_seq hd (beginsFinally_expand ..) (.refl _)

theorem leads_run (h : Matches k control scopes stack) (s : Stmt) {b : Structured.State}
    (hstep : Structured.step p ⟨.run s :: k, output⟩ = some b) (hd : d ≤ nesting k)
    (hd' : d ≤ nesting b.control) :
    Leads₁ p d (begunStep d (.run s :: k)) b ⟨.run (expand s) :: control, scopes, stack, output⟩ := by
  have hrest (l : List Output) : Leads p d 0 ⟨k, l⟩ ⟨control, scopes, stack, l⟩ :=
    Agrees.leads ⟨h, rfl⟩
  have hlt : d ≤ scopes.length + 1 := by
    rw [h.length]
    exact Nat.le_succ_of_le hd
  cases s with
  | skip =>
    cases hstep
    exact ⟨_, rfl, hrest _⟩
  | act n =>
    cases hstep
    exact ⟨_, rfl, hrest _⟩
  | call f =>
    cases hstep
    exact ⟨_, rfl, Agrees.leads ⟨.run (p f) h, rfl⟩⟩
  | seq a b =>
    cases hstep
    exact ⟨_, rfl, Agrees.leads ⟨.run a (.run b h), rfl⟩⟩
  | throw e site cause =>
    cases hstep
    exact leads_throwStmt h e site cause hd'
  | tryEnd body catches =>
    cases hstep
    exact leads_try output h body catches none hlt
  | tryFinally body catches fin =>
    cases hstep
    exact leads_try output h body catches (some fin) hlt

theorem leads_body (h : Matches k control scopes stack) (body : Cmd) (catches : Catches)
    (fin : Option Stmt) (exception : Option (Exc × Site)) (hd : d ≤ scopes.length + 1) :
    Leads₁ p d (begun fin (scopes.length + 1) d) ⟨finish fin none k, output⟩
      ⟨.run popIfEntered :: ending fin control,
        entered body catches fin control scopes stack exception :: scopes, some scopes.length,
        output⟩ := by
  have hpending : Pending (entered body catches fin control scopes stack exception) none :=
    ⟨_, rfl, nofun⟩
  have hpop : step (code p) ⟨.run pop :: ending fin control,
      entered body catches fin control scopes stack exception :: scopes, some scopes.length, output⟩ =
      some ⟨ending fin control, entered body catches fin control scopes stack exception :: scopes,
        stack, output⟩ := by
    simp [step, exec, scopeAt, entered]
  refine ⟨_, step_ifFlag rfl, ?_⟩
  rw [if_pos rfl]
  exact (leads_finish h hpending hd).of_quiet (passes_step hd rfl hpop (.refl _))

theorem step_final (pending : Option (Exc × Site)) :
    Structured.step p ⟨.final pending :: k, output⟩ = some (ended k output pending) := by
  cases pending <;> rfl

theorem leads_next {a b : Structured.State} (h : Agrees a s) (hstep : Structured.step p a = some b)
    (hd : d ≤ nesting a.control) (hd' : d ≤ nesting b.control) :
    Leads₁ p d (begunStep d a.control) b s := by
  obtain ⟨k, _⟩ := a
  obtain ⟨control, scopes, stack, output⟩ := s
  obtain ⟨hframes, rfl⟩ := h
  simp only at hd
  cases hframes with
  | nil => cases hstep
  | run s h => exact leads_run h s hstep hd hd'
  | body body catches fin exception h =>
    cases hstep
    rw [nesting, ← h.length] at hd
    rw [begunStep, ← h.length]
    exact leads_body h body catches fin exception hd
  | @handler _ _ _ _ scope fin h hflag =>
    cases hstep
    rw [nesting, ← h.length] at hd
    have hpending : Pending scope none := ⟨_, hflag, nofun⟩
    refine ⟨_, step_ifFlag hflag, ?_⟩
    rw [begunStep, ← h.length]
    exact (leads_finish h hpending hd).of_quiet (passes_skip hd (.refl _))
  | final h hpending =>
    rw [nesting, ← h.length] at hd
    obtain rfl := Option.some.inj ((step_final _).symm.trans hstep)
    exact leads_final h hpending hd hd'
  | behind h hpending hflag hne =>
    rw [nesting, ← h.length] at hd
    obtain rfl := Option.some.inj ((step_final _).symm.trans hstep)
    refine ⟨_, step_ifFlag hflag, ?_⟩
    rw [if_neg hne]
    exact ((leads_final h hpending hd hd').leads hd rfl).of_quiet (passes_skip hd (.refl _))

theorem step_eq_none {a : Structured.State} (h : Structured.step p a = none) : a.control = [] := by
  unfold Structured.step at h
  split at h <;> first | assumption | cases h

theorem respects (p : Fn → Stmt) : Respects (Structured.step p) (step (code p)) Agrees := by
  intro a s h
  cases hstep : Structured.step p a with
  | none =>
    have hnil := step_eq_none hstep
    obtain ⟨k, _⟩ := a
    obtain ⟨control, scopes, stack, output⟩ := s
    obtain ⟨hframes, -⟩ := h
    cases hnil
    cases hframes
    rfl
  | some b => exact (leads_next (d := 0) h hstep (Nat.zero_le _) (Nat.zero_le _)).reaches₁

-- ---------------------------------------------------------------------------
-- Every run
-- ---------------------------------------------------------------------------

theorem Matches.chain (h : Matches k control scopes stack) (above : List Scope) {fuel : Nat}
    (hfuel : scopes.length < fuel) : chain (above ++ scopes) fuel stack = active k := by
  induction h generalizing above fuel with
  | nil =>
    cases fuel with
    | zero => cases hfuel
    | succ fuel => rfl
  | run s _ ih => exact ih above hfuel
  | @body k control scopes stack body catches fin exception h ih =>
    cases fuel with
    | zero => cases hfuel
    | succ fuel =>
      have hbelow := ih (above ++ [entered body catches fin control scopes stack exception])
        (Nat.lt_of_succ_lt_succ hfuel)
      rw [List.append_assoc, List.singleton_append] at hbelow
      rw [TryCatch.chain, scopeAt_append, active, ← h.length]
      exact congrArg _ hbelow
  | @handler _ _ _ _ scope _ _ _ ih =>
    simpa [active] using ih (above ++ [scope]) (Nat.lt_of_succ_lt hfuel)
  | @final _ _ _ _ scope _ _ _ ih =>
    simpa [active] using ih (above ++ [scope]) (Nat.lt_of_succ_lt hfuel)
  | @behind _ _ _ _ scope _ _ _ _ _ _ ih =>
    simpa [active] using ih (above ++ [scope]) (Nat.lt_of_succ_lt hfuel)

theorem Agrees.stack_eq {a : Structured.State} (h : Agrees a s) : s.stack = active a.control :=
  h.frames.chain [] (Nat.lt_succ_self _)

/-- A statement, wherever it stands: the expansion runs as structured exceptions do, and when
it is done the stack is as it was. -/
theorem macros_refine (p : Fn → Stmt) (statement : Stmt) (output : List Output)
    (h : Matches k control scopes stack) :
    (∀ a, Reaches (Structured.step p) ⟨.run statement :: k, output⟩ a →
      ∃ c, Agrees a c ∧
        Reaches (step (code p)) ⟨.run (expand statement) :: control, scopes, stack, output⟩ c) ∧
    (∀ c, Reaches (step (code p)) ⟨.run (expand statement) :: control, scopes, stack, output⟩ c →
      ∃ a c', Reaches (step (code p)) c c' ∧ Agrees a c' ∧
        Reaches (Structured.step p) ⟨.run statement :: k, output⟩ a) ∧
    ∀ a c, Agrees a c → a.control = k →
      c.stack = State.stack ⟨.run (expand statement) :: control, scopes, stack, output⟩ := by
  have hstart : Agrees ⟨.run statement :: k, output⟩
      ⟨.run (expand statement) :: control, scopes, stack, output⟩ := ⟨.run statement h, rfl⟩
  refine ⟨fun a ha => tr_reaches (respects p) hstart ha,
    fun c hc => tr_reaches_rev (respects p) hstart hc, ?_⟩
  rintro a c hagrees rfl
  exact hagrees.stack_eq.trans hstart.stack_eq.symm

def nested : Stmt :=
  .tryFinally
    (.tryEnd (.throw 20 ⟨"main", "try-catch.c", 1⟩ (some "call B")) (.cons 10 (.act 1) .nil))
    (.cons 20 (.act 2) .nil) (.act 3)

theorem macros_refine_nested : ∃ c, Reaches (step (code fun _ => .skip))
    ⟨[.run (expand nested)], [], none, []⟩ c ∧ c.control = [] ∧ c.stack = [] ∧
      c.output = [.act 2, .act 3] := by
  have hrun : Reaches (Structured.step fun _ => .skip) ⟨[.run nested], []⟩ ⟨[], [.act 2, .act 3]⟩ := by
    refine .head rfl (.head rfl (.head rfl (.head rfl (.head rfl (.head rfl (.head rfl (.head rfl ?_)))))))
    exact .refl
  have hrefine := macros_refine (fun _ => .skip) nested [] .nil
  obtain ⟨c, hagrees, hreaches⟩ := hrefine.1 _ hrun
  refine ⟨c, hreaches, ?_, hrefine.2.2 _ c hagrees rfl, hagrees.output⟩
  cases c
  have hnil := hagrees.frames
  cases hnil
  rfl

end LearningCode.TryCatch
