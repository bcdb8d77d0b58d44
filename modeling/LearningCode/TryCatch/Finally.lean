import LearningCode.TryCatch.Refine

/-!
# When `Finally` runs

The frame of a `Try` is off the stack when its handler runs, so a throw there goes
straight to a `Try` further out, and past the `Finally`. Every other way out of the
statement leads through it.
-/

namespace LearningCode.TryCatch

open StateTransition TryCatch.Flag Cmd
open Structured (Frame finish innermost nesting active)

variable {p : Fn → Stmt} {k k' above : List Frame} {control : List Item} {scopes : List Scope}
  {stack : Option Nat} {output : List Output} {catches : Catches} {fin : Stmt} {frame : Frame}
  {s t last : State} {l : List State} {d n : Nat}

/-- A `Try` statement at the front of `s` runs: the states in its block, in order, up to
the one whose step leaves it. -/
structure Execution (p : Fn → Cmd) (s : State) (l : List State) (last : State) : Prop where
  visits : Visits (step p) (s :: l) s last
  inside : ∀ c ∈ l, s.scopes.length < c.scopes.length
  inBlock : s.scopes.length < last.scopes.length
  leaves : ∃ t, step p last = some t ∧ t.scopes.length ≤ s.scopes.length

def finallyCount (s : State) (l : List State) : Nat :=
  l.countP (beginsFinally (s.scopes.length + 1))

def blocks (control : List Item) : Nat :=
  control.countP fun | .endBlock => true | _ => false

def Throws (c : State) : Prop :=
  (∃ e site cause control, c.control = .run (.throw e site cause) :: control) ∨
    ∃ control, c.control = .run rethrow :: control

/-- A handler of the `Try` with `d` blocks around it is being run, and `Finally` is to come. -/
def InHandler (fin : Stmt) (d : Nat) (c : State) : Prop :=
  (∃ scope, scopeAt c.scopes d = some scope ∧ scope.flag = some ExceptionHandled) ∧
    ∃ above below, c.control = above ++ ending (some fin) below ∧ blocks below = d

-- ---------------------------------------------------------------------------
-- The blocks of what is left to run
-- ---------------------------------------------------------------------------

@[simp] theorem blocks_nil : blocks [] = 0 := rfl

@[simp] theorem blocks_append (a b : List Item) : blocks (a ++ b) = blocks a + blocks b :=
  List.countP_append

@[simp] theorem blocks_run (c : Cmd) (a : List Item) : blocks (.run c :: a) = blocks a :=
  List.countP_cons_of_neg (by simp)

@[simp] theorem blocks_endBlock (a : List Item) : blocks (.endBlock :: a) = blocks a + 1 :=
  List.countP_cons_of_pos rfl

theorem Matches.blocks_eq (h : Matches k control scopes stack) : blocks control = nesting k := by
  induction h <;> simp_all [nesting, ending]

theorem Matches.split (h : Matches (above ++ k) control scopes stack) :
    ∃ front control' inner scopes' stack', control = front ++ control' ∧
      scopes = inner ++ scopes' ∧ Matches k control' scopes' stack' := by
  induction above generalizing control scopes stack with
  | nil => exact ⟨[], control, [], scopes, stack, rfl, rfl, h⟩
  | cons frame above ih =>
    cases h with
    | run s hk =>
      obtain ⟨front, control', inner, scopes', stack', rfl, rfl, hk'⟩ := ih hk
      exact ⟨.run (expand s) :: front, control', inner, scopes', stack', rfl, rfl, hk'⟩
    | body body catches fin exception hk =>
      obtain ⟨front, control', inner, scopes', stack', rfl, rfl, hk'⟩ := ih hk
      exact ⟨.run popIfEntered :: ending fin front, control', _ :: inner, scopes', stack', rfl, rfl, hk'⟩
    | handler fin hk _ =>
      obtain ⟨front, control', inner, scopes', stack', rfl, rfl, hk'⟩ := ih hk
      exact ⟨.run popIfEntered :: ending fin front, control', _ :: inner, scopes', stack', rfl, rfl, hk'⟩
    | final hk _ =>
      obtain ⟨front, control', inner, scopes', stack', rfl, rfl, hk'⟩ := ih hk
      exact ⟨.run rethrowIfThrown :: .endBlock :: front, control', _ :: inner, scopes', stack', rfl,
        rfl, hk'⟩
    | behind hk _ _ _ =>
      obtain ⟨front, control', inner, scopes', stack', rfl, rfl, hk'⟩ := ih hk
      exact ⟨.run popIfEntered :: .run rethrowIfThrown :: .endBlock :: front, control', _ :: inner,
        scopes', stack', rfl, rfl, hk'⟩

theorem blocks_lt {a b b' : List Item} {y : Item} (h : .endBlock :: b = a ++ y :: .endBlock :: b') :
    blocks b' < blocks b := by
  cases a with
  | nil =>
    obtain ⟨rfl, rfl⟩ := List.cons.inj h
    simp
  | cons z a =>
    obtain ⟨rfl, rfl⟩ := List.cons.inj h
    cases y <;> simp <;> omega

theorem beforeEnd_unique {a a' b b' : List Item} {x y : Item}
    (h : a ++ x :: .endBlock :: b = a' ++ y :: .endBlock :: b') (hblocks : blocks b = blocks b') :
    x = y := by
  induction a generalizing a' with
  | nil =>
    cases a' with
    | nil => exact (List.cons.inj h).1
    | cons z a' => exact absurd hblocks.symm (Nat.ne_of_lt (blocks_lt (List.cons.inj h).2))
  | cons z a ih =>
    cases a' with
    | nil => exact absurd hblocks (Nat.ne_of_lt (blocks_lt (List.cons.inj h).2.symm))
    | cons z' a' => exact ih (List.cons.inj h).2

-- ---------------------------------------------------------------------------
-- The structured machine
-- ---------------------------------------------------------------------------

inductive Own (catches : Catches) (fin : Stmt) : Frame → Nat → Prop
  | body : Own catches fin (.body catches (some fin)) 0
  | handler : Own catches fin (.handler (some fin)) 0
  | final (pending : Option (Exc × Site)) : Own catches fin (.final pending) 1

def Phase (catches : Catches) (fin : Stmt) (k frames : List Frame) (n : Nat) : Prop :=
  ∃ above own, frames = above ++ own :: k ∧ Own catches fin own n

def raises : List Frame → Option (Exc × Site × Option String × List Frame)
  | .run (.throw e site cause) :: k => some (e, site, cause, k)
  | .final (some (e, site)) :: k => some (e, site, none, k)
  | _ => none

inductive Leaving (fin : Stmt) (k : List Frame) : List Frame → Nat → Prop
  | done {pending : Option (Exc × Site)} (h : pending = none ∨ innermost k = none) :
    Leaving fin k (.final pending :: k) 1
  | handler {frames above : List Frame} {e : Exc} {site : Site} {cause : Option String}
    {catches : Catches} {fin' : Option Stmt} {k' : List Frame}
    (hraises : raises frames = some (e, site, cause, above ++ .handler (some fin) :: k))
    (hin : innermost (above ++ .handler (some fin) :: k) = some (catches, fin', k'))
    (hout : nesting k' < nesting k) : Leaving fin k frames 0
  | final {frames above : List Frame} {pending : Option (Exc × Site)} {e : Exc} {site : Site}
    {cause : Option String} {catches : Catches} {fin' : Option Stmt} {k' : List Frame}
    (hraises : raises frames = some (e, site, cause, above ++ .final pending :: k))
    (hin : innermost (above ++ .final pending :: k) = some (catches, fin', k'))
    (hout : nesting k' < nesting k) : Leaving fin k frames 1
  | pending {e : Exc} {site : Site} {catches : Catches} {fin' : Option Stmt} {k' : List Frame}
    (hin : innermost k = some (catches, fin', k')) (hout : nesting k' < nesting k) :
    Leaving fin k (.final (some (e, site)) :: k) 1

theorem Own.nesting_eq (h : Own catches fin frame n) : nesting (frame :: k) = nesting k + 1 := by
  cases h <;> rfl

theorem nesting_append : nesting (above ++ k) = nesting above + nesting k := by
  induction above with
  | nil => exact (Nat.zero_add _).symm
  | cons frame above ih =>
    cases frame <;> simp only [List.cons_append, nesting, ih] <;> omega

theorem Phase.nesting_lt {frames : List Frame} (h : Phase catches fin k frames n) :
    nesting k < nesting frames := by
  obtain ⟨above, own, rfl, hown⟩ := h
  rw [nesting_append, hown.nesting_eq]
  omega

theorem innermost_append_of_some {fin' : Option Stmt} {k' : List Frame}
    (h : innermost above = some (catches, fin', k')) :
    innermost (above ++ k) = some (catches, fin', k' ++ k) := by
  induction above with
  | nil => cases h
  | cons frame above ih =>
    cases frame with
    | body =>
      cases h
      rfl
    | run => exact ih h
    | handler => exact ih h
    | final => exact ih h

theorem innermost_append_of_none (h : innermost above = none) :
    innermost (above ++ k) = innermost k := by
  induction above with
  | nil => rfl
  | cons frame above ih =>
    cases frame with
    | body => cases h
    | run => exact ih h
    | handler => exact ih h
    | final => exact ih h

theorem nesting_innermost {fin' : Option Stmt} {k' : List Frame}
    (h : innermost k = some (catches, fin', k')) : nesting k' < nesting k := by
  induction k with
  | nil => cases h
  | cons frame k ih =>
    cases frame with
    | body =>
      cases h
      exact Nat.lt_succ_self _
    | run => exact ih h
    | handler => exact Nat.lt_succ_of_lt (ih h)
    | final => exact Nat.lt_succ_of_lt (ih h)

theorem finish_append (fin' : Option Stmt) (pending : Option (Exc × Site)) (k : List Frame) :
    ∃ front, finish fin' pending k = front ++ k := by
  cases fin' with
  | none => exact ⟨[.final pending], rfl⟩
  | some f => exact ⟨[.run f, .final pending], rfl⟩

theorem caught_append (e : Exc) (site : Site) (catches : Catches) (fin' : Option Stmt)
    (k : List Frame) : ∃ front, caught e site catches fin' k = front ++ k := by
  rw [caught]
  split
  · next h _ => exact ⟨[.run h, .handler fin'], rfl⟩
  · exact finish_append ..

theorem begun_of_ne {fin' : Option Stmt} {m : Nat} (h : m ≠ d) : begun fin' m d = 0 :=
  if_neg fun hm => h hm.2

theorem begunUncaught_of_ne {e : Exc} {fin' : Option Stmt} {m : Nat} (h : m ≠ d) :
    begunUncaught e catches fin' m d = 0 := by
  rw [begunUncaught, begun_of_ne h, ite_self]

theorem Phase.grow (h : Phase catches fin k k' n) (front : List Frame) :
    Phase catches fin k (front ++ k') n := by
  obtain ⟨above, own, rfl, hown⟩ := h
  exact ⟨front ++ above, own, (List.append_assoc ..).symm, hown⟩

theorem Phase.finish (h : Phase catches fin k k' n) (fin' : Option Stmt)
    (pending : Option (Exc × Site)) : Phase catches fin k (Structured.finish fin' pending k')
      (n + begun fin' (nesting k' + 1) (nesting k + 1)) := by
  have hne : nesting k' + 1 ≠ nesting k + 1 := by
    have hlt := h.nesting_lt
    omega
  rw [begun_of_ne hne]
  obtain ⟨front, hfront⟩ := finish_append fin' pending k'
  rw [hfront]
  exact h.grow front

theorem Phase.uncaught (h : Phase catches fin k k' n) (hnone : innermost k' = none) (e : Exc)
    (site : Site) (cause : Option String) (d : Nat) :
    Phase catches fin k (Structured.raise ⟨k', output⟩ e site cause).control
      (n + begunRaise e k' d) := by
  rw [begunRaise, hnone, raise_of_none hnone]
  exact h

theorem Phase.raise {frames : List Frame} {e : Exc} {site : Site} {cause : Option String}
    (h : Phase catches fin k k' n) (hraises : raises frames = some (e, site, cause, k')) :
    Leaving fin k frames n ∨ Phase catches fin k (Structured.raise ⟨k', output⟩ e site cause).control
      (n + begunRaise e k' (nesting k + 1)) := by
  have hphase := h
  obtain ⟨above, own, rfl, hown⟩ := h
  cases habove : innermost above with
  | some found =>
    obtain ⟨catches', fin', k'⟩ := found
    have hin := innermost_append_of_some (k := own :: k) habove
    have hne : nesting (k' ++ own :: k) + 1 ≠ nesting k + 1 := by
      rw [nesting_append, hown.nesting_eq]
      omega
    rw [begunRaise, hin, raise_of_some hin]
    obtain ⟨front, hfront⟩ := caught_append e site catches' fin' (k' ++ own :: k)
    simp only [begunUncaught_of_ne hne, hfront]
    exact .inr (Phase.grow ⟨k', own, rfl, hown⟩ front)
  | none =>
    have hin := innermost_append_of_none (k := own :: k) habove
    cases hown with
    | body =>
      have hbody : innermost (above ++ .body catches (some fin) :: k) = some (catches, some fin, k) :=
        hin
      rw [begunRaise, hbody, raise_of_some hbody]
      simp only [caught, begunUncaught]
      cases Structured.find e catches with
      | some h => exact .inr ⟨[.run h], _, rfl, .handler⟩
      | none =>
        refine .inr ⟨[.run fin], _, rfl, ?_⟩
        simp only [begun, Option.isSome_none, Option.isSome_some]
        exact .final _
    | handler =>
      cases hk : innermost k with
      | none => exact .inr (hphase.uncaught (hin.trans hk) e site cause _)
      | some found => exact .inl (.handler hraises (hin.trans hk) (nesting_innermost hk))
    | final pending =>
      cases hk : innermost k with
      | none => exact .inr (hphase.uncaught (hin.trans hk) e site cause _)
      | some found => exact .inl (.final hraises (hin.trans hk) (nesting_innermost hk))

theorem raises_nesting {frames rest : List Frame} {e : Exc} {site : Site} {cause : Option String}
    (h : raises frames = some (e, site, cause, rest)) : nesting rest ≤ nesting frames := by
  unfold raises at h
  split at h
  · cases h
    exact Nat.le_refl _
  · cases h
    exact Nat.le_succ _
  · cases h

theorem nesting_lt_of_raises {frames : List Frame} {e : Exc} {site : Site} {cause : Option String}
    (h : raises frames = some (e, site, cause, above ++ frame :: k))
    (hframe : nesting (frame :: k) = nesting k + 1) : nesting k < nesting frames := by
  have hle := raises_nesting h
  rw [nesting_append, hframe] at hle
  omega

theorem Phase.run {s : Stmt} {b : Structured.State} (h : Phase catches fin k k' n)
    (hstep : Structured.step p ⟨.run s :: k', output⟩ = some b) : Leaving fin k (.run s :: k') n ∨
      Phase catches fin k b.control (n + begunStep (nesting k + 1) (.run s :: k')) := by
  cases s with
  | skip =>
    cases hstep
    exact .inr h
  | act m =>
    cases hstep
    exact .inr h
  | call f =>
    cases hstep
    exact .inr (h.grow [.run (p f)])
  | seq a b =>
    cases hstep
    exact .inr (h.grow [.run a, .run b])
  | throw e site cause =>
    cases hstep
    exact h.raise rfl
  | tryEnd body catches' =>
    cases hstep
    exact .inr (h.grow [.run body, .body catches' none])
  | tryFinally body catches' fin' =>
    cases hstep
    exact .inr (h.grow [.run body, .body catches' (some fin')])

theorem Own.next {b : Structured.State} (h : Own catches fin frame n)
    (hstep : Structured.step p ⟨frame :: k, output⟩ = some b) : Leaving fin k (frame :: k) n ∨
      Phase catches fin k b.control (n + begunStep (nesting k + 1) (frame :: k)) := by
  cases h with
  | body =>
    cases hstep
    refine .inr ⟨[.run fin], _, rfl, ?_⟩
    simp only [begunStep, begun, Option.isSome_some]
    exact .final none
  | handler =>
    cases hstep
    refine .inr ⟨[.run fin], _, rfl, ?_⟩
    simp only [begunStep, begun, Option.isSome_some]
    exact .final none
  | final pending =>
    cases pending with
    | none => exact .inl (.done (.inl rfl))
    | some raised =>
      cases hk : innermost k with
      | none => exact .inl (.done (.inr hk))
      | some found => exact .inl (.pending hk (nesting_innermost hk))

theorem Phase.next {a b : Structured.State} (h : Phase catches fin k a.control n)
    (hstep : Structured.step p a = some b) : Leaving fin k a.control n ∨
      Phase catches fin k b.control (n + begunStep (nesting k + 1) a.control) := by
  obtain ⟨frames, output⟩ := a
  obtain ⟨above, own, rfl, hown⟩ := h
  cases above with
  | nil => exact hown.next hstep
  | cons frame above =>
    have hphase : Phase catches fin k (above ++ own :: k) n := ⟨above, own, rfl, hown⟩
    cases frame with
    | run s => exact hphase.run hstep
    | body catches' fin' =>
      cases hstep
      exact .inr (hphase.finish fin' none)
    | handler fin' =>
      cases hstep
      exact .inr (hphase.finish fin' none)
    | final pending =>
      cases pending with
      | none =>
        cases hstep
        exact .inr hphase
      | some raised =>
        cases hstep
        exact hphase.raise rfl

-- ---------------------------------------------------------------------------
-- Leaving
-- ---------------------------------------------------------------------------

theorem Matches.inHandler {front : List Item} {inner : List Scope}
    (h : Matches (above ++ .handler (some fin) :: k) control scopes stack)
    (hcontrol : s.control = front ++ control) (hscopes : s.scopes = inner ++ scopes) :
    InHandler fin (nesting k) s := by
  obtain ⟨front', control', inner', scopes', stack', rfl, rfl, h'⟩ := h.split
  cases h' with
  | @handler _ below scopes'' _ scope _ hk hflag =>
    refine ⟨⟨scope, ?_, hflag⟩, front ++ front' ++ [.run popIfEntered], below, ?_, hk.blocks_eq⟩
    · rw [hscopes, ← hk.length, ← List.append_assoc]
      exact scopeAt_append ..
    · rw [hcontrol]
      simp

theorem not_inHandler {front later : List Item} {c : Cmd}
    (hcontrol : s.control = front ++ .run c :: .endBlock :: later) (hlater : blocks later = d)
    (hne : c ≠ afterCatches (some (expand fin))) : ¬InHandler fin d s := by
  rintro ⟨-, before, below, hbefore, hblocks⟩
  rw [hbefore, ending] at hcontrol
  exact hne (Item.run.inj (beforeEnd_unique hcontrol (hblocks.trans hlater.symm))).symm

theorem Matches.not_inHandler {front : List Item} {pending : Option (Exc × Site)}
    (h : Matches (above ++ .final pending :: k) control scopes stack)
    (hcontrol : s.control = front ++ control) : ¬InHandler fin (nesting k) s := by
  obtain ⟨front', control', inner', scopes', stack', rfl, rfl, h'⟩ := h.split
  cases h' with
  | final hk _ =>
    rw [← List.append_assoc] at hcontrol
    exact TryCatch.not_inHandler hcontrol hk.blocks_eq nofun
  | behind hk _ _ _ =>
    rw [← List.append_assoc, List.append_cons] at hcontrol
    exact TryCatch.not_inHandler hcontrol hk.blocks_eq nofun

theorem passes_final {pending : Option (Exc × Site)} (output : List Output)
    (h : Matches (.final pending :: k) control scopes stack) (hd : d ≤ nesting k + 1) :
    ∃ control' scope scopes', scopes = scope :: scopes' ∧ Pending scope pending ∧
      Matches k control' scopes' stack ∧ Passes p d 0 ⟨control, scopes, stack, output⟩
        ⟨.run rethrowIfThrown :: .endBlock :: control', scope :: scopes', stack, output⟩ := by
  cases h with
  | final hk hpending => exact ⟨_, _, _, rfl, hpending, hk, .refl _⟩
  | behind hk hpending hflag hne =>
    rw [← hk.length] at hd
    refine ⟨_, _, _, rfl, hpending, hk, passes_ifFlag hd hflag ?_⟩
    rw [if_neg hne]
    exact passes_skip hd (.refl _)

theorem passes_rethrow {e : Exc} {site : Site} (output : List Output)
    (h : Matches (.final (some (e, site)) :: k) control scopes stack) (hd : d ≤ nesting k + 1) :
    ∃ control' scope scopes', scope.exception = some (e, site) ∧ Matches k control' scopes' stack ∧
      Passes p d 0 ⟨control, scopes, stack, output⟩
        ⟨.run rethrow :: .endBlock :: control', scope :: scopes', stack, output⟩ := by
  obtain ⟨control', scope, scopes', rfl, hpending, hk, hpasses⟩ :=
    passes_final (p := p) output h hd
  obtain ⟨hflag, hexc⟩ := hpending
  rw [← hk.length] at hd
  refine ⟨control', scope, scopes', hexc, hk, hpasses.trans (passes_ifFlag (n := 0) hd hflag ?_)⟩
  exact .refl _

theorem rethrow_step {e : Exc} {site : Site} {scope : Scope} {fin' : Option Stmt}
    (output : List Output) (h : Matches k control scopes stack) (hexc : scope.exception = some (e, site))
    (hin : innermost k = some (catches, fin', k')) :
    ∃ t, step (code p) ⟨.run rethrow :: .endBlock :: control, scope :: scopes, stack, output⟩ = some t ∧
      t.scopes.length = nesting k' + 1 := by
  obtain ⟨t, ht, hlength, -⟩ := leads_throw (p := p) output h [scope] (.endBlock :: control) e
    site none hin
  refine ⟨t, ?_, hlength⟩
  simpa [step, exec, hexc] using ht

theorem Agrees.raise {a : Structured.State} {e : Exc} {site : Site} {cause : Option String}
    {rest : List Frame} {fin' : Option Stmt} (h : Agrees a s)
    (hraises : raises a.control = some (e, site, cause, rest))
    (hin : innermost rest = some (catches, fin', k')) (hd : d ≤ nesting a.control) :
    ∃ last t front control inner scopes stack, Passes p d 0 s last ∧
      last.scopes.length = nesting a.control ∧ Throws last ∧ step (code p) last = some t ∧
      t.scopes.length = nesting k' + 1 ∧ last.control = front ++ control ∧
      last.scopes = inner ++ scopes ∧ Matches rest control scopes stack := by
  obtain ⟨frames, _⟩ := a
  obtain ⟨control, scopes, stack, output⟩ := s
  obtain ⟨hframes, rfl⟩ := h
  change raises frames = _ at hraises
  unfold raises at hraises
  split at hraises
  · next e site cause k =>
    cases hraises
    cases hframes with
    | @run _ control _ _ _ hk =>
      obtain ⟨t, ht, hlength, -⟩ := leads_throw (p := p) output hk [] control e site cause hin
      exact ⟨_, t, [.run (.throw e site cause)], control, [], scopes, stack, .refl _, hk.length,
        .inl ⟨e, site, cause, control, rfl⟩, ht, hlength, rfl, rfl, hk⟩
  · next e site k =>
    cases hraises
    obtain ⟨control', scope, scopes', hexc, hk, hpasses⟩ :=
      passes_rethrow (p := p) output hframes hd
    obtain ⟨t, ht, hlength⟩ := rethrow_step (p := p) output hk hexc hin
    exact ⟨_, t, [.run rethrow, .endBlock], control', [scope], scopes', stack, hpasses,
      congrArg (· + 1) hk.length, .inr ⟨_, rfl⟩, ht, hlength, rfl, rfl, hk⟩
  · cases hraises

theorem passes_done {pending : Option (Exc × Site)} (output : List Output)
    (hout : pending = none ∨ innermost k = none)
    (h : Matches (.final pending :: k) control scopes stack) :
    ∃ control' scope scopes' output', Matches k control' scopes' stack ∧
      Passes p (nesting k + 1) 0 ⟨control, scopes, stack, output⟩
        ⟨.endBlock :: control', scope :: scopes', stack, output'⟩ := by
  obtain ⟨control', scope, scopes', rfl, hpending, hk, hpasses⟩ :=
    passes_final (p := p) output h (Nat.le_refl _)
  have hd : nesting k + 1 ≤ scopes'.length + 1 := Nat.le_of_eq (by rw [hk.length])
  suffices hend : ∃ output', Passes p (nesting k + 1) 0
      ⟨.run rethrowIfThrown :: .endBlock :: control', scope :: scopes', stack, output⟩
      ⟨.endBlock :: control', scope :: scopes', stack, output'⟩ by
    obtain ⟨output', hend⟩ := hend
    exact ⟨control', scope, scopes', output', hk, hpasses.trans hend⟩
  cases pending with
  | none =>
    obtain ⟨flag, hflag, hne⟩ := hpending
    refine ⟨output, passes_ifFlag hd hflag ?_⟩
    rw [if_neg hne]
    exact passes_skip hd (.refl _)
  | some raised =>
    obtain ⟨e, site⟩ := raised
    obtain ⟨hflag, hexc⟩ := hpending
    obtain rfl := hk.stack_none (hout.resolve_left nofun)
    refine ⟨output ++ [.print e none site], passes_ifFlag hd hflag ?_⟩
    rw [if_pos rfl]
    refine passes_step hd rfl ?_ (.refl _)
    simp [step, exec, hexc, ntyExceptionThrow]

theorem Leaving.leaves {a : Structured.State} (h : Leaving fin k a.control n) (hagrees : Agrees a s) :
    ∃ last t, Passes p (nesting k + 1) 0 s last ∧ nesting k < last.scopes.length ∧
      step (code p) last = some t ∧ t.scopes.length ≤ nesting k ∧
      (n = 1 ↔ ¬(Throws last ∧ InHandler fin (nesting k) last)) := by
  obtain ⟨frames, _⟩ := a
  obtain ⟨control, scopes, stack, output⟩ := s
  cases h with
  | done hout =>
    obtain ⟨hframes, rfl⟩ := hagrees
    obtain ⟨control', scope, scopes', output', hk, hpasses⟩ :=
      passes_done (p := p) output hout hframes
    refine ⟨_, _, hpasses, ?_, rfl, Nat.le_of_eq hk.length, iff_of_true rfl ?_⟩
    · exact Nat.lt_succ_of_le (Nat.le_of_eq hk.length.symm)
    · rintro ⟨⟨_, _, _, _, hthrow⟩ | ⟨_, hthrow⟩, -⟩ <;> cases hthrow
  | handler hraises hin hout =>
    have hlt : nesting k < nesting frames := nesting_lt_of_raises hraises rfl
    obtain ⟨last, t, front, control', inner, scopes', stack', hpasses, hlength, hthrows, hstep, ht,
      hcontrol, hscopes, hrest⟩ := hagrees.raise (p := p) hraises hin hlt
    have hlast : nesting k < last.scopes.length := hlength ▸ hlt
    refine ⟨last, t, hpasses, hlast, hstep, by omega, iff_of_false nofun (not_not_intro ?_)⟩
    exact ⟨hthrows, hrest.inHandler hcontrol hscopes⟩
  | final hraises hin hout =>
    have hlt : nesting k < nesting frames := nesting_lt_of_raises hraises rfl
    obtain ⟨last, t, front, control', inner, scopes', stack', hpasses, hlength, -, hstep, ht,
      hcontrol, hscopes, hrest⟩ := hagrees.raise (p := p) hraises hin hlt
    have hlast : nesting k < last.scopes.length := hlength ▸ hlt
    refine ⟨last, t, hpasses, hlast, hstep, by omega, iff_of_true rfl ?_⟩
    exact fun ⟨_, hhandler⟩ => hrest.not_inHandler hcontrol hhandler
  | pending hin hout =>
    obtain ⟨hframes, rfl⟩ := hagrees
    obtain ⟨control', scope, scopes', hexc, hk, hpasses⟩ :=
      passes_rethrow (p := p) output hframes (Nat.le_refl _)
    obtain ⟨t, ht, hlength⟩ := rethrow_step (p := p) output hk hexc hin
    refine ⟨_, t, hpasses, ?_, ht, by omega, iff_of_true rfl ?_⟩
    · exact Nat.lt_succ_of_le (Nat.le_of_eq hk.length.symm)
    · exact fun ⟨_, hhandler⟩ => not_inHandler (c := rethrow) (List.nil_append _).symm hk.blocks_eq
        nofun hhandler

-- ---------------------------------------------------------------------------
-- The whole statement
-- ---------------------------------------------------------------------------

/-- By induction on what is left of the run, a step of the structured machine at a time. -/
theorem count_iff {a : Structured.State} (hagrees : Agrees a s)
    (hphase : Phase catches fin k a.control n) (hvisits : Visits (step (code p)) l s last)
    (hinside : ∀ c ∈ l, nesting k < c.scopes.length) (hlast : nesting k < last.scopes.length)
    (hstep : step (code p) last = some t) (hout : t.scopes.length ≤ nesting k) :
    n + l.countP (beginsFinally (nesting k + 1)) = 1 ↔
      ¬(Throws last ∧ InHandler fin (nesting k) last) := by
  induction hl : l.length using Nat.strong_induction_on generalizing s a n l with
  | _ length ih =>
    have hnot : ¬nesting k < t.scopes.length := Nat.not_lt.mpr hout
    cases hnext : Structured.step p a with
    | none =>
      have hlt := hphase.nesting_lt
      rw [step_eq_none hnext] at hlt
      cases hlt
    | some b =>
      obtain hleaving | hstay := hphase.next hnext
      · obtain ⟨last', t', ⟨l', hl', hdepth, hcount⟩, hlast', hstep', hout', hiff⟩ :=
          hleaving.leaves hagrees
        obtain ⟨later, rfl, hlater⟩ := hl'.rest hdepth hlast' hvisits hstep hnot
        have hend : later = [] ∧ last = last' := hlater.eq_of_leaves hstep' (Nat.not_lt.mpr hout')
          (fun c hc => hinside c (List.mem_append_right _ hc)) hlast
        obtain ⟨rfl, rfl⟩ := hend
        rw [List.append_nil, hcount, Nat.add_zero]
        exact hiff
      · have hd : nesting k + 1 ≤ nesting a.control := hphase.nesting_lt
        have hd' : nesting k + 1 ≤ nesting b.control := hstay.nesting_lt
        obtain ⟨s', hs', c, hc, l', hl', hdepth, hcount⟩ := leads_next hagrees hnext hd hd'
        have hpath : ∀ x ∈ s :: l', nesting k < x.scopes.length := by
          intro x hx
          obtain rfl | hx := List.mem_cons.mp hx
          · exact hagrees.length ▸ hd
          · exact hdepth x hx
        obtain ⟨later, rfl, hlater⟩ := (Visits.cons hs' hl').rest hpath (hc.length ▸ hd') hvisits hstep
          hnot
        have hshorter : later.length < length := by
          rw [← hl, List.length_append, List.length_cons]
          omega
        have hrest := ih later.length hshorter hc hstay hlater
          (fun x hx => hinside x (List.mem_append_right _ hx)) rfl
        rw [← hrest, List.countP_append, List.countP_cons_of_neg (by simp [hagrees.quiet]), hcount,
          Nat.add_assoc]

/-- `Finally` runs once, unless a handler throws to an enclosing `Try`. -/
theorem finally_once_iff (p : Fn → Stmt) (body : Stmt) (catches : Catches) (fin : Stmt)
    (output : List Output) (h : Matches k control scopes stack)
    (hrun : Execution (code p)
      ⟨.run (expand (.tryFinally body catches fin)) :: control, scopes, stack, output⟩ l last) :
    finallyCount ⟨.run (expand (.tryFinally body catches fin)) :: control, scopes, stack, output⟩ l = 1 ↔
      ¬(Throws last ∧ InHandler fin scopes.length last) := by
  obtain ⟨hvisits, hinside, hlast, t, hstep, hout⟩ := hrun
  have hphase : Phase catches fin k (.run body :: .body catches (some fin) :: k) 0 :=
    ⟨[.run body], _, rfl, .body⟩
  obtain ⟨s, hs, c, hc, l', hl', hdepth, hcount⟩ := leads_try (p := p) output h body
    catches (some fin) (Nat.le_refl _)
  have hinner : scopes.length < c.scopes.length := by
    rw [h.length, hc.length]
    exact hphase.nesting_lt
  cases hvisits with
  | cons hs' hvisits =>
    cases hs.symm.trans hs'
    obtain ⟨later, rfl, hlater⟩ := hl'.rest hdepth hinner hvisits hstep (Nat.not_lt.mpr hout)
    have hafter : ∀ x ∈ later, scopes.length < x.scopes.length := fun x hx =>
      hinside x (List.mem_append_right _ hx)
    simp only [h.length] at hafter hlast hout hcount ⊢
    rw [← count_iff hc hphase hlater hafter hlast hstep hout, finallyCount, List.countP_append]
    simp only [h.length, hcount]

/-- `Try { Throw(A) } Catch(A) { 1 } Finally { 3 } EndTry` -/
def handled : Stmt :=
  .tryFinally (.throw 10 ⟨"main", "try-catch.c", 1⟩ (some "call A")) (.cons 10 (.act 1) .nil) (.act 3)

theorem finally_once_iff_handled : ∃ (l : List State) (last : State),
    finallyCount ⟨[.run (expand handled)], [], none, []⟩ l = 1 ∧ last.output = [.act 1, .act 3] := by
  have hrun : ∃ l last, Execution (code fun _ => .skip) ⟨[.run (expand handled)], [], none, []⟩ l last ∧
      last.control = [.endBlock] ∧ last.output = [.act 1, .act 3] := by
    refine ⟨_, _, ⟨.cons rfl <| .cons rfl <| .cons rfl <| .cons rfl <| .cons rfl <| .cons rfl <|
      .cons rfl <| .cons rfl <| .cons rfl <| .cons rfl <| .cons rfl <| .cons rfl <| .cons rfl <|
      .cons rfl <| .cons rfl <| .cons rfl <| .cons rfl <| .cons rfl <| .cons rfl <| .cons rfl <|
      .cons rfl <| .cons rfl <| .cons rfl <| .cons rfl <| .cons rfl <| .cons rfl <| .cons rfl <|
      .cons rfl <| .nil _, ?_, ?_, ?_⟩, ?_, ?_⟩
    · decide
    · decide
    · exact ⟨_, rfl, by decide⟩
    · rfl
    · rfl
  obtain ⟨l, last, hrun, hcontrol, houtput⟩ := hrun
  refine ⟨l, last, (finally_once_iff _ _ _ _ [] .nil hrun).mpr ?_, houtput⟩
  rintro ⟨⟨_, _, _, _, hthrow⟩ | ⟨_, hthrow⟩, -⟩ <;> rw [hcontrol] at hthrow <;> cases hthrow

def rethrown : Stmt :=
  .tryFinally (.throw 10 ⟨"main", "try-catch.c", 1⟩ (some "call A"))
    (.cons 10 (.throw 20 ⟨"main", "try-catch.c", 2⟩ (some "call B")) .nil) (.act 3)

/-- In the body of a `Try` with a `Catch(B)`. -/
theorem finally_skipped : ¬ ∀ s l last control,
    Reaches (step (code fun _ => .skip))
      ⟨[.run (expand (.tryEnd rethrown (.cons 20 (.act 2) .nil)))], [], none, []⟩ s →
    s.control = .run (expand rethrown) :: control →
    Execution (code fun _ => .skip) s l last → finallyCount s l = 1 := by
  intro h
  have hrun : ∃ s l last control, Visits (step (code fun _ => .skip)) l
      ⟨[.run (expand (.tryEnd rethrown (.cons 20 (.act 2) .nil)))], [], none, []⟩ s ∧
      s.control = .run (expand rethrown) :: control ∧
      ∃ l', Execution (code fun _ => .skip) s l' last ∧ finallyCount s l' = 0 := by
    refine ⟨_, _, _, _, .cons rfl <| .cons rfl <| .cons rfl <| .cons rfl <| .cons rfl <| .cons rfl <|
      .cons rfl <| .cons rfl <| .nil _, rfl, _, ⟨.cons rfl <| .cons rfl <| .cons rfl <| .cons rfl <|
      .cons rfl <| .cons rfl <| .cons rfl <| .cons rfl <| .cons rfl <| .cons rfl <| .cons rfl <|
      .cons rfl <| .cons rfl <| .cons rfl <| .cons rfl <| .nil _, ?_, ?_, ?_⟩, ?_⟩
    · decide
    · decide
    · exact ⟨_, rfl, by decide⟩
    · decide
  obtain ⟨s, l, last, control, hbefore, hcontrol, l', hexecution, hcount⟩ := hrun
  have hone := h s l' last control hbefore.reaches hcontrol hexecution
  cases hcount.symm.trans hone

end LearningCode.TryCatch
