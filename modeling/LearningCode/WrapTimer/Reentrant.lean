import LearningCode.MinHeap.Root
import LearningCode.WrapTimer.Handlers

/-!
# One call of `expire_timer` with such handlers

A turn pops what is on top after the handler, so that everything rests on the timer that
was fired being on top again.
-/

namespace LearningCode.WrapTimer.Mh.Reentrant

open MinHeap

variable {s s' s₁ s₂ : Heap} {cur : BitVec 32} {e te x : Ptr} {c : Call} {calls : List Call}
  {script : List (List Call)} {log during : List Event}

-- --------------------------------------------------------------------------
-- One turn
-- --------------------------------------------------------------------------

theorem adds_split (script : List (List Call)) :
    script.flatMap adds = adds (script.headD []) ++ script.tail.flatMap adds := by
  cases script with
  | nil => rfl
  | cons calls script => rfl

theorem eachTurn_idle {P : Heap → Ptr → List Call → Prop} (h : ∀ te, ¬ Due cur s te) :
    EachTurn P cur script s := by
  cases script with
  | nil => trivial
  | cons calls script => exact fun te hdue => absurd hdue (h te)

theorem Due.unique (h : Due cur s te) (h' : Due cur s x) : x = te := by
  have := h.1.symm.trans h'.1
  simpa using this.symm

theorem Due.backOnTop (h : Due cur s te) : BackOnTop s te [] := by
  intro s₁ log hrun
  obtain ⟨rfl, -⟩ := Prod.mk.inj (Option.some.inj hrun)
  exact h.1

theorem eachTurn_iff {P : Heap → Ptr → List Call → Prop} {o : Option Ptr} (hdue : Due cur s te)
    (hnil : P s te []) (hrun : runHandler s (script.headD []) = some (s₁, during))
    (hpop : minHeapPop s₁ = some (s₂, o)) :
    EachTurn P cur script s ↔ P s te (script.headD []) ∧ EachTurn P cur script.tail s₂ := by
  cases script with
  | nil => exact iff_of_true trivial ⟨hnil, trivial⟩
  | cons calls script =>
    constructor
    · intro h
      obtain ⟨hnow, hnext⟩ := h te hdue
      exact ⟨hnow, hnext s₁ during s₂ o hrun hpop⟩
    · rintro ⟨hnow, hnext⟩ x hx
      obtain rfl := hdue.unique hx
      refine ⟨hnow, fun s₁' log s₂' o' hrun' hpop' => ?_⟩
      obtain ⟨rfl, rfl⟩ := Prod.mk.inj (Option.some.inj (hrun.symm.trans hrun'))
      obtain ⟨rfl, rfl⟩ := Prod.mk.inj (Option.some.inj (hpop.symm.trans hpop'))
      exact hnext

/-- What the pop after the handler of `te` takes out, if anything. -/
inductive Popped (s₁ s₂ : Heap) : Option Ptr → Prop
  | nothing : minHeapTop s₁ = some none → s₂ = s₁ → Popped s₁ s₂ none
  | top {y : Ptr} : minHeapTop s₁ = some (some y) → Held s₁ y → Removed s₁ s₂ y → Popped s₁ s₂ (some y)

theorem pop_popped (h : InOrder s) (hroom : s.n < 2 ^ 31) :
    ∃ s' o, minHeapPop s = some (s', o) ∧ Popped s s' o := by
  rcases Nat.eq_zero_or_pos s.n with hn | hn
  · exact ⟨s, none, pop_empty hn, .nothing (top_empty hn) rfl⟩
  · obtain ⟨s', y, htop, hpop, hy, -, hrem⟩ := top_spec h hn hroom
    exact ⟨s', some y, hpop, .top htop hy hrem⟩

theorem Popped.pending {o : Option Ptr} (hpop : Popped s₁ s₂ o) (h : InOrder s₁) :
    InOrder s₂ ∧ s₂.n + o.toList.length = s₁.n ∧ (∀ x, (s₂.entry x).time = (s₁.entry x).time) ∧
      ∀ x, Held s₂ x ↔ Held s₁ x ∧ x ∉ o := by
  cases hpop with
  | nothing htop heq =>
    subst heq
    exact ⟨h, rfl, fun _ => rfl, fun x => by simp⟩
  | top htop hy hrem =>
    refine ⟨hrem.inOrder, hrem.n, hrem.time, fun x => ?_⟩
    rw [hrem.held, Option.mem_some_iff, eq_comm]

theorem Pending.first (hp : Pending s cur script) (hdue : Due cur s te) :
    s.n + (adds (script.headD [])).length < 2 ^ 31 ∧ (∀ x ∈ adds (script.headD []), ¬ Held s x) ∧
      (adds (script.headD [])).Nodup ∧ Legal s (script.headD []) := by
  have hroom := hp.room
  have hfresh := hp.fresh
  have hnd := hp.distinct
  rw [adds_split] at hroom hfresh hnd
  rw [List.length_append] at hroom
  refine ⟨by omega, fun x hx => hfresh x (List.mem_append_left _ hx), List.Nodup.of_append_left hnd, ?_⟩
  cases script with
  | nil => trivial
  | cons calls script => exact (hp.legal te hdue).1

theorem Pending.later (hp : Pending s cur script) (hx : x ∈ script.tail.flatMap adds) :
    ¬ Held s x ∧ x ∉ adds (script.headD []) := by
  have hfresh := hp.fresh
  have hnd := hp.distinct
  rw [adds_split] at hfresh hnd
  exact ⟨hfresh x (List.mem_append_right _ hx), fun h => (List.disjoint_of_nodup_append hnd) h hx⟩

theorem Pending.turn (hp : Pending s cur script) (hdue : Due cur s te) :
    ∃ s₁ during s₂ o, runHandler s (script.headD []) = some (s₁, during) ∧
      Handled s s₁ (script.headD []) during ∧ minHeapPop s₁ = some (s₂, o) ∧ Popped s₁ s₂ o ∧
      Pending s₂ cur script.tail := by
  obtain ⟨hroom, hfresh, hnd, hlegal⟩ := hp.first hdue
  obtain ⟨s₁, during, hrun, hhandled⟩ :=
    runHandler_handled hp.inOrder hp.times hroom hfresh hnd hlegal
  have hn := hhandled.n
  obtain ⟨s₂, o, hpop, hpopped⟩ := pop_popped hhandled.inOrder (by omega)
  obtain ⟨hord, hn₂, htime, hheld⟩ := hpopped.pending hhandled.inOrder
  have hdistinct := hp.distinct
  have hall := hp.room
  rw [adds_split] at hdistinct hall
  rw [List.length_append] at hall
  refine ⟨s₁, during, s₂, o, hrun, hhandled, hpop, hpopped, hord, fun x hx => ?_, fun x hx hheld₂ => ?_,
    List.Nodup.of_append_right hdistinct, ?_, by omega⟩
  · rw [htime]
    exact hhandled.times x ((hheld x).mp hx).1
  · exact hhandled.fresh (hp.later hx) ((hheld x).mp hheld₂).1
  · exact ((eachTurn_iff hdue trivial hrun hpop).mp hp.legal).2

theorem expireTimer_turn {o : Option Ptr} (hdue : Due cur s te)
    (hrun : runHandler s (script.headD []) = some (s₁, during))
    (hpop : minHeapPop s₁ = some (s₂, o)) (turns : Nat) :
    expireTimer (turns + 1) s cur script = (expireTimer turns s₂ cur script.tail).map fun r =>
      (r.1, .ran te :: (during ++ (o.toList.map .popped ++ .freed te :: r.2))) := by
  rw [expireTimer, hdue.1]
  simp only [Option.bind_eq_bind, Option.bind_some, if_neg hdue.2, hrun, hpop]
  cases expireTimer turns s₂ cur script.tail <;> rfl

/-- With handlers that call nothing it is the loop without handlers. -/
theorem expireTimer_silent (turns : Nat) (s : Heap) :
    (expireTimer turns s cur []).map (fun r => (r.1, ran r.2)) = Mh.expireTimer turns s cur := by
  induction turns generalizing s with
  | zero => rfl
  | succ turns ih =>
    rw [expireTimer, Mh.expireTimer]
    cases htop : minHeapTop s with
    | none => rfl
    | some top =>
      cases top with
      | none => rfl
      | some te =>
        by_cases hlate : time s te > cur
        · simp only [Option.bind_eq_bind, Option.bind_some, if_pos hlate]
          rfl
        · simp only [Option.bind_eq_bind, Option.bind_some, if_neg hlate, List.headD_nil, runHandler]
          cases minHeapPop s with
          | none => rfl
          | some popped =>
            obtain ⟨s₁, o⟩ := popped
            simp only [Option.bind_some, ← ih s₁, List.tail_nil]
            cases expireTimer turns s₁ cur [] with
            | none => rfl
            | some r => cases o <;> rfl

theorem due_or_done (h : InOrder s) (hroom : s.n < 2 ^ 31) (cur : BitVec 32)
    (script : List (List Call)) : (∃ te, Due cur s te ∧ Held s te) ∨ (∀ te, ¬ Due cur s te) ∧
      ∀ turns, expireTimer (turns + 1) s cur script = some (s, []) := by
  rcases Nat.eq_zero_or_pos s.n with hn | hn
  · have htop := top_empty hn
    refine .inr ⟨fun te hdue => ?_, fun turns => ?_⟩
    · cases htop.symm.trans hdue.1
    · rw [expireTimer, htop]
      rfl
  · obtain ⟨-, te, htop, -, hte, -⟩ := top_spec h hn hroom
    by_cases hlate : time s te > cur
    · refine .inr ⟨fun x hdue => ?_, fun turns => ?_⟩
      · have := htop.symm.trans hdue.1
        obtain rfl : te = x := by simpa using this
        exact hdue.2 hlate
      · rw [expireTimer, htop]
        simp only [Option.bind_eq_bind, Option.bind_some, if_pos hlate]
    · exact .inl ⟨te, ⟨htop, hlate⟩, hte⟩

-- --------------------------------------------------------------------------
-- The whole loop
-- --------------------------------------------------------------------------

structure Outcome (cur : BitVec 32) (script : List (List Call)) (s s' : Heap) (log : List Event) :
    Prop where
  known : ∀ x ∈ ran log, Held s x ∨ x ∈ script.flatMap adds
  new : ∀ x ∈ added log, x ∈ script.flatMap adds
  fewer : (popped log).length ≤ (ran log).length
  frees : freed log = ran log
  exact_iff : Exact s s' log ↔ EachTurn BackOnTop cur script s

theorem Outcome.idle (h : ∀ te, ¬ Due cur s te) : Outcome cur script s s [] where
  known := nofun
  new := nofun
  fewer := Nat.le_refl 0
  frees := rfl
  exact_iff := by
    refine iff_of_true ⟨List.nodup_nil, .nil, .nil, fun x => ?_⟩ (eachTurn_idle h)
    simp [added, ran, cancelled]

def turnLog (te : Ptr) (during : List Event) (o : Option Ptr) (log : List Event) : List Event :=
  .ran te :: (during ++ (o.toList.map .popped ++ .freed te :: log))

theorem Handled.record (h : Handled s s₁ calls during) (te : Ptr) (o : Option Ptr)
    (log : List Event) :
    ran (turnLog te during o log) = te :: ran log ∧
      added (turnLog te during o log) = added during ++ added log ∧
      cancelled (turnLog te during o log) = cancelled during ++ cancelled log ∧
      popped (turnLog te during o log) = o.toList ++ popped log ∧
      freed (turnLog te during o log) = te :: freed log := by
  have hsilent := h.silent
  simp only [ran, popped, freed] at hsilent
  cases o <;> simp [turnLog, ran, added, cancelled, popped, freed, hsilent]

theorem Handled.exact_iff (h : Handled s s₁ (script.headD []) during) (hte : Held s te)
    (hfresh : ∀ x ∈ script.tail.flatMap adds, ¬ Held s x ∧ x ∉ adds (script.headD []))
    (hrem : ∀ x, Held s₂ x ↔ Held s₁ x ∧ x ≠ te) (hrest : Outcome cur script.tail s₂ s' log) :
    Exact s s' (turnLog te during (some te) log) ↔ Exact s₂ s' log := by
  obtain ⟨hran, hadded, hcancelled, hpopped, hfreed⟩ := h.record te (some te) log
  have hnot : te ∉ ran log := fun hmem => by
    rcases hrest.known te hmem with hheld | hnew
    · exact ((hrem te).mp hheld).2 rfl
    · exact (hfresh te hnew).1 hte
  -- what is added later is neither `te` nor cancelled by its handler
  have hlater (x : Ptr) (hx : x ∈ added log) : x ≠ te ∧ x ∉ cancelled during := by
    obtain ⟨hnheld, hnadds⟩ := hfresh x (hrest.new x hx)
    exact ⟨fun heq => hnheld (heq ▸ hte), fun hc => (h.known x hc).elim hnheld hnadds⟩
  have hleft (x : Ptr) : ((Held s x ∨ x ∈ added during ++ added log) ∧ x ∉ te :: ran log ∧
      x ∉ cancelled during ++ cancelled log) ↔
      (Held s₂ x ∨ x ∈ added log) ∧ x ∉ ran log ∧ x ∉ cancelled log := by
    have hx := hlater x
    rw [hrem, h.held, List.mem_append, List.mem_append, List.mem_cons]
    grind
  constructor
  · intro hex
    have hperm := hex.popped
    have hleft' := hex.left
    have honce := hex.once
    rw [hran] at honce
    rw [hpopped, hran] at hperm
    simp only [hadded, hran, hcancelled, hleft] at hleft'
    exact ⟨(List.nodup_cons.mp honce).2, hperm.cons_inv, hrest.frees ▸ .refl _, hleft'⟩
  · intro hex
    refine ⟨?_, ?_, ?_, fun x => ?_⟩
    · rw [hran]
      exact List.nodup_cons.mpr ⟨hnot, hex.once⟩
    · rw [hpopped, hran]
      exact hex.popped.cons te
    · rw [hfreed, hran, hrest.frees]
    · rw [hadded, hran, hcancelled, hleft]
      exact hex.left x

/-- A turn that pops something else pops a timer whose handler is never run, or nothing. -/
theorem Handled.not_exact (h : Handled s s₁ (script.headD []) during) {o : Option Ptr}
    (hfresh : ∀ x ∈ script.tail.flatMap adds, ¬ Held s x ∧ x ∉ adds (script.headD []))
    (hpop : Popped s₁ s₂ o) (hne : o ≠ some te) (hrest : Outcome cur script.tail s₂ s' log) :
    ¬ Exact s s' (turnLog te during o log) := by
  obtain ⟨hran, -, -, hpopped, -⟩ := h.record te o log
  intro hex
  have hperm := hex.popped
  rw [hpopped, hran] at hperm
  cases hpop with
  | nothing htop heq =>
    have hlen := hperm.length_eq
    have hfewer := hrest.fewer
    rw [Option.toList_none, List.nil_append, List.length_cons] at hlen
    omega
  | @top y htop hy hrem =>
    have hmem : y ∈ te :: ran log := hperm.subset List.mem_cons_self
    rcases List.mem_cons.mp hmem with rfl | hmem
    · exact hne rfl
    · rcases hrest.known y hmem with hheld | hnew
      · exact ((hrem.held y).mp hheld).2 rfl
      · exact h.fresh (hfresh y hnew) hy

theorem Popped.top_eq {o : Option Ptr} (h : Popped s₁ s₂ o) : minHeapTop s₁ = some o := by
  cases h with
  | nothing htop heq => exact htop
  | top htop hy hrem => exact htop

theorem backOnTop_iff {o : Option Ptr} (hrun : runHandler s calls = some (s₁, during))
    (hpop : Popped s₁ s₂ o) : BackOnTop s te calls ↔ o = some te := by
  constructor
  · intro h
    have := hpop.top_eq.symm.trans (h s₁ during hrun)
    exact Option.some.inj this
  · rintro rfl s₁' log hrun'
    obtain ⟨rfl, rfl⟩ := Prod.mk.inj (Option.some.inj (hrun.symm.trans hrun'))
    exact hpop.top_eq

theorem Popped.less {o : Option Ptr} (h : Popped s₁ s₂ o) (hord : InOrder s₁) (hn : 0 < s.n)
    (hle : s₁.n ≤ s.n + k) : s₂.n < s.n + k := by
  have hcount := (h.pending hord).2.1
  cases h with
  | nothing htop heq =>
    have hempty : s₁.n = 0 := by
      by_contra hne
      rw [minHeapTop, if_pos hne] at htop
      cases hload : load s₁ 0 <;> simp [hload] at htop
    rw [Option.toList_none, List.length_nil] at hcount
    omega
  | top htop hy hrem =>
    rw [Option.toList_some, List.length_singleton] at hcount
    omega

theorem Pending.outcome (hp : Pending s cur script) : ∃ s' log,
    Returns (fun turns => expireTimer turns s cur script) (s', log) ∧
      Outcome cur script s s' log := by
  induction hk : s.n + (script.flatMap adds).length using Nat.strong_induction_on
    generalizing s script with
  | _ k ih =>
    have hroom := hp.room
    rcases due_or_done hp.inOrder (by omega) cur script with ⟨te, hdue, hte⟩ | ⟨hidle, hdone⟩
    · obtain ⟨s₁, during, s₂, o, hrun, hhandled, hpop, hpopped, hp₂⟩ := hp.turn hdue
      obtain ⟨-, -, -, hheld₂⟩ := hpopped.pending hhandled.inOrder
      have hpos : 0 < s.n := by
        obtain ⟨i, hi, -⟩ := hte
        omega
      have hless := hpopped.less hhandled.inOrder hpos hhandled.n
      have hlen : (script.flatMap adds).length =
          (adds (script.headD [])).length + (script.tail.flatMap adds).length := by
        rw [adds_split, List.length_append]
      obtain ⟨s', log, hret, hrest⟩ := ih (s₂.n + (script.tail.flatMap adds).length) (by omega) hp₂ rfl
      obtain ⟨hran, hadded, -, hpoppedLog, hfreed⟩ := hhandled.record te o log
      refine ⟨s', turnLog te during o log, ?_, ?_⟩
      · exact (hret.map fun r => (r.1, turnLog te during o r.2)).turn (expireTimer_turn hdue hrun hpop)
      refine ⟨fun x hx => ?_, fun x hx => ?_, ?_, by rw [hfreed, hran, hrest.frees], ?_⟩
      · rw [adds_split, List.mem_append]
        rw [hran] at hx
        rcases List.mem_cons.mp hx with rfl | hx
        · exact .inl hte
        · rcases hrest.known x hx with hheld | hnew
          · have hheld₁ := ((hheld₂ x).mp hheld).1
            exact ((hhandled.held x).mp hheld₁).1.imp_right fun ha => .inl (hhandled.new x ha)
          · exact .inr (.inr hnew)
      · rw [adds_split, List.mem_append]
        rw [hadded] at hx
        exact (List.mem_append.mp hx).imp (hhandled.new x) (hrest.new x)
      · have hfewer := hrest.fewer
        have hone : o.toList.length ≤ 1 := by cases o <;> simp
        rw [hpoppedLog, hran, List.length_append, List.length_cons]
        omega
      · rw [eachTurn_iff hdue hdue.backOnTop hrun hpop, backOnTop_iff hrun hpopped]
        by_cases ho : o = some te
        · subst ho
          rw [and_iff_right rfl, ← hrest.exact_iff]
          refine hhandled.exact_iff hte (fun x => hp.later) (fun x => ?_) hrest
          rw [hheld₂, Option.mem_some_iff, ne_eq, eq_comm (a := x)]
        · exact iff_of_false (hhandled.not_exact (fun x => hp.later) hpopped ho hrest) fun h => ho h.1
    · exact ⟨s, [], .last hdone, .idle hidle⟩

-- --------------------------------------------------------------------------
-- When the timer comes back on top
-- --------------------------------------------------------------------------

theorem call_root (hs : InOrder s) (hroot : s.p 0 = some te) (hte : Held s te) (hroom : s.n < 2 ^ 31)
    (hfresh : ∀ x ∈ adds [c], ¬ Held s x) (hlegal : ∀ e, c = .del e → Held s e ∧ e ≠ te)
    (hlate : ∀ x msec now granted, c = .add x msec now granted →
      (s.entry te).time ≤ (now + msec).toNat) (hrun : c.run s = some (s', log)) :
    s'.p 0 = some te := by
  cases c with
  | add x msec now granted =>
    obtain ⟨r, hadd, heq⟩ := Option.map_eq_some_iff.mp hrun
    obtain ⟨⟨g, ret⟩, hpush, hadd⟩ := Option.bind_eq_some_iff.mp hadd
    obtain rfl := Option.some.inj hadd
    obtain ⟨rfl, -⟩ := Prod.mk.inj heq
    have hne : te ≠ x := fun heq => hfresh x (by simp [adds]) (heq ▸ hte)
    have hpos : 0 < s.n := by
      obtain ⟨i, hi, -⟩ := hte
      omega
    let g₀ : Heap := { s with entry := Function.update s.entry x ⟨(now + msec).toNat, 0⟩ }
    refine push_root (s := g₀) ⟨hroot, ?_⟩ (show 0 < s.n from hpos) hpush
    simp only [g₀, Function.update_of_ne hne, Function.update_self]
    exact hlate x msec now granted rfl
  | del e =>
    obtain ⟨r, hdel, heq⟩ := Option.map_eq_some_iff.mp hrun
    obtain ⟨⟨g, code⟩, herase, rfl⟩ := Option.map_eq_some_iff.mp hdel
    obtain ⟨rfl, -⟩ := Prod.mk.inj heq
    obtain ⟨he, hne⟩ := hlegal e rfl
    exact erase_root hs hroot he hne hroom herase

theorem runHandler_root (h : InOrder s) (htime : ∀ x, Held s x → (s.entry x).time < 2 ^ 32)
    (hroom : s.n + (adds calls).length < 2 ^ 31) (hfresh : ∀ te ∈ adds calls, ¬ Held s te)
    (hnd : (adds calls).Nodup) (hlegal : Legal s calls) (hroot : s.p 0 = some te) (hte : Held s te)
    (hspares : .del te ∉ calls) (hlate : ∀ x msec now granted, .add x msec now granted ∈ calls →
      (s.entry te).time ≤ (now + msec).toNat) (hrun : runHandler s calls = some (s', log)) :
    s'.p 0 = some te := by
  induction calls generalizing s log with
  | nil =>
    obtain ⟨rfl, -⟩ := Prod.mk.inj (Option.some.inj hrun)
    exact hroot
  | cons c calls ih =>
    obtain ⟨hfresh₁, hnew, hnd'⟩ := adds_new hfresh hnd
    rw [adds_cons, List.length_append] at hroom
    obtain ⟨s₁, first, hcall, hfirst⟩ := call_handled h htime (by omega) hfresh₁ hlegal.1
    have hroot₁ := call_root h hroot hte (by omega) hfresh₁
      (fun e he => ⟨hlegal.1 e he, fun heq => hspares (heq ▸ he ▸ List.mem_cons_self)⟩)
      (fun x msec now granted hc => hlate x msec now granted (hc ▸ List.mem_cons_self)) hcall
    have hn := hfirst.n
    have hte₁ : Held s₁ te := (hfirst.held te).mpr ⟨.inl hte, fun hc =>
      hspares (List.mem_cons.mpr (.inl (List.mem_singleton.mp ((hfirst.cancels te).mp hc))))⟩
    have hkept := hfirst.kept te fun hc => hfresh₁ te hc hte
    rw [runHandler, hcall] at hrun
    obtain ⟨⟨s₂, log₂⟩, hrest, heq⟩ := Option.bind_eq_some_iff.mp
      (show (runHandler s₁ calls).bind (fun r => some (r.1, first ++ r.2)) = some (s', log) from hrun)
    obtain ⟨rfl, -⟩ := Prod.mk.inj (Option.some.inj heq)
    refine ih hfirst.inOrder hfirst.times (by omega) (fun x hx => hfirst.fresh (hnew x hx)) hnd'
      (hlegal.2 s₁ first hcall) hroot₁ hte₁ (fun hc => hspares (List.mem_cons_of_mem c hc))
      (fun x msec now granted hc => ?_) hrest
    rw [hkept]
    exact hlate x msec now granted (List.mem_cons_of_mem c hc)

theorem top_of_root (h : InOrder s) (hn : 0 < s.n) (hroot : s.p 0 = some te) :
    minHeapTop s = some (some te) := by
  have hroom := h.room
  rw [minHeapTop, if_pos (Nat.pos_iff_ne_zero.mp hn), load_eq (by omega) hroot]
  rfl

theorem held_of_top (h : minHeapTop s = some (some te)) : Held s te ∧ s.p 0 = some te := by
  unfold minHeapTop at h
  split_ifs at h with hn
  · obtain ⟨q, hload, heq⟩ := Option.map_eq_some_iff.mp h
    obtain rfl := Option.some.inj heq
    exact ⟨⟨0, Nat.pos_of_ne_zero hn, load_some hload⟩, load_some hload⟩
  · simp at h

/-- What is added while the clock does not wrap goes behind the timer that fires. -/
theorem Pending.backOnTop_iff (hp : Pending s cur script) (hdue : Due cur s te)
    (hclock : NonWrapping cur script) :
    BackOnTop s te (script.headD []) ↔ SparesItself s te (script.headD []) := by
  obtain ⟨hte, hroot⟩ := held_of_top hdue.1
  obtain ⟨s₁, during, s₂, o, hrun, hhandled, -, hpopped, -⟩ := hp.turn hdue
  constructor
  · intro h hc
    have hheld := (held_of_top (h s₁ during hrun)).1
    exact ((hhandled.held te).mp hheld).2 ((hhandled.cancels te).mpr hc)
  · intro hspares s₁' log hrun'
    obtain ⟨rfl, rfl⟩ := Prod.mk.inj (Option.some.inj (hrun.symm.trans hrun'))
    obtain ⟨hroom, hfresh, hnd, hlegal⟩ := hp.first hdue
    have hle : (s.entry te).time ≤ cur.toNat := by
      have hnot := hdue.2
      rw [gt_iff_lt, BitVec.lt_def, time, BitVec.toNat_ofNat, Nat.mod_eq_of_lt (hp.times te hte)] at hnot
      exact Nat.le_of_not_lt hnot
    have hlate (x : Ptr) (msec now : BitVec 32) (granted : Bool)
        (hc : .add x msec now granted ∈ script.headD []) :
        (s.entry te).time ≤ (now + msec).toNat := by
      have hmem : script.headD [] ∈ script := by
        cases script with
        | nil => exact absurd hc List.not_mem_nil
        | cons calls script => exact List.mem_cons_self
      obtain ⟨hnow, hsum⟩ := hclock _ hmem x msec now granted hc
      have hnow := BitVec.le_def.mp hnow
      rw [BitVec.toNat_add, Nat.mod_eq_of_lt hsum]
      omega
    have hroot₁ := runHandler_root hp.inOrder hp.times hroom hfresh hnd hlegal hroot hte hspares hlate
      hrun
    obtain ⟨i, hi, -⟩ := (hhandled.held te).mpr ⟨.inl hte, fun hc => hspares ((hhandled.cancels te).mp hc)⟩
    exact top_of_root hhandled.inOrder (by omega) hroot₁

theorem Pending.eachTurn_iff (hp : Pending s cur script) (hclock : NonWrapping cur script) :
    EachTurn BackOnTop cur script s ↔ EachTurn SparesItself cur script s := by
  induction script generalizing s with
  | nil => exact Iff.rfl
  | cons calls script ih =>
    rcases Classical.em (∃ te, Due cur s te) with ⟨te, hdue⟩ | hidle
    · obtain ⟨s₁, during, s₂, o, hrun, -, hpop, -, hp₂⟩ := hp.turn hdue
      rw [Reentrant.eachTurn_iff hdue hdue.backOnTop hrun hpop,
        Reentrant.eachTurn_iff hdue (P := SparesItself) List.not_mem_nil hrun hpop,
        hp.backOnTop_iff hdue hclock]
      exact and_congr_right fun _ => ih hp₂ fun calls hcalls =>
        hclock calls (List.mem_cons_of_mem _ hcalls)
    · have hidle (te : Ptr) : ¬ Due cur s te := fun h => hidle ⟨te, h⟩
      exact iff_of_true (eachTurn_idle hidle) (eachTurn_idle hidle)

/-- A call of `expire_timer` ends. It does what it should if every timer it fires is on
top again after its handler; while the clock does not wrap, that is if no handler
cancels the timer it is run for. -/
theorem expireTimer_exact_iff (hp : Pending s cur script) : ∃ s' log,
    Returns (fun turns => expireTimer turns s cur script) (s', log) ∧
      (Exact s s' log ↔ EachTurn BackOnTop cur script s) ∧
      (NonWrapping cur script → (Exact s s' log ↔ EachTurn SparesItself cur script s)) := by
  obtain ⟨s', log, hret, hout⟩ := hp.outcome
  exact ⟨s', log, hret, hout.exact_iff, fun hclock => hout.exact_iff.trans (hp.eachTurn_iff hclock)⟩

def two : Heap where
  p i := if i = 0 then some 1 else if i = 1 then some 2 else none
  n := 2
  a := 8
  entry x := if x = 1 then ⟨5, 0⟩ else ⟨8, 1⟩

theorem two_held : Held two x ↔ x = 1 ∨ x = 2 := by
  constructor
  · rintro ⟨i, hi, hx⟩
    have hi : i < 2 := hi
    match i with
    | 0 => exact .inl (Option.some.inj hx).symm
    | 1 => exact .inr (Option.some.inj hx).symm
  · rintro (rfl | rfl)
    · exact ⟨0, Nat.two_pos, rfl⟩
    · exact ⟨1, Nat.one_lt_two, rfl⟩

theorem two_inOrder : InOrder two := by
  refine ⟨by decide, by decide, fun i hi => ?_, fun i h0 hi => ?_⟩
  · have hi : i < 2 := hi
    match i with
    | 0 => exact ⟨1, rfl, rfl⟩
    | 1 => exact ⟨2, rfl, rfl⟩
  · have hi : i < 2 := hi
    match i with
    | 1 => decide

theorem two_due : Due 5 two 1 := ⟨rfl, by decide⟩

theorem two_pending (calls : List Call) (hlegal : Legal two calls) (hnew : adds calls ⊆ [3])
    (hnd : (adds calls).Nodup) : Pending two 5 [calls] where
  inOrder := two_inOrder
  times x hx := by
    rcases two_held.mp hx with rfl | rfl <;> decide
  fresh x hx hheld := by
    rw [List.flatMap_singleton] at hx
    obtain rfl := List.mem_singleton.mp (hnew hx)
    exact absurd (two_held.mp hheld) (by decide)
  distinct := by rwa [List.flatMap_singleton]
  legal te hdue := ⟨hlegal, fun _ _ _ _ _ _ => trivial⟩
  room := by
    have hlen := (hnd.subperm hnew).length_le
    rw [List.length_singleton] at hlen
    rw [List.flatMap_singleton]
    show 2 + _ < _
    omega

/-- Cancelling another timer and adding one for this very millisecond is harmless. -/
theorem expireTimer_exact_rearm : ∃ s' log,
    Returns (fun turns => expireTimer turns two 5 [[.del 2, .add 3 0 5 true]]) (s', log) ∧
      Exact two s' log := by
  have hlegal : Legal two [.del 2, .add 3 0 5 true] :=
    ⟨fun e he => Call.del.inj he ▸ two_held.mpr (.inr rfl), fun _ _ _ => ⟨nofun, fun _ _ _ => trivial⟩⟩
  have hclock : NonWrapping 5 [[.del 2, .add 3 0 5 true]] := by
    intro calls hcalls te msec now granted hc
    obtain rfl := List.mem_singleton.mp hcalls
    have := (List.mem_singleton.mp ((List.mem_cons.mp hc).resolve_left nofun))
    injection this with _ hmsec hnow _
    subst hmsec hnow
    decide
  obtain ⟨s', log, hret, -, hiff⟩ := expireTimer_exact_iff
    (two_pending _ hlegal (List.Subset.refl [3]) (List.nodup_singleton 3))
  refine ⟨s', log, hret, (hiff hclock).mpr fun te hdue => ⟨?_, fun _ _ _ _ _ _ => trivial⟩⟩
  obtain rfl := two_due.unique hdue
  exact (by decide : Call.del 1 ∉ [.del 2, .add 3 0 5 true])

/-- Timer 1 cancels itself in its handler; timer 2, not due, is popped in its place. -/
theorem cancels_itself : ¬ ∀ (s : Heap) (cur : BitVec 32) (script : List (List Call)),
    Pending s cur script → NonWrapping cur script → ∃ s' log,
      Returns (fun turns => expireTimer turns s cur script) (s', log) ∧ Exact s s' log := by
  intro h
  have hlegal : Legal two [.del 1] :=
    ⟨fun e he => Call.del.inj he ▸ two_held.mpr (.inl rfl), fun _ _ _ => trivial⟩
  have hp := two_pending _ hlegal (List.nil_subset _) List.nodup_nil
  have hclock : NonWrapping 5 [[.del 1]] := by
    intro calls hcalls te msec now granted hc
    obtain rfl := List.mem_singleton.mp hcalls
    cases List.mem_singleton.mp hc
  obtain ⟨s', log, hret, hexact⟩ := h two 5 [[.del 1]] hp hclock
  obtain ⟨s'', log', hret', hout⟩ := hp.outcome
  obtain ⟨rfl, rfl⟩ := Prod.mk.inj (hret.unique hret')
  have hspares := (hp.eachTurn_iff hclock).mp (hout.exact_iff.mp hexact)
  exact (hspares 1 two_due).1 List.mem_cons_self

end LearningCode.WrapTimer.Mh.Reentrant
