import Mathlib.Data.List.Perm.Basic
import LearningCode.WrapTimer.Expire

/-!
# Timers whose handlers add and cancel timers

`expire_timer` reads the top, runs its handler, pops whatever is on top then and frees
the entry it has read. A script says what the handlers call, one list of calls for each
handler in the order they are run; when it is used up they call nothing.
-/

namespace LearningCode.WrapTimer.Mh.Reentrant

open MinHeap

variable {s s' s₁ s₂ : Heap} {cur : BitVec 32} {e te x : Ptr} {c : Call} {calls : List Call}
  {script : List (List Call)} {log during : List Event}

/-- A call with what it is answered: `te` by `malloc`, `now` by `current_time`, `granted`
by `realloc`. -/
inductive Call
  | add (te : Ptr) (msec now : BitVec 32) (granted : Bool)
  | del (e : Ptr)
  deriving DecidableEq

inductive Event
  | ran (te : Ptr)
  | added (te : Ptr)
  | cancelled (e : Ptr)
  | popped (e : Ptr)
  | freed (te : Ptr)
  deriving DecidableEq

def delTimer (s : Heap) (e : Ptr) : Option (Heap × Bool) :=
  (minHeapErase s e).map fun r => (r.1, r.2 = 0)

def Call.run (s : Heap) : Call → Option (Heap × List Event)
  | .add te msec now granted =>
    (addTimer s te msec now granted).map fun r => (r.1, r.2.toList.map .added)
  | .del e => (delTimer s e).map fun r => (r.1, if r.2 then [.cancelled e] else [])

def runHandler (s : Heap) : List Call → Option (Heap × List Event)
  | [] => some (s, [])
  | c :: calls => do
    let (s, first) ← c.run s
    let (s, log) ← runHandler s calls
    some (s, first ++ log)

/-- The loop of `expire_timer`, with a record of what it does. -/
def expireTimer : (turns : Nat) → Heap → (cur : BitVec 32) → (script : List (List Call)) →
    Option (Heap × List Event)
  | 0, _, _, _ => none
  | turns + 1, s, cur, script => do
    match ← minHeapTop s with
    | none => some (s, [])
    | some te =>
      if time s te > cur then some (s, [])
      else do
        let (s, during) ← runHandler s (script.headD [])
        let (s, e) ← minHeapPop s
        let (s, log) ← expireTimer turns s cur script.tail
        some (s, .ran te :: (during ++ (e.toList.map .popped ++ .freed te :: log)))

-- --------------------------------------------------------------------------
-- What is said about a call
-- --------------------------------------------------------------------------

def ran (log : List Event) : List Ptr := log.filterMap fun | .ran te => some te | _ => none
def added (log : List Event) : List Ptr := log.filterMap fun | .added te => some te | _ => none
def cancelled (log : List Event) : List Ptr := log.filterMap fun | .cancelled e => some e | _ => none
def popped (log : List Event) : List Ptr := log.filterMap fun | .popped e => some e | _ => none
def freed (log : List Event) : List Ptr := log.filterMap fun | .freed te => some te | _ => none

/-- The timers popped and those freed are the timers whose handler was run, each once,
and every other timer that was not cancelled is still there. -/
structure Exact (s s' : Heap) (log : List Event) : Prop where
  once : (ran log).Nodup
  popped : (popped log).Perm (ran log)
  freed : (freed log).Perm (ran log)
  left : ∀ x, Held s' x ↔ (Held s x ∨ x ∈ added log) ∧ x ∉ ran log ∧ x ∉ cancelled log

def Due (cur : BitVec 32) (s : Heap) (te : Ptr) : Prop :=
  minHeapTop s = some (some te) ∧ ¬ time s te > cur

/-- `P` holds of the heap, the timer and the calls of its handler at the start of each turn. -/
def EachTurn (P : Heap → Ptr → List Call → Prop) (cur : BitVec 32) : List (List Call) → Heap → Prop
  | [], _ => True
  | calls :: script, s => ∀ te, Due cur s te → P s te calls ∧
      ∀ s₁ log s₂ e, runHandler s calls = some (s₁, log) → minHeapPop s₁ = some (s₂, e) →
        EachTurn P cur script s₂

def Legal (s : Heap) : List Call → Prop
  | [] => True
  | c :: calls => (∀ e, c = .del e → Held s e) ∧
      ∀ s₁ log, c.run s = some (s₁, log) → Legal s₁ calls

def BackOnTop (s : Heap) (te : Ptr) (calls : List Call) : Prop :=
  ∀ s₁ log, runHandler s calls = some (s₁, log) → minHeapTop s₁ = some (some te)

def SparesItself (_ : Heap) (te : Ptr) (calls : List Call) : Prop := .del te ∉ calls

def adds (calls : List Call) : List Ptr :=
  calls.filterMap fun | .add te _ _ _ => some te | .del _ => none

/-- Any heap in order, and any handlers. A pointer names one answer of `malloc`: a block that is
handed out again after its `free` has another name, and no freed timer is looked at again. -/
structure Pending (s : Heap) (cur : BitVec 32) (script : List (List Call)) : Prop where
  inOrder : InOrder s
  times : ∀ x, Held s x → (s.entry x).time < 2 ^ 32
  fresh : ∀ te ∈ script.flatMap adds, ¬ Held s te
  distinct : (script.flatMap adds).Nodup
  legal : EachTurn (fun s _ calls => Legal s calls) cur script s
  room : s.n + (script.flatMap adds).length < 2 ^ 31

def NonWrapping (cur : BitVec 32) (script : List (List Call)) : Prop :=
  ∀ calls ∈ script, ∀ te msec now granted, Call.add te msec now granted ∈ calls →
    cur ≤ now ∧ now.toNat + msec.toNat < 2 ^ 32

-- --------------------------------------------------------------------------
-- What a handler does to the heap
-- --------------------------------------------------------------------------

structure Handled (s s' : Heap) (calls : List Call) (log : List Event) : Prop where
  inOrder : InOrder s'
  times : ∀ x, Held s' x → (s'.entry x).time < 2 ^ 32
  n : s'.n ≤ s.n + (adds calls).length
  held : ∀ x, Held s' x ↔ (Held s x ∨ x ∈ added log) ∧ x ∉ cancelled log
  new : ∀ x ∈ added log, x ∈ adds calls
  cancels : ∀ x, x ∈ cancelled log ↔ .del x ∈ calls
  known : ∀ x ∈ cancelled log, Held s x ∨ x ∈ adds calls
  kept : ∀ x, x ∉ adds calls → (s'.entry x).time = (s.entry x).time
  silent : ran log = [] ∧ popped log = [] ∧ freed log = []

theorem Handled.nil (h : InOrder s) (htime : ∀ x, Held s x → (s.entry x).time < 2 ^ 32) :
    Handled s s [] [] where
  inOrder := h
  times := htime
  n := Nat.le_add_right _ _
  held x := by simp [added, cancelled]
  new _ hx := absurd hx List.not_mem_nil
  cancels x := by simp [cancelled]
  known _ hx := absurd hx List.not_mem_nil
  kept _ _ := rfl
  silent := ⟨rfl, rfl, rfl⟩

theorem add_handled (h : InOrder s) (htime : ∀ x, Held s x → (s.entry x).time < 2 ^ 32)
    (hroom : s.n < 2 ^ 32 - 1) (hte : ¬ Held s te) (msec now : BitVec 32) (granted : Bool) :
    ∃ s' log, (Call.add te msec now granted).run s = some (s', log) ∧
      Handled s s' [.add te msec now granted] log := by
  -- the entry is written before it goes into the heap
  let g : Heap := { s with entry := Function.update s.entry te ⟨(now + msec).toNat, 0⟩ }
  have hg : InOrder g := h.write hte _
  have hgtime (x : Ptr) (hx : Held s x ∨ x = te) : (g.entry x).time < 2 ^ 32 := by
    by_cases hxe : x = te
    · subst hxe
      simp only [g, Function.update_self]
      exact BitVec.isLt _
    · simp only [g, Function.update_of_ne hxe]
      exact htime x (hx.resolve_right hxe)
  have hkept (x : Ptr) (hx : x ∉ adds [.add te msec now granted]) :
      (g.entry x).time = (s.entry x).time := by
    have hxe : x ≠ te := fun heq => hx (heq ▸ List.mem_singleton_self te)
    simp only [g, Function.update_of_ne hxe]
  rcases push_spec granted hg hroom (show ¬ Held g te from hte) with hpush | ⟨s', hpush, hadd⟩
  · refine ⟨g, [], ?_, hg, fun x hx => hgtime x (.inl hx), Nat.le_add_right _ _, fun x => ?_,
      List.forall_mem_nil _, fun x => ?_, List.forall_mem_nil _, hkept, rfl, rfl, rfl⟩
    · rw [Call.run, addTimer, hpush]
      rfl
    · rw [show added [] = [] from rfl, or_iff_left List.not_mem_nil]
      exact (and_iff_left List.not_mem_nil).symm
    · simp [cancelled]
  · refine ⟨s', [.added te], ?_, hadd.inOrder, fun x hx => ?_, hadd.n.le, fun x => ?_, ?_,
      fun x => ?_, List.forall_mem_nil _, fun x hx => (hadd.time x).trans (hkept x hx), rfl, rfl, rfl⟩
    · rw [Call.run, addTimer, hpush]
      rfl
    · rw [hadd.time]
      exact hgtime x ((hadd.held x).mp hx)
    · rw [hadd.held, show added [.added te] = [te] from rfl, List.mem_singleton]
      exact (and_iff_left List.not_mem_nil).symm
    · exact fun x hx => hx
    · simp [cancelled]

theorem del_handled (h : InOrder s) (htime : ∀ x, Held s x → (s.entry x).time < 2 ^ 32)
    (hroom : s.n < 2 ^ 31) (he : Held s e) :
    ∃ s' log, (Call.del e).run s = some (s', log) ∧ Handled s s' [.del e] log := by
  obtain ⟨s', herase, hrem⟩ := erase_spec h he hroom
  have hn := hrem.n
  refine ⟨s', [.cancelled e], ?_, hrem.inOrder, fun x hx => ?_, by omega, fun x => ?_, nofun,
    fun x => ?_, fun x hx => ?_, fun x _ => hrem.time x, rfl, rfl, rfl⟩
  · rw [Call.run, delTimer, herase]
    rfl
  · rw [hrem.time]
    exact htime x ((hrem.held x).mp hx).1
  · rw [hrem.held]
    simp [added, cancelled]
  · simp [cancelled]
  · obtain rfl : x = e := by simpa [cancelled] using hx
    exact .inl he

theorem adds_cons (c : Call) (calls : List Call) : adds (c :: calls) = adds [c] ++ adds calls := by
  rw [adds, ← List.singleton_append, List.filterMap_append]
  rfl

theorem Handled.trans {log₁ log₂ : List Event} (h₁ : Handled s s₁ [c] log₁)
    (h₂ : Handled s₁ s' calls log₂) (hnew : ∀ x ∈ adds calls, ¬ Held s x ∧ x ∉ adds [c]) :
    Handled s s' (c :: calls) (log₁ ++ log₂) := by
  have hadds := adds_cons c calls
  have hsplit (f : Event → Option Ptr) :
      (log₁ ++ log₂).filterMap f = log₁.filterMap f ++ log₂.filterMap f := List.filterMap_append
  refine ⟨h₂.inOrder, h₂.times, ?_, fun x => ?_, fun x hx => ?_, fun x => ?_, fun x hx => ?_,
    fun x hx => ?_, ?_⟩
  · have := h₁.n
    have := h₂.n
    rw [hadds, List.length_append]
    omega
  · -- what is added later has not been cancelled before
    have hlater : x ∈ added log₂ → x ∉ cancelled log₁ := fun hx hc => by
      have hfresh := hnew x (h₂.new x hx)
      exact (h₁.known x hc).elim hfresh.1 hfresh.2
    rw [h₂.held, h₁.held]
    simp only [added, cancelled, hsplit, List.mem_append] at hlater ⊢
    grind
  · rw [added, hsplit] at hx
    rw [hadds]
    exact List.mem_append.mpr ((List.mem_append.mp hx).imp (h₁.new x) (h₂.new x))
  · rw [cancelled, hsplit, List.mem_append, List.mem_cons]
    exact or_congr ((h₁.cancels x).trans List.mem_singleton) (h₂.cancels x)
  · rw [cancelled, hsplit] at hx
    rw [hadds, List.mem_append]
    rcases List.mem_append.mp hx with hx | hx
    · exact (h₁.known x hx).imp_right .inl
    · rcases h₂.known x hx with hheld | hnew
      · exact ((h₁.held x).mp hheld).1.imp_right fun ha => .inl (h₁.new x ha)
      · exact .inr (.inr hnew)
  · rw [hadds, List.mem_append, not_or] at hx
    rw [h₂.kept x hx.2, h₁.kept x hx.1]
  · have h₁s := h₁.silent
    have h₂s := h₂.silent
    simp only [ran, popped, freed] at h₁s h₂s
    simp only [ran, popped, freed, hsplit, h₁s, h₂s, List.append_nil, and_self]

theorem call_handled (h : InOrder s) (htime : ∀ x, Held s x → (s.entry x).time < 2 ^ 32)
    (hroom : s.n + (adds [c]).length < 2 ^ 31) (hfresh : ∀ te ∈ adds [c], ¬ Held s te)
    (hlegal : ∀ e, c = .del e → Held s e) :
    ∃ s' log, c.run s = some (s', log) ∧ Handled s s' [c] log := by
  cases c with
  | add te msec now granted =>
    exact add_handled h htime (by omega) (hfresh te (by simp [adds])) msec now granted
  | del e => exact del_handled h htime (by omega) (hlegal e rfl)

theorem adds_new (hfresh : ∀ x ∈ adds (c :: calls), ¬ Held s x) (hnd : (adds (c :: calls)).Nodup) :
    (∀ x ∈ adds [c], ¬ Held s x) ∧ (∀ x ∈ adds calls, ¬ Held s x ∧ x ∉ adds [c]) ∧
      (adds calls).Nodup := by
  rw [adds_cons] at hfresh hnd
  exact ⟨fun x hx => hfresh x (List.mem_append_left _ hx),
    fun x hx => ⟨hfresh x (List.mem_append_right _ hx),
      fun hc => (List.disjoint_of_nodup_append hnd) hc hx⟩,
    List.Nodup.of_append_right hnd⟩

theorem Handled.fresh (h : Handled s s' calls log) (hx : ¬ Held s x ∧ x ∉ adds calls) :
    ¬ Held s' x := fun hheld => by
  rcases ((h.held x).mp hheld).1 with hold | hadded
  · exact hx.1 hold
  · exact hx.2 (h.new x hadded)

theorem runHandler_handled (h : InOrder s) (htime : ∀ x, Held s x → (s.entry x).time < 2 ^ 32)
    (hroom : s.n + (adds calls).length < 2 ^ 31) (hfresh : ∀ te ∈ adds calls, ¬ Held s te)
    (hnd : (adds calls).Nodup) (hlegal : Legal s calls) :
    ∃ s' log, runHandler s calls = some (s', log) ∧ Handled s s' calls log := by
  induction calls generalizing s with
  | nil => exact ⟨s, [], rfl, .nil h htime⟩
  | cons c calls ih =>
    obtain ⟨hfresh₁, hnew, hnd'⟩ := adds_new hfresh hnd
    rw [adds_cons, List.length_append] at hroom
    obtain ⟨s₁, first, hrun, hfirst⟩ := call_handled h htime (by omega) hfresh₁ hlegal.1
    have hn := hfirst.n
    obtain ⟨s', log, hrest, hlog⟩ := ih hfirst.inOrder hfirst.times (by omega)
      (fun x hx => hfirst.fresh (hnew x hx)) hnd' (hlegal.2 s₁ first hrun)
    refine ⟨s', first ++ log, ?_, hfirst.trans hlog hnew⟩
    rw [runHandler, hrun]
    show (runHandler s₁ calls).bind _ = _
    rw [hrest]
    rfl

end LearningCode.WrapTimer.Mh.Reentrant
