import LearningCode.Lib.Tally
import LearningCode.Lib.Transition
import LearningCode.Deadlock.Hooks

/-!
# One mutex at a time

What the system looks like from one mutex: its entries, its holder and where
the threads stand with it. Every step changes what it looks like from one mutex
only, in one of eight ways.
-/

namespace LearningCode.Deadlock

variable {s s' : State} {u v w : Thread} {m k : Mutex} {e : Pair}

inductive Role
  | out
  | waiting
  | acquired
  | released
  deriving DecidableEq

def Pc.role (m : Mutex) : Pc → Role
  | .idle => .out
  | .waiting k => if k = m then .waiting else .out
  | .acquired k => if k = m then .acquired else .out
  | .released k => if k = m then .released else .out

structure View where
  entries : List Pair
  holder : Option Thread
  role : Thread → Role

def view (s : State) (m : Mutex) : View where
  entries := entries s.tg m
  holder := s.holder m
  role u := (s.pc u).role m

theorem view_role : (view s m).role u = (s.pc u).role m := rfl

def View.Locking (V : View) (u : Thread) : Prop := V.role u = .waiting ∨ V.role u = .acquired

def View.set (V : View) (u : Thread) (r : Role) : View :=
  { V with role := Function.update V.role u r }

def View.enter (V : View) (entries : List Pair) : View := { V with entries := entries }

def View.grant (V : View) (holder : Option Thread) : View := { V with holder := holder }

@[simp] theorem View.set_entries {V : View} : (V.set u r).entries = V.entries := rfl
@[simp] theorem View.set_holder {V : View} : (V.set u r).holder = V.holder := rfl
@[simp] theorem View.set_role_self {V : View} : (V.set u r).role u = r := Function.update_self ..
@[simp] theorem View.set_role_ne {V : View} (h : w ≠ u) : (V.set u r).role w = V.role w :=
  Function.update_of_ne h ..
@[simp] theorem View.enter_entries {V : View} : (V.enter l).entries = l := rfl
@[simp] theorem View.enter_holder {V : View} : (V.enter l).holder = V.holder := rfl
@[simp] theorem View.enter_role {V : View} : (V.enter l).role = V.role := rfl
@[simp] theorem View.grant_entries {V : View} : (V.grant h).entries = V.entries := rfl
@[simp] theorem View.grant_holder {V : View} : (V.grant h).holder = h := rfl
@[simp] theorem View.grant_role {V : View} : (V.grant h).role = V.role := rfl

/-- What a step of `u` on `m` does to the view from `m` and to the edges. -/
inductive Effect (s s' : State) (u : Thread) (m : Mutex) : Prop
  | waitUnknown (unknown : (view s m).entries = []) (out : s.pc u = .idle)
      (seen : view s' m = (view s m).set u .waiting)
      (edges : ∀ a b, Edge s'.tg a b ↔ Edge s.tg a b)
  | wait (e : Pair) (known : (view s m).entries = [e]) (out : s.pc u = .idle)
      (seen : view s' m = ((view s m).set u .waiting).enter [{ e with degress := e.degress + 1 }])
      (edges : ∀ a b, Edge s'.tg a b ↔ Edge s.tg a b ∨ a = u ∧ b = e.thId ∧ u ≠ e.thId)
  | acquire (waiting : (view s m).role u = .waiting) (free : (view s m).holder = none)
      (seen : view s' m = ((view s m).set u .acquired).grant (some u))
      (edges : ∀ a b, Edge s'.tg a b ↔ Edge s.tg a b)
  | register (e : Pair) (unknown : (view s m).entries = []) (acquired : (view s m).role u = .acquired)
      (owner : e.thId = u) (degree : e.degress = 0) (seen : view s' m = ((view s m).set u .out).enter [e])
      (edges : ∀ a b, Edge s'.tg a b ↔ Edge s.tg a b)
  | takeOver (e : Pair) (known : (view s m).entries = [e]) (acquired : (view s m).role u = .acquired)
      (seen : view s' m =
        ((view s m).set u .out).enter [{ e with thId := u, degress := e.degress - 1 }])
      (edges : ∀ a b, Edge s'.tg a b ↔ Edge s.tg a b ∧ ¬ (a = u ∧ b = e.thId))
  | release (out : s.pc u = .idle) (held : (view s m).holder = some u)
      (seen : view s' m = ((view s m).set u .released).grant none)
      (edges : ∀ a b, Edge s'.tg a b ↔ Edge s.tg a b)
  | keep (e : Pair) (known : (view s m).entries = [e]) (degree : e.degress ≠ 0)
      (released : (view s m).role u = .released) (seen : view s' m = (view s m).set u .out)
      (edges : ∀ a b, Edge s'.tg a b ↔ Edge s.tg a b)
  | clear (e : Pair) (known : (view s m).entries = [e]) (degree : e.degress = 0)
      (released : (view s m).role u = .released) (seen : view s' m = ((view s m).set u .out).enter [])
      (edges : ∀ a b, Edge s'.tg a b ↔ Edge s.tg a b)

/-- What no step changes: other mutexes and other threads. -/
structure Local (s s' : State) (u : Thread) (m : Mutex) : Prop where
  sane : Sane s'.tg
  nonzero : m ≠ 0
  other : ∀ k, k ≠ 0 → k ≠ m → view s' k = view s k
  pcOther : ∀ w, w ≠ u → s'.pc w = s.pc w
  pcHere : ∀ k, (s'.pc u).role k ≠ .out → k = m
  holders : ∀ k, k ≠ m → s'.holder k = s.holder k

structure Grounded (s : State) : Prop where
  sane : Sane s.tg
  inUse : ∀ u k, (s.pc u).role k ≠ .out → k ≠ 0
  held : ∀ k v, s.holder k = some v → k ≠ 0

theorem Grounded.local (hs : Grounded s) (hl : Local s s' u m) : Grounded s' := by
  refine ⟨hl.sane, fun w k hw => ?_, fun k v hk => ?_⟩
  · cases Decidable.em (w = u) with
    | inl heq =>
      subst heq
      exact hl.pcHere k hw ▸ hl.nonzero
    | inr hne => exact hs.inUse w k (hl.pcOther w hne ▸ hw)
  · cases Decidable.em (k = m) with
    | inl heq => exact heq ▸ hl.nonzero
    | inr hne => exact hs.held k v (hl.holders k hne ▸ hk)

def Label.thread : Label → Thread
  | .lockBefore u _ | .acquire u _ | .lockAfter u _ | .release u _ | .unlockAfter u _ => u

def Label.mutex : Label → Mutex
  | .lockBefore _ m | .acquire _ m | .lockAfter _ m | .release _ m | .unlockAfter _ m => m

def Due (s : State) : Label → Prop
  | .lockBefore u m => s.pc u = .idle ∧ m ≠ 0
  | .acquire u m => s.pc u = .waiting m ∧ s.holder m = none
  | .lockAfter u m => s.pc u = .acquired m
  | .release u m => s.pc u = .idle ∧ s.holder m = some u
  | .unlockAfter u m => s.pc u = .released m

def InBounds (s : State) : Label → Prop
  | .lockBefore u m => ∀ e ∈ entries s.tg m,
    s.tg.vertexList.length + missing s.tg u e.thId ≤ maxSlots
  | .lockAfter _ m => entries s.tg m = [] → searchEmptyLock s.tg m < maxSlots
  | .unlockAfter _ m => entries s.tg m ≠ []
  | _ => True

theorem due_of_step (h : step s l = some s') : Due s l := by
  cases l with
  | lockBefore u m | acquire u m | lockAfter u m | release u m | unlockAfter u m =>
    refine Classical.not_not.mp fun hnot => ?_
    exact Option.some_ne_none _ (h.symm.trans (if_neg hnot))

theorem step_pc_other (h : step s l = some s') (hu : u ≠ l.thread) : s'.pc u = s.pc u := by
  cases l with
  | lockBefore v m | lockAfter v m | unlockAfter v m =>
    have h := (if_pos (due_of_step h)).symm.trans h
    obtain ⟨tg, -, rfl⟩ := Option.map_eq_some_iff.mp h
    exact Function.update_of_ne hu ..
  | acquire v m | release v m =>
    have h := (if_pos (due_of_step h)).symm.trans h
    cases h
    exact Function.update_of_ne hu ..

@[simp] theorem role_idle : Pc.idle.role k = .out := rfl
@[simp] theorem role_waiting_self : (Pc.waiting m).role m = .waiting := if_pos rfl
@[simp] theorem role_acquired_self : (Pc.acquired m).role m = .acquired := if_pos rfl
@[simp] theorem role_released_self : (Pc.released m).role m = .released := if_pos rfl

theorem Pc.role_iff (p : Pc) (m : Mutex) : (p.role m = .waiting ↔ p = .waiting m) ∧
    (p.role m = .acquired ↔ p = .acquired m) ∧ (p.role m = .released ↔ p = .released m) := by
  cases p with
  | idle => simp
  | waiting k | acquired k | released k =>
    rw [Pc.role]
    split <;> simp_all

theorem role_waiting_iff : (view s m).role u = .waiting ↔ s.pc u = .waiting m :=
  ((s.pc u).role_iff m).1

theorem role_acquired_iff : (view s m).role u = .acquired ↔ s.pc u = .acquired m :=
  ((s.pc u).role_iff m).2.1

theorem role_released_iff : (view s m).role u = .released ↔ s.pc u = .released m :=
  ((s.pc u).role_iff m).2.2

theorem view_at (tg : TaskGraph) (u : Thread) (p : Pc) (k : Mutex) :
    view (s.at tg u p) k = ((view s k).set u (p.role k)).enter (entries tg k) := by
  refine View.mk.injEq .. ▸ ⟨rfl, rfl, funext fun w => ?_⟩
  cases Decidable.em (w = u) with
  | inl heq =>
    subst heq
    simp [State.at, View.set]
  | inr hne => simp [State.at, View.set, view, hne]

theorem View.set_same {V : View} (h : V.role u = r) : V.set u r = V := by
  rw [View.set, ← h, Function.update_eq_self]

def Pc.About (m : Mutex) (p : Pc) : Prop := ∀ k, k ≠ m → p.role k = .out

theorem about_idle : Pc.About m .idle := fun _ _ => rfl
theorem about_waiting : Pc.About m (.waiting m) := fun _ h => if_neg fun h' => h h'.symm
theorem about_acquired : Pc.About m (.acquired m) := fun _ h => if_neg fun h' => h h'.symm
theorem about_released : Pc.About m (.released m) := fun _ h => if_neg fun h' => h h'.symm

theorem local_at (hs : Sane tg) (hm : m ≠ 0) (hbefore : (s.pc u).About m) (hafter : p.About m)
    (hentries : ∀ k, k ≠ 0 → k ≠ m → entries tg k = entries s.tg k) : Local s (s.at tg u p) u m := by
  refine ⟨hs, hm, fun k hk hkm => ?_, fun w hw => Function.update_of_ne hw .., fun k hk => ?_,
    fun _ _ => rfl⟩
  · rw [view_at, hentries k hk hkm, hafter k hkm,
      View.set_same (show (view s k).role u = .out from hbefore k hkm)]
    rfl
  · refine Classical.not_not.mp fun hne => hk ?_
    show ((Function.update s.pc u p) u).role k = .out
    rw [Function.update_self]
    exact hafter k hne

-- ---------------------------------------------------------------------------
-- The eight effects
-- ---------------------------------------------------------------------------

theorem lockBefore_effect (hg : Grounded s) (hdue : Due s (.lockBefore u m))
    (hroom : InBounds s (.lockBefore u m)) :
    ∃ s', step s (.lockBefore u m) = some s' ∧ Local s s' u m ∧ Effect s s' u m := by
  obtain ⟨hidle, hm⟩ := hdue
  have hbefore : (s.pc u).About m := hidle ▸ about_idle
  rcases hg.sane.entry m hm with he | ⟨e, he⟩
  · refine ⟨_, ?_, local_at (p := .waiting m) hg.sane hm hbefore about_waiting fun _ _ _ => rfl,
      .waitUnknown he hidle ?_ fun _ _ => Iff.rfl⟩
    · rw [step, if_pos ⟨hidle, hm⟩, lockBefore_unknown he]
      rfl
    · rw [view_at, role_waiting_self]
      rfl
  · obtain ⟨tg', hhook, hs', hch, hedges⟩ := lockBefore_spec hg.sane hm he
      (hroom e (he ▸ List.mem_singleton_self e))
    refine ⟨_, ?_, local_at (p := .waiting m) hs' hm hbefore about_waiting hch.other,
      .wait e he hidle ?_ hedges⟩
    · rw [step, if_pos ⟨hidle, hm⟩, hhook]
      rfl
    · rw [view_at, role_waiting_self, hch.here]

theorem lockAfter_effect (hg : Grounded s) (hdue : Due s (.lockAfter u m))
    (hroom : InBounds s (.lockAfter u m)) :
    ∃ s', step s (.lockAfter u m) = some s' ∧ Local s s' u m ∧ Effect s s' u m := by
  have hpc : s.pc u = .acquired m := hdue
  have hrole : (view s m).role u = .acquired := by rw [view_role, hpc, role_acquired_self]
  have hm : m ≠ 0 := hg.inUse u m (by rw [hpc, role_acquired_self]; exact Role.noConfusion)
  have hbefore : (s.pc u).About m := hpc ▸ about_acquired
  rcases hg.sane.entry m hm with he | ⟨e, he⟩
  · obtain ⟨tg', e, hhook, hs', hch, howner, hdegree, hedges⟩ := lockAfter_unknown hg.sane hm he
      (hroom he) u
    refine ⟨_, ?_, local_at (p := .idle) hs' hm hbefore about_idle hch.other,
      .register e he hrole howner hdegree ?_ hedges⟩
    · rw [step, if_pos hpc, hhook]
      rfl
    · rw [view_at, role_idle, hch.here]
  · obtain ⟨tg', hhook, hs', hch, hedges⟩ := lockAfter_spec hg.sane hm he u
    refine ⟨_, ?_, local_at (p := .idle) hs' hm hbefore about_idle hch.other,
      .takeOver e he hrole ?_ hedges⟩
    · rw [step, if_pos hpc, hhook]
      rfl
    · rw [view_at, role_idle, hch.here]

theorem unlockAfter_effect (hg : Grounded s) (hdue : Due s (.unlockAfter u m))
    (hroom : InBounds s (.unlockAfter u m)) :
    ∃ s', step s (.unlockAfter u m) = some s' ∧ Local s s' u m ∧ Effect s s' u m := by
  have hpc : s.pc u = .released m := hdue
  have hrole : (view s m).role u = .released := by rw [view_role, hpc, role_released_self]
  have hm : m ≠ 0 := hg.inUse u m (by rw [hpc, role_released_self]; exact Role.noConfusion)
  have hbefore : (s.pc u).About m := hpc ▸ about_released
  obtain ⟨e, he⟩ := (hg.sane.entry m hm).resolve_left hroom
  cases Decidable.em (e.degress = 0) with
  | inl hd =>
    obtain ⟨tg', hhook, hs', hch, hedges⟩ := unlockAfter_clear hg.sane hm he hd u
    refine ⟨_, ?_, local_at (p := .idle) hs' hm hbefore about_idle hch.other,
      .clear e he hd hrole ?_ hedges⟩
    · rw [step, if_pos hpc, hhook]
      rfl
    · rw [view_at, role_idle, hch.here]
  | inr hd =>
    refine ⟨_, ?_, local_at (p := .idle) hg.sane hm hbefore about_idle fun _ _ _ => rfl,
      .keep e he hd hrole ?_ fun _ _ => Iff.rfl⟩
    · rw [step, if_pos hpc, unlockAfter_keep he hd]
      rfl
    · rw [view_at, role_idle]
      rfl

theorem local_grant (hl : Local s s' u m) (h : Option Thread) :
    Local s { s' with holder := Function.update s.holder m h } u m := by
  refine ⟨hl.sane, hl.nonzero, fun k hk hkm => ?_, hl.pcOther, hl.pcHere,
    fun k hkm => Function.update_of_ne hkm ..⟩
  have hholder : Function.update s.holder m h k = s'.holder k :=
    (Function.update_of_ne hkm ..).trans (hl.holders k hkm).symm
  rw [← hl.other k hk hkm]
  show View.mk _ (Function.update s.holder m h k) _ = View.mk _ (s'.holder k) _
  rw [hholder]

theorem acquire_effect (hg : Grounded s) (hdue : Due s (.acquire u m)) :
    ∃ s', step s (.acquire u m) = some s' ∧ Local s s' u m ∧ Effect s s' u m := by
  obtain ⟨hpc, hfree⟩ := hdue
  have hm : m ≠ 0 := hg.inUse u m (by rw [hpc, role_waiting_self]; exact Role.noConfusion)
  have hl := local_at (p := .acquired m) hg.sane hm (hpc ▸ about_waiting) about_acquired
    fun _ _ _ => rfl
  refine ⟨_, if_pos ⟨hpc, hfree⟩, local_grant hl (some u), .acquire ?_ hfree ?_ fun _ _ => Iff.rfl⟩
  · rw [view_role, hpc, role_waiting_self]
  · have := view_at (s := s) s.tg u (.acquired m) m
    rw [role_acquired_self] at this
    exact congrArg₂ (View.mk _) (Function.update_self ..) (congrArg View.role this)

theorem release_effect (hg : Grounded s) (hdue : Due s (.release u m)) :
    ∃ s', step s (.release u m) = some s' ∧ Local s s' u m ∧ Effect s s' u m := by
  obtain ⟨hpc, hheld⟩ := hdue
  have hm : m ≠ 0 := hg.held m u hheld
  have hl := local_at (p := .released m) hg.sane hm (hpc ▸ about_idle) about_released
    fun _ _ _ => rfl
  refine ⟨_, if_pos ⟨hpc, hheld⟩, local_grant hl none, .release hpc hheld ?_ fun _ _ => Iff.rfl⟩
  have := view_at (s := s) s.tg u (.released m) m
  rw [role_released_self] at this
  exact congrArg₂ (View.mk _) (Function.update_self ..) (congrArg View.role this)

/-- A thread that is due and finds room takes its step, with one of the effects. -/
theorem step_effect (hg : Grounded s) (hdue : Due s l) (hroom : InBounds s l) :
    ∃ s', step s l = some s' ∧ Local s s' l.thread l.mutex ∧ Effect s s' l.thread l.mutex := by
  cases l with
  | lockBefore u m => exact lockBefore_effect hg hdue hroom
  | acquire u m => exact acquire_effect hg hdue
  | lockAfter u m => exact lockAfter_effect hg hdue hroom
  | release u m => exact release_effect hg hdue
  | unlockAfter u m => exact unlockAfter_effect hg hdue hroom

/-- Every interleaving of the steps, from zeroed tables. -/
def threads : Transition State Label where
  init s := s = initial
  step s l s' := step s l = some s'

theorem reach_run (labels : List Label) (h : threads.Reach Transition.free s)
    (hrun : labels.foldlM step s = some s') : threads.Reach Transition.free s' := by
  induction labels generalizing s with
  | nil => exact Option.some.inj hrun ▸ h
  | cons l labels ih =>
    rw [List.foldlM_cons] at hrun
    obtain ⟨s₁, hstep, hrun⟩ := Option.bind_eq_some_iff.mp hrun
    exact ih (.step h trivial hstep) hrun

theorem initial_grounded : Grounded initial := by
  have hnone : ∀ m, entries zeroed m = [] := fun _ => rfl
  refine ⟨⟨⟨?_, List.nodup_nil, ?_, ?_⟩, fun m _ => .inl (hnone m), ?_⟩, ?_, ?_⟩
  · exact fun _ h => absurd h List.not_mem_nil
  · exact fun _ h => absurd h List.not_mem_nil
  · exact fun _ h => absurd h List.not_mem_nil
  · exact fun _ h => absurd h List.not_mem_nil
  · exact fun _ _ h => absurd rfl h
  · exact fun _ _ h => (nomatch h)

end LearningCode.Deadlock
