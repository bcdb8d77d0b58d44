import LearningCode.Deadlock.Entries

/-!
# The wait-for edges over whole runs

A waiting thread has one edge, to the thread its mutex was registered for when
it came. The edge is right in the end if that record stays what it was.
-/

namespace LearningCode.Deadlock

variable {s s' : State} {u v w : Thread} {m k : Mutex} {e : Pair} {V : View} {l : Label}

/-- `lock_after` finds no other thread waiting for the mutex. `unlock_after`
finds the entry, clears it only while nobody holds the mutex, and finds nobody
waiting for a mutex that is free. -/
def Orderly (s : State) (l : Label) : Prop :=
  InBounds s l ∧ match l with
    | .lockAfter u m => ∀ w, w ≠ u → s.pc w ≠ .waiting m
    | .unlockAfter _ m => (∀ e ∈ entries s.tg m, e.degress = 0 → s.holder m = none) ∧
        (s.holder m = none → ∀ w, s.pc w ≠ .waiting m)
    | _ => True

/-- No thread is between a real lock or unlock and the hook behind it. -/
def Quiet (s : State) : Prop := ∀ u m, s.pc u ≠ .acquired m ∧ s.pc u ≠ .released m

/-- What holds in between: an entry of a free mutex is about to be given up. -/
structure Watched (V : View) : Prop extends Entered V where
  closing : ∀ e, V.entries = [e] → V.holder = none → ∃ u, V.role u = .released

def View.Owes (V : View) (a b : Thread) : Prop := V.Locking a ∧ ∃ e, V.entries = [e] ∧ e.thId = b

def Owed (s : State) (a b : Thread) : Prop := ∃ m, m ≠ 0 ∧ (view s m).Owes a b

structure Tracked (s : State) : Prop where
  grounded : Grounded s
  watched : ∀ m, m ≠ 0 → Watched (view s m)
  edges : ∀ a b, a ≠ b → (Edge s.tg a b ↔ Owed s a b)

theorem Orderly.careful (hg : Orderly s l) (hdue : Due s l) : Careful s l.thread l.mutex := by
  refine hdue.careful ?_ ?_
  · rintro u m rfl -
    exact hg.2
  · rintro u m rfl
    exact hg.2.1

theorem Watched.closing_effect (hV : Watched (view s m)) (he : Effect s s' u m)
    (hkeep : (view s m).role u = .released → (view s m).holder = none →
      ∀ w, (view s m).role w ≠ .waiting)
    (hsome : (view s' m).entries = [e]) (hfree : (view s' m).holder = none) :
    ∃ w, (view s' m).role w = .released := by
  rcases hV.closing_cases he hsome hfree with
    hrel | ⟨hout, ⟨e', hkn⟩, hfree, hrole⟩ | ⟨hrel, hfree, w, hw, -⟩
  · exact hrel
  · obtain ⟨w, hw⟩ := hV.closing e' hkn hfree
    have hne : w ≠ u := by
      rintro rfl
      exact Role.noConfusion (hw.symm.trans hout)
    exact ⟨w, by rw [hrole, View.set_role_ne hne, hw]⟩
  · exact absurd hw (hkeep hrel hfree w)

theorem Local.not_owes (hl : Local s s' u m) (hk : k ≠ 0) (hkm : k ≠ m) : ¬ (view s k).Owes u v := by
  rintro ⟨hlock, -⟩
  rw [← hl.other k hk hkm] at hlock
  refine View.not_locking_out ?_ hlock
  exact Classical.not_not.mp fun hne => hkm (hl.pcHere k hne)

theorem Local.owed_iff (hl : Local s s' u m) : Owed s u v ↔ (view s m).Owes u v := by
  constructor
  · rintro ⟨k, hk, howes⟩
    cases Decidable.em (k = m) with
    | inl heq => exact heq ▸ howes
    | inr hne => exact absurd howes (hl.not_owes hk hne)
  · exact fun h => ⟨m, hl.nonzero, h⟩

theorem Local.owed_iff' (hl : Local s s' u m) : Owed s' u v ↔ (view s' m).Owes u v := by
  constructor
  · rintro ⟨k, hk, howes⟩
    cases Decidable.em (k = m) with
    | inl heq => exact heq ▸ howes
    | inr hne => exact absurd (hl.other k hk hne ▸ howes) (hl.not_owes hk hne)
  · exact fun h => ⟨m, hl.nonzero, h⟩

theorem Local.owed_congr (hl : Local s s' u m)
    (h : (view s' m).Owes w v ↔ (view s m).Owes w v) : Owed s' w v ↔ Owed s w v := by
  refine exists_congr fun k => and_congr_right fun hk => ?_
  cases Decidable.em (k = m) with
  | inl heq => exact heq ▸ h
  | inr hne => rw [hl.other k hk hne]

theorem View.owes_locking {V' : View} (hlock : V'.Locking w ↔ V.Locking w)
    (hentries : V'.entries = V.entries) : V'.Owes w v ↔ V.Owes w v := by
  rw [View.Owes, View.Owes, hlock, hentries]

theorem View.not_owes_unknown (h : V.entries = []) : ¬ V.Owes w v := by
  rintro ⟨-, e, he, -⟩
  rw [h] at he
  cases he

theorem Effect.owes_other (he : Effect s s' u m) (hV : Entered (view s m))
    (hsole : (view s m).role u = .acquired → ∀ w, w ≠ u → (view s m).role w ≠ .waiting)
    (hw : w ≠ u) : (Edge s'.tg w v ↔ Edge s.tg w v) ∧
      ((view s' m).Owes w v ↔ (view s m).Owes w v) := by
  have hnone : (view s m).role u = .acquired → ¬ (view s m).Locking w := by
    rintro hacq (h | h)
    · exact hsole hacq w hw h
    · exact hw (Option.some.inj ((hV.holding w h).symm.trans (hV.holding u hacq)))
  have hin : ∀ r, r = .waiting ∨ r = .acquired →
      (((view s m).set u r).Locking w ↔ (view s m).Locking w) := fun r hr =>
    (View.set_locking_of hr w).trans (or_iff_left hw)
  have hout : ∀ r, r = .out ∨ r = .released →
      (((view s m).set u r).Locking w ↔ (view s m).Locking w) := fun r hr =>
    (View.set_locking hr w).trans (and_iff_left hw)
  cases he with
  | waitUnknown hun _ hseen hedges =>
    refine ⟨hedges w v, ?_⟩
    rw [hseen]
    exact View.owes_locking (hin _ (.inl rfl)) rfl
  | wait e hkn _ hseen hedges =>
    refine ⟨(hedges w v).trans (or_iff_left fun h => hw h.1), ?_⟩
    rw [hseen, View.Owes, View.Owes, hkn]
    refine and_congr (hin _ (.inl rfl)) ?_
    simp only [View.enter_entries, List.cons.injEq, and_true, exists_eq_left']
  | acquire _ _ hseen hedges =>
    refine ⟨hedges w v, ?_⟩
    rw [hseen]
    exact View.owes_locking (hin _ (.inr rfl)) rfl
  | register e hun hacq _ _ hseen hedges =>
    refine ⟨hedges w v, ?_⟩
    rw [hseen]
    exact iff_of_false (fun h => hnone hacq ((hout _ (.inl rfl)).mp h.1)) (View.not_owes_unknown hun)
  | takeOver e hkn hacq hseen hedges =>
    refine ⟨(hedges w v).trans (and_iff_left fun h => hw h.1), ?_⟩
    rw [hseen]
    exact iff_of_false (fun h => hnone hacq ((hout _ (.inl rfl)).mp h.1)) fun h => hnone hacq h.1
  | release _ _ hseen hedges =>
    refine ⟨hedges w v, ?_⟩
    rw [hseen]
    exact View.owes_locking (hout _ (.inr rfl)) rfl
  | keep e _ _ _ hseen hedges =>
    refine ⟨hedges w v, ?_⟩
    rw [hseen]
    exact View.owes_locking (hout _ (.inl rfl)) rfl
  | clear e hkn hdeg _ hseen hedges =>
    refine ⟨hedges w v, ?_⟩
    rw [hseen]
    have hzero := (hdeg ▸ hV.count e hkn).eq_zero w
    exact iff_of_false (fun h => hzero ((hout _ (.inl rfl)).mp h.1)) fun h => hzero h.1

theorem Effect.owes_self (he : Effect s s' u m) (hne : u ≠ v)
    (hedge : Edge s.tg u v ↔ (view s m).Owes u v) : Edge s'.tg u v ↔ (view s' m).Owes u v := by
  have hidle : s.pc u = .idle → ¬ (view s m).Owes u v := fun hpc h =>
    View.not_locking_out (by rw [view_role, hpc]; rfl) h.1
  have hreleased : (view s m).role u = .released → ¬ (view s m).Owes u v := by
    rintro hrel ⟨h | h, -⟩ <;> exact Role.noConfusion (h.symm.trans hrel)
  have hout : ∀ r l, r = .out ∨ r = .released → ¬ (((view s m).set u r).enter l).Owes u v :=
    fun r l hr h => ((View.set_locking hr u).mp h.1).2 rfl
  cases he with
  | waitUnknown hun _ hseen hedges =>
    rw [hedges, hedge, hseen]
    exact iff_of_false (View.not_owes_unknown hun) (View.not_owes_unknown hun)
  | wait e hkn hpc hseen hedges =>
    rw [hedges, hedge, hseen, or_iff_right (hidle hpc)]
    simp only [View.Owes, View.enter_entries, List.cons.injEq, and_true, exists_eq_left', true_and]
    refine ⟨fun h => ⟨.inl View.set_role_self, h.1.symm⟩, fun h => ⟨h.2.symm, ?_⟩⟩
    exact fun h' => hne (h'.trans h.2)
  | acquire hwait _ hseen hedges =>
    rw [hedges, hedge, hseen]
    exact (View.owes_locking (iff_of_true ((View.set_locking_of (.inr rfl) u).mpr (.inr rfl))
      (.inl hwait)) rfl).symm
  | register e hun _ _ _ hseen hedges =>
    rw [hedges, hedge, hseen]
    exact iff_of_false (View.not_owes_unknown hun) (hout _ _ (.inl rfl))
  | takeOver e hkn _ hseen hedges =>
    rw [hedges, hedge, hseen]
    refine iff_of_false ?_ (hout _ _ (.inl rfl))
    rintro ⟨⟨-, e', he', rfl⟩, hnot⟩
    cases hkn.symm.trans he'
    exact hnot ⟨rfl, rfl⟩
  | release hpc _ hseen hedges =>
    rw [hedges, hedge, hseen]
    exact iff_of_false (hidle hpc) fun h => ((View.set_locking (.inr rfl) u).mp h.1).2 rfl
  | keep e _ _ hrel hseen hedges =>
    rw [hedges, hedge, hseen]
    exact iff_of_false (hreleased hrel) fun h => ((View.set_locking (.inl rfl) u).mp h.1).2 rfl
  | clear e _ _ hrel hseen hedges =>
    rw [hedges, hedge, hseen]
    exact iff_of_false (hreleased hrel) (hout _ _ (.inl rfl))

-- ---------------------------------------------------------------------------
-- Whole runs
-- ---------------------------------------------------------------------------

theorem Orderly.sole (hg : Orderly s l) (hdue : Due s l)
    (hacq : (view s l.mutex).role l.thread = .acquired) :
    ∀ w, w ≠ l.thread → (view s l.mutex).role w ≠ .waiting := by
  intro w hne hw
  have hl := hdue.of_acquired (role_acquired_iff.mp hacq)
  rw [hl] at hg
  exact hg.2 w hne (role_waiting_iff.mp hw)

theorem Orderly.freed (hg : Orderly s l) (hdue : Due s l)
    (hrel : (view s l.mutex).role l.thread = .released) (hfree : (view s l.mutex).holder = none) :
    ∀ w, (view s l.mutex).role w ≠ .waiting := by
  intro w hw
  have hl := hdue.of_released (role_released_iff.mp hrel)
  rw [hl] at hg
  exact hg.2.2 hfree w (role_waiting_iff.mp hw)

theorem Tracked.step (hs : Tracked s) (hg : Orderly s l) (hstep : step s l = some s') :
    Tracked s' := by
  have hdue := due_of_step hstep
  obtain ⟨s'', hstep', hlocal, heffect⟩ := step_effect hs.grounded hdue hg.1
  cases hstep.symm.trans hstep'
  have hV := hs.watched l.mutex hlocal.nonzero
  refine ⟨hs.grounded.local hlocal, fun k hk => ?_, fun a b hab => ?_⟩
  · cases Decidable.em (k = l.mutex) with
    | inl heq =>
      subst heq
      exact ⟨hV.toEntered.effect (hg.careful hdue) heffect,
        fun e => hV.closing_effect heffect (hg.freed hdue)⟩
    | inr hne => exact hlocal.other k hk hne ▸ hs.watched k hk
  · cases Decidable.em (a = l.thread) with
    | inl heq =>
      subst heq
      rw [hlocal.owed_iff']
      exact heffect.owes_self hab ((hs.edges _ b hab).trans hlocal.owed_iff)
    | inr hne =>
      obtain ⟨hedge, howes⟩ := heffect.owes_other (v := b) hV.toEntered (hg.sole hdue) hne
      rw [hedge, hlocal.owed_congr howes]
      exact hs.edges a b hab

theorem reach_tracked (h : threads.Reach Orderly s) : Tracked s := by
  refine h.invariant (P := Tracked) ?_ fun s l s' hs hg hstep => hs.step hg hstep
  rintro s rfl
  refine ⟨initial_grounded, fun m _ => ⟨initial_entered m, fun e he => (nomatch he)⟩,
    fun a b _ => iff_of_false ?_ ?_⟩
  · rintro ⟨x, hx, -⟩
    exact absurd hx List.not_mem_nil
  · rintro ⟨m, -, howes⟩
    exact View.not_owes_unknown rfl howes

/-- The graph shows who waits for whom. -/
def ShowsWaiting (s : State) : Prop := ∀ u v, u ≠ v →
  (Edge s.tg u v ↔ ∃ m, s.pc u = .waiting m ∧ s.holder m = some v)

theorem Tracked.showsWaiting (hs : Tracked s) (hq : Quiet s) : ShowsWaiting s := by
  intro u v hne
  have hacq : ∀ m w, (view s m).role w ≠ .acquired := fun m w h =>
    (hq w m).1 (role_acquired_iff.mp h)
  rw [hs.edges u v hne]
  constructor
  · rintro ⟨m, hm, hlock, e, he, rfl⟩
    have hwait := role_waiting_iff.mp (hlock.resolve_right (hacq m u))
    cases hheld : s.holder m with
    | none =>
      obtain ⟨w, hw⟩ := (hs.watched m hm).closing e he hheld
      exact absurd (role_released_iff.mp hw) (hq w m).2
    | some w =>
      refine ⟨m, hwait, hheld.trans (congrArg some ?_)⟩
      exact ((hs.watched m hm).owner e he w hheld (hacq m w)).symm
  · rintro ⟨m, hwait, hheld⟩
    have hm := hs.grounded.held m v hheld
    refine ⟨m, hm, .inl (role_waiting_iff.mpr hwait), ?_⟩
    rcases hs.grounded.sane.entry m hm with he | ⟨e, he⟩
    · exact absurd ((hs.watched m hm).unknown he v hheld) (hacq m v)
    · exact ⟨e, he, (hs.watched m hm).owner e he v hheld (hacq m v)⟩

/-- In a run that keeps to the condition the graph is right whenever it is
quiet, and no hook reads or writes outside the tables. -/
theorem reach_showsWaiting (h : threads.Reach Orderly s) :
    (Quiet s → ShowsWaiting s) ∧
      ∀ l, Due s l → Orderly s l → ∃ s', step s l = some s' := by
  have hs := reach_tracked h
  refine ⟨hs.showsWaiting, fun l hdue hg => ?_⟩
  obtain ⟨s', hstep, -⟩ := step_effect hs.grounded hdue hg.1
  exact ⟨s', hstep⟩

theorem reach_showsWaiting_two : ∃ s, threads.Reach Orderly s ∧ Quiet s ∧ s.holder 7 = some 1 ∧
    s.pc 2 = .waiting 7 ∧ ShowsWaiting s := by
  have h₀ : threads.Reach Orderly initial := .init rfl
  have h₁ := h₀.step (i := Label.lockBefore 1 7) ⟨fun e he => absurd he List.not_mem_nil, trivial⟩ rfl
  have h₂ := h₁.step (i := Label.acquire 1 7) ⟨trivial, trivial⟩ rfl
  have h₃ := h₂.step (i := Label.lockAfter 1 7)
    ⟨fun _ => by decide, fun w hw => by simp [State.at, initial, hw]⟩ rfl
  have h₄ := h₃.step (i := Label.lockBefore 2 7) 
    ⟨fun e _ => (Nat.add_le_add_left missing_le 0).trans (by decide), trivial⟩ rfl
  obtain ⟨s, hrun, hpc, hheld, hwait⟩ : ∃ s, threads.Reach Orderly s ∧
      (∀ u, s.pc u = .idle ∨ s.pc u = .waiting 7) ∧ s.holder 7 = some 1 ∧ s.pc 2 = .waiting 7 := by
    refine ⟨_, h₄, fun u => ?_, rfl, rfl⟩
    cases Decidable.em (u = 2) with
    | inl heq => subst heq; exact .inr rfl
    | inr h₂ =>
      cases Decidable.em (u = 1) with
      | inl heq => subst heq; exact .inl rfl
      | inr h₁ => simp [State.at, initial, h₂]
  have hq : Quiet s := fun u m => by rcases hpc u with h | h <;> simp [h]
  exact ⟨s, hrun, hq, hheld, hwait, (reach_showsWaiting hrun).1 hq⟩

theorem run_pc_other (labels : List Label) (hu : ∀ l ∈ labels, l.thread ≠ u)
    (hrun : labels.foldlM step s = some s') : s'.pc u = s.pc u := by
  induction labels generalizing s with
  | nil => cases hrun; rfl
  | cons l labels ih =>
    rw [List.foldlM_cons] at hrun
    obtain ⟨s₁, hstep, hrun⟩ := Option.bind_eq_some_iff.mp hrun
    rw [ih (fun l' hl' => hu l' (List.mem_cons_of_mem l hl')) hrun]
    exact step_pc_other hstep (hu l List.mem_cons_self).symm

def handOver : List Label := [.lockBefore 1 7, .acquire 1 7, .lockAfter 1 7, .lockBefore 2 7,
  .lockBefore 3 7, .release 1 7, .acquire 2 7, .unlockAfter 1 7, .lockAfter 2 7]

/-- Thread 3 still points to thread 1 and not to thread 2. -/
theorem edge_not_moved : ∃ s, threads.Reach Transition.free s ∧ Quiet s ∧ s.pc 3 = .waiting 7 ∧
    s.holder 7 = some 2 ∧ ¬ Edge s.tg 3 2 ∧ Edge s.tg 3 1 := by
  have hpcs : (handOver.foldlM step initial).map (fun s => (s.pc 1, s.pc 2, s.pc 3, s.holder 7)) =
      some (.idle, .idle, .waiting 7, some 2) := by decide
  have hedges : (handOver.foldlM step initial).map
      (fun s => (decide (Edge s.tg 3 2), decide (Edge s.tg 3 1))) = some (false, true) := by decide
  obtain ⟨s, hrun, hpcs⟩ := Option.map_eq_some_iff.mp hpcs
  rw [hrun, Option.map_some, Option.some.injEq, Prod.mk.injEq, decide_eq_false_iff_not,
    decide_eq_true_eq] at hedges
  simp only [Prod.mk.injEq] at hpcs
  obtain ⟨h₁, h₂, h₃, hheld⟩ := hpcs
  refine ⟨s, reach_run handOver (.init rfl) hrun, fun u m => ?_, h₃, hheld, hedges⟩
  have hthree : ∀ l ∈ handOver, l.thread ∈ [1, 2, 3] := by decide
  cases Decidable.em (u ∈ [1, 2, 3]) with
  | inr hother =>
    rw [run_pc_other (u := u) handOver (fun l hl heq => hother (heq ▸ hthree l hl)) hrun]
    exact ⟨Pc.noConfusion, Pc.noConfusion⟩
  | inl hu =>
    simp only [List.mem_cons, List.not_mem_nil, or_false] at hu
    rcases hu with rfl | rfl | rfl
    · simp [h₁]
    · simp [h₂]
    · simp [h₃]

end LearningCode.Deadlock
