import LearningCode.Deadlock.Views

/-!
# What an entry says

As long as a thread registers a mutex only when nobody else waits for it, and
gives up its entry only when the mutex is free: the entry has the holder's id
and counts the threads that are locking the mutex.
-/

namespace LearningCode.Deadlock

variable {s s' : State} {u v w : Thread} {m k : Mutex} {e : Pair} {V : View}

structure Entered (V : View) : Prop where
  holding : ∀ u, V.role u = .acquired → V.holder = some u
  unknown : V.entries = [] → ∀ v, V.holder = some v → V.role v = .acquired
  count : ∀ e, V.entries = [e] → Tally V.Locking e.degress
  owner : ∀ e, V.entries = [e] → ∀ v, V.holder = some v → V.role v ≠ .acquired → e.thId = v

structure Careful (s : State) (u : Thread) (m : Mutex) : Prop where
  register : (view s m).entries = [] → (view s m).role u = .acquired →
    ∀ w, w ≠ u → (view s m).role w ≠ .waiting
  clear : ∀ e, (view s m).entries = [e] → e.degress = 0 → (view s m).role u = .released →
    (view s m).holder = none

theorem Due.of_acquired (h : Due s l) (hpc : s.pc l.thread = .acquired l.mutex) :
    l = .lockAfter l.thread l.mutex := by
  cases l <;> simp_all [Due, Label.thread, Label.mutex]

theorem Due.of_released (h : Due s l) (hpc : s.pc l.thread = .released l.mutex) :
    l = .unlockAfter l.thread l.mutex := by
  cases l <;> simp_all [Due, Label.thread, Label.mutex]

theorem Due.careful (h : Due s l)
    (hregister : ∀ u m, l = .lockAfter u m → entries s.tg m = [] → ∀ w, w ≠ u → s.pc w ≠ .waiting m)
    (hclear : ∀ u m, l = .unlockAfter u m → ∀ e ∈ entries s.tg m, e.degress = 0 →
      s.holder m = none) : Careful s l.thread l.mutex := by
  refine ⟨fun hun hacq w hne hw => ?_, fun e he hd hrel => ?_⟩
  · exact hregister _ _ (h.of_acquired (role_acquired_iff.mp hacq)) hun w hne (role_waiting_iff.mp hw)
  · have he : entries s.tg l.mutex = [e] := he
    refine hclear _ _ (h.of_released (role_released_iff.mp hrel)) e ?_ hd
    rw [he]
    exact List.mem_singleton_self e

theorem View.set_locking (hr : r = .out ∨ r = .released) (w : Thread) :
    (V.set u r).Locking w ↔ V.Locking w ∧ w ≠ u := by
  cases Decidable.em (w = u) with
  | inl heq =>
    subst heq
    rcases hr with rfl | rfl <;> simp [View.Locking]
  | inr hne => simp [View.Locking, hne]

theorem View.set_locking_of (hr : r = .waiting ∨ r = .acquired) (w : Thread) :
    (V.set u r).Locking w ↔ V.Locking w ∨ w = u := by
  cases Decidable.em (w = u) with
  | inl heq =>
    subst heq
    rcases hr with rfl | rfl <;> simp [View.Locking]
  | inr hne => simp [View.Locking, hne]

theorem View.role_cases (V : View) (u : Thread) (r : Role) (w : Thread) :
    w = u ∧ (V.set u r).role w = r ∨ w ≠ u ∧ (V.set u r).role w = V.role w := by
  cases Decidable.em (w = u) with
  | inl heq => exact .inl ⟨heq, heq ▸ View.set_role_self⟩
  | inr hne => exact .inr ⟨hne, View.set_role_ne hne⟩

theorem View.not_locking_out (h : V.role u = .out) : ¬ V.Locking u := by
  rintro (h' | h') <;> exact Role.noConfusion (h.symm.trans h')

theorem Entered.holding_set (hV : Entered V) (u : Thread) (r : Role) (hr : r ≠ .acquired)
    (hw : (V.set u r).role w = .acquired) : w ≠ u ∧ V.holder = some w := by
  rcases V.role_cases u r w with ⟨-, h⟩ | ⟨hne, h⟩
  · exact absurd (h.symm.trans hw) hr
  · exact ⟨hne, hV.holding w (h.symm.trans hw)⟩

theorem Entered.wait_unknown (hV : Entered V) (hun : V.entries = []) (hout : V.role u = .out) :
    Entered (V.set u .waiting) := by
  refine ⟨fun w hw => ?_, fun _ v hv => ?_, fun e he => ?_, fun e he => ?_⟩
  · exact (hV.holding_set u .waiting nofun hw).2
  · have hacq := hV.unknown hun v hv
    rcases V.role_cases u .waiting v with ⟨rfl, -⟩ | ⟨-, h⟩
    · exact Role.noConfusion (hout.symm.trans hacq)
    · exact h.trans hacq
  · exact absurd (hun.symm.trans he) (by simp)
  · exact absurd (hun.symm.trans he) (by simp)

theorem Entered.wait (hV : Entered V) (hkn : V.entries = [e]) (hout : V.role u = .out) :
    Entered ((V.set u .waiting).enter [{ e with degress := e.degress + 1 }]) := by
  refine ⟨fun w hw => ?_, fun h => (nomatch h), fun e' he => ?_, fun e' he v hv hne => ?_⟩
  · exact (hV.holding_set u .waiting nofun hw).2
  · cases he
    exact (hV.count e hkn).insert (View.not_locking_out hout) (View.set_locking_of (.inl rfl))
  · cases he
    refine hV.owner e hkn v hv fun hacq => ?_
    rcases V.role_cases u .waiting v with ⟨rfl, -⟩ | ⟨-, h⟩
    · exact Role.noConfusion (hout.symm.trans hacq)
    · exact hne (h.trans hacq)

theorem Entered.acquire (hV : Entered V) (hwait : V.role u = .waiting) (hfree : V.holder = none) :
    Entered ((V.set u .acquired).grant (some u)) := by
  refine ⟨fun w hw => ?_, fun _ v hv => ?_, fun e he => ?_, fun e he v hv hne => ?_⟩
  · rcases V.role_cases u .acquired w with ⟨rfl, -⟩ | ⟨-, h⟩
    · rfl
    · exact absurd (hfree.symm.trans (hV.holding w (h.symm.trans hw))) (by simp)
  · cases hv
    exact View.set_role_self
  · refine (hV.count e he).congr fun w => (View.set_locking_of (.inr rfl) w).trans ?_
    refine or_iff_left_of_imp ?_
    rintro rfl
    exact .inl hwait
  · cases hv
    exact absurd View.set_role_self hne

theorem Entered.register (hV : Entered V) (hacq : V.role u = .acquired)
    (halone : ∀ w, w ≠ u → V.role w ≠ .waiting) (howner : e.thId = u) (hdeg : e.degress = 0) :
    Entered ((V.set u .out).enter [e]) := by
  have hheld := hV.holding u hacq
  have hnot : ∀ w, w ≠ u → V.role w ≠ .acquired := fun w hw h =>
    hw (Option.some.inj ((hV.holding w h).symm.trans hheld))
  refine ⟨fun w hw => ?_, fun h => (nomatch h), fun e' he => ?_, fun e' he v hv _ => ?_⟩
  · rcases V.role_cases u .out w with ⟨-, h⟩ | ⟨hne, h⟩
    · exact Role.noConfusion (h.symm.trans hw)
    · exact absurd (h.symm.trans hw) (hnot w hne)
  · cases he
    rw [hdeg]
    refine Tally.none fun w hw => ?_
    obtain ⟨hw, hne⟩ := (View.set_locking (.inl rfl) w).mp hw
    exact hw.elim (halone w hne) (hnot w hne)
  · cases he
    exact howner.trans (Option.some.inj (hheld.symm.trans hv))

theorem Entered.takeOver (hV : Entered V) (hkn : V.entries = [e]) (hacq : V.role u = .acquired) :
    Entered ((V.set u .out).enter [{ e with thId := u, degress := e.degress - 1 }]) := by
  have hheld := hV.holding u hacq
  refine ⟨fun w hw => ?_, fun h => (nomatch h), fun e' he => ?_, fun e' he v hv _ => ?_⟩
  · exact (hV.holding_set u .out nofun hw).2
  · cases he
    exact (hV.count e hkn).erase (.inr hacq) (View.set_locking (.inl rfl))
  · cases he
    exact Option.some.inj (hheld.symm.trans hv)

theorem Entered.release (hV : Entered V) (hout : V.role u = .out) (hheld : V.holder = some u) :
    Entered ((V.set u .released).grant none) := by
  refine ⟨fun w hw => ?_, fun _ v hv => (nomatch hv), fun e he => ?_, fun e _ v hv => (nomatch hv)⟩
  · obtain ⟨hne, hother⟩ := hV.holding_set u .released nofun hw
    exact absurd (Option.some.inj (hother.symm.trans hheld)) hne
  · refine (hV.count e he).congr fun w => (View.set_locking (.inr rfl) w).trans ?_
    refine and_iff_left_of_imp ?_
    rintro hw rfl
    exact View.not_locking_out hout hw

theorem Entered.leave (hV : Entered V) (hrel : V.role u = .released) :
    Entered (V.set u .out) := by
  have hne : ∀ w, V.role w = .acquired → w ≠ u := by
    rintro w hw rfl
    exact Role.noConfusion (hw.symm.trans hrel)
  refine ⟨fun w hw => ?_, fun hun v hv => ?_, fun e he => ?_, fun e he v hv hnot => ?_⟩
  · exact (hV.holding_set u .out nofun hw).2
  · have hacq := hV.unknown hun v hv
    rw [View.set_role_ne (hne v hacq), hacq]
  · refine (hV.count e he).congr fun w => (View.set_locking (.inl rfl) w).trans ?_
    refine and_iff_left_of_imp ?_
    rintro (hw | hw) rfl <;> exact Role.noConfusion (hw.symm.trans hrel)
  · refine hV.owner e he v hv fun hacq => hnot ?_
    rw [View.set_role_ne (hne v hacq), hacq]

theorem Entered.clear (hV : Entered V) (hfree : V.holder = none) : Entered (V.enter []) :=
  ⟨hV.holding, fun _ v hv => absurd (hfree.symm.trans hv) (by simp),
    fun _ he => (nomatch he), fun _ he => (nomatch he)⟩

theorem Entered.effect (hV : Entered (view s m)) (hc : Careful s u m) (he : Effect s s' u m) :
    Entered (view s' m) := by
  cases he with
  | waitUnknown hun hout hseen => exact hseen ▸ hV.wait_unknown hun (by rw [view_role, hout]; rfl)
  | wait e hkn hout hseen => exact hseen ▸ hV.wait hkn (by rw [view_role, hout]; rfl)
  | acquire hwait hfree hseen => exact hseen ▸ hV.acquire hwait hfree
  | register e hun hacq howner hdeg hseen =>
    exact hseen ▸ hV.register hacq (hc.register hun hacq) howner hdeg
  | takeOver e hkn hacq hseen => exact hseen ▸ hV.takeOver hkn hacq
  | release hout hheld hseen => exact hseen ▸ hV.release (by rw [view_role, hout]; rfl) hheld
  | keep e hkn hdeg hrel hseen => exact hseen ▸ hV.leave hrel
  | clear e hkn hdeg hrel hseen =>
    exact hseen ▸ (hV.leave hrel).clear (hc.clear e hkn hdeg hrel)

/-- What a step has done that leaves an entry of a mutex nobody holds: some thread is
about to look at the entry, or one has come to wait, or one has kept the entry for a
thread that waits. -/
theorem Entered.closing_cases (hV : Entered (view s m)) (he : Effect s s' u m)
    (hsome : (view s' m).entries = [e]) (hfree : (view s' m).holder = none) :
    (∃ w, (view s' m).role w = .released) ∨
      ((view s m).role u = .out ∧ (∃ e, (view s m).entries = [e]) ∧ (view s m).holder = none ∧
        (view s' m).role = ((view s m).set u .waiting).role) ∨
      ((view s m).role u = .released ∧ (view s m).holder = none ∧
        ∃ w, (view s m).role w = .waiting ∧ (view s' m).role w = .waiting) := by
  cases he with
  | waitUnknown hun hout hseen =>
    rw [hseen, View.set_entries, hun] at hsome
    cases hsome
  | wait e' hkn hout hseen =>
    rw [hseen] at hfree ⊢
    exact .inr (.inl ⟨by rw [view_role, hout]; rfl, ⟨e', hkn⟩, hfree, rfl⟩)
  | acquire hwait _ hseen =>
    rw [hseen] at hfree
    cases hfree
  | register e' hun hacq howner hdeg hseen =>
    rw [hseen] at hfree
    cases (hV.holding u hacq).symm.trans hfree
  | takeOver e' hkn hacq hseen =>
    rw [hseen] at hfree
    cases (hV.holding u hacq).symm.trans hfree
  | release hout hheld hseen =>
    rw [hseen]
    exact .inl ⟨u, View.set_role_self⟩
  | keep e' hkn hdeg hrel hseen =>
    -- the entry stays because some thread is locking the mutex
    rw [hseen] at hfree ⊢
    obtain ⟨w, hw⟩ := (hV.count e' hkn).exists_of_ne hdeg
    rcases hw with hw | hw
    · have hne : w ≠ u := by
        rintro rfl
        exact Role.noConfusion (hw.symm.trans hrel)
      exact .inr (.inr ⟨hrel, hfree, w, hw, (View.set_role_ne hne).trans hw⟩)
    · cases (hV.holding w hw).symm.trans hfree
  | clear e' hkn hdeg hrel hseen =>
    rw [hseen] at hsome
    cases hsome

theorem initial_entered (m : Mutex) : Entered (view initial m) := by
  refine ⟨fun u hu => ?_, fun _ v hv => (nomatch hv), fun e he => (nomatch he),
    fun e he => (nomatch he)⟩
  exact Role.noConfusion (Eq.trans (Eq.symm (show (view initial m).role u = .out from rfl)) hu)

end LearningCode.Deadlock
