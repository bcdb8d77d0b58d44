import LearningCode.Deadlock.Entries

/-!
# The ownership table over whole runs

Once every thread is out of the calls or blocked on a mutex that is held, the
table has one entry for each mutex that is held and none for the others.
-/

namespace LearningCode.Deadlock

variable {s s' : State} {u v w : Thread} {m k : Mutex} {e : Pair} {V : View} {l : Label}

/-- `lock_before` on a mutex without an entry finds no other thread between
`lock_before` and `lock_after` on it; `unlock_after` finds the entry, and clears
it only while nobody holds the mutex. -/
def Exclusive (s : State) (l : Label) : Prop :=
  InBounds s l ∧ match l with
    | .lockBefore u m => entries s.tg m = [] →
        ∀ w, w ≠ u → s.pc w ≠ .waiting m ∧ s.pc w ≠ .acquired m
    | .unlockAfter _ m => ∀ e ∈ entries s.tg m, e.degress = 0 → s.holder m = none
    | _ => True

def Settled (s : State) : Prop :=
  ∀ u, s.pc u = .idle ∨ ∃ m v, s.pc u = .waiting m ∧ s.holder m = some v

/-- One entry for a mutex that is held, with its holder and the number of
threads blocked on it; none for a mutex neither held nor waited for. -/
structure Registered (s : State) (m : Mutex) : Prop where
  held : ∀ v, s.holder m = some v → ∃ e, entries s.tg m = [e] ∧ e.thId = v ∧
    Tally (fun u => s.pc u = .waiting m) e.degress
  free : s.holder m = none → (∀ u, s.pc u ≠ .waiting m) → entries s.tg m = []

/-- What holds in between: without an entry at most one thread is locking the
mutex, and an idle entry is there for a thread about to give it up. -/
structure Owned (V : View) : Prop extends Entered V where
  alone : V.entries = [] → ∀ u v, V.Locking u → V.Locking v → u = v
  closing : ∀ e, V.entries = [e] → V.holder = none → (∀ u, V.role u ≠ .waiting) →
    ∃ u, V.role u = .released

theorem Exclusive.careful (hg : Exclusive s l) (hdue : Due s l)
    (hV : Owned (view s l.mutex)) : Careful s l.thread l.mutex := by
  refine hdue.careful ?_ ?_
  · rintro u m rfl hun w hne hw
    have hdue : s.pc u = .acquired m := hdue
    exact hne (hV.alone hun w u (.inl (role_waiting_iff.mpr hw)) (.inr (role_acquired_iff.mpr hdue)))
  · rintro u m rfl
    exact hg.2

theorem Exclusive.alone (hg : Exclusive s l) (hdue : Due s l) (hV : Owned (view s l.mutex))
    (hun : (view s l.mutex).entries = []) (hidle : s.pc l.thread = .idle) :
    ∀ w, w ≠ l.thread → ¬ (view s l.mutex).Locking w := by
  cases l with
  | lockBefore u m =>
    rintro w hne (hw | hw)
    · exact (hg.2 hun w hne).1 (role_waiting_iff.mp hw)
    · exact (hg.2 hun w hne).2 (role_acquired_iff.mp hw)
  | acquire u m => exact Pc.noConfusion (hdue.1.symm.trans hidle)
  | lockAfter u m => exact Pc.noConfusion (Eq.trans (Eq.symm hdue) hidle)
  | release u m =>
    -- a holder past `lock_after` has an entry
    have := role_acquired_iff.mp (hV.unknown hun u hdue.2)
    exact Pc.noConfusion (this.symm.trans hidle)
  | unlockAfter u m => exact Pc.noConfusion (Eq.trans (Eq.symm hdue) hidle)

theorem Owned.alone_effect (hV : Owned (view s m)) (he : Effect s s' u m)
    (halone : (view s m).entries = [] → s.pc u = .idle → ∀ w, w ≠ u → ¬ (view s m).Locking w)
    (hnone : (view s' m).entries = []) :
    ∀ v w, (view s' m).Locking v → (view s' m).Locking w → v = w := by
  cases he with
  | waitUnknown hun hout hseen =>
    rw [hseen]
    have hself : ∀ w, ((view s m).set u .waiting).Locking w → w = u := fun w hw =>
      ((View.set_locking_of (.inl rfl) w).mp hw).elim
        (fun h => Classical.not_not.mp fun hne => halone hun hout w hne h) id
    exact fun v w hv hw => (hself v hv).trans (hself w hw).symm
  | wait e hkn hout hseen => rw [hseen] at hnone; cases hnone
  | acquire hwait hfree hseen =>
    rw [hseen] at hnone ⊢
    have hold : ∀ w, ((view s m).set u .acquired).Locking w → (view s m).Locking w := fun w hw =>
      ((View.set_locking_of (.inr rfl) w).mp hw).elim id fun h => h ▸ .inl hwait
    exact fun v w hv hw => hV.alone hnone v w (hold v hv) (hold w hw)
  | register e hun hacq howner hdeg hseen => rw [hseen] at hnone; cases hnone
  | takeOver e hkn hacq hseen => rw [hseen] at hnone; cases hnone
  | release hout hheld hseen =>
    rw [hseen] at hnone ⊢
    have hold : ∀ w, ((view s m).set u .released).Locking w → (view s m).Locking w := fun w hw =>
      ((View.set_locking (.inr rfl) w).mp hw).1
    exact fun v w hv hw => hV.alone hnone v w (hold v hv) (hold w hw)
  | keep e hkn hdeg hrel hseen =>
    rw [hseen, View.set_entries, hkn] at hnone
    cases hnone
  | clear e hkn hdeg hrel hseen =>
    rw [hseen]
    intro v w hv
    have hv : (view s m).Locking v := ((View.set_locking (.inl rfl) v).mp hv).1
    exact absurd hv ((hdeg ▸ hV.count e hkn).eq_zero v)

theorem Owned.closing_effect (hV : Owned (view s m)) (he : Effect s s' u m)
    (hsome : (view s' m).entries = [e]) (hfree : (view s' m).holder = none)
    (hnone : ∀ w, (view s' m).role w ≠ .waiting) : ∃ w, (view s' m).role w = .released := by
  rcases hV.closing_cases he hsome hfree with hrel | ⟨-, -, -, hrole⟩ | ⟨-, -, w, -, hw⟩
  · exact hrel
  · exact absurd (hrole ▸ View.set_role_self) (hnone u)
  · exact absurd hw (hnone w)

-- ---------------------------------------------------------------------------
-- Whole runs
-- ---------------------------------------------------------------------------

structure Kept (s : State) : Prop where
  grounded : Grounded s
  owned : ∀ m, m ≠ 0 → Owned (view s m)

theorem initial_owned (m : Mutex) : Owned (view initial m) := by
  refine ⟨initial_entered m, fun _ u v hu => ?_, fun e he => (nomatch he)⟩
  exact absurd hu (View.not_locking_out rfl)

theorem Kept.step (hs : Kept s) (hg : Exclusive s l) (hstep : step s l = some s') : Kept s' := by
  have hdue := due_of_step hstep
  obtain ⟨s'', hstep', hlocal, heffect⟩ := step_effect hs.grounded hdue hg.1
  cases hstep.symm.trans hstep'
  refine ⟨hs.grounded.local hlocal, fun k hk => ?_⟩
  cases Decidable.em (k = l.mutex) with
  | inr hne => exact hlocal.other k hk hne ▸ hs.owned k hk
  | inl heq =>
    subst heq
    have hV := hs.owned l.mutex hk
    exact ⟨hV.toEntered.effect (hg.careful hdue hV) heffect,
      hV.alone_effect heffect (hg.alone hdue hV), fun e => hV.closing_effect heffect⟩

theorem reach_kept (h : threads.Reach Exclusive s) : Kept s := by
  refine h.invariant (P := Kept) ?_ fun s l s' hs hg hstep => hs.step hg hstep
  rintro s rfl
  exact ⟨initial_grounded, fun m _ => initial_owned m⟩

theorem Kept.registered (hs : Kept s) (hq : Settled s) (hm : m ≠ 0) : Registered s m := by
  have hV := hs.owned m hm
  have hacq : ∀ u, (view s m).role u ≠ .acquired := fun u hu => by
    rcases hq u with h | ⟨k, -, h, -⟩
    · exact Pc.noConfusion (h.symm.trans (role_acquired_iff.mp hu))
    · exact Pc.noConfusion (h.symm.trans (role_acquired_iff.mp hu))
  have hrel : ∀ u, (view s m).role u ≠ .released := fun u hu => by
    rcases hq u with h | ⟨k, -, h, -⟩
    · exact Pc.noConfusion (h.symm.trans (role_released_iff.mp hu))
    · exact Pc.noConfusion (h.symm.trans (role_released_iff.mp hu))
  refine ⟨fun v hv => ?_, fun hfree hnone => ?_⟩
  · rcases hs.grounded.sane.entry m hm with he | ⟨e, he⟩
    · exact absurd (hV.unknown he v hv) (hacq v)
    · refine ⟨e, he, hV.owner e he v hv (hacq v), (hV.count e he).congr fun u => ?_⟩
      rw [View.Locking, role_waiting_iff, or_iff_left (hacq u)]
  · rcases hs.grounded.sane.entry m hm with he | ⟨e, he⟩
    · exact he
    · obtain ⟨u, hu⟩ := hV.closing e he hfree fun u hu => hnone u (role_waiting_iff.mp hu)
      exact absurd hu (hrel u)

/-- In a run that keeps to the condition the table is right whenever it is
settled, and no hook reads or writes outside it. -/
theorem reach_registered (h : threads.Reach Exclusive s) :
    (Settled s → ∀ m, m ≠ 0 → Registered s m) ∧
      ∀ l, Due s l → Exclusive s l → ∃ s', step s l = some s' := by
  have hs := reach_kept h
  refine ⟨fun hq m hm => hs.registered hq hm, fun l hdue hg => ?_⟩
  obtain ⟨s', hstep, -⟩ := step_effect hs.grounded hdue hg.1
  exact ⟨s', hstep⟩

theorem reach_registered_one : ∃ s, threads.Reach Exclusive s ∧ Settled s ∧ s.holder 7 = some 1 ∧
    Registered s 7 := by
  have h₀ : threads.Reach Exclusive initial := .init rfl
  have h₁ := h₀.step (i := Label.lockBefore 1 7)
    ⟨fun e he => absurd he List.not_mem_nil, fun _ w _ => ⟨Pc.noConfusion, Pc.noConfusion⟩⟩ rfl
  have h₂ := h₁.step (i := Label.acquire 1 7) ⟨trivial, trivial⟩ rfl
  have h₃ := h₂.step (i := Label.lockAfter 1 7) ⟨fun _ => by decide, trivial⟩ rfl
  obtain ⟨s, hrun, hpc, hheld⟩ : ∃ s, threads.Reach Exclusive s ∧ (∀ u, s.pc u = .idle) ∧
      s.holder 7 = some 1 := by
    refine ⟨_, h₃, fun u => ?_, rfl⟩
    cases Decidable.em (u = 1) with
    | inl heq => subst heq; rfl
    | inr hne => simp [State.at, initial]
  have hq : Settled s := fun u => .inl (hpc u)
  exact ⟨s, hrun, hq, hheld, (reach_registered hrun).1 hq 7 (by decide)⟩

/-- Thread 2 waits, gets the mutex and registers; then `unlock_after` of the old
holder finds degree 0 and clears the entry of the new one. -/
theorem registered_lost : ∃ s, threads.Reach Transition.free s ∧ Settled s ∧
    s.holder 7 = some 2 ∧ entries s.tg 7 = [] := by
  refine ⟨_, reach_run [.lockBefore 1 7, .acquire 1 7, .lockAfter 1 7, .lockBefore 2 7, .release 1 7,
    .acquire 2 7, .lockAfter 2 7, .unlockAfter 1 7] (.init rfl) rfl, fun u => .inl ?_, rfl, rfl⟩
  cases Decidable.em (u = 1) with
  | inl heq => subst heq; rfl
  | inr h₁ =>
    cases Decidable.em (u = 2) with
    | inl heq => subst heq; rfl
    | inr h₂ => simp [State.at, initial, h₁, h₂]

end LearningCode.Deadlock
