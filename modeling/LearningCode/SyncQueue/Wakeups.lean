import LearningCode.SyncQueue.Model
import LearningCode.Lib.Tally

/-!
# First in, first out, and no lost wake-up

One invariant over all interleavings: who is inside holds the mutex, the list is
what was put and not taken, and for each condition there are no more units (of
items, or of room) than threads awake to take them, as long as one sleeps.
-/

namespace LearningCode.SyncQueue

open Transition

variable {τ α : Type} {kind : Kind} {s s' : State τ α} {t u : τ} {c : Cond} {call : Call α}
  {pc : Pc α} {notified : Option τ}

-- ---------------------------------------------------------------------------
-- The invariant
-- ---------------------------------------------------------------------------

def Pc.Inside : Pc α → Prop
  | .idle | .at _ .lock | .at _ .wait => False
  | .at _ .test | .at _ .act | .at _ .notify | .at _ .unlock => True

/-- In the wait for a condition, asleep or not. -/
def Pc.Waits (kind : Kind) (c : Cond) : Pc α → Prop
  | .at call .wait => call.waits kind = some c
  | _ => False

/-- The one inside is about to take a unit, or to notify of one. -/
def Pc.Due (kind : Kind) (c : Cond) : Pc α → Prop
  | .at call .test | .at call .act => call.waits kind = some c
  | .at call .notify => call.notifies kind = some c
  | _ => False

def Pc.Staged (kind : Kind) : Pc α → Prop
  | .at call .test | .at call .wait => (call.waits kind).isSome
  | .at call .notify => (call.notifies kind).isSome
  | _ => True

instance : Decidable (pc.Due kind c) := by
  unfold Pc.Due
  split <;> infer_instance

def units (kind : Kind) (queue : List α) : Cond → Int
  | .notEmpty => queue.length
  | .notFull => kind.elim 0 fun maxSize => limit maxSize - queue.length

def loose (kind : Kind) (s : State τ α) (c : Cond) : Int :=
  units kind s.queue c - s.mutex.elim 0 fun t => if (s.pc t).Due kind c then 1 else 0

structure Inv (kind : Kind) (s : State τ α) : Prop where
  staged : ∀ t, (s.pc t).Staged kind
  mutex : ∀ t, (s.pc t).Inside ↔ s.mutex = some t
  asleep : ∀ c, ∀ t ∈ s.asleep c, (s.pc t).Waits kind c
  passed : ∀ t call c, s.pc t = .at call .act → call.waits kind = some c →
    blocked kind s.queue c = false
  fifo : s.puts = s.takes ++ s.queue
  bound : ∀ maxSize, kind = some maxSize → s.queue.length ≤ limit maxSize
  covered : ∀ c, Covered (· ∈ s.asleep c) (fun t => (s.pc t).Waits kind c ∧ t ∉ s.asleep c)
    (loose kind s c)

theorem Inv.new : Inv kind (new : State τ α) where
  staged _ := trivial
  mutex _ := iff_of_false id nofun
  asleep _ t h := absurd h (Finset.notMem_empty t)
  passed := nofun
  fifo := rfl
  bound _ _ := Nat.zero_le _
  covered _ := Covered.start (fun _ h => h.1.elim) fun t => Finset.notMem_empty t

-- ---------------------------------------------------------------------------
-- The mutex
-- ---------------------------------------------------------------------------

theorem Inv.owns (h : Inv kind s) (hpc : s.pc t = pc) (hinside : pc.Inside) :
    s.mutex = some t := by
  rw [← h.mutex, hpc]
  exact hinside

theorem passed_other (h : Inv kind s) (hmutex : s.mutex = some t) {call : Call α} (hu : u ≠ t) :
    s.pc u ≠ .at call .act := by
  intro hpc
  have howns := h.owns hpc trivial
  rw [hmutex] at howns
  exact hu (Option.some.inj howns).symm

theorem not_asleep (h : Inv kind s) (ht : ∀ c, ¬(s.pc t).Waits kind c) (c : Cond) :
    t ∉ s.asleep c := fun hmem => ht c (h.asleep c t hmem)

theorem loose_of_some (hmutex : s.mutex = some t) :
    loose kind s c = units kind s.queue c - if (s.pc t).Due kind c then 1 else 0 := by
  rw [loose, hmutex]
  rfl

theorem loose_of_none (hmutex : s.mutex = none) : loose kind s c = units kind s.queue c := by
  rw [loose, hmutex]
  exact sub_zero _

theorem units_of_blocked {queue : List α} (hwaits : call.waits kind = some c)
    (hblocked : blocked kind queue c = true) : units kind queue c = 0 := by
  cases c with
  | notEmpty =>
    rw [List.isEmpty_iff.mp hblocked]
    rfl
  | notFull =>
    cases kind with
    | none => cases hblocked
    | some maxSize =>
      have hfull : queue.length = limit maxSize := of_decide_eq_true hblocked
      simp [units, hfull]

theorem blocked_of_units (h : Inv kind s) (hwaits : call.waits kind = some c)
    (hunits : units kind s.queue c ≤ 0) : blocked kind s.queue c = true := by
  cases c with
  | notEmpty =>
    have hlength : (s.queue.length : Int) ≤ 0 := hunits
    exact List.isEmpty_iff.mpr (List.eq_nil_of_length_eq_zero (by omega))
  | notFull =>
    cases kind with
    | none => cases call <;> cases hwaits
    | some maxSize =>
      have hroom : (limit maxSize : Int) - s.queue.length ≤ 0 := hunits
      have hbound := h.bound maxSize rfl
      exact decide_eq_true (by omega)

-- ---------------------------------------------------------------------------
-- The list operation
-- ---------------------------------------------------------------------------

theorem act_cases (hact : act s call = some s') :
    (∃ x, call = .put x ∧ s' = { s with queue := s.queue ++ [x], puts := s.puts ++ [x] }) ∨
    (∃ x queue, call = .take ∧ s.queue = x :: queue ∧
      s' = { s with queue, takes := s.takes ++ [x] }) ∨
    (call = .look ∧ s' = s) := by
  cases call with
  | put x => exact .inl ⟨x, rfl, (Option.some.inj hact).symm⟩
  | take =>
    cases hq : s.queue with
    | nil => simp [act, hq] at hact
    | cons x queue =>
      simp only [act, hq, Option.some.injEq] at hact
      exact .inr (.inl ⟨x, queue, rfl, rfl, hact.symm⟩)
  | look => exact .inr (.inr ⟨rfl, (Option.some.inj hact).symm⟩)

theorem units_act (hact : act s call = some s') :
    units kind s'.queue c - (if call.notifies kind = some c then 1 else 0) =
      units kind s.queue c - if call.waits kind = some c then 1 else 0 := by
  obtain ⟨x, rfl, rfl⟩ | ⟨x, queue, rfl, hq, rfl⟩ | ⟨rfl, rfl⟩ := act_cases hact
  · cases c <;> cases kind <;> simp [units, Call.waits, Call.notifies]
    omega
  · cases c <;> cases kind <;> simp [units, Call.waits, Call.notifies, hq]
    omega
  · rfl

theorem fifo_act (h : s.puts = s.takes ++ s.queue) (hact : act s call = some s') :
    s'.puts = s'.takes ++ s'.queue := by
  obtain ⟨x, rfl, rfl⟩ | ⟨x, queue, rfl, hq, rfl⟩ | ⟨rfl, rfl⟩ := act_cases hact
  · simp [h]
  · simp [h, hq]
  · exact h

theorem bound_act {maxSize : Int32} (h : s.queue.length ≤ limit maxSize)
    (hroom : ∀ c, call.waits (some maxSize) = some c → blocked (some maxSize) s.queue c = false)
    (hact : act s call = some s') : s'.queue.length ≤ limit maxSize := by
  obtain ⟨x, rfl, rfl⟩ | ⟨x, queue, rfl, hq, rfl⟩ | ⟨rfl, rfl⟩ := act_cases hact
  · have hne : s.queue.length ≠ limit maxSize := of_decide_eq_false (hroom .notFull rfl)
    simp only [List.length_append, List.length_singleton]
    omega
  · rw [hq, List.length_cons] at h
    exact Nat.le_of_succ_le h
  · exact h

theorem act_rest (hact : act s call = some s') :
    s'.pc = s.pc ∧ s'.mutex = s.mutex ∧ s'.asleep = s.asleep := by
  obtain ⟨x, rfl, rfl⟩ | ⟨x, queue, rfl, hq, rfl⟩ | ⟨rfl, rfl⟩ := act_cases hact <;>
    exact ⟨rfl, rfl, rfl⟩

theorem Inv.act_isSome (h : Inv kind s) (hpc : s.pc t = .at call .act) :
    (act s call).isSome := by
  cases call with
  | put x => rfl
  | take =>
    have hpassed := h.passed t .take .notEmpty hpc rfl
    cases hq : s.queue with
    | nil =>
      rw [hq] at hpassed
      cases hpassed
    | cons x queue => simp [act, hq]
  | look => rfl

variable [DecidableEq τ]

theorem staged_keep (h : Inv kind s) (hpc : pc.Staged kind) (u : τ) :
    (Function.update s.pc t pc u).Staged kind := by
  rw [Function.update_apply]
  split
  · exact hpc
  · exact h.staged u

theorem mutex_keep (h : Inv kind s) (hpc : pc.Inside ↔ (s.pc t).Inside) (u : τ) :
    (Function.update s.pc t pc u).Inside ↔ s.mutex = some u := by
  rw [← h.mutex u]
  by_cases hu : u = t
  · rw [hu, Function.update_self, hpc]
  · rw [Function.update_of_ne hu]

theorem mutex_take (h : Inv kind s) (hmutex : s.mutex = none) (hpc : pc.Inside) (u : τ) :
    (Function.update s.pc t pc u).Inside ↔ some t = some u := by
  by_cases hu : u = t
  · simp [hu, hpc]
  · have hout := (h.mutex u).not.mpr (by simp [hmutex])
    simp [Function.update_of_ne hu, hout, Ne.symm hu]

theorem mutex_give (h : Inv kind s) (hmutex : s.mutex = some t) (hpc : ¬pc.Inside) (u : τ) :
    (Function.update s.pc t pc u).Inside ↔ none = some u := by
  by_cases hu : u = t
  · simp [hu, hpc]
  · have hout := (h.mutex u).not.mpr (by simp [hmutex, Ne.symm hu])
    simp [Function.update_of_ne hu, hout]

-- ---------------------------------------------------------------------------
-- The waits
-- ---------------------------------------------------------------------------

theorem asleep_keep (h : Inv kind s) (ht : ∀ c, ¬(s.pc t).Waits kind c) :
    ∀ u ∈ s.asleep c, (Function.update s.pc t pc u).Waits kind c := by
  intro u hu
  have hne : u ≠ t := by
    rintro rfl
    exact not_asleep h ht c hu
  rw [Function.update_of_ne hne]
  exact h.asleep c u hu

theorem waits_keep (ht : ¬(s.pc t).Waits kind c) (hpc : ¬pc.Waits kind c) (u : τ) :
    (Function.update s.pc t pc u).Waits kind c ↔ (s.pc u).Waits kind c := by
  by_cases hu : u = t
  · rw [hu, Function.update_self]
    exact iff_of_false hpc ht
  · rw [Function.update_of_ne hu]

theorem Inv.move (h : Inv kind s) (ht : ∀ c, ¬(s.pc t).Waits kind c)
    (hpc : s'.pc = Function.update s.pc t pc) (hstaged : pc.Staged kind)
    (hwaits : ∀ c, ¬pc.Waits kind c)
    (hmutex : ∀ u, (Function.update s.pc t pc u).Inside ↔ s'.mutex = some u)
    (hasleep : s'.asleep = s.asleep)
    (hpassed : ∀ call c, pc = .at call .act → call.waits kind = some c →
      blocked kind s'.queue c = false)
    (hqueue : s'.queue = s.queue ∨ s.mutex = some t)
    (hfifo : s'.puts = s'.takes ++ s'.queue)
    (hbound : ∀ maxSize, kind = some maxSize → s'.queue.length ≤ limit maxSize)
    (hloose : ∀ c, (s.asleep c).Nonempty → loose kind s' c ≤ loose kind s c) : Inv kind s' where
  staged := by
    rw [hpc]
    exact staged_keep h hstaged
  mutex u := by
    rw [hpc]
    exact hmutex u
  asleep c := by
    rw [hpc, hasleep]
    exact asleep_keep h ht
  passed u call c hu hc := by
    rw [hpc] at hu
    by_cases hut : u = t
    · rw [hut, Function.update_self] at hu
      exact hpassed call c hu hc
    · rw [Function.update_of_ne hut] at hu
      obtain hq | hm := hqueue
      · rw [hq]
        exact h.passed u call c hu hc
      · exact absurd hu (passed_other h hm hut)
  fifo := hfifo
  bound := hbound
  covered c := by
    rw [hpc, hasleep]
    exact (h.covered c).mono (fun _ => id)
      (fun u => by rw [waits_keep (ht c) (hwaits c)]) (hloose c)

-- ---------------------------------------------------------------------------
-- Outside
-- ---------------------------------------------------------------------------

theorem Inv.begin (h : Inv kind s) (hidle : s.pc t = .idle) :
    Inv kind (s.goto t (.at call .lock)) := by
  have hout : s.mutex ≠ some t := (h.mutex t).not.mp (by rw [hidle]; exact id)
  refine h.move (by rw [hidle]; exact fun _ => id) rfl trivial (fun _ => id)
    (mutex_keep h (by rw [hidle]; exact Iff.rfl)) rfl nofun (.inl rfl) h.fifo h.bound fun c _ => ?_
  cases hm : s.mutex with
  | none => rw [loose_of_none hm, loose_of_none (s := s.goto t _) hm]; rfl
  | some v =>
    have hvt : v ≠ t := fun heq => hout (heq ▸ hm)
    rw [loose_of_some hm, loose_of_some (s := s.goto t _) hm]
    simp only [State.goto, Function.update_of_ne hvt, le_refl]

theorem Inv.lock (h : Inv kind s) (hmutex : s.mutex = none) (hpc : s.pc t = .at call .lock) :
    Inv kind ({ s with mutex := some t }.goto t
      (.at call (if (call.waits kind).isSome then .test else .act))) := by
  refine h.move (by rw [hpc]; exact fun _ => id) rfl ?_ (fun c => ?_)
    (mutex_take h hmutex ?_) rfl (fun call' c hact hc => ?_) (.inl rfl) h.fifo h.bound fun c _ => ?_
  · split
    · assumption
    · trivial
  · split <;> exact id
  · split <;> trivial
  · split at hact
    · cases hact
    · rename_i hnone
      cases hact
      exact absurd (by rw [hc]; rfl) hnone
  · rw [loose_of_none hmutex, loose_of_some (s := State.goto _ t _) rfl]
    simp only [State.goto]
    split <;> omega

-- ---------------------------------------------------------------------------
-- Inside
-- ---------------------------------------------------------------------------

theorem Inv.pass (h : Inv kind s) (hpc : s.pc t = .at call .test)
    (hwaits : call.waits kind = some c) (hfree : blocked kind s.queue c = false) :
    Inv kind (s.goto t (.at call .act)) := by
  have hmutex : s.mutex = some t := h.owns hpc trivial
  refine h.move (by rw [hpc]; exact fun _ => id) rfl trivial (fun _ => id)
    (mutex_keep h (by rw [hpc]; exact Iff.rfl)) rfl (fun call' c' hact hc' => ?_) (.inl rfl)
    h.fifo h.bound fun c' _ => ?_
  · cases hact
    rw [hwaits] at hc'
    cases hc'
    exact hfree
  · rw [loose_of_some hmutex, loose_of_some (s := s.goto t _) hmutex, hpc]
    simp only [State.goto, Function.update_self]
    exact le_refl _

theorem Inv.sleep (h : Inv kind s) (hpc : s.pc t = .at call .test)
    (hwaits : call.waits kind = some c) (hblocked : blocked kind s.queue c = true) :
    Inv kind ({ s with
      mutex := none, asleep := Function.update s.asleep c (insert t (s.asleep c)) }.goto t
        (.at call .wait)) := by
  have hmutex : s.mutex = some t := h.owns hpc trivial
  have hout : ∀ c, ¬(s.pc t).Waits kind c := by rw [hpc]; exact fun _ => id
  have hother : ∀ c', c' ≠ c → ¬Pc.Waits kind c' (.at call .wait) :=
    fun c' hc heq => hc (Option.some.inj (heq.symm.trans hwaits))
  refine ⟨staged_keep (s := s) h (by rw [Pc.Staged, hwaits]; rfl), mutex_give (s := s) h hmutex id,
    fun c' u hu => ?_, fun u call' c' hu hc' => ?_, h.fifo,
    h.bound, fun c' => ?_⟩
  · show (Function.update s.pc t _ u).Waits kind c'
    simp only [State.goto, Function.update_apply] at hu ⊢
    split at hu
    · rename_i hc
      subst hc
      split
      · exact hwaits
      · rename_i hut
        exact h.asleep c' u ((Finset.mem_insert.mp hu).resolve_left hut)
    · have hut : u ≠ t := fun heq => not_asleep h hout c' (heq ▸ hu)
      rw [if_neg hut]
      exact h.asleep c' u hu
  · simp only [State.goto, Function.update_apply] at hu
    split at hu
    · cases hu
    · exact h.passed u call' c' hu hc'
  · rw [loose_of_none (s := State.goto _ t _) rfl]
    by_cases hc : c' = c
    · subst hc
      refine (h.covered c').sleep (fun u => ?_) (le_of_eq (units_of_blocked hwaits hblocked))
      simp only [State.goto, Function.update_self, Finset.mem_insert, not_or]
      by_cases hut : u = t
      · rw [hut]
        exact iff_of_false (fun h => h.2.1 rfl) fun h => hout c' h.1
      · rw [Function.update_of_ne hut]
        exact ⟨fun h => ⟨h.1, h.2.2⟩, fun h => ⟨h.1, hut, h.2⟩⟩
    · refine (h.covered c').mono (fun u hu => ?_) (fun u => ?_) ?_
      · simpa only [State.goto, Function.update_of_ne hc] using hu
      · simp only [State.goto, Function.update_of_ne hc]
        rw [waits_keep (hout c') (hother c' hc)]
      · have hdue : ¬(s.pc t).Due kind c' := by
          rw [hpc]
          exact hother c' hc
        rw [loose_of_some hmutex, if_neg hdue, sub_zero]
        exact fun _ => le_refl _

theorem Inv.relock (h : Inv kind s) (hmutex : s.mutex = none) (hpc : s.pc t = .at call .wait)
    (hwaits : call.waits kind = some c) (hawake : t ∉ s.asleep c) :
    Inv kind ({ s with mutex := some t }.goto t (.at call .test)) := by
  have hnot : ∀ c', t ∉ s.asleep c' := fun c' hmem => by
    have hw := h.asleep c' t hmem
    rw [hpc] at hw
    exact hawake (Option.some.inj (hwaits.symm.trans hw) ▸ hmem)
  refine ⟨staged_keep (s := s) h (by rw [Pc.Staged, hwaits]; rfl),
    mutex_take (s := s) h hmutex trivial, fun c' u hu => ?_, fun u call' c' hu hc' => ?_,
    h.fifo, h.bound, fun c' => ?_⟩
  · have hut : u ≠ t := fun heq => hnot c' (heq ▸ hu)
    show (Function.update s.pc t _ u).Waits kind c'
    rw [Function.update_of_ne hut]
    exact h.asleep c' u hu
  · simp only [State.goto, Function.update_apply] at hu
    split at hu
    · cases hu
    · exact h.passed u call' c' hu hc'
  · have hloose : loose kind ({ s with mutex := some t }.goto t (.at call .test)) c' =
        loose kind s c' - if call.waits kind = some c' then 1 else 0 := by
      rw [loose_of_some (s := State.goto _ t _) rfl, loose_of_none hmutex]
      simp only [State.goto, Function.update_self]
      rfl
    rw [hloose]
    by_cases hc : c' = c
    · subst hc
      refine (h.covered c').look (t := t) ⟨by rw [hpc]; exact hwaits, hawake⟩ (fun _ => id)
        (fun u => ?_) (by rw [if_pos hwaits])
      simp only [State.goto]
      by_cases hut : u = t
      · rw [hut, Function.update_self]
        exact iff_of_false (fun h => h.1) fun h => h.2 rfl
      · rw [Function.update_of_ne hut]
        exact ⟨fun h => ⟨h, hut⟩, fun h => h.1⟩
    · have hne : call.waits kind ≠ some c' := fun heq =>
        hc (Option.some.inj (heq.symm.trans hwaits))
      refine (h.covered c').mono (fun _ => id) (fun u => ?_)
        (fun _ => by rw [if_neg hne, sub_zero])
      simp only [State.goto]
      rw [waits_keep (by rw [hpc]; exact hne) id]

theorem Inv.act (h : Inv kind s) (hpc : s.pc t = .at call .act) (hact : act s call = some s') :
    Inv kind (s'.goto t (.at call (if (call.notifies kind).isSome then .notify else .unlock))) := by
  have hmutex : s.mutex = some t := h.owns hpc trivial
  obtain ⟨hpc', hmutex', hasleep'⟩ := act_rest hact
  have hdue : ∀ c, (Pc.at call (if (call.notifies kind).isSome then .notify else .unlock)).Due kind c
      ↔ call.notifies kind = some c := by
    intro c
    cases hnotifies : call.notifies kind with
    | none => exact iff_of_false id nofun
    | some c' => simp only [hnotifies, Option.isSome_some, if_true, Pc.Due]
  have hfifo : s'.puts = s'.takes ++ s'.queue := fifo_act h.fifo hact
  refine h.move (by rw [hpc]; exact fun _ => id) (by rw [State.goto, hpc'])
    ?_ (fun c => ?_) (fun u => ?_) hasleep' (fun call' c hnow => ?_) (.inr hmutex)
    hfifo (fun maxSize hkind => ?_) fun c _ => ?_
  · split
    · assumption
    · trivial
  · split <;> exact id
  · rw [mutex_keep h (by rw [hpc]; split <;> exact Iff.rfl), ← hmutex']
    exact Iff.rfl
  · split at hnow <;> cases hnow
  · subst hkind
    have hbound : s'.queue.length ≤ limit maxSize :=
      bound_act (h.bound maxSize rfl) (fun c hc => h.passed t call c hpc hc) hact
    exact hbound
  · rw [loose_of_some hmutex, loose_of_some (s := s'.goto t _) (hmutex'.trans hmutex), hpc]
    simp only [State.goto, Function.update_self, hdue]
    exact le_of_eq (units_act hact)

-- ---------------------------------------------------------------------------
-- Notified and woken
-- ---------------------------------------------------------------------------

theorem Inv.rouse (h : Inv kind s) (hu : u ∈ s.asleep c)
    (hasleep : s'.asleep = Function.update s.asleep c ((s.asleep c).erase u))
    (hwaits : ∀ v c', (s'.pc v).Waits kind c' ↔ (s.pc v).Waits kind c')
    (hstaged : ∀ v, (s'.pc v).Staged kind) (hmutex : ∀ v, (s'.pc v).Inside ↔ s'.mutex = some v)
    (hpassed : ∀ v call, s'.pc v = .at call .act → s.pc v = .at call .act)
    (hqueue : s'.queue = s.queue) (hputs : s'.puts = s.puts) (htakes : s'.takes = s.takes)
    (hloose : ∀ c', loose kind s' c' ≤ loose kind s c' + if c' = c then 1 else 0) :
    Inv kind s' where
  staged := hstaged
  mutex := hmutex
  asleep c' v hv := by
    rw [hasleep, Function.update_apply] at hv
    rw [hwaits]
    split at hv
    · rename_i hc
      exact h.asleep c' v (hc ▸ (Finset.mem_erase.mp hv).2)
    · exact h.asleep c' v hv
  passed v call c' hv hc' := by
    rw [hqueue]
    exact h.passed v call c' (hpassed v call hv) hc'
  fifo := by
    rw [hputs, htakes, hqueue]
    exact h.fifo
  bound := by
    rw [hqueue]
    exact h.bound
  covered c' := by
    simp only [hwaits, hasleep]
    by_cases hc : c' = c
    · subst hc
      have hle := hloose c'
      rw [if_pos rfl] at hle
      refine (h.covered c').wake hu (fun hawake => hawake.2 hu) (fun v => ?_) hle
      simp only [Function.update_self, Finset.mem_erase, not_and]
      by_cases hvu : v = u
      · rw [hvu]
        exact iff_of_true ⟨h.asleep c' u hu, fun hne => absurd rfl hne⟩ (.inr rfl)
      · simp only [hvu, ne_eq, not_false_eq_true, true_imp_iff, or_false]
    · have hle := hloose c'
      rw [if_neg hc, add_zero] at hle
      simp only [Function.update_of_ne hc]
      exact (h.covered c').mono (fun _ => id) (fun _ => Iff.rfl) fun _ => hle

theorem Inv.notifyOne (h : Inv kind s) (hpc : s.pc t = .at call .notify)
    (hnotifies : call.notifies kind = some c) (hu : u ∈ s.asleep c) :
    Inv kind ((s.rouse c u).goto t (.at call .unlock)) := by
  have hmutex : s.mutex = some t := h.owns hpc trivial
  refine h.rouse hu rfl (fun v c' => waits_keep (s := s) (by rw [hpc]; exact id) id v)
    (staged_keep (s := s) h trivial) (mutex_keep (s := s) h (by rw [hpc]; exact Iff.rfl))
    (fun v call' hv => ?_) rfl rfl rfl fun c' => ?_
  · simp only [State.goto, State.rouse, Function.update_apply] at hv
    split at hv
    · cases hv
    · exact hv
  · rw [loose_of_some (s := (s.rouse c u).goto t _) hmutex, loose_of_some hmutex, hpc]
    simp only [State.goto, State.rouse, Function.update_self, Pc.Due, hnotifies, Option.some.injEq,
      if_false, eq_comm (a := c)]
    omega

theorem Inv.notifyNone (h : Inv kind s) (hpc : s.pc t = .at call .notify)
    (hnotifies : call.notifies kind = some c) (hnone : s.asleep c = ∅) :
    Inv kind (s.goto t (.at call .unlock)) := by
  have hmutex : s.mutex = some t := h.owns hpc trivial
  refine h.move (by rw [hpc]; exact fun _ => id) rfl trivial (fun _ => id)
    (mutex_keep h (by rw [hpc]; exact Iff.rfl)) rfl nofun (.inl rfl) h.fifo h.bound
    fun c' hsome => ?_
  have hdue : ¬(s.pc t).Due kind c' := by
    rw [hpc]
    intro heq
    obtain rfl := Option.some.inj (hnotifies.symm.trans heq)
    exact hsome.ne_empty hnone
  rw [loose_of_some hmutex, if_neg hdue, loose_of_some (s := s.goto t _) hmutex]
  simp only [State.goto, Function.update_self, Pc.Due, if_false, le_refl]

theorem Inv.unlock (h : Inv kind s) (hpc : s.pc t = .at call .unlock) :
    Inv kind ({ s with mutex := none }.goto t .idle) := by
  have hmutex : s.mutex = some t := h.owns hpc trivial
  refine h.move (by rw [hpc]; exact fun _ => id) rfl trivial (fun _ => id)
    (mutex_give h hmutex id) rfl nofun (.inl rfl) h.fifo h.bound fun c _ => ?_
  rw [loose_of_some hmutex, loose_of_none (s := State.goto _ t _) rfl, hpc]
  exact le_of_eq (sub_zero _).symm

theorem Inv.wake (h : Inv kind s) (hu : u ∈ s.asleep c) : Inv kind (s.rouse c u) :=
  h.rouse hu rfl (fun _ _ => Iff.rfl) h.staged h.mutex (fun _ _ => id) rfl rfl rfl fun c' => by
    show loose kind s c' ≤ _
    split <;> omega

-- ---------------------------------------------------------------------------
-- Steps and runs
-- ---------------------------------------------------------------------------

theorem Inv.run (h : Inv kind s) {stage : Stage} (hpc : s.pc t = .at call stage)
    (hrun : run kind s t notified call stage = some s') : Inv kind s' := by
  cases stage with
  | lock =>
    obtain ⟨hmutex, heq⟩ := Option.ite_none_right_eq_some.mp hrun
    cases heq
    exact h.lock hmutex hpc
  | test =>
    obtain ⟨c, hwaits, hrun⟩ := Option.bind_eq_some_iff.mp hrun
    split at hrun
    · rename_i hblocked
      cases hrun
      exact h.sleep hpc hwaits hblocked
    · rename_i hfree
      cases hrun
      exact h.pass hpc hwaits (Bool.eq_false_of_not_eq_true hfree)
  | wait =>
    obtain ⟨c, hwaits, hrun⟩ := Option.bind_eq_some_iff.mp hrun
    split at hrun
    · cases hrun
    · rename_i hawake
      obtain ⟨hmutex, heq⟩ := Option.ite_none_right_eq_some.mp hrun
      cases heq
      exact h.relock hmutex hpc hwaits hawake
  | act =>
    obtain ⟨s₁, hact, hrun⟩ := Option.bind_eq_some_iff.mp hrun
    cases hrun
    exact h.act hpc hact
  | notify =>
    obtain ⟨c, hnotifies, hrun⟩ := Option.bind_eq_some_iff.mp hrun
    cases notified with
    | some u =>
      obtain ⟨hu, heq⟩ := Option.ite_none_right_eq_some.mp hrun
      cases heq
      exact h.notifyOne hpc hnotifies hu
    | none =>
      obtain ⟨hnone, heq⟩ := Option.ite_none_right_eq_some.mp hrun
      cases heq
      exact h.notifyNone hpc hnotifies hnone
  | unlock =>
    cases hrun
    exact h.unlock hpc

theorem Inv.step (h : Inv kind s) {i : τ × Action τ α} (hstep : step kind s i.1 i.2 = some s') :
    Inv kind s' := by
  obtain ⟨t, i⟩ := i
  cases i with
  | call call =>
    cases hpc : s.pc t with
    | idle =>
      simp only [SyncQueue.step, hpc, Option.some.injEq] at hstep
      subst hstep
      exact h.begin hpc
    | «at» call' stage => simp [SyncQueue.step, hpc] at hstep
  | run notified =>
    cases hpc : s.pc t with
    | idle => simp [SyncQueue.step, hpc] at hstep
    | «at» call stage =>
      simp only [SyncQueue.step, hpc] at hstep
      exact h.run hpc hstep
  | wake =>
    simp only [SyncQueue.step] at hstep
    split at hstep
    · obtain ⟨c, -, hstep⟩ := Option.bind_eq_some_iff.mp hstep
      obtain ⟨hmem, heq⟩ := Option.ite_none_right_eq_some.mp hstep
      cases heq
      exact h.wake hmem
    · cases hstep

theorem inv_of_reach (h : (queues kind).Reach free s) : Inv kind s :=
  h.invariant (fun _ hs => hs ▸ Inv.new) fun _ _ _ hinv _ hstep => hinv.step hstep

-- ---------------------------------------------------------------------------
-- One item
-- ---------------------------------------------------------------------------

def exec (kind : Kind) : State τ α → List (τ × Action τ α) → Option (State τ α)
  | s, [] => some s
  | s, (t, i) :: is => (step kind s t i).bind (exec kind · is)

theorem reach_exec (is : List (τ × Action τ α)) (h : (queues kind).Reach free s)
    (hexec : exec kind s is = some s') : (queues kind).Reach free s' := by
  induction is generalizing s with
  | nil =>
    cases hexec
    exact h
  | cons i is ih =>
    obtain ⟨s₁, hstep, hexec⟩ := Option.bind_eq_some_iff.mp hexec
    exact ih (h.step trivial hstep) hexec

def whole (t : Bool) (call : Call Nat) (n : Nat) : List (Bool × Action Bool Nat) :=
  (t, .call call) :: List.replicate n (t, .run none)

theorem reach_oneItem : ∃ s : State Bool Nat, (queues (some 1)).Reach free s ∧ s.puts = [7] ∧
    s.takes = [7] ∧ s.queue = [] ∧ s.pc false = .idle ∧ s.pc true = .at .take .wait ∧
    s.asleep .notEmpty = {true} ∧ s.mutex = none :=
  ⟨_, reach_exec (whole false (.put 7) 5 ++ whole true .take 5 ++ whole true .take 2) (.init rfl)
    rfl, rfl, rfl, rfl, rfl, rfl, rfl, rfl⟩

-- ---------------------------------------------------------------------------
-- First in, first out
-- ---------------------------------------------------------------------------

/-- What was taken and what is in the list is what was put, in the order it was put; the
list does not outgrow the size; one thread at a time is inside; and no thread that gets to
the front of the list finds nothing there. -/
theorem syncQueue_fifo (h : (queues kind).Reach free s) :
    s.puts = s.takes ++ s.queue ∧
      (∀ maxSize, kind = some maxSize → s.queue.length ≤ limit maxSize) ∧
      (∀ t u, (s.pc t).Inside → (s.pc u).Inside → t = u) ∧
      ∀ t, s.pc t = .at .take .act → s.queue ≠ [] := by
  have hinv := inv_of_reach h
  refine ⟨hinv.fifo, hinv.bound, fun t u ht hu => ?_, fun t ht hnil => ?_⟩
  · exact Option.some.inj (((hinv.mutex t).mp ht).symm.trans ((hinv.mutex u).mp hu))
  · have hpassed := hinv.passed t .take .notEmpty ht rfl
    rw [hnil] at hpassed
    cases hpassed

/-- What came out is what went in. -/
theorem syncQueue_fifo_oneItem : ∃ s : State Bool Nat, s.puts = [7] ∧ s.takes = [7] ∧
    s.puts = s.takes ++ s.queue ∧ s.queue.length ≤ limit 1 := by
  obtain ⟨s, hreach, hputs, htakes, -⟩ := reach_oneItem
  obtain ⟨hfifo, hbound, -⟩ := syncQueue_fifo hreach
  exact ⟨s, hputs, htakes, hfifo, hbound 1 rfl⟩

-- ---------------------------------------------------------------------------
-- When nobody can go on
-- ---------------------------------------------------------------------------

theorem Inv.enabled (h : Inv kind s) (ht : (s.pc t).Inside) :
    ∃ notified s', SyncQueue.step kind s t (.run notified) = some s' := by
  have hstaged := h.staged t
  cases hpc : s.pc t with
  | idle =>
    rw [hpc] at ht
    exact ht.elim
  | «at» call stage =>
    rw [hpc] at ht hstaged
    simp only [SyncQueue.step, hpc]
    cases stage with
    | lock | wait => exact ht.elim
    | test =>
      obtain ⟨c, hwaits⟩ := Option.isSome_iff_exists.mp hstaged
      refine ⟨none, ?_⟩
      simp only [SyncQueue.run, hwaits, Option.bind_eq_bind, Option.bind_some]
      split <;> exact ⟨_, rfl⟩
    | act =>
      obtain ⟨s', hact⟩ := Option.isSome_iff_exists.mp (h.act_isSome hpc)
      simp only [SyncQueue.run, hact]
      exact ⟨none, _, rfl⟩
    | notify =>
      obtain ⟨c, hnotifies⟩ := Option.isSome_iff_exists.mp hstaged
      simp only [SyncQueue.run, hnotifies, Option.bind_eq_bind, Option.bind_some]
      obtain hnone | ⟨u, hu⟩ := (s.asleep c).eq_empty_or_nonempty
      · exact ⟨none, _, if_pos hnone⟩
      · exact ⟨some u, _, if_pos hu⟩
    | unlock => exact ⟨none, _, rfl⟩

/-- With nobody inside, who cannot go on is idle or asleep. -/
theorem Inv.parked (h : Inv kind s) (hmutex : s.mutex = none)
    (hstuck : ∀ t notified, SyncQueue.step kind s t (.run notified) = none) (t : τ) :
    s.pc t = .idle ∨ ∃ call c, s.pc t = .at call .wait ∧ call.waits kind = some c ∧
      t ∈ s.asleep c := by
  have hinside : ¬(s.pc t).Inside := by
    rw [h.mutex, hmutex]
    exact Option.some_ne_none t ∘ Eq.symm
  have hstaged := h.staged t
  have hstep := hstuck t none
  cases hpc : s.pc t with
  | idle => exact .inl rfl
  | «at» call stage =>
    rw [hpc] at hinside hstaged
    simp only [SyncQueue.step, hpc] at hstep
    cases stage with
    | lock => simp [SyncQueue.run, hmutex] at hstep
    | wait =>
      obtain ⟨c, hwaits⟩ := Option.isSome_iff_exists.mp hstaged
      by_cases hmem : t ∈ s.asleep c
      · exact .inr ⟨call, c, rfl, hwaits, hmem⟩
      · simp [SyncQueue.run, hwaits, hmem, hmutex] at hstep
    | test | act | notify | unlock => exact absurd trivial hinside

/-- When no thread can take its next step, every thread is idle or sleeps in a wait for
what is not there: for an item with the list empty, for room with the list full. No
wake-up is lost, and a producer and a consumer never sleep at once with room for an item. -/
theorem no_lost_wakeup (h : (queues kind).Reach free s)
    (hstuck : ∀ t notified, step kind s t (.run notified) = none) (t : τ) :
    s.pc t = .idle ∨ ∃ call c, s.pc t = .at call .wait ∧ call.waits kind = some c ∧
      t ∈ s.asleep c ∧ blocked kind s.queue c = true := by
  have hinv := inv_of_reach h
  have hmutex : s.mutex = none := by
    cases hm : s.mutex with
    | none => rfl
    | some u =>
      obtain ⟨notified, s', hstep⟩ := hinv.enabled ((hinv.mutex u).mpr hm)
      rw [hstuck u notified] at hstep
      cases hstep
  obtain hidle | ⟨call, c, hpc, hwaits, hmem⟩ := hinv.parked hmutex hstuck t
  · exact .inl hidle
  refine .inr ⟨call, c, hpc, hwaits, hmem, blocked_of_units hinv hwaits ?_⟩
  rw [← loose_of_none hmutex]
  refine (hinv.covered c).nothing_missed (fun u hu => ?_) hmem
  obtain hidle | ⟨call', c', hpc', hwaits', hmem'⟩ := hinv.parked hmutex hstuck u
  · rw [hidle] at hu
    exact hu.1
  · rw [hpc'] at hu
    obtain rfl := Option.some.inj (hwaits'.symm.trans hu.1)
    exact hu.2 hmem'

/-- The other thread sleeps, and there is nothing to take. -/
theorem no_lost_wakeup_oneItem : ∃ s : State Bool Nat, s.takes = [7] ∧ s.pc true ≠ .idle ∧
    (s.pc true = .idle ∨ ∃ call c, s.pc true = .at call .wait ∧ call.waits (some 1) = some c ∧
      true ∈ s.asleep c ∧ blocked (some 1) s.queue c = true) := by
  obtain ⟨s, hreach, -, htakes, -, hidle, hwait, hasleep, -⟩ := reach_oneItem
  have hstuck : ∀ t notified, step (some 1) s t (.run notified) = none := by
    intro t notified
    cases t with
    | false => simp [step, hidle]
    | true => simp [step, hwait, run, Call.waits, hasleep]
  exact ⟨s, htakes, by simp [hwait], no_lost_wakeup hreach hstuck true⟩

end LearningCode.SyncQueue
