import LearningCode.ArrayQueue.Fifo

/-!
# When the array queue refuses

Beside a run, for each thread whether the queue was full, and whether it was empty, at
some instant of the call the thread is in or made last. Both tests compare positions
modulo `Q_SIZE`, so a counter that is a lap ahead of an old copy looks like the copy.
-/

namespace LearningCode.ArrayQueue

open Threads Transition

abbrev Full (qSize : Nat) (s : Queue α) : Prop := s.writeIndex - s.readIndex = qSize - 1

abbrev Empty (s : Queue α) : Prop := s.readIndex = s.maximumReadIndex

structure Watch (α τ : Type) where
  st : Queue α × (τ → Pc α)
  full : τ → Bool
  empty : τ → Bool

variable {α τ : Type} [DecidableEq τ] {qSize w r : Nat} {s s' : Queue α} {pc pc' : Pc α}
  {W W' : Watch α τ} {t u : τ} {wasFull wasEmpty wasFull' wasEmpty' : Prop}

/-- A call begins with the instant at which it is made, and a thread without a call
under way sees nothing. -/
def watch (pc : τ → Pc α) (i : τ × Action α) (now : Bool) (seen : τ → Bool) (t : τ) : Bool :=
  if t = i.1 then
    match i.2 with
    | .run => seen t || now
    | _ => now
  else if (pc t).returned then seen t
  else seen t || now

def watched (α τ : Type) [DecidableEq τ] (qSize : Nat) :
    Transition (Watch α τ) (τ × Action α) where
  init W := ((queue α qSize).threads τ).init W.st ∧ ∀ t, ¬W.full t ∧ ¬W.empty t
  step W i W' := ((queue α qSize).threads τ).step W.st i W'.st ∧
    W'.full = watch W.st.2 i (Full qSize W'.st.1) W.full ∧
    W'.empty = watch W.st.2 i (Empty W'.st.1) W.empty

/-- The counter that is compared with an old copy is not a lap ahead of it. Behind
`2 ^ 64 - 1` elements an enqueue would be one too many. -/
def Kept (qSize : Nat) (s : Queue α) : Pc α → Prop
  | .enqueueLoadRead _ w => w + 1 < 2 ^ 64 ∧
      (countToIndex qSize (w + 1) = countToIndex qSize s.readIndex →
        qSize = 2 ∨ s.readIndex ≤ w)
  | .dequeueLoadMaximum r =>
      countToIndex qSize r = countToIndex qSize s.maximumReadIndex →
        qSize = 2 ∨ s.maximumReadIndex < r + qSize
  | _ => True

def inTime (qSize : Nat) (W : Watch α τ) (i : τ × Action α) : Prop :=
  i.2 = .run → Kept qSize W.st.1 (W.st.2 i.1)

-- ---------------------------------------------------------------------------
-- What a step does to the counters
-- ---------------------------------------------------------------------------

structure Moved (s s' : Queue α) : Prop where
  maximum : s.maximumReadIndex ≤ s'.maximumReadIndex
  write : s'.writeIndex = s.writeIndex ∨
    s'.writeIndex = s.writeIndex + 1 ∧ s'.readIndex = s.readIndex
  read : s'.readIndex = s.readIndex ∨
    s'.readIndex = s.readIndex + 1 ∧ s'.writeIndex = s.writeIndex

theorem Moved.refl (s : Queue α) : Moved s s := ⟨Nat.le_refl _, .inl rfl, .inl rfl⟩

theorem Moved.read_le (h : Moved s s') : s.readIndex ≤ s'.readIndex := by
  rcases h.read with heq | ⟨heq, -⟩
  · exact Nat.le_of_eq heq.symm
  · exact heq ▸ Nat.le_succ _

theorem moved_of_run (hs : Shared qSize s) (hpc : Here qSize s pc) (hs' : Shared qSize s')
    (hfew : Few s') (h : run qSize s pc = (s', pc')) : Moved s s' := by
  cases pc with
  | enqueueReserve data w =>
    simp only [run] at h
    split at h
    · cases h
      have hwrite := hs'.written
      simp only [List.length_append, List.length_singleton, ← hs.written] at hwrite
      exact ⟨Nat.le_refl _, .inr ⟨hwrite, rfl⟩, .inl rfl⟩
    · cases h
      exact .refl s
  | enqueueCommit w =>
    simp only [run] at h
    split at h
    · next heq =>
      subst heq
      cases h
      have hlt : s.maximumReadIndex + 1 < 2 ^ 64 := by
        have hlen : s.stored.length < 2 ^ 64 := hfew
        rw [← hs.written] at hlen
        exact Nat.lt_of_le_of_lt hpc.1.2 hlen
      refine ⟨?_, .inl rfl, .inl rfl⟩
      simp only [uint64_of_lt hlt]
      exact Nat.le_succ _
    · cases h
      exact .refl s
  | dequeueTake data r =>
    simp only [run] at h
    split at h
    · cases h
      have hread := hs'.read
      simp only [List.length_append, List.length_singleton, ← hs.read] at hread
      exact ⟨Nat.le_refl _, .inl rfl, .inr ⟨hread, rfl⟩⟩
    · cases h
      exact .refl s
  | enqueueLoadRead data w =>
    simp only [run] at h
    split at h
    · cases h
      exact .refl s
    · cases h
      exact .refl s
  | dequeueLoadMaximum r =>
    simp only [run] at h
    split at h
    · cases h
      exact .refl s
    · cases h
      exact .refl s
  | enqueueStore data w =>
    cases h
    exact ⟨Nat.le_refl _, .inl rfl, .inl rfl⟩
  | enqueueCount =>
    cases h
    exact ⟨Nat.le_refl _, .inl rfl, .inl rfl⟩
  | dequeueCount data =>
    cases h
    exact ⟨Nat.le_refl _, .inl rfl, .inl rfl⟩
  | _ =>
    cases h
    exact .refl s

theorem moved_of_step {action : Action α} (hs : Shared qSize s) (hpc : Here qSize s pc)
    (hs' : Shared qSize s') (hfew : Few s') (h : step qSize s pc action = some (s', pc')) :
    Moved s s' := by
  cases action with
  | enqueue data =>
    simp only [step, Option.ite_none_right_eq_some, Option.some.injEq, Prod.mk.injEq] at h
    rw [← h.2.1]
    exact .refl s
  | dequeue =>
    simp only [step, Option.ite_none_right_eq_some, Option.some.injEq, Prod.mk.injEq] at h
    rw [← h.2.1]
    exact .refl s
  | run =>
    simp only [step, Option.ite_none_left_eq_some, Option.some.injEq] at h
    exact moved_of_run hs hpc hs' hfew h.2

/-- With two slots the queue is full whenever `m_writeIndex` has just moved. -/
theorem Moved.full (h : Moved s s') (hs : Shared 2 s) (hs' : Shared 2 s')
    (hne : s'.writeIndex ≠ s.writeIndex) : Full 2 s' := by
  obtain ⟨hwrite, hread⟩ := h.write.resolve_left hne
  have hle := Nat.le_trans hs.read_le hs.maximum_le
  have hroom := hs'.room
  unfold Full
  omega

/-- With two slots the queue is empty whenever `m_readIndex` has just moved. -/
theorem Moved.empty (h : Moved s s') (hs : Shared 2 s) (hs' : Shared 2 s')
    (hne : s'.readIndex ≠ s.readIndex) : Empty s' := by
  obtain ⟨hread, hwrite⟩ := h.read.resolve_left hne
  have hroom := hs.room
  have hle := hs'.read_le
  have hmax := hs'.maximum_le
  unfold Empty
  omega

-- ---------------------------------------------------------------------------
-- What a thread has seen
-- ---------------------------------------------------------------------------

/-- Either the thread has seen what would justify a refusal, or the copy it holds is
less than a lap behind. -/
def Seen (qSize : Nat) (s : Queue α) (wasFull wasEmpty : Prop) : Pc α → Prop
  | .enqueueLoadRead _ w =>
    wasFull ∨ w + 1 < s.readIndex + qSize ∧ (qSize = 2 → w = s.writeIndex)
  | .enqueueReturn done => done = false → wasFull
  | .dequeueLoadMaximum r =>
    wasEmpty ∨ r < s.maximumReadIndex ∧ (qSize = 2 → r = s.readIndex)
  | .dequeueReturn data => data = none → wasEmpty
  | _ => True

theorem Seen.other (h : Seen qSize s wasFull wasEmpty pc) (hmoved : Moved s s') (hs : Shared qSize s)
    (hs' : Shared qSize s') (hfull : wasFull → wasFull') (hempty : wasEmpty → wasEmpty')
    (hnow : pc.returned = false → (Full qSize s' → wasFull') ∧ (Empty s' → wasEmpty')) :
    Seen qSize s' wasFull' wasEmpty' pc := by
  cases pc with
  | enqueueReturn done => exact fun hdone => hfull (h hdone)
  | dequeueReturn data => exact fun hdata => hempty (h hdata)
  | enqueueLoadRead data w =>
    obtain hseen | ⟨hlap, htwo⟩ := h
    · exact .inl (hfull hseen)
    · by_cases hnew : qSize = 2 ∧ s'.writeIndex ≠ s.writeIndex
      · obtain ⟨rfl, hne⟩ := hnew
        exact .inl ((hnow rfl).1 (hmoved.full hs hs' hne))
      · refine .inr ⟨?_, fun hq => ?_⟩
        · exact Nat.lt_of_lt_of_le hlap (Nat.add_le_add_right hmoved.read_le _)
        · have hsame : s'.writeIndex = s.writeIndex := by
            by_contra hne
            exact hnew ⟨hq, hne⟩
          exact (htwo hq).trans hsame.symm
  | dequeueLoadMaximum r =>
    obtain hseen | ⟨hlap, htwo⟩ := h
    · exact .inl (hempty hseen)
    · by_cases hnew : qSize = 2 ∧ s'.readIndex ≠ s.readIndex
      · obtain ⟨rfl, hne⟩ := hnew
        exact .inl ((hnow rfl).2 (hmoved.empty hs hs' hne))
      · refine .inr ⟨Nat.lt_of_lt_of_le hlap hmoved.maximum, fun hq => ?_⟩
        have hsame : s'.readIndex = s.readIndex := by
          by_contra hne
          exact hnew ⟨hq, hne⟩
        exact (htwo hq).trans hsame.symm
  | _ => trivial

/-- The copy of `m_writeIndex` is fresh: the queue is full, or the copy has room. -/
theorem Seen.loadWrite {data : α} (hs : Shared qSize s) (hnow : Full qSize s → wasFull) :
    Seen qSize s wasFull wasEmpty (.enqueueLoadRead data s.writeIndex) := by
  have hroom := hs.room
  by_cases hlap : s.writeIndex + 1 < s.readIndex + qSize
  · exact .inr ⟨hlap, fun _ => rfl⟩
  · refine .inl (hnow ?_)
    unfold Full
    omega

theorem Seen.loadRead (hs : Shared qSize s) (hnow : Empty s → wasEmpty) :
    Seen qSize s wasFull wasEmpty (.dequeueLoadMaximum s.readIndex) := by
  rcases Nat.lt_or_eq_of_le hs.read_le with hlt | heq
  · exact .inr ⟨hlt, fun _ => rfl⟩
  · exact .inl (hnow heq)

theorem Seen.refuse {data : α} (h : Seen qSize s wasFull wasEmpty (.enqueueLoadRead data w))
    (hs : Shared qSize s) (hkept : Kept qSize s (.enqueueLoadRead data w))
    (htest : countToIndex qSize (uint64 (w + 1)) = countToIndex qSize s.readIndex) : wasFull := by
  obtain ⟨hlt, hkept⟩ := hkept
  rw [uint64_of_lt hlt] at htest
  obtain hseen | ⟨hlap, htwo⟩ := h
  · exact hseen
  · exfalso
    have hle := Nat.le_trans hs.read_le hs.maximum_le
    have hread : s.readIndex ≤ w := by
      rcases hkept htest with hq | hread
      · rw [htwo hq]
        exact hle
      · exact hread
    have heq := countToIndex_inj hlap (by omega) htest
    omega

theorem Seen.none (h : Seen qSize s wasFull wasEmpty (.dequeueLoadMaximum r))
    (hs : Shared qSize s) (hkept : Kept qSize s (.dequeueLoadMaximum r))
    (htest : countToIndex qSize r = countToIndex qSize s.maximumReadIndex) : wasEmpty := by
  obtain hseen | ⟨hlap, htwo⟩ := h
  · exact hseen
  · exfalso
    have hroom := hs.room
    have hmax := hs.maximum_le
    have hnear : s.maximumReadIndex < r + qSize := by
      rcases hkept htest with hq | hnear
      · rw [htwo hq]
        exact Nat.lt_of_le_of_lt hmax hroom
      · exact hnear
    have heq := countToIndex_inj (by omega) hnear htest
    omega

theorem Seen.run (h : Seen qSize s wasFull wasEmpty pc) (hs : Shared qSize s)
    (hkept : Kept qSize s pc) (hret : pc.returned = false)
    (hfull : wasFull → wasFull') (hempty : wasEmpty → wasEmpty') (hnow : Full qSize s' → wasFull')
    (hnow' : Empty s' → wasEmpty') (hrun : ArrayQueue.run qSize s pc = (s', pc')) :
    Seen qSize s' wasFull' wasEmpty' pc' := by
  cases pc with
  | idle => cases hret
  | enqueueReturn done => cases hret
  | dequeueReturn data => cases hret
  | enqueueLoadWrite data =>
    cases hrun
    exact .loadWrite hs hnow
  | enqueueLoadRead data w =>
    simp only [ArrayQueue.run] at hrun
    split at hrun
    · next htest =>
      cases hrun
      exact fun _ => hfull (h.refuse hs hkept htest)
    · cases hrun
      trivial
  | enqueueReserve data w =>
    simp only [ArrayQueue.run] at hrun
    split at hrun
    · cases hrun
      trivial
    · cases hrun
      trivial
  | enqueueStore data w =>
    cases hrun
    trivial
  | enqueueCommit w =>
    simp only [ArrayQueue.run] at hrun
    split at hrun
    · cases hrun
      trivial
    · cases hrun
      trivial
  | enqueueCount =>
    cases hrun
    rintro ⟨⟩
  | dequeueLoadRead =>
    cases hrun
    exact .loadRead hs hnow'
  | dequeueLoadMaximum r =>
    simp only [ArrayQueue.run] at hrun
    split at hrun
    · next htest =>
      cases hrun
      exact fun _ => hempty (Seen.none h hs hkept htest)
    · cases hrun
      trivial
  | dequeueCopy r =>
    cases hrun
    trivial
  | dequeueTake data r =>
    simp only [ArrayQueue.run] at hrun
    split at hrun
    · cases hrun
      trivial
    · cases hrun
      trivial
  | dequeueCount data =>
    cases hrun
    rintro ⟨⟩

-- ---------------------------------------------------------------------------
-- Whole runs
-- ---------------------------------------------------------------------------

theorem watch_of_seen {i : τ × Action α} {now : Bool} {seen : τ → Bool} {pcs : τ → Pc α}
    (hcall : u = i.1 → i.2 = .run) (h : seen u = true) : watch pcs i now seen u = true := by
  unfold watch
  split
  · next heq =>
    rw [hcall heq]
    simp [h]
  · simp [h]

theorem watch_of_now {i : τ × Action α} {now : Prop} [Decidable now] {seen : τ → Bool}
    {pcs : τ → Pc α} (hret : (pcs u).returned = false) (h : now) :
    watch pcs i now seen u = true := by
  unfold watch
  split
  · split
    · simp [h]
    · simp [h]
  · simp [hret, h]

def Watched (qSize : Nat) (W : Watch α τ) : Prop :=
  Reach ((queue α qSize).threads τ) Transition.free W.st ∧
    (Few W.st.1 → ∀ t, Seen qSize W.st.1 (W.full t) (W.empty t) (W.st.2 t))

theorem Watched.step {i : τ × Action α} (h : Watched qSize W) (hq : 2 ≤ qSize)
    (hkept : inTime qSize W i) (hstep : (watched α τ qSize).step W i W') : Watched qSize W' := by
  obtain ⟨⟨s, pcs⟩, full, empty⟩ := W
  obtain ⟨⟨s', pcs'⟩, full', empty'⟩ := W'
  obtain ⟨t, action⟩ := i
  obtain ⟨hreach, hseen⟩ := h
  obtain ⟨hbase, hfull, hempty⟩ := hstep
  dsimp only at hreach hseen hbase hfull hempty
  rw [hfull, hempty]
  have hreach' := hreach.step trivial hbase
  refine ⟨hreach', fun hfew => ?_⟩
  obtain ⟨k, hk, hpcs⟩ := hbase
  dsimp only [queue] at hk hpcs
  subst hpcs
  have hbefore : Few s := few_of_step hk hfew
  have hholds := holds hq hreach hbefore
  have hs' : Shared qSize s' := (holds hq hreach' hfew).shared
  have hmoved := moved_of_step hholds.shared (hholds.here t) hs' hfew hk
  intro u
  by_cases hut : u = t
  · subst hut
    simp only [Function.update_self]
    cases action with
    | enqueue data =>
      simp only [ArrayQueue.step, Option.ite_none_right_eq_some, Option.some.injEq,
        Prod.mk.injEq] at hk
      obtain ⟨-, -, rfl⟩ := hk
      trivial
    | dequeue =>
      simp only [ArrayQueue.step, Option.ite_none_right_eq_some, Option.some.injEq,
        Prod.mk.injEq] at hk
      obtain ⟨-, -, rfl⟩ := hk
      trivial
    | run =>
      simp only [ArrayQueue.step, Option.ite_none_left_eq_some, Option.some.injEq,
        Bool.not_eq_true] at hk
      obtain ⟨hret, hrun⟩ := hk
      exact (hseen hbefore u).run hholds.shared (hkept rfl) hret (watch_of_seen fun _ => rfl)
        (watch_of_seen fun _ => rfl) (watch_of_now hret) (watch_of_now hret) hrun
  · simp only [Function.update_of_ne hut]
    exact (hseen hbefore u).other hmoved hholds.shared hs'
      (watch_of_seen fun h => absurd h hut) (watch_of_seen fun h => absurd h hut)
      fun hret => ⟨watch_of_now hret, watch_of_now hret⟩

theorem watched_of_reach (hq : 2 ≤ qSize)
    (hr : Reach (watched α τ qSize) (inTime qSize) W) : Watched qSize W := by
  refine hr.invariant ?_ fun W i W' h hkept hstep => h.step hq hkept hstep
  rintro W ⟨hinit, -⟩
  refine ⟨.init hinit, fun _ t => ?_⟩
  have hidle : W.st.2 t = .idle := hinit.2 t
  rw [hidle]
  trivial

def Watch.next (qSize : Nat) (W : Watch α τ) (i : τ × Action α) (s' : Queue α) (k : Pc α) :
    Watch α τ :=
  ⟨(s', Function.update W.st.2 i.1 k), watch W.st.2 i (Full qSize s') W.full,
    watch W.st.2 i (Empty s') W.empty⟩

theorem reach_next {guard : Watch α τ → τ × Action α → Prop} {i : τ × Action α} {k : Pc α}
    (h : Reach (watched α τ qSize) guard W) (hg : guard W i)
    (hstep : ArrayQueue.step qSize W.st.1 (W.st.2 i.1) i.2 = some (s', k)) :
    Reach (watched α τ qSize) guard (W.next qSize i s' k) :=
  h.step hg ⟨⟨k, hstep, rfl⟩, rfl, rfl⟩

def atRest (theQueue : Nat → α) : Watch α τ :=
  ⟨(construct theQueue, fun _ => .idle), fun _ => false, fun _ => false⟩

theorem reach_atRest {guard : Watch α τ → τ × Action α → Prop} (theQueue : Nat → α) :
    Reach (watched α τ qSize) guard (atRest theQueue) :=
  .init ⟨⟨⟨theQueue, rfl⟩, fun _ => rfl⟩, fun _ => ⟨nofun, nofun⟩⟩

/-- An enqueue that is refused met a full queue, a dequeue an empty one. -/
theorem refusals_justified (hq : 2 ≤ qSize)
    (hr : Reach (watched α τ qSize) (inTime qSize) W) (hfew : W.st.1.stored.length < 2 ^ 64)
    (t : τ) : (W.st.2 t = .enqueueReturn false → W.full t) ∧
      (W.st.2 t = .dequeueReturn none → W.empty t) := by
  have hseen := (watched_of_reach hq hr).2 hfew t
  constructor
  · intro hpc
    rw [hpc] at hseen
    exact hseen rfl
  · intro hpc
    rw [hpc] at hseen
    exact hseen rfl

/-- The first dequeue of all. -/
theorem refusals_justified_first : ∃ W : Watch Nat Bool,
    Reach (watched Nat Bool 2) (inTime 2) W ∧ W.st.2 false = .dequeueReturn none ∧
      W.empty false = true := by
  have h0 : Reach (watched Nat Bool 2) (inTime 2) (atRest fun _ => 0) := reach_atRest _
  have h1 := reach_next (i := (false, .dequeue)) h0 nofun rfl
  have h2 := reach_next (i := (false, .run)) h1 (fun _ => trivial) rfl
  have h3 := reach_next (i := (false, .run)) h2 (fun _ _ => .inl rfl) rfl
  exact ⟨_, h3, rfl, (refusals_justified (by decide) h3 (by decide) false).2 rfl⟩

def Watch.play (qSize : Nat) : Watch α τ → List (τ × Action α) → Option (Watch α τ)
  | W, [] => some W
  | W, i :: is =>
    (ArrayQueue.step qSize W.st.1 (W.st.2 i.1) i.2).bind fun (s', k) =>
      play qSize (W.next qSize i s' k) is

theorem reach_play {is : List (τ × Action α)}
    (h : Reach (watched α τ qSize) Transition.free W) (hrun : W.play qSize is = some W') :
    Reach (watched α τ qSize) Transition.free W' := by
  induction is generalizing W with
  | nil =>
    cases hrun
    exact h
  | cons i is ih =>
    obtain ⟨⟨s', k⟩, hstep, hrun⟩ := Option.bind_eq_some_iff.mp hrun
    exact ih (reach_next h trivial hstep) hrun

def enqueued (t : τ) (data : α) : List (τ × Action α) :=
  (t, .enqueue data) :: List.replicate 6 (t, .run)

def dequeued (t : τ) : List (τ × Action α) := (t, .dequeue) :: List.replicate 5 (t, .run)

/-- Between the two loads of `enqueue` an element comes and goes. -/
def overtaken : List (Bool × Action Nat) :=
  [(false, .enqueue 7), (false, .run)] ++ enqueued true 8 ++ dequeued true ++ [(false, .run)]

/-- Between the two loads of `dequeue` one of two elements is replaced. -/
def lapped : List (Bool × Action Nat) :=
  enqueued true 7 ++ enqueued true 8 ++ [(false, .dequeue), (false, .run)] ++ dequeued true ++
    enqueued true 9 ++ [(false, .run)]

/-- Three slots: an enqueue is refused that never met a full queue, and a dequeue that
never met an empty one. -/
theorem refused_unjustified :
    (∃ W, Reach (watched Nat Bool 3) Transition.free W ∧ W.st.1.stored.length < 2 ^ 64 ∧
      W.st.2 false = .enqueueReturn false ∧ W.full false = false) ∧
    ∃ W, Reach (watched Nat Bool 3) Transition.free W ∧ W.st.1.stored.length < 2 ^ 64 ∧
      W.st.2 false = .dequeueReturn none ∧ W.empty false = false := by
  have hstart : Reach (watched Nat Bool 3) Transition.free (atRest fun _ => 0) := reach_atRest _
  constructor
  · obtain ⟨W, hrun, hlen, hpc, hfull⟩ : ∃ W, (atRest fun _ => 0).play 3 overtaken = some W ∧
        W.st.1.stored.length = 1 ∧ W.st.2 false = .enqueueReturn false ∧ W.full false = false :=
      ⟨_, rfl, rfl, rfl, rfl⟩
    exact ⟨W, reach_play hstart hrun, by simp [hlen], hpc, hfull⟩
  · obtain ⟨W, hrun, hlen, hpc, hempty⟩ : ∃ W, (atRest fun _ => 0).play 3 lapped = some W ∧
        W.st.1.stored.length = 3 ∧ W.st.2 false = .dequeueReturn none ∧ W.empty false = false :=
      ⟨_, rfl, rfl, rfl, rfl⟩
    exact ⟨W, reach_play hstart hrun, by simp [hlen], hpc, hempty⟩

end LearningCode.ArrayQueue
