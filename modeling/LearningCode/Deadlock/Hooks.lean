import LearningCode.Deadlock.Graph

/-!
# The three hooks

What each hook does to the lock table and to the graph, mutex by mutex. A mutex
has one entry or none; entries given up keep degree 0.
-/

namespace LearningCode.Deadlock

variable {tg tg' : TaskGraph} {u v a b : Thread} {m k : Mutex} {e : Pair}

def entries (tg : TaskGraph) (m : Mutex) : List Pair := tg.lockList.filter (·.lockId = m)

structure Sane (tg : TaskGraph) : Prop extends Proper tg where
  entry : ∀ m, m ≠ 0 → entries tg m = [] ∨ ∃ e, entries tg m = [e]
  given : ∀ e ∈ tg.lockList, e.lockId = 0 → e.degress = 0

theorem searchLock_none : searchLock tg m = none ↔ entries tg m = [] := Slots.findIdx?_none_iff

theorem entry_split (he : entries tg m = [e]) :
    ∃ pre suf, tg.lockList = pre ++ e :: suf ∧ e.lockId = m ∧ (∀ y ∈ pre, y.lockId ≠ m) ∧
      (∀ y ∈ suf, y.lockId ≠ m) ∧ searchLock tg m = some pre.length := by
  obtain ⟨pre, suf, hl, hpre, hx, hsuf⟩ := Slots.only_split he
  refine ⟨pre, suf, hl, of_decide_eq_true hx, fun y hy => of_decide_eq_false (hpre y hy),
    fun y hy => of_decide_eq_false (hsuf y hy), ?_⟩
  rw [searchLock, hl, Slots.findIdx?_split hpre hx]

structure Changed (tg tg' : TaskGraph) (m : Mutex) (entries' : List Pair) : Prop where
  here : entries tg' m = entries'
  other : ∀ k, k ≠ 0 → k ≠ m → entries tg' k = entries tg k
  given : ∀ e ∈ tg'.lockList, e.lockId = 0 → e.degress = 0

theorem Changed.sane (hc : Changed tg tg' m l) (hs : Sane tg) (hg : Proper tg')
    (hl : l = [] ∨ ∃ e, l = [e]) : Sane tg' := by
  refine ⟨hg, fun k hk => ?_, hc.given⟩
  cases Decidable.em (k = m) with
  | inl heq => rw [heq, hc.here]; exact hl
  | inr hne => rw [hc.other k hk hne]; exact hs.entry k hk

theorem Changed.slot {x y : Pair} (hs : Sane tg) (hm : m ≠ 0) (hl : tg.lockList = pre ++ x :: suf)
    (hl' : tg'.lockList = pre ++ y :: suf) (hpre : ∀ z ∈ pre, z.lockId ≠ m)
    (hsuf : ∀ z ∈ suf, z.lockId ≠ m) (hx : x.lockId = m ∨ x.lockId = 0)
    (hy : y.lockId = m ∨ y.lockId = 0 ∧ y.degress = 0) :
    Changed tg tg' m (if y.lockId = m then [y] else []) := by
  refine ⟨?_, fun k hk hkm => ?_, fun z hz hz0 => ?_⟩
  · rw [entries, hl', Slots.filter_replace (fun z hz => decide_eq_false (hpre z hz))
      fun z hz => decide_eq_false (hsuf z hz)]
    simp only [decide_eq_true_eq]
  · rw [entries, entries, hl, hl']
    refine Slots.filter_other (decide_eq_false ?_) (decide_eq_false ?_)
    · rcases hy with h | h
      · exact fun h' => hkm (h'.symm.trans h)
      · exact fun h' => hk (h'.symm.trans h.1)
    · rcases hx with h | h
      · exact fun h' => hkm (h'.symm.trans h)
      · exact fun h' => hk (h'.symm.trans h)
  · rw [hl', List.mem_append, List.mem_cons] at hz
    rcases hz with hz | rfl | hz
    · exact hs.given z (by rw [hl]; exact List.mem_append_left _ hz) hz0
    · rcases hy with h | h
      · exact absurd (h.symm.trans hz0) hm
      · exact h.2
    · exact hs.given z (by rw [hl]; exact List.mem_append_right _ (List.mem_cons_of_mem x hz)) hz0

theorem Changed.slot_kept {y : Pair} (hs : Sane tg) (hm : m ≠ 0)
    (hl : tg.lockList = pre ++ e :: suf) (hpre : ∀ z ∈ pre, z.lockId ≠ m)
    (hsuf : ∀ z ∈ suf, z.lockId ≠ m) (hid : e.lockId = m) (hy : y.lockId = m)
    (hl' : tg'.lockList = pre ++ y :: suf) : Changed tg tg' m [y] := by
  have := Changed.slot hs hm hl hl' hpre hsuf (.inl hid) (.inl hy)
  rwa [if_pos hy] at this

-- ---------------------------------------------------------------------------
-- lock_before
-- ---------------------------------------------------------------------------

theorem lockBefore_unknown (he : entries tg m = []) (u : Thread) : lockBefore tg u m = some tg := by
  rw [lockBefore, searchLock_none.mpr he]

theorem lockBefore_spec (hs : Sane tg) (hm : m ≠ 0) (he : entries tg m = [e])
    (hroom : tg.vertexList.length + missing tg u e.thId ≤ maxSlots) :
    ∃ tg', lockBefore tg u m = some tg' ∧ Sane tg' ∧
      Changed tg tg' m [{ e with degress := e.degress + 1 }] ∧
      ∀ a b, Edge tg' a b ↔ Edge tg a b ∨ a = u ∧ b = e.thId ∧ u ≠ e.thId := by
  obtain ⟨pre, suf, hl, hid, hpre, hsuf, hsearch⟩ := entry_split he
  obtain ⟨tg₁, hadd₁, hg₁, hlock₁, hvertex₁, hedge₁, hlen₁⟩ := addVertex_spec (u := u) hs.toProper
    fun hnone => by
      rw [missing, if_pos hnone] at hroom
      omega
  -- the degree goes up between the two vertices
  let tg₂ : TaskGraph := { tg₁ with lockList := pre ++ { e with degress := e.degress + 1 } :: suf }
  have hg₂ : Proper tg₂ := hg₁.congr rfl
  obtain ⟨tg₃, hadd₃, hg₃, hlock₃, hvertex₃, hedge₃, -⟩ := addVertex_spec (u := e.thId) hg₂
    fun hnone => by
      have hnot : ¬ (IsVertex tg e.thId ∨ e.thId = u) := fun h =>
        searchVertex_none.mp hnone ((hvertex₁ _).mpr h)
      have hmissing : e.thId ≠ u ∧ searchVertex tg (process e.thId) = none :=
        ⟨fun h => hnot (.inr h), searchVertex_none.mpr fun h => hnot (.inl h)⟩
      rw [missing, if_pos hmissing] at hroom
      show tg₁.vertexList.length < maxSlots
      omega
  obtain ⟨tg₄, hlink, hg₄, hlock₄, hedge₄⟩ := linkEdge_spec hg₃
    ((hvertex₃ u).mpr (.inl ((hvertex₁ u).mpr (.inr rfl)))) ((hvertex₃ e.thId).mpr (.inr rfl))
  have hchanged : Changed tg tg₄ m [{ e with degress := e.degress + 1 }] :=
    .slot_kept hs hm hl hpre hsuf hid hid (hlock₄.trans hlock₃)
  refine ⟨tg₄, ?_, hchanged.sane hs hg₄ (.inr ⟨_, rfl⟩), hchanged, fun a b => ?_⟩
  · simp only [lockBefore, hsearch, hadd₁, Option.bind_eq_bind, Option.bind_some, hlock₁, hl,
      Slots.getElem?_split, Slots.modify_split]
    show (addVertex tg₂ (process e.thId)).bind _ = _
    rw [hadd₃]
    exact hlink
  · rw [hedge₄, hedge₃, edge_congr (show tg₂.vertexList = tg₁.vertexList from rfl), hedge₁]

-- ---------------------------------------------------------------------------
-- lock_after
-- ---------------------------------------------------------------------------

theorem lockAfter_unknown (hs : Sane tg) (hm : m ≠ 0) (he : entries tg m = [])
    (hroom : searchEmptyLock tg m < maxSlots) (u : Thread) :
    ∃ tg' e, lockAfter tg u m = some tg' ∧ Sane tg' ∧ Changed tg tg' m [e] ∧ e.thId = u ∧
      e.degress = 0 ∧ ∀ a b, Edge tg' a b ↔ Edge tg a b := by
  have hnone : ∀ y ∈ tg.lockList, y.lockId ≠ m := fun y hy => by
    simpa using List.filter_eq_nil_iff.mp he y hy
  cases hempty : tg.lockList.findIdx? fun p => p.lockId = 0 with
  | some i =>
    -- a slot given up before
    obtain ⟨pre, x, suf, hl, rfl, hx, hpre⟩ := Slots.exists_split hempty
    have hx : x.lockId = 0 := of_decide_eq_true hx
    have hx0 : x.degress = 0 := hs.given x (by rw [hl]; simp) hx
    have hidx : searchEmptyLock tg m = pre.length := by rw [searchEmptyLock, hempty]; rfl
    have hlt : pre.length < tg.lockList.length := by
      rw [hl, List.length_append, List.length_cons]
      omega
    let tg' : TaskGraph :=
      { tg with lockList := pre ++ { x with thId := u, lockId := m } :: suf }
    have hl' : tg'.lockList = pre ++ { x with thId := u, lockId := m } :: suf := rfl
    have hchanged : Changed tg tg' m [{ x with thId := u, lockId := m }] := by
      have := Changed.slot hs hm hl hl'
        (fun z hz => hnone z (by rw [hl]; exact List.mem_append_left _ hz))
        (fun z hz => hnone z (by rw [hl]; exact List.mem_append_right _ (List.mem_cons_of_mem x hz)))
        (.inr hx) (.inl rfl)
      rwa [if_pos rfl] at this
    refine ⟨tg', _, ?_, hchanged.sane hs (hs.toProper.congr rfl) (.inr ⟨_, rfl⟩), hchanged, rfl, hx0,
      fun a b => edge_congr rfl⟩
    rw [lockAfter, searchLock_none.mpr he]
    simp only [hidx] at hroom ⊢
    rw [if_neg (by omega), if_pos hlt, hl, Slots.modify_split]
  | none =>
    have hidx : searchEmptyLock tg m = tg.lockList.length := by rw [searchEmptyLock, hempty]; rfl
    let e : Pair := { zeroedPair with thId := u, lockId := m }
    let tg' : TaskGraph := { tg with lockList := tg.lockList ++ [e] }
    have hentries : ∀ k, entries tg' k = entries tg k ++ if m = k then [e] else [] := fun k => by
      simp only [entries, tg', List.filter_append, List.filter_cons, List.filter_nil,
        decide_eq_true_eq, e]
    have hchanged : Changed tg tg' m [e] := by
      refine ⟨by rw [hentries, he, if_pos rfl]; rfl, fun k _ hkm => ?_, fun z hz hz0 => ?_⟩
      · rw [hentries, if_neg fun h => hkm h.symm, List.append_nil]
      · rcases List.mem_append.mp hz with hz | hz
        · exact hs.given z hz hz0
        · cases List.mem_singleton.mp hz
          exact absurd hz0 hm
    refine ⟨tg', e, ?_, hchanged.sane hs (hs.toProper.congr rfl) (.inr ⟨_, rfl⟩), hchanged, rfl, rfl,
      fun a b => edge_congr rfl⟩
    rw [lockAfter, searchLock_none.mpr he]
    simp only [hidx] at hroom ⊢
    rw [if_neg (by omega), if_neg (Nat.lt_irrefl _)]

theorem lockAfter_spec (hs : Sane tg) (hm : m ≠ 0) (he : entries tg m = [e]) (u : Thread) :
    ∃ tg', lockAfter tg u m = some tg' ∧ Sane tg' ∧
      Changed tg tg' m [{ e with thId := u, degress := e.degress - 1 }] ∧
      ∀ a b, Edge tg' a b ↔ Edge tg a b ∧ ¬ (a = u ∧ b = e.thId) := by
  obtain ⟨pre, suf, hl, hid, hpre, hsuf, hsearch⟩ := entry_split he
  let tg₁ : TaskGraph := { tg with lockList := pre ++ { e with degress := e.degress - 1 } :: suf }
  obtain ⟨tg₂, hcut, hg₂, hlock₂, hedge₂⟩ := cutEdge_spec
    (show Proper tg₁ from hs.toProper.congr rfl) u e.thId
  let tg₃ : TaskGraph :=
    { tg₂ with lockList := pre ++ { e with thId := u, degress := e.degress - 1 } :: suf }
  have hchanged : Changed tg tg₃ m [{ e with thId := u, degress := e.degress - 1 }] :=
    .slot_kept hs hm hl hpre hsuf hid hid rfl
  refine ⟨tg₃, ?_, hchanged.sane hs (hg₂.congr rfl) (.inr ⟨_, rfl⟩), hchanged, fun a b => ?_⟩
  · simp only [lockAfter, hsearch, Option.bind_eq_bind, Option.bind_some, hl, Slots.getElem?_split,
      Slots.modify_split]
    rw [hcut, hlock₂]
    simp only [tg₁, tg₃, Slots.modify_split]
  · exact (edge_congr (show tg₃.vertexList = tg₂.vertexList from rfl)).trans (hedge₂ a b)

-- ---------------------------------------------------------------------------
-- unlock_after
-- ---------------------------------------------------------------------------

theorem unlockAfter_keep (he : entries tg m = [e]) (hd : e.degress ≠ 0) (u : Thread) :
    unlockAfter tg u m = some tg := by
  obtain ⟨pre, suf, hl, -, -, -, hsearch⟩ := entry_split he
  simp only [unlockAfter, hsearch, hl, Slots.getElem?_split, Option.bind_eq_bind, Option.bind_some,
    if_neg hd]

theorem unlockAfter_clear (hs : Sane tg) (hm : m ≠ 0) (he : entries tg m = [e]) (hd : e.degress = 0)
    (u : Thread) :
    ∃ tg', unlockAfter tg u m = some tg' ∧ Sane tg' ∧ Changed tg tg' m [] ∧
      ∀ a b, Edge tg' a b ↔ Edge tg a b := by
  obtain ⟨pre, suf, hl, hid, hpre, hsuf, hsearch⟩ := entry_split he
  let tg' : TaskGraph := { tg with lockList := pre ++ { e with thId := 0, lockId := 0 } :: suf }
  have hl' : tg'.lockList = pre ++ { e with thId := 0, lockId := 0 } :: suf := rfl
  have hchanged : Changed tg tg' m [] := by
    have := Changed.slot hs hm hl hl' hpre hsuf (.inl hid) (.inr ⟨rfl, hd⟩)
    rwa [if_neg (show (0 : Nat) ≠ m from hm.symm)] at this
  refine ⟨tg', ?_, hchanged.sane hs (hs.toProper.congr rfl) (.inl rfl), hchanged,
    fun a b => edge_congr rfl⟩
  simp only [unlockAfter, hsearch, hl, Slots.getElem?_split, Option.bind_eq_bind, Option.bind_some,
    if_pos hd, Slots.modify_split, tg']

end LearningCode.Deadlock
