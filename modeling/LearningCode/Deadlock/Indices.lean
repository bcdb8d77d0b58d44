import LearningCode.Deadlock.Entries
import LearningCode.Deadlock.Cycle

/-!
# The indices of both tables

A table of `MAX` slots is enough for `MAX` threads and `MAX` mutexes: a thread has one
vertex, a mutex one entry, and free slots are used again. `unlock_after` finds its
entry as long as nobody has cleared the entry of a thread that has yet to unlock.
-/

namespace LearningCode.Deadlock

variable {s s' : State} {tg tg' : TaskGraph} {u v w : Thread} {m k : Mutex} {e p q : Pair}
  {V : View} {l : Label} {U : Finset Thread} {M : Finset Mutex}

-- ---------------------------------------------------------------------------
-- The entry a thread has yet to look up
-- ---------------------------------------------------------------------------

def View.Bound (V : View) (w : Thread) : Prop :=
  V.role w = .released ∨ V.holder = some w ∧ V.role w ≠ .acquired

/-- `unlock_after` clears the entry only if no other thread is past its `lock_after`
on the mutex and has not done its own `unlock_after`. -/
def Last (s : State) : Label → Prop
  | .unlockAfter u m => ∀ e ∈ entries s.tg m, e.degress = 0 → ∀ w, w ≠ u → ¬ (view s m).Bound w
  | _ => True

def Within (U : Finset Thread) (M : Finset Mutex) (l : Label) : Prop := l.thread ∈ U ∧ l.mutex ∈ M

instance : Decidable (Within U M l) := inferInstanceAs (Decidable (_ ∧ _))

structure Backed (V : View) : Prop where
  entry : ∀ w, V.Bound w → V.entries ≠ []
  gone : ∀ w, V.role w = .released → V.holder ≠ some w

theorem View.bound_set (hne : w ≠ u) : (V.set u r).Bound w ↔ V.Bound w := by
  rw [View.Bound, View.Bound, View.set_holder, View.set_role_ne hne]

theorem View.bound_set_self (hr : r ≠ .released) (h : (V.set u r).Bound u) :
    V.holder = some u ∧ r ≠ .acquired := by
  rw [View.Bound, View.set_holder, View.set_role_self] at h
  exact h.resolve_left hr

theorem Backed.set_gone (hV : Backed V) (hr : r ≠ .released) (hw : (V.set u r).role w = .released) :
    V.holder ≠ some w := by
  cases V.role_cases u r w with
  | inl h => exact absurd (h.2.symm.trans hw) hr
  | inr h => exact hV.gone w (h.2.symm.trans hw)

theorem Backed.set (hV : Backed V) (hr : r ≠ .released) (hu : V.role u ≠ .acquired) :
    Backed (V.set u r) := by
  refine ⟨fun w hw => ?_, fun w hw => hV.set_gone hr hw⟩
  cases Decidable.em (w = u) with
  | inr hne => exact hV.entry w ((View.bound_set hne).mp hw)
  | inl heq =>
    subst heq
    exact hV.entry w (.inr ⟨(View.bound_set_self hr hw).1, hu⟩)

theorem Backed.enter (hV : Backed V) (hr : r ≠ .released) :
    Backed ((V.set u r).enter [e]) :=
  ⟨fun _ _ => List.cons_ne_nil _ _, fun _ hw => hV.set_gone hr hw⟩

theorem Backed.effect (hV : Backed (view s m)) (he : Effect s s' u m)
    (hlast : ∀ e, (view s m).entries = [e] → e.degress = 0 → (view s m).role u = .released →
      ∀ w, w ≠ u → ¬ (view s m).Bound w) : Backed (view s' m) := by
  cases he with
  | waitUnknown hun hout hseen =>
    rw [hseen]
    exact hV.set nofun (by rw [view_role, hout]; nofun)
  | wait e hkn hout hseen =>
    rw [hseen]
    exact hV.enter nofun
  | acquire hwait hfree hseen =>
    rw [hseen]
    refine ⟨fun w hw => ?_, fun w hw hheld => ?_⟩
    · rcases hw with hw | ⟨hheld, hw⟩
      · rcases (view s m).role_cases u .acquired w with ⟨-, h⟩ | ⟨-, h⟩
        · exact Role.noConfusion (h.symm.trans hw)
        · exact hV.entry w (.inl (h.symm.trans hw))
      · obtain rfl := Option.some.inj hheld
        exact absurd View.set_role_self hw
    · obtain rfl := Option.some.inj hheld
      exact Role.noConfusion (View.set_role_self.symm.trans hw)
  | register e hun hacq howner hdeg hseen =>
    rw [hseen]
    exact hV.enter nofun
  | takeOver e hkn hacq hseen =>
    rw [hseen]
    exact hV.enter nofun
  | release hout hheld hseen =>
    rw [hseen]
    have hbound : (view s m).Bound u := .inr ⟨hheld, by rw [view_role, hout]; nofun⟩
    exact ⟨fun _ _ => hV.entry u hbound, fun _ _ => nofun⟩
  | keep e hkn hdeg hrel hseen =>
    rw [hseen]
    exact hV.set nofun (by rw [hrel]; nofun)
  | clear e hkn hdeg hrel hseen =>
    -- the thread that clears the entry was the last one bound
    rw [hseen]
    refine ⟨fun w hw => ?_, fun w (hw : ((view s m).set u .out).role w = _) =>
      hV.set_gone (V := view s m) (r := .out) nofun hw⟩
    cases Decidable.em (w = u) with
    | inl heq =>
      subst heq
      exact absurd (View.bound_set_self (r := .out) nofun hw).1 (hV.gone w hrel)
    | inr hne => exact absurd ((View.bound_set hne).mp hw) (hlast e hkn hdeg hrel w hne)

theorem Last.clears (hg : Last s l) (hdue : Due s l) (he : (view s l.mutex).entries = [e])
    (hdeg : e.degress = 0) (hrel : (view s l.mutex).role l.thread = .released) :
    ∀ w, w ≠ l.thread → ¬ (view s l.mutex).Bound w := by
  rw [hdue.of_released (role_released_iff.mp hrel)] at hg
  have he : entries s.tg l.mutex = [e] := he
  exact hg e (he ▸ List.mem_singleton_self e) hdeg

-- ---------------------------------------------------------------------------
-- What the entries name
-- ---------------------------------------------------------------------------

def Named (U : Finset Thread) (M : Finset Mutex) (s : State) (k : Mutex) : Prop :=
  ∀ e ∈ (view s k).entries, e.thId ∈ U ∧ k ∈ M

theorem Named.effect (hn : Named U M s m) (he : Effect s s' u m) (hu : u ∈ U) (hm : m ∈ M) :
    Named U M s' m := by
  intro e hmem
  cases he with
  | waitUnknown hun hout hseen =>
    rw [hseen] at hmem
    exact hn e hmem
  | wait e' hkn hout hseen =>
    rw [hseen] at hmem
    obtain rfl := List.mem_singleton.mp hmem
    exact ⟨(hn e' (hkn ▸ List.mem_singleton_self e')).1, hm⟩
  | acquire hwait hfree hseen =>
    rw [hseen] at hmem
    exact hn e hmem
  | register e' hun hacq howner hdeg hseen =>
    rw [hseen] at hmem
    obtain rfl := List.mem_singleton.mp hmem
    exact ⟨howner ▸ hu, hm⟩
  | takeOver e' hkn hacq hseen =>
    rw [hseen] at hmem
    obtain rfl := List.mem_singleton.mp hmem
    exact ⟨hu, hm⟩
  | release hout hheld hseen =>
    rw [hseen] at hmem
    exact hn e hmem
  | keep e' hkn hdeg hrel hseen =>
    rw [hseen] at hmem
    exact hn e hmem
  | clear e' hkn hdeg hrel hseen =>
    rw [hseen] at hmem
    exact absurd hmem List.not_mem_nil

-- ---------------------------------------------------------------------------
-- What the hooks do to the size of the tables
-- ---------------------------------------------------------------------------

structure Table (U : Finset Thread) (tg : TaskGraph) : Prop where
  linked : Linked tg ∧ tg.vertexList.length ≤ maxSlots
  threads : ∀ q ∈ tg.vertexList.map Vertex.pair, q.thId ∈ U
  locks : tg.lockList.length ≤ maxSlots

theorem Linked.congr (h : Linked tg) (heq : tg'.vertexList = tg.vertexList) : Linked tg' := by
  have hsearch (p : Pair) : searchVertex tg' p = searchVertex tg p := by rw [searchVertex, heq]; rfl
  intro ver hver p hp
  rw [hsearch]
  exact h ver (heq ▸ hver) p hp

theorem Table.lock (h : Table U tg) (locks : List Pair) (hlen : locks.length ≤ maxSlots) :
    Table U { tg with lockList := locks } where
  linked := ⟨h.linked.1.congr rfl, h.linked.2⟩
  threads := h.threads
  locks := hlen

theorem pairs_modify (l : List Vertex) (i : Nat) (f : List Pair → List Pair) :
    (l.modify i fun x => { x with next := f x.next }).map Vertex.pair = l.map Vertex.pair := by
  refine List.ext_getElem? fun j => ?_
  simp only [List.getElem?_map, List.getElem?_modify]
  split_ifs <;> cases l[j]? <;> rfl

theorem addVertex_locks (hadd : addVertex tg p = some tg') : tg'.lockList = tg.lockList := by
  unfold addVertex at hadd
  split_ifs at hadd
  · exact Option.some.inj hadd ▸ rfl
  · exact Option.some.inj hadd ▸ rfl

theorem mem_entries (hsearch : searchLock tg m = some idx) (he : tg.lockList[idx]? = some e) :
    e ∈ entries tg m := by
  obtain ⟨pre, x, suf, hl, rfl, hx, -⟩ := Slots.exists_split hsearch
  rw [hl, Slots.getElem?_split] at he
  obtain rfl := Option.some.inj he
  exact List.mem_filter.mpr ⟨by rw [hl]; simp, hx⟩

theorem addVertex_table (h : Table U tg) (hp : p.thId ∈ U) (hadd : addVertex tg p = some tg') :
    Table U tg' := by
  have hlinked := (addVertex_linked h.linked hadd).1
  unfold addVertex at hadd
  split_ifs at hadd with hnew hroom
  · obtain rfl := Option.some.inj hadd
    refine ⟨hlinked, fun q hq => ?_, h.locks⟩
    rw [List.map_append, List.mem_append] at hq
    rcases hq with hq | hq
    · exact h.threads q hq
    · rw [List.mem_singleton.mp hq]
      exact hp
  · exact Option.some.inj hadd ▸ h

theorem addEdge_table (h : Table U tg) (hp : p.thId ∈ U) (hq : q.thId ∈ U)
    (hadd : addEdge tg p q = some tg') : Table U tg' := by
  have hlinked := addEdge_linked h.linked hadd
  simp only [addEdge, Option.bind_eq_bind, Option.bind_eq_some_iff, Option.some.injEq] at hadd
  obtain ⟨tg₁, hadd₁, tg₂, hadd₂, i, -, rfl⟩ := hadd
  have h₂ := addVertex_table (addVertex_table h hp hadd₁) hq hadd₂
  have hpairs := pairs_modify tg₂.vertexList i (· ++ [q])
  exact ⟨hlinked, fun x hx => h₂.threads x (by rw [← hpairs]; exact hx), h₂.locks⟩

theorem removeEdge_table (h : Table U tg) (p q : Pair) : Table U (removeEdge tg p q) := by
  unfold removeEdge
  split
  · next i _ _ _ =>
    have hpairs := pairs_modify tg.vertexList i fun next => next.eraseP (·.thId = q.thId)
    refine ⟨⟨h.linked.1.extend (fun x hx => by rw [hpairs]; exact hx)
      fun ver hver x hx => .inr ?_, ?_⟩, fun x hx => ?_, h.locks⟩
    · obtain ⟨j, hj⟩ := List.mem_iff_getElem?.mp hver
      rw [List.getElem?_modify, Option.map_eq_map, Option.map_eq_some_iff] at hj
      obtain ⟨ver₁, hver₁, rfl⟩ := hj
      refine ⟨ver₁, List.mem_of_getElem? hver₁, ?_⟩
      split_ifs at hx
      · exact List.mem_of_mem_eraseP hx
      · exact hx
    · rw [List.length_modify]
      exact h.linked.2
    · rw [hpairs] at hx
      exact h.threads x hx
  · exact h

theorem lockBefore_table (h : Table U tg) (hu : u ∈ U) (hn : ∀ e ∈ entries tg m, e.thId ∈ U)
    (hhook : lockBefore tg u m = some tg') : Table U tg' := by
  cases hsearch : searchLock tg m with
  | none =>
    rw [lockBefore, hsearch] at hhook
    exact Option.some.inj hhook ▸ h
  | some idx =>
    simp only [lockBefore, hsearch, Option.bind_eq_bind, Option.bind_eq_some_iff] at hhook
    obtain ⟨tg₁, hadd₁, e, he, tg₂, hadd₂, hhook⟩ := hhook
    have h₁ := addVertex_table h hu hadd₁
    have howner : e.thId ∈ U := hn e (mem_entries hsearch (addVertex_locks hadd₁ ▸ he))
    have hlen : (tg₁.lockList.modify idx fun p => { p with degress := p.degress + 1 }).length ≤
        maxSlots := by
      rw [List.length_modify]
      exact h₁.locks
    have h₂ := addVertex_table (h₁.lock _ hlen) (p := process e.thId) howner hadd₂
    split_ifs at hhook
    · exact Option.some.inj hhook ▸ h₂
    · exact addEdge_table (p := process u) (q := process e.thId) h₂ hu howner hhook

theorem lockAfter_table (h : Table U tg) (hhook : lockAfter tg u m = some tg') : Table U tg' := by
  cases hsearch : searchLock tg m with
  | none =>
    simp only [lockAfter, hsearch] at hhook
    split_ifs at hhook with hroom hslot
    · exact Option.some.inj hhook ▸ h.lock _ (by rw [List.length_modify]; exact h.locks)
    · refine Option.some.inj hhook ▸ h.lock _ ?_
      rw [List.length_append, List.length_singleton]
      omega
  | some idx =>
    simp only [lockAfter, hsearch, Option.bind_eq_bind, Option.bind_eq_some_iff] at hhook
    obtain ⟨e, -, hhook⟩ := hhook
    have h₁ := h.lock (tg.lockList.modify idx fun p => { p with degress := p.degress - 1 })
      (by rw [List.length_modify]; exact h.locks)
    obtain rfl := Option.some.inj hhook
    split_ifs
    · have h₂ := removeEdge_table h₁ (process u) (process e.thId)
      exact h₂.lock _ (by rw [List.length_modify]; exact h₂.locks)
    · exact h₁.lock _ (by rw [List.length_modify]; exact h₁.locks)

theorem unlockAfter_table (h : Table U tg) (hhook : unlockAfter tg u m = some tg') : Table U tg' := by
  simp only [unlockAfter, Option.bind_eq_bind, Option.bind_eq_some_iff] at hhook
  obtain ⟨idx, -, e, -, hhook⟩ := hhook
  split_ifs at hhook
  · exact Option.some.inj hhook ▸ h.lock _ (by rw [List.length_modify]; exact h.locks)
  · exact Option.some.inj hhook ▸ h

theorem step_table (h : Table U s.tg) (hu : l.thread ∈ U)
    (hn : ∀ e ∈ entries s.tg l.mutex, e.thId ∈ U) (hstep : step s l = some s') : Table U s'.tg := by
  have hdue := due_of_step hstep
  cases l with
  | lockBefore u m =>
    obtain ⟨tg, hhook, rfl⟩ := Option.map_eq_some_iff.mp ((if_pos hdue).symm.trans hstep)
    exact lockBefore_table h hu hn hhook
  | acquire u m =>
    obtain rfl := Option.some.inj ((if_pos hdue).symm.trans hstep)
    exact h
  | lockAfter u m =>
    obtain ⟨tg, hhook, rfl⟩ := Option.map_eq_some_iff.mp ((if_pos hdue).symm.trans hstep)
    exact lockAfter_table h hhook
  | release u m =>
    obtain rfl := Option.some.inj ((if_pos hdue).symm.trans hstep)
    exact h
  | unlockAfter u m =>
    obtain ⟨tg, hhook, rfl⟩ := Option.map_eq_some_iff.mp ((if_pos hdue).symm.trans hstep)
    exact unlockAfter_table h hhook

-- ---------------------------------------------------------------------------
-- Room in both tables
-- ---------------------------------------------------------------------------

theorem length_le_card {ids : List Nat} {T : Finset Nat} (hnd : ids.Nodup) (hsub : ∀ x ∈ ids, x ∈ T) :
    ids.length ≤ T.card := by
  rw [← List.toFinset_card_of_nodup hnd]
  exact Finset.card_le_card fun x hx => hsub x (List.mem_toFinset.mp hx)

theorem Proper.not_mem_ids (hg : Proper tg) (hu : searchVertex tg (process u) = none) :
    u ∉ tg.vertexList.map (·.pair.thId) := by
  intro hmem
  obtain ⟨x, hx, rfl⟩ := List.mem_map.mp hmem
  exact searchVertex_none.mp hu ⟨x, hx, hg.types x hx, rfl⟩

theorem Table.vertices_le (h : Table U tg) (hg : Proper tg) (hu : u ∈ U) (hv : v ∈ U) :
    tg.vertexList.length + missing tg u v ≤ U.card := by
  have hids : ∀ w ∈ tg.vertexList.map (·.pair.thId), w ∈ U := fun w hw => by
    obtain ⟨x, hx, rfl⟩ := List.mem_map.mp hw
    exact h.threads x.pair (List.mem_map_of_mem hx)
  have hmore {ws : List Thread} (hnd : (ws ++ tg.vertexList.map (·.pair.thId)).Nodup)
      (hws : ∀ w ∈ ws, w ∈ U) : ws.length + tg.vertexList.length ≤ U.card := by
    have := length_le_card hnd fun w hw => (List.mem_append.mp hw).elim (hws w) (hids w)
    rwa [List.length_append, List.length_map] at this
  unfold missing
  split_ifs with hnoU hnoV hnoV
  · have hnd : ([u, v] ++ tg.vertexList.map (·.pair.thId)).Nodup := by
      refine List.nodup_cons.mpr ⟨?_, List.nodup_cons.mpr ⟨hg.not_mem_ids hnoV.2, hg.vertices⟩⟩
      exact fun hmem => (List.mem_cons.mp hmem).elim (fun h => hnoV.1 h.symm) (hg.not_mem_ids hnoU)
    have := hmore hnd (by simp [hu, hv])
    rw [List.length_cons, List.length_singleton] at this
    omega
  · have hnd : ([u] ++ tg.vertexList.map (·.pair.thId)).Nodup :=
      List.nodup_cons.mpr ⟨hg.not_mem_ids hnoU, hg.vertices⟩
    have := hmore hnd (by simp [hu])
    rw [List.length_singleton] at this
    omega
  · have hnd : ([v] ++ tg.vertexList.map (·.pair.thId)).Nodup :=
      List.nodup_cons.mpr ⟨hg.not_mem_ids hnoV.2, hg.vertices⟩
    have := hmore hnd (by simp [hv])
    rw [List.length_singleton] at this
    omega
  · have := hmore (show ([] ++ _).Nodup from hg.vertices) nofun
    rw [List.length_nil] at this
    omega

theorem Sane.lockIds_nodup (hs : Sane tg) (hused : ∀ e ∈ tg.lockList, e.lockId ≠ 0) :
    (tg.lockList.map (·.lockId)).Nodup := by
  refine List.nodup_iff_count_le_one.mpr fun k => ?_
  cases Decidable.em (k = 0) with
  | inl hk =>
    rw [hk, List.count_eq_zero.mpr]
    · exact Nat.zero_le 1
    · intro hmem
      obtain ⟨e, he, he0⟩ := List.mem_map.mp hmem
      exact hused e he he0
  | inr hk =>
    have hcount : (tg.lockList.map (·.lockId)).count k = (entries tg k).length := by
      rw [List.count, List.countP_map, List.countP_eq_length_filter, entries]
      rfl
    rw [hcount]
    rcases hs.entry k hk with he | ⟨e, he⟩
    · rw [he]
      exact Nat.zero_le 1
    · rw [he]
      exact Nat.le_refl 1

theorem searchEmptyLock_lt (hs : Sane tg) (hlen : tg.lockList.length ≤ maxSlots)
    (hM : M.card ≤ maxSlots) (hm : m ∈ M) (hsub : ∀ k, k ≠ 0 → ∀ e ∈ entries tg k, k ∈ M)
    (hnone : entries tg m = []) : searchEmptyLock tg m < maxSlots := by
  rw [searchEmptyLock]
  cases hempty : tg.lockList.findIdx? fun p => p.lockId = 0 with
  | some i =>
    have hi := (List.findIdx?_eq_some_iff_getElem.mp hempty).1
    exact Nat.lt_of_lt_of_le hi hlen
  | none =>
    have hused : ∀ e ∈ tg.lockList, e.lockId ≠ 0 := fun e he => by
      simpa using List.findIdx?_eq_none_iff.mp hempty e he
    have hnew : m ∉ tg.lockList.map (·.lockId) := fun hmem => by
      obtain ⟨e, he, heq⟩ := List.mem_map.mp hmem
      have : e ∈ entries tg m := List.mem_filter.mpr ⟨he, decide_eq_true heq⟩
      rw [hnone] at this
      exact absurd this List.not_mem_nil
    have hcard := length_le_card (List.nodup_cons.mpr ⟨hnew, hs.lockIds_nodup hused⟩) (T := M)
      fun k hk => by
        rcases List.mem_cons.mp hk with rfl | hk
        · exact hm
        · obtain ⟨e, he, rfl⟩ := List.mem_map.mp hk
          exact hsub _ (hused e he) e (List.mem_filter.mpr ⟨he, decide_eq_true rfl⟩)
    rw [List.length_cons, List.length_map] at hcard
    exact Nat.lt_of_lt_of_le (Nat.lt_of_succ_le hcard) hM

-- ---------------------------------------------------------------------------
-- Whole runs
-- ---------------------------------------------------------------------------

structure Indexed (U : Finset Thread) (M : Finset Mutex) (s : State) : Prop where
  grounded : Grounded s
  table : Table U s.tg
  backed : ∀ m, m ≠ 0 → Backed (view s m)
  named : ∀ m, m ≠ 0 → Named U M s m

theorem Due.nonzero (h : Due s l) (hg : Grounded s) : l.mutex ≠ 0 := by
  cases l with
  | lockBefore u m => exact h.2
  | acquire u m => exact hg.inUse u m (by rw [h.1, role_waiting_self]; nofun)
  | lockAfter u m => exact hg.inUse u m (by rw [show s.pc u = _ from h, role_acquired_self]; nofun)
  | release u m => exact hg.held m u h.2
  | unlockAfter u m => exact hg.inUse u m (by rw [show s.pc u = _ from h, role_released_self]; nofun)

theorem Indexed.inBounds (hs : Indexed U M s) (hU : U.card ≤ maxSlots) (hM : M.card ≤ maxSlots)
    (hw : Within U M l) (hdue : Due s l) : InBounds s l := by
  have hm := hdue.nonzero hs.grounded
  cases l with
  | lockBefore u m =>
    intro e he
    have howner := (hs.named m hm e he).1
    exact (hs.table.vertices_le hs.grounded.sane.toProper hw.1 howner).trans hU
  | acquire u m => trivial
  | lockAfter u m =>
    intro hnone
    exact searchEmptyLock_lt hs.grounded.sane hs.table.locks hM hw.2
      (fun k hk e he => (hs.named k hk e he).2) hnone
  | release u m => trivial
  | unlockAfter u m => exact (hs.backed m hm).entry u (.inl (role_released_iff.mpr hdue))

theorem Indexed.step (hs : Indexed U M s) (hU : U.card ≤ maxSlots) (hM : M.card ≤ maxSlots)
    (hw : Within U M l) (hlast : Last s l) (hstep : step s l = some s') : Indexed U M s' := by
  have hdue := due_of_step hstep
  have hm := hdue.nonzero hs.grounded
  obtain ⟨s'', hstep', hlocal, heffect⟩ := step_effect hs.grounded hdue (hs.inBounds hU hM hw hdue)
  cases hstep.symm.trans hstep'
  refine ⟨hs.grounded.local hlocal, ?_, fun k hk => ?_, fun k hk => ?_⟩
  · exact step_table hs.table hw.1 (fun e he => (hs.named _ hm e he).1) hstep
  · cases Decidable.em (k = l.mutex) with
    | inl heq =>
      subst heq
      exact (hs.backed _ hk).effect heffect fun e => hlast.clears hdue
    | inr hne => exact hlocal.other k hk hne ▸ hs.backed k hk
  · cases Decidable.em (k = l.mutex) with
    | inl heq =>
      subst heq
      exact (hs.named _ hk).effect heffect hw.1 hw.2
    | inr hne =>
      intro e he
      rw [hlocal.other k hk hne] at he
      exact hs.named k hk e he

theorem reach_indexed (hU : U.card ≤ maxSlots) (hM : M.card ≤ maxSlots)
    (h : threads.Reach (fun s l => Within U M l ∧ Last s l) s) : Indexed U M s := by
  refine h.invariant (P := Indexed U M) ?_ fun s l s' hs hg hstep => hs.step hU hM hg.1 hg.2 hstep
  rintro s rfl
  refine ⟨initial_grounded, ⟨⟨nofun, Nat.zero_le _⟩, nofun, Nat.zero_le _⟩, fun m _ => ?_, fun m _ => nofun⟩
  refine ⟨fun w hw => ?_, nofun⟩
  rcases hw with hw | ⟨hw, -⟩
  · exact Role.noConfusion hw
  · cases hw

/-- While no entry is cleared under a thread that has yet to unlock, every hook that is
due works inside both tables, and so does the cycle check at any time. -/
theorem reach_indices (hU : U.card ≤ maxSlots) (hM : M.card ≤ maxSlots)
    (h : threads.Reach (fun s l => Within U M l ∧ Last s l) s) :
    (∀ l, Due s l → Within U M l → ∃ s', step s l = some s') ∧
      (s.tg.vertexList.length ≤ maxSlots ∧ s.tg.lockList.length ≤ maxSlots) ∧
      ∀ (scan : Scan) (fuel : Nat), scan.Sized → maxSlots < fuel →
        ∃ scan', checkDeadLock s.tg fuel scan = some scan' ∧ scan'.Sized := by
  have hs := reach_indexed hU hM h
  have hroom := hs.table.linked.2
  refine ⟨fun l hdue hw => ?_, ⟨hroom, hs.table.locks⟩, fun scan fuel hsized hfuel => ?_⟩
  · obtain ⟨s', hstep, -⟩ := step_effect hs.grounded hdue (hs.inBounds hU hM hw hdue)
    exact ⟨s', hstep⟩
  · obtain ⟨scan', hcheck, hsized', -⟩ := checkFrom_spec hs.table.linked.1 hroom
      (Nat.lt_of_le_of_lt hroom hfuel) (s := { scan with deadlock := 0 })
      ⟨hsized.path, hsized.visited⟩ (Nat.zero_add _)
    exact ⟨scan', hcheck, hsized'⟩

/-- A thread locks a mutex and gives it up. -/
theorem reach_indices_one : ∃ s, s.pc 1 = .released 7 ∧ (∃ s', step s (.unlockAfter 1 7) = some s') ∧
    ∃ scan, checkDeadLock s.tg 101 fresh = some scan := by
  have h₀ : threads.Reach (fun s l => Within {1} {7} l ∧ Last s l) initial := .init rfl
  have h₁ := h₀.step (i := Label.lockBefore 1 7) ⟨by decide, trivial⟩ rfl
  have h₂ := h₁.step (i := Label.acquire 1 7) ⟨by decide, trivial⟩ rfl
  have h₃ := h₂.step (i := Label.lockAfter 1 7) ⟨by decide, trivial⟩ rfl
  have h₄ := h₃.step (i := Label.release 1 7) ⟨by decide, trivial⟩ rfl
  obtain ⟨hsteps, -, hcheck⟩ := reach_indices (by decide) (by decide) h₄
  obtain ⟨scan, hscan, -⟩ := hcheck fresh 101 fresh_sized (by decide)
  exact ⟨_, rfl, hsteps (.unlockAfter 1 7) rfl (by decide), scan, hscan⟩

/-- Thread 1 clears the entry that thread 2 has taken over, whose `unlock_after` then
looks the mutex up at index -1. -/
theorem unlockAfter_unregistered : ¬ ∀ (U : Finset Thread) (M : Finset Mutex) (s : State),
    U.card ≤ maxSlots → M.card ≤ maxSlots → threads.Reach (fun _ l => Within U M l) s →
    ∀ l, Due s l → Within U M l → ∃ s', step s l = some s' := by
  intro h
  have h₀ : threads.Reach (fun _ l => Within {1, 2} {7} l) initial := .init rfl
  have h₁ := h₀.step (i := Label.lockBefore 1 7) (by decide) rfl
  have h₂ := h₁.step (i := Label.acquire 1 7) (by decide) rfl
  have h₃ := h₂.step (i := Label.lockAfter 1 7) (by decide) rfl
  have h₄ := h₃.step (i := Label.lockBefore 2 7) (by decide) rfl
  have h₅ := h₄.step (i := Label.release 1 7) (by decide) rfl
  have h₆ := h₅.step (i := Label.acquire 2 7) (by decide) rfl
  have h₇ := h₆.step (i := Label.lockAfter 2 7) (by decide) rfl
  have h₈ := h₇.step (i := Label.unlockAfter 1 7) (by decide) rfl
  have h₉ := h₈.step (i := Label.release 2 7) (by decide) rfl
  obtain ⟨s', hstep⟩ := h {1, 2} {7} _ (by decide) (by decide) h₉ (.unlockAfter 2 7) rfl (by decide)
  cases hstep

end LearningCode.Deadlock
