import Mathlib.Data.List.Nodup
import LearningCode.Lib.Slots
import LearningCode.Deadlock.Model

/-!
# The wait-for graph

The adjacency lists as a relation between threads. Adding and removing an edge
do just that, because a thread has one vertex and no edge twice.
-/

namespace LearningCode.Deadlock

variable {tg tg' : TaskGraph} {u v w a b : Thread}

def IsVertex (tg : TaskGraph) (u : Thread) : Prop :=
  ∃ x ∈ tg.vertexList, x.pair.type = .process ∧ x.pair.thId = u

def Edge (tg : TaskGraph) (u v : Thread) : Prop :=
  ∃ x ∈ tg.vertexList, x.pair.type = .process ∧ x.pair.thId = u ∧ ∃ p ∈ x.next, p.thId = v

instance : Decidable (Edge tg u v) :=
  inferInstanceAs (Decidable (∃ x ∈ tg.vertexList, x.pair.type = .process ∧ x.pair.thId = u ∧
    ∃ p ∈ x.next, p.thId = v))

structure Proper (tg : TaskGraph) : Prop where
  types : ∀ x ∈ tg.vertexList, x.pair.type = .process
  vertices : (tg.vertexList.map (·.pair.thId)).Nodup
  once : ∀ x ∈ tg.vertexList, (x.next.map (·.thId)).Nodup
  targets : ∀ x ∈ tg.vertexList, ∀ p ∈ x.next, IsVertex tg p.thId

def missing (tg : TaskGraph) (u v : Thread) : Nat :=
  (if searchVertex tg (process u) = none then 1 else 0) +
    (if v ≠ u ∧ searchVertex tg (process v) = none then 1 else 0)

theorem missing_le : missing tg u v ≤ 2 := by
  unfold missing
  split <;> split <;> omega

theorem isVertex_congr (h : tg'.vertexList = tg.vertexList) : IsVertex tg' u ↔ IsVertex tg u := by
  rw [IsVertex, h]
  rfl

theorem edge_congr (h : tg'.vertexList = tg.vertexList) : Edge tg' u v ↔ Edge tg u v := by
  rw [Edge, h]
  rfl

theorem Proper.congr (hg : Proper tg) (h : tg'.vertexList = tg.vertexList) : Proper tg' := by
  refine ⟨by rw [h]; exact hg.types, by rw [h]; exact hg.vertices, by rw [h]; exact hg.once, ?_⟩
  intro x hx p hp
  exact (isVertex_congr h).mpr (hg.targets x (h ▸ hx) p hp)

theorem Edge.isVertex (h : Edge tg u v) : IsVertex tg u := by
  obtain ⟨x, hx, htype, hid, -⟩ := h
  exact ⟨x, hx, htype, hid⟩

-- ---------------------------------------------------------------------------
-- The vertex of a thread
-- ---------------------------------------------------------------------------

@[simp] theorem process_type : (process u).type = .process := rfl

@[simp] theorem process_thId : (process u).thId = u := rfl

theorem answers_iff {x : Vertex} :
    (x.pair.type = (process u).type && x.pair.thId = (process u).thId : Bool) = true ↔
      x.pair.type = .process ∧ x.pair.thId = u := by
  rw [Bool.and_eq_true, decide_eq_true_eq, decide_eq_true_eq]
  rfl

theorem searchVertex_none : searchVertex tg (process u) = none ↔ ¬ IsVertex tg u := by
  rw [searchVertex, List.findIdx?_eq_none_iff]
  constructor
  · rintro h ⟨x, hx, hanswers⟩
    exact Bool.false_ne_true ((h x hx).symm.trans (answers_iff.mpr hanswers))
  · intro h x hx
    exact Bool.eq_false_iff.mpr fun hb => h ⟨x, hx, answers_iff.mp hb⟩

theorem Proper.vertex (hg : Proper tg) (hu : IsVertex tg u) :
    ∃ pre x suf, tg.vertexList = pre ++ x :: suf ∧ searchVertex tg (process u) = some pre.length ∧
      x.pair.type = .process ∧ x.pair.thId = u ∧ ∀ y ∈ pre ++ suf, y.pair.thId ≠ u := by
  cases hs : searchVertex tg (process u) with
  | none => exact absurd hu (searchVertex_none.mp hs)
  | some i =>
    obtain ⟨pre, x, suf, hl, rfl, hx, hpre⟩ := Slots.exists_split hs
    have hx := answers_iff.mp hx
    refine ⟨pre, x, suf, hl, rfl, hx.1, hx.2, fun y hy => ?_⟩
    have hnd := hg.vertices
    rw [hl, List.map_append, List.map_cons, List.nodup_middle, ← List.map_append] at hnd
    exact fun heq => (List.nodup_cons.mp hnd).1 (List.mem_map.mpr ⟨y, hy, heq.trans hx.2.symm⟩)

theorem Proper.edge_iff (hl : tg.vertexList = pre ++ x :: suf) (hx : x.pair.type = .process)
    (hu : x.pair.thId = u) (hother : ∀ y ∈ pre ++ suf, y.pair.thId ≠ u) :
    Edge tg u v ↔ ∃ p ∈ x.next, p.thId = v := by
  constructor
  · rintro ⟨y, hy, -, hid, hp⟩
    rw [hl, List.mem_append, List.mem_cons] at hy
    rcases hy with hy | rfl | hy
    · exact absurd hid (hother y (List.mem_append_left suf hy))
    · exact hp
    · exact absurd hid (hother y (List.mem_append_right pre hy))
  · exact fun hp => ⟨x, by rw [hl]; simp, hx, hu, hp⟩

theorem isVertex_replace {y : Vertex} (hy : y.pair = x.pair) (hl : tg.vertexList = pre ++ x :: suf)
    (hl' : tg'.vertexList = pre ++ y :: suf) : IsVertex tg' w ↔ IsVertex tg w := by
  simp only [IsVertex, hl, hl', List.mem_append, List.mem_cons, or_and_right, exists_or,
    exists_eq_left, hy]

theorem Proper.relink (hg : Proper tg) (tg' : TaskGraph) (hl : tg.vertexList = pre ++ x :: suf)
    (hx : x.pair.type = .process) (hu : x.pair.thId = u)
    (hother : ∀ y ∈ pre ++ suf, y.pair.thId ≠ u) (next : List Pair)
    (hnd : (next.map (·.thId)).Nodup) (htargets : ∀ p ∈ next, IsVertex tg p.thId)
    (hl' : tg'.vertexList = pre ++ { x with next := next } :: suf) :
    Proper tg' ∧ (∀ w, IsVertex tg' w ↔ IsVertex tg w) ∧
      ∀ a b, Edge tg' a b ↔ if a = u then ∃ p ∈ next, p.thId = b else Edge tg a b := by
  have hvertex : ∀ w, IsVertex tg' w ↔ IsVertex tg w := fun w => isVertex_replace (by rfl) hl hl'
  have hmem : ∀ y ∈ tg'.vertexList, y = { x with next := next } ∨ y ∈ tg.vertexList := fun y hy => by
    rw [hl'] at hy
    rw [hl]
    simp only [List.mem_append, List.mem_cons] at hy ⊢
    tauto
  have hxmem : x ∈ tg.vertexList := by rw [hl]; simp
  refine ⟨⟨fun y hy => ?_, ?_, fun y hy => ?_, fun y hy p hp => ?_⟩, hvertex, fun a b => ?_⟩
  · rcases hmem y hy with rfl | hy
    · exact hx
    · exact hg.types y hy
  · have := hg.vertices
    rw [hl] at this
    rw [hl']
    simpa using this
  · rcases hmem y hy with rfl | hy
    · exact hnd
    · exact hg.once y hy
  · refine (hvertex _).mpr ?_
    rcases hmem y hy with rfl | hy
    · exact htargets p hp
    · exact hg.targets y hy p hp
  · split
    · next hau =>
      subst hau
      exact Proper.edge_iff hl' hx hu hother
    · next hau =>
      rw [Edge, Edge, hl, hl']
      simp only [List.mem_append, List.mem_cons, or_and_right, exists_or, exists_eq_left, hu]
      have : u ≠ a := fun h => hau h.symm
      simp only [this, false_and, and_false]

-- ---------------------------------------------------------------------------
-- The operations
-- ---------------------------------------------------------------------------

theorem addVertex_spec (hg : Proper tg)
    (hroom : searchVertex tg (process u) = none → tg.vertexList.length < maxSlots) :
    ∃ tg', addVertex tg (process u) = some tg' ∧ Proper tg' ∧ tg'.lockList = tg.lockList ∧
      (∀ w, IsVertex tg' w ↔ IsVertex tg w ∨ w = u) ∧ (∀ a b, Edge tg' a b ↔ Edge tg a b) ∧
      tg'.vertexList.length =
        tg.vertexList.length + if searchVertex tg (process u) = none then 1 else 0 := by
  cases hs : searchVertex tg (process u) with
  | some i =>
    have hu : IsVertex tg u := Classical.not_not.mp fun h => by
      rw [searchVertex_none.mpr h] at hs
      cases hs
    refine ⟨tg, by rw [addVertex, hs]; rfl, hg, rfl, fun w => ⟨.inl, ?_⟩, fun _ _ => Iff.rfl, rfl⟩
    rintro (h | rfl)
    · exact h
    · exact hu
  | none =>
    have hu := searchVertex_none.mp hs
    have hvertex : ∀ w, IsVertex { tg with vertexList := tg.vertexList ++ [⟨process u, []⟩] } w ↔
        IsVertex tg w ∨ w = u := fun w => by
      simp only [IsVertex, List.mem_append, List.mem_singleton, or_and_right, exists_or,
        exists_eq_left, process, zeroedPair, true_and, eq_comm]
    refine ⟨{ tg with vertexList := tg.vertexList ++ [⟨process u, []⟩] }, ?_,
      ⟨fun x hx => ?_, ?_, fun x hx => ?_, fun x hx p hp => ?_⟩, rfl, hvertex, fun a b => ?_, ?_⟩
    · rw [addVertex, hs, if_pos rfl, if_pos (hroom hs)]
    · rcases List.mem_append.mp hx with hx | hx
      · exact hg.types x hx
      · cases List.mem_singleton.mp hx
        rfl
    · rw [List.map_append, List.nodup_append]
      refine ⟨hg.vertices, List.nodup_singleton _, fun w hw v hv => ?_⟩
      obtain ⟨x, hx, rfl⟩ := List.mem_map.mp hw
      rintro rfl
      exact hu ⟨x, hx, hg.types x hx, List.mem_singleton.mp hv⟩
    · rcases List.mem_append.mp hx with hx | hx
      · exact hg.once x hx
      · cases List.mem_singleton.mp hx
        exact List.nodup_nil
    · rcases List.mem_append.mp hx with hx | hx
      · exact (hvertex _).mpr (.inl (hg.targets x hx p hp))
      · cases List.mem_singleton.mp hx
        exact absurd hp List.not_mem_nil
    · simp only [Edge, List.mem_append, List.mem_singleton, or_and_right, exists_or, exists_eq_left,
        List.not_mem_nil, false_and, exists_false, and_false, or_false]
    · simp

theorem verifyEdge_iff (hg : Proper tg) (hu : IsVertex tg u) :
    verifyEdge tg (process u) (process v) = true ↔ u = v ∨ Edge tg u v := by
  obtain ⟨pre, x, suf, hl, hs, htype, hid, hother⟩ := hg.vertex hu
  have hlen : tg.vertexList.length ≠ 0 := by
    rw [hl, List.length_append, List.length_cons]
    omega
  have hget : tg.vertexList[pre.length]? = some x := by rw [hl]; exact Slots.getElem?_split
  rw [Proper.edge_iff hl htype hid hother, verifyEdge, if_neg hlen, hs]
  simp only [hget, Option.any_some, List.any_cons, Bool.or_eq_true, List.any_eq_true,
    decide_eq_true_eq, process_thId, hid]
  exact or_congr_right (exists_congr fun p => and_congr_right fun _ => decide_eq_true_iff)

theorem linkEdge_spec (hg : Proper tg) (hu : IsVertex tg u) (hv : IsVertex tg v) :
    ∃ tg', (if verifyEdge tg (process u) (process v) then some tg
        else addEdge tg (process u) (process v)) = some tg' ∧
      Proper tg' ∧ tg'.lockList = tg.lockList ∧
      ∀ a b, Edge tg' a b ↔ Edge tg a b ∨ a = u ∧ b = v ∧ u ≠ v := by
  cases hver : verifyEdge tg (process u) (process v) with
  | true =>
    refine ⟨tg, if_pos rfl, hg, rfl, fun a b => ⟨.inl, ?_⟩⟩
    rintro (h | ⟨rfl, rfl, hne⟩)
    · exact h
    · exact ((verifyEdge_iff hg hu).mp hver).resolve_left hne
  | false =>
    have hnot : ¬ (u = v ∨ Edge tg u v) := fun h => by
      rw [(verifyEdge_iff hg hu).mpr h] at hver
      cases hver
    obtain ⟨pre, x, suf, hl, hs, htype, hid, hother⟩ := hg.vertex hu
    have hadd : ∀ {w}, IsVertex tg w → addVertex tg (process w) = some tg := fun hw =>
      if_neg fun h => searchVertex_none.mp h hw
    have hxmem : x ∈ tg.vertexList := by rw [hl]; simp
    have hedge := fun b => Proper.edge_iff (v := b) hl htype hid hother
    have hnew : v ∉ x.next.map (·.thId) := fun h => by
      obtain ⟨p, hp, hpv⟩ := List.mem_map.mp h
      exact hnot (.inr ((hedge v).mpr ⟨p, hp, hpv⟩))
    obtain ⟨hg', -, hedge'⟩ := hg.relink
      { tg with vertexList := pre ++ { x with next := x.next ++ [process v] } :: suf } hl htype hid
      hother (x.next ++ [process v]) (by
        rw [List.map_append, List.map_singleton]
        exact (hg.once x hxmem).append (List.nodup_singleton _) (by
          simpa [List.Disjoint, process, zeroedPair] using hnew))
      (fun p hp => by
        rcases List.mem_append.mp hp with hp | hp
        · exact hg.targets x hxmem p hp
        · cases List.mem_singleton.mp hp
          exact hv) rfl
    refine ⟨_, ?_, hg', rfl, fun a b => ?_⟩
    · rw [if_neg Bool.false_ne_true]
      simp only [addEdge, hadd hu, hadd hv, hs, Option.bind_eq_bind, Option.bind_some, hl,
        Slots.modify_split]
    · rw [hedge' a b]
      split
      · next hau =>
        subst hau
        rw [hedge b]
        simp only [List.mem_append, List.mem_singleton, or_and_right, exists_or, exists_eq_left,
          process, zeroedPair, true_and]
        have hne : a ≠ v := fun h => hnot (.inl h)
        simp only [ne_eq, hne, not_false_eq_true, and_true, eq_comm]
      · next hau => simp [hau]

theorem mem_eraseP_iff {l : List Pair} (hnd : (l.map (·.thId)).Nodup) :
    p ∈ l.eraseP (·.thId = v) ↔ p ∈ l ∧ p.thId ≠ v := by
  induction l with
  | nil => simp
  | cons q l ih =>
    obtain ⟨hq, hnd⟩ := List.nodup_cons.mp hnd
    cases Decidable.em (q.thId = v) with
    | inl heq =>
      subst heq
      rw [List.eraseP_cons_of_pos (by simp), List.mem_cons]
      constructor
      · exact fun hp => ⟨.inr hp, fun h => hq (List.mem_map.mpr ⟨p, hp, h⟩)⟩
      · rintro ⟨rfl | hp, hne⟩
        · exact absurd rfl hne
        · exact hp
    | inr hne =>
      rw [List.eraseP_cons_of_neg (by simpa using hne), List.mem_cons, List.mem_cons, ih hnd]
      constructor
      · rintro (rfl | hp)
        · exact ⟨.inl rfl, hne⟩
        · exact ⟨.inr hp.1, hp.2⟩
      · rintro ⟨rfl | hp, hpv⟩
        · exact .inl rfl
        · exact .inr ⟨hp, hpv⟩

theorem cutEdge_spec (hg : Proper tg) (u v : Thread) :
    ∃ tg', (if verifyEdge tg (process u) (process v) then removeEdge tg (process u) (process v)
        else tg) = tg' ∧
      Proper tg' ∧ tg'.lockList = tg.lockList ∧
      ∀ a b, Edge tg' a b ↔ Edge tg a b ∧ ¬ (a = u ∧ b = v) := by
  cases Classical.em (IsVertex tg u) with
  | inr hu =>
    have hver : verifyEdge tg (process u) (process v) = false := by
      rw [verifyEdge, searchVertex_none.mpr hu]
      split <;> rfl
    refine ⟨tg, if_neg (by simp [hver]), hg, rfl, fun a b => ⟨fun h => ⟨h, ?_⟩, fun h => h.1⟩⟩
    rintro ⟨rfl, -⟩
    exact hu h.isVertex
  | inl hu =>
    cases hver : verifyEdge tg (process u) (process v) with
    | false =>
      refine ⟨tg, if_neg Bool.false_ne_true, hg, rfl, fun a b => ⟨fun h => ⟨h, ?_⟩, fun h => h.1⟩⟩
      rintro ⟨rfl, rfl⟩
      rw [(verifyEdge_iff hg hu).mpr (.inr h)] at hver
      cases hver
    | true =>
      obtain ⟨pre, x, suf, hl, hs, htype, hid, hother⟩ := hg.vertex hu
      have hxmem : x ∈ tg.vertexList := by rw [hl]; simp
      have hv : IsVertex tg v := by
        rcases (verifyEdge_iff hg hu).mp hver with rfl | ⟨y, hy, -, -, p, hp, rfl⟩
        · exact hu
        · exact hg.targets y hy p hp
      obtain ⟨j, hj⟩ := Option.ne_none_iff_exists'.mp fun h => searchVertex_none.mp h hv
      obtain ⟨hg', -, hedge'⟩ := hg.relink
        { tg with vertexList := pre ++ { x with next := x.next.eraseP (·.thId = v) } :: suf } hl
        htype hid hother (x.next.eraseP (·.thId = v))
        ((hg.once x hxmem).sublist (List.eraseP_sublist.map _))
        (fun p hp => hg.targets x hxmem p (List.mem_of_mem_eraseP hp)) rfl
      refine ⟨_, ?_, hg', rfl, fun a b => ?_⟩
      · rw [if_pos rfl]
        simp only [removeEdge, hs, hj, hl, Slots.modify_split, process_thId]
        rfl
      · rw [hedge' a b]
        split
        · next hau =>
          subst hau
          rw [Proper.edge_iff hl htype hid hother]
          simp only [mem_eraseP_iff (hg.once x hxmem), true_and]
          grind
        · next hau => simp [hau]

end LearningCode.Deadlock
