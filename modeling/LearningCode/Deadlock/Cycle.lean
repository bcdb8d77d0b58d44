import Mathlib.Data.List.Range
import Mathlib.Tactic.SplitIfs
import LearningCode.Deadlock.Search

/-!
# What the cycle check finds

`visited` is not cleared when the search goes back, so that it finds out whether the
walks below an edge meet anywhere, which they also do where no cycle is. All of the
search is about the list of the vertices marked, in the order of marking: without a
meeting it is the list of the ends of all walks.
-/

namespace LearningCode.Deadlock

open Blocks (write)
open Transition (Reach free)
open Walks (Closed Cyclic Rejoins ends follow)

variable {tg tg' : TaskGraph} {s s' : Scan} {fuel n x y : Nat} {S ys : List Nat} {p u v : Pair}

-- ---------------------------------------------------------------------------
-- graphs
-- ---------------------------------------------------------------------------

theorem searchVertex_isSome : (searchVertex tg p).isSome ↔
    ∃ q ∈ tg.vertexList.map Vertex.pair, q.type = p.type ∧ q.thId = p.thId := by
  simp [searchVertex, List.findIdx?_isSome]

theorem searchVertex_lt (h : searchVertex tg p = some x) : x < tg.vertexList.length :=
  (List.findIdx?_eq_some_iff_getElem.mp h).1

theorem Linked.extend (h : Linked tg)
    (hpairs : tg.vertexList.map Vertex.pair ⊆ tg'.vertexList.map Vertex.pair)
    (hedges : ∀ ver ∈ tg'.vertexList, ∀ p ∈ ver.next, (searchVertex tg' p).isSome ∨
      ∃ ver ∈ tg.vertexList, p ∈ ver.next) : Linked tg' := by
  intro ver hver p hp
  refine (hedges ver hver p hp).elim id fun ⟨ver, hver, hp⟩ => ?_
  obtain ⟨q, hq, hmatch⟩ := searchVertex_isSome.mp (h ver hver p hp)
  exact searchVertex_isSome.mpr ⟨q, hpairs hq, hmatch⟩

theorem addVertex_linked (h : Linked tg ∧ tg.vertexList.length ≤ maxSlots)
    (hadd : addVertex tg p = some tg') : (Linked tg' ∧ tg'.vertexList.length ≤ maxSlots) ∧
      (searchVertex tg' p).isSome ∧ tg.vertexList.map Vertex.pair ⊆ tg'.vertexList.map Vertex.pair := by
  unfold addVertex at hadd
  split_ifs at hadd with hnew hroom
  · obtain rfl := Option.some.inj hadd
    have hpairs : tg.vertexList.map Vertex.pair ⊆
        (tg.vertexList ++ [(⟨p, []⟩ : Vertex)]).map Vertex.pair := by
      simp
    refine ⟨⟨h.1.extend hpairs fun ver hver q hq => .inr ⟨ver, ?_, hq⟩, ?_⟩, ?_, hpairs⟩
    · rcases List.mem_append.mp hver with hver | hver
      · exact hver
      · rw [List.mem_singleton.mp hver] at hq
        exact absurd hq List.not_mem_nil
    · rw [List.length_append]
      exact hroom
    · exact searchVertex_isSome.mpr ⟨p, by simp, rfl, rfl⟩
  · obtain rfl := Option.some.inj hadd
    exact ⟨h, Option.isSome_iff_ne_none.mpr hnew, fun q hq => hq⟩

theorem addEdge_linked (h : Linked tg ∧ tg.vertexList.length ≤ maxSlots)
    (hadd : addEdge tg u v = some tg') : Linked tg' ∧ tg'.vertexList.length ≤ maxSlots := by
  simp only [addEdge, Option.bind_eq_bind, Option.bind_eq_some_iff, Option.some.injEq] at hadd
  obtain ⟨tg₁, hu, tg₂, hv, i, -, rfl⟩ := hadd
  obtain ⟨h₁, -, -⟩ := addVertex_linked h hu
  obtain ⟨h₂, hfound, -⟩ := addVertex_linked h₁ hv
  have hpairs : (tg₂.vertexList.modify i fun x => { x with next := x.next ++ [v] }).map Vertex.pair =
      tg₂.vertexList.map Vertex.pair := by
    refine List.ext_getElem? fun j => ?_
    simp only [List.getElem?_map, List.getElem?_modify]
    split_ifs <;> cases tg₂.vertexList[j]? <;> rfl
  refine ⟨h₂.1.extend (by rw [hpairs]; exact fun q hq => hq) fun ver hver p hp => ?_, ?_⟩
  · obtain ⟨j, hj⟩ := List.mem_iff_getElem?.mp hver
    rw [List.getElem?_modify, Option.map_eq_map, Option.map_eq_some_iff] at hj
    obtain ⟨ver₂, hver₂, rfl⟩ := hj
    have hmem := List.mem_of_getElem? hver₂
    split_ifs at hp
    · rcases List.mem_append.mp hp with hp | hp
      · exact .inr ⟨ver₂, hmem, hp⟩
      · rw [List.mem_singleton.mp hp]
        refine .inl (searchVertex_isSome.mpr ?_)
        rw [hpairs]
        exact searchVertex_isSome.mp hfound
    · exact .inr ⟨ver₂, hmem, hp⟩
  · rw [List.length_modify]
    exact h₂.2

theorem reach_linked (h : Reach building free tg) : Linked tg ∧ tg.vertexList.length ≤ maxSlots := by
  refine h.invariant (P := fun tg => Linked tg ∧ tg.vertexList.length ≤ maxSlots) ?_ ?_
  · rintro tg (hempty : tg.vertexList = [])
    rw [Linked, hempty]
    exact ⟨nofun, Nat.zero_le _⟩
  · rintro tg edit tg' h - hstep
    cases edit with
    | addVertex pair => exact (addVertex_linked h hstep).1
    | addEdge u v => exact addEdge_linked h hstep

theorem successors_closed (tg : TaskGraph) :
    Closed (successors tg) (List.range tg.vertexList.length) := by
  intro x _ y hy
  obtain ⟨p, -, hp⟩ := List.mem_filterMap.mp hy
  exact List.mem_range.mpr (searchVertex_lt hp)

theorem Linked.search (h : Linked tg) {ver : Vertex} (hver : tg.vertexList[x]? = some ver) :
    ver.next.map (searchVertex tg) = (successors tg x).map some := by
  have hnext : successors tg x = ver.next.filterMap (searchVertex tg) := by
    rw [successors, hver]
    rfl
  rw [hnext]
  have hall := h ver (List.mem_of_getElem? hver)
  generalize ver.next = next at hall
  induction next with
  | nil => rfl
  | cons p next ih =>
    obtain ⟨j, hj⟩ := Option.isSome_iff_exists.mp (hall p List.mem_cons_self)
    rw [List.map_cons, List.filterMap_cons_some hj, List.map_cons, hj,
      ih fun q hq => hall q (List.mem_cons_of_mem _ hq)]

-- ---------------------------------------------------------------------------
-- DFS
-- ---------------------------------------------------------------------------

def Traced (tg : TaskGraph) (s : Scan) : Prop :=
  ∀ i < s.k, ∃ x < tg.vertexList.length, s.path[i]? = some (x : Int)

theorem Traced.push (h : Traced tg s) (hx : x < tg.vertexList.length) {path : List Int}
    (hwrite : write s.path s.k (x : Int) = some path) (s' : Scan) (hpath : s'.path = path)
    (hk : s'.k = s.k + 1) : Traced tg s' := by
  have hlt : s.k < s.path.length := by
    by_contra hnot
    exact Option.some_ne_none _ (hwrite.symm.trans (if_neg hnot))
  obtain rfl : s.path.set s.k x = path := Option.some.inj ((if_pos hlt).symm.trans hwrite)
  intro i hi
  rw [hk] at hi
  rw [hpath]
  rcases Nat.eq_or_lt_of_le (Nat.le_of_lt_succ hi) with rfl | hi
  · exact ⟨x, hx, List.getElem?_set_self hlt⟩
  · obtain ⟨y, hy, hget⟩ := h i hi
    exact ⟨y, hy, by rw [List.getElem?_set_ne (Nat.ne_of_gt hi), hget]⟩

theorem Traced.pop (h : Traced tg s) (s' : Scan) (hpath : s'.path = s.path) (hk : s'.k ≤ s.k) :
    Traced tg s' := by
  intro i hi
  rw [hpath]
  exact h i (Nat.lt_of_lt_of_le hi hk)

theorem Traced.read (h : Traced tg s) (hi : i < s.k) :
    ∃ id, (do
      let idx ← s.path[i]?
      let ver ← if idx < 0 then none else tg.vertexList[idx.toNat]?
      some ver.pair.thId) = some id := by
  obtain ⟨x, hx, hget⟩ := h i hi
  refine ⟨tg.vertexList[x].pair.thId, ?_⟩
  have hnot : ¬ (x : Int) < 0 := by omega
  simp only [hget, Option.bind_eq_bind, Option.bind_some, if_neg hnot, Int.toNat_natCast,
    List.getElem?_eq_getElem hx]

theorem mapM_isSome {α β : Type} {f : α → Option β} {l : List α} (h : ∀ a ∈ l, ∃ b, f a = some b) :
    ∃ bs, l.mapM f = some bs := by
  induction l with
  | nil => exact ⟨[], rfl⟩
  | cons a l ih =>
    obtain ⟨b, hb⟩ := h a List.mem_cons_self
    obtain ⟨bs, hbs⟩ := ih fun a ha => h a (List.mem_cons_of_mem _ ha)
    refine ⟨b :: bs, ?_⟩
    rw [List.mapM_cons, hb, hbs]
    rfl

theorem Traced.prints (h : Traced tg s) : ∃ ids, printDeadlock tg s = some ids :=
  mapM_isSome fun _ hi => h.read (List.mem_range.mp hi)

structure Marked (tg : TaskGraph) (S : List Nat) (s : Scan) : Prop extends s.Sized where
  traced : Traced tg s
  marks : ∀ x < tg.vertexList.length, s.visited[x]? = some 1 ↔ x ∈ S
  inside : ∀ x ∈ S, x < tg.vertexList.length
  nodup : S.Nodup

theorem Marked.length_le (h : Marked tg S s) : S.length ≤ tg.vertexList.length := by
  have hsub : S ⊆ List.range tg.vertexList.length := fun x hx => List.mem_range.mpr (h.inside x hx)
  have hle := (List.Nodup.subperm h.nodup hsub).length_le
  rwa [List.length_range] at hle

/-- What a search does that meets the vertices `T` behind the marked ones: it marks
them all, unless one of them is met twice. -/
structure Searched (tg : TaskGraph) (S T : List Nat) (s s' : Scan) (S' : List Nat) : Prop
    extends Marked tg S' s' where
  keeps : S ⊆ S'
  grows : S.length ≤ S'.length
  exact_of : (S ++ T).Nodup → S' = S ++ T
  flag : s'.deadlock = 1 ↔ s.deadlock = 1 ∨ ¬ (S ++ T).Nodup

def Searches (tg : TaskGraph) (fuel : Nat) : Prop :=
  ∀ (S : List Nat) (s : Scan) (x : Nat), Marked tg S s → s.k ≤ S.length → x < tg.vertexList.length →
    tg.vertexList.length - S.length < fuel →
    ∃ s' S', dfs tg fuel (some x) s = some s' ∧ s'.k = s.k + 1 ∧
      Searched tg S (ends (successors tg) fuel x) s s' S'

theorem Searched.refl (h : Marked tg S s) : Searched tg S [] s s S where
  toMarked := h
  keeps := fun _ hx => hx
  grows := Nat.le_refl _
  exact_of _ := (List.append_nil S).symm
  flag := by simp [h.nodup]

theorem Searched.trans {S₁ S' T U : List Nat} {s₁ : Scan} (h₁ : Searched tg S T s s₁ S₁)
    (h₂ : Searched tg S₁ U s₁ s' S') : Searched tg S (T ++ U) s s' S' where
  toMarked := h₂.toMarked
  keeps := fun _ hx => h₂.keeps (h₁.keeps hx)
  grows := Nat.le_trans h₁.grows h₂.grows
  exact_of hnodup := by
    rw [← List.append_assoc] at hnodup ⊢
    have hS₁ := h₁.exact_of (List.Nodup.of_append_left hnodup)
    rw [← hS₁] at hnodup ⊢
    exact h₂.exact_of hnodup
  flag := by
    rw [h₂.flag, h₁.flag, ← List.append_assoc]
    by_cases hT : (S ++ T).Nodup
    · rw [h₁.exact_of hT]
      simp [hT]
    · have hTU : ¬ (S ++ T ++ U).Nodup := fun h => hT (List.Nodup.of_append_left h)
      exact ⟨fun _ => .inr hTU, fun _ => .inl (.inr hT)⟩

theorem searches_all (hfuel : Searches tg fuel) (hS : Marked tg S s) (hk : s.k ≤ S.length)
    (hys : ∀ y ∈ ys, y < tg.vertexList.length) (hdepth : tg.vertexList.length - S.length < fuel) :
    ∃ s' S', (ys.map some).foldlM
        (fun s y => (dfs tg fuel y s).map fun s => { s with k := s.k - 1 }) s = some s' ∧
      s'.k = s.k ∧ Searched tg S (ys.flatMap (ends (successors tg) fuel)) s s' S' := by
  induction ys generalizing s S with
  | nil => exact ⟨s, S, rfl, rfl, .refl hS⟩
  | cons y ys ih =>
    obtain ⟨s₁, S₁, hdfs, hk₁, h₁⟩ := hfuel S s y hS hk (hys y List.mem_cons_self) hdepth
    have hgrows := h₁.grows
    have hmarked : Marked tg S₁ { s₁ with k := s₁.k - 1 } :=
      ⟨⟨h₁.path, h₁.visited⟩, h₁.traced.pop _ rfl (Nat.sub_le _ _), h₁.marks, h₁.inside, h₁.nodup⟩
    obtain ⟨s', S', hfold, hk', h₂⟩ := ih hmarked (by simp only [hk₁]; omega)
      (fun y hy => hys y (List.mem_cons_of_mem _ hy)) (by omega)
    refine ⟨s', S', ?_, by simpa [hk₁] using hk', ?_⟩
    · rw [List.map_cons, List.foldlM_cons, hdfs]
      exact hfold
    · rw [List.flatMap_cons]
      have hfirst : Searched tg S (ends (successors tg) fuel y) s { s₁ with k := s₁.k - 1 } S₁ :=
        ⟨hmarked, h₁.keeps, h₁.grows, h₁.exact_of, h₁.flag⟩
      exact hfirst.trans h₂

theorem foldlM_search {ver : Vertex} (hlinked : Linked tg) (hver : tg.vertexList[x]? = some ver)
    (f : Option Nat → Scan → Option Scan) (s : Scan) :
    ver.next.foldlM (fun s pair => f (searchVertex tg pair) s) s =
      ((successors tg x).map some).foldlM (fun s y => f y s) s := by
  rw [← hlinked.search hver, List.foldlM_map]

theorem searches (hlinked : Linked tg) (hroom : tg.vertexList.length ≤ maxSlots) (fuel : Nat) :
    Searches tg fuel := by
  induction fuel with
  | zero => exact fun _ _ _ _ _ _ hdepth => absurd hdepth (Nat.not_lt_zero _)
  | succ fuel ih =>
    intro S s x hS hk hx hdepth
    have hlen := hS.length_le
    have hpath : s.k < s.path.length := by
      rw [hS.path]
      omega
    have hvisited : x < s.visited.length := by
      rw [hS.visited]
      omega
    have hwrite : write s.path s.k (x : Int) = some (s.path.set s.k x) := if_pos hpath
    have hver := List.getElem?_eq_getElem hx
    have hseen := List.getElem?_eq_getElem hvisited
    by_cases hmem : x ∈ S
    · have hone : s.visited[x] = 1 := Option.some.inj (hseen.symm.trans ((hS.marks x hx).mpr hmem))
      have hmeets : ¬ (S ++ ends (successors tg) (fuel + 1) x).Nodup := fun h =>
        (List.disjoint_of_nodup_append h) hmem List.mem_cons_self
      have hpushed := hS.traced.push hx hwrite
        { s with path := s.path.set s.k x, k := s.k + 1 } rfl rfl
      obtain ⟨ids, hprint⟩ := hpushed.prints
      refine ⟨{ s with path := s.path.set s.k x, k := s.k + 1, deadlock := 1 }, S, ?_, rfl, ?_⟩
      · simp [dfs, hver, hseen, hone, hwrite, hprint]
      · exact ⟨⟨⟨by rw [List.length_set, hS.path], hS.visited⟩,
          hpushed.pop _ rfl (Nat.le_refl _), hS.marks, hS.inside, hS.nodup⟩,
          fun _ hx => hx, Nat.le_refl _, fun h => absurd h hmeets, by simp [hmeets]⟩
    · have hone : ¬ s.visited[x] = 1 := fun h => hmem ((hS.marks x hx).mp (hseen.trans (congrArg some h)))
      have hmark : write s.visited x 1 = some (s.visited.set x 1) := if_pos hvisited
      have hmarked : Marked tg (S ++ [x])
          { s with visited := s.visited.set x 1, path := s.path.set s.k x, k := s.k + 1 } := by
        refine ⟨⟨by rw [List.length_set, hS.path], by rw [List.length_set, hS.visited]⟩,
          hS.traced.push hx hwrite _ rfl rfl, ?_, ?_, ?_⟩
        · intro y hy
          have hy' := hS.marks y hy
          by_cases hyx : x = y
          · subst hyx
            simp [hvisited]
          · simp [hyx, Ne.symm hyx, hy']
        · intro y hy
          rcases List.mem_append.mp hy with hy | hy
          · exact hS.inside y hy
          · rw [List.mem_singleton.mp hy]
            exact hx
        · exact List.nodup_append.mpr ⟨hS.nodup, List.nodup_singleton x, by
            rintro y hy z hz rfl
            exact hmem (List.mem_singleton.mp hz ▸ hy)⟩
      have hmore := hmarked.length_le
      rw [List.length_append, List.length_singleton] at hmore
      have hys (y : Nat) (hy : y ∈ successors tg x) : y < tg.vertexList.length :=
        List.mem_range.mp (successors_closed tg x (List.mem_range.mpr hx) y hy)
      obtain ⟨s', S', hfold, hk', h⟩ := searches_all ih hmarked
        (by simp only [List.length_append, List.length_singleton]; omega) hys
        (by rw [List.length_append, List.length_singleton]; omega)
      refine ⟨s', S', ?_, hk', ?_⟩
      · rw [← foldlM_search hlinked hver fun y s => (dfs tg fuel y s).map fun s => { s with k := s.k - 1 }]
          at hfold
        simp only [dfs, hver, hseen, hwrite, hmark, Option.bind_eq_bind, Option.bind_some, if_neg hone]
        exact hfold
      · have happend : S ++ ends (successors tg) (fuel + 1) x =
            S ++ [x] ++ (successors tg x).flatMap (ends (successors tg) fuel) := by
          rw [List.append_assoc]
          rfl
        exact ⟨h.toMarked, fun _ hy => h.keeps (List.mem_append_left _ hy),
          Nat.le_trans (by simp) h.grows, by rw [happend]; exact h.exact_of, by rw [happend]; exact h.flag⟩

-- ---------------------------------------------------------------------------
-- the searches from a vertex
-- ---------------------------------------------------------------------------

theorem clearVisited_spec {visited : List Int} {i : Nat} (idx : Nat) (h : i + n ≤ visited.length) :
    ∃ visited', clearVisited idx n i visited = some visited' ∧ visited'.length = visited.length ∧
      ∀ j, visited'[j]? = if i ≤ j ∧ j < i + n ∧ j ≠ idx then some 0 else visited[j]? := by
  induction n generalizing i visited with
  | zero =>
    refine ⟨visited, rfl, rfl, fun j => ?_⟩
    rw [if_neg (by omega)]
  | succ n ih =>
    by_cases hi : i = idx
    · obtain ⟨visited', hclear, hlen, hget⟩ := ih (by omega : i + 1 + n ≤ visited.length)
      refine ⟨visited', ?_, hlen, fun j => ?_⟩
      · rw [clearVisited, if_pos hi]
        exact hclear
      · rw [hget]
        exact if_congr (by omega) rfl rfl
    · have hwrite : write visited i 0 = some (visited.set i 0) := if_pos (by omega)
      have hroom : i + 1 + n ≤ (visited.set i 0).length := by
        rw [List.length_set]
        omega
      obtain ⟨visited', hclear, hlen, hget⟩ := ih hroom
      refine ⟨visited', ?_, hlen.trans List.length_set, fun j => ?_⟩
      · rw [clearVisited, if_neg hi, hwrite]
        exact hclear
      · rw [hget, List.getElem?_set]
        split_ifs <;> first | rfl | omega

theorem clearPath_spec {path : List Int} {i : Nat} (h : i + n ≤ path.length) :
    ∃ path', clearPath n i path = some path' ∧ path'.length = path.length := by
  induction n generalizing i path with
  | zero => exact ⟨path, rfl, rfl⟩
  | succ n ih =>
    have hwrite : write path i (-1) = some (path.set i (-1)) := if_pos (by omega)
    have hroom : i + 1 + n ≤ (path.set i (-1)).length := by
      rw [List.length_set]
      omega
    obtain ⟨path', hclear, hlen⟩ := ih hroom
    refine ⟨path', ?_, hlen.trans List.length_set⟩
    rw [clearPath, hwrite]
    exact hclear

theorem clearPath_first {path path' : List Int} (hi : 0 < i) (h : clearPath n i path = some path') :
    path'[0]? = path[0]? := by
  induction n generalizing i path with
  | zero => exact Option.some.inj h ▸ rfl
  | succ n ih =>
    obtain ⟨path₁, hwrite, h⟩ := Option.bind_eq_some_iff.mp h
    rw [ih (Nat.succ_pos i) h]
    unfold write at hwrite
    split_ifs at hwrite
    rw [← Option.some.inj hwrite, List.getElem?_set_ne (Nat.ne_of_gt hi)]

/-- What one turn of the loop of `search_for_cycle` does. -/
def searchBelow (tg : TaskGraph) (fuel idx : Nat) (y : Option Nat) (s : Scan) : Option Scan := do
  let visited ← clearVisited idx tg.vertexList.length 0 s.visited
  let path ← clearPath maxSlots 1 s.path
  dfs tg fuel y { s with visited := visited, path := path, k := 1 }

theorem searchBelow_spec (hlinked : Linked tg) (hroom : tg.vertexList.length ≤ maxSlots)
    (hfuel : tg.vertexList.length < fuel) (hsized : s.Sized) (hx : x < tg.vertexList.length)
    (hone : s.visited[x]? = some 1) (hstart : Traced tg { s with k := 1 })
    (hy : y ∈ successors tg x) :
    ∃ s', searchBelow tg fuel x (some y) s = some s' ∧ s'.Sized ∧ s'.visited[x]? = some 1 ∧
      Traced tg { s' with k := 1 } ∧
      (s'.deadlock = 1 ↔ s.deadlock = 1 ∨ Rejoins (successors tg) y) := by
  have hvisited : 0 + tg.vertexList.length ≤ s.visited.length := by
    rw [hsized.visited, Nat.zero_add]
    exact hroom
  have hpath : 1 + maxSlots ≤ s.path.length := by rw [hsized.path, Nat.add_comm]
  obtain ⟨visited, hclear, hlen, hget⟩ := clearVisited_spec x hvisited
  obtain ⟨path, hclear', hlen'⟩ := clearPath_spec hpath
  have hclosed := successors_closed tg
  have hy' := hclosed x (List.mem_range.mpr hx) y hy
  have hmarked : Marked tg [x] { s with visited := visited, path := path, k := 1 } := by
    refine ⟨⟨hlen'.trans hsized.path, hlen.trans hsized.visited⟩, fun i hi => ?_, fun j hj => ?_, ?_,
      List.nodup_singleton x⟩
    · obtain ⟨v, hv, hget⟩ := hstart i hi
      obtain rfl := Nat.lt_one_iff.mp hi
      exact ⟨v, hv, (clearPath_first Nat.one_pos hclear').trans hget⟩
    · rw [hget, List.mem_singleton]
      by_cases hjx : j = x
      · rw [if_neg (fun h => h.2.2 hjx), hjx]
        simp [hone]
      · rw [if_pos ⟨Nat.zero_le j, by omega, hjx⟩]
        simp [hjx]
    · intro j hj
      rwa [List.mem_singleton.mp hj]
  obtain ⟨s', S', hdfs, hk, h⟩ := searches hlinked hroom fuel [x] _ y hmarked (Nat.le_refl 1)
    (List.mem_range.mp hy') (Nat.lt_of_le_of_lt (Nat.sub_le _ _) hfuel)
  refine ⟨s', ?_, h.toSized, (h.marks x hx).mpr (h.keeps List.mem_cons_self),
    h.traced.pop _ rfl (hk ▸ Nat.le_add_left _ _), ?_⟩
  · simp only [searchBelow, hclear, hclear', Option.bind_eq_bind, Option.bind_some]
    exact hdfs
  · rw [Walks.rejoins_below_iff hclosed hy' (by rwa [List.length_range]) hy]
    exact h.flag

theorem searchBelow_all (hlinked : Linked tg) (hroom : tg.vertexList.length ≤ maxSlots)
    (hfuel : tg.vertexList.length < fuel) (hsized : s.Sized) (hx : x < tg.vertexList.length)
    (hone : s.visited[x]? = some 1) (hstart : Traced tg { s with k := 1 })
    (hys : ys ⊆ successors tg x) :
    ∃ s', (ys.map some).foldlM (fun s y => searchBelow tg fuel x y s) s = some s' ∧ s'.Sized ∧
      (s'.deadlock = 1 ↔ s.deadlock = 1 ∨ ∃ y ∈ ys, Rejoins (successors tg) y) := by
  induction ys generalizing s with
  | nil => exact ⟨s, rfl, hsized, by simp⟩
  | cons y ys ih =>
    obtain ⟨s₁, hbelow, hsized₁, hone₁, hstart₁, hflag₁⟩ :=
      searchBelow_spec hlinked hroom hfuel hsized hx hone hstart (hys List.mem_cons_self)
    obtain ⟨s', hfold, hsized', hflag⟩ :=
      ih hsized₁ hone₁ hstart₁ fun z hz => hys (List.mem_cons_of_mem _ hz)
    refine ⟨s', ?_, hsized', ?_⟩
    · rw [List.map_cons, List.foldlM_cons, hbelow]
      exact hfold
    · rw [hflag, hflag₁, or_assoc, List.exists_mem_cons_iff]

theorem searchForCycle_spec (hlinked : Linked tg) (hroom : tg.vertexList.length ≤ maxSlots)
    (hfuel : tg.vertexList.length < fuel) (hsized : s.Sized) (hx : x < tg.vertexList.length) :
    ∃ s', searchForCycle tg fuel x s = some s' ∧ s'.Sized ∧
      (s'.deadlock = 1 ↔ s.deadlock = 1 ∨ ∃ y ∈ successors tg x, Rejoins (successors tg) y) := by
  have hvisited : x < s.visited.length := by
    rw [hsized.visited]
    omega
  have hmark : write s.visited x 1 = some (s.visited.set x 1) := if_pos hvisited
  have hwrite : write s.path 0 (x : Int) = some (s.path.set 0 x) := if_pos (by
    rw [hsized.path]
    exact Nat.succ_pos _)
  have hver := List.getElem?_eq_getElem hx
  have hsized' : Scan.Sized { s with visited := s.visited.set x 1, path := s.path.set 0 x, k := 1 } :=
    ⟨by rw [List.length_set, hsized.path], by rw [List.length_set, hsized.visited]⟩
  have hstart : Traced tg { s with visited := s.visited.set x 1, path := s.path.set 0 x, k := 1 } :=
    Traced.push (s := { s with k := 0 }) (fun i hi => absurd hi (Nat.not_lt_zero i)) hx hwrite _ rfl rfl
  obtain ⟨s', hfold, h⟩ := searchBelow_all hlinked hroom hfuel hsized' hx (by simp [hvisited]) hstart
    (List.Subset.refl (successors tg x))
  refine ⟨s', ?_, h⟩
  rw [← foldlM_search hlinked hver (searchBelow tg fuel x)] at hfold
  simp only [searchForCycle, hver, hmark, hwrite, Option.bind_eq_bind, Option.bind_some]
  exact hfold

theorem checkFrom_spec (hlinked : Linked tg) (hroom : tg.vertexList.length ≤ maxSlots)
    (hfuel : tg.vertexList.length < fuel) (hsized : s.Sized) {i : Nat}
    (hn : i + n = tg.vertexList.length) :
    ∃ s', checkFrom tg fuel n i s = some s' ∧ s'.Sized ∧ (s'.deadlock = 1 ↔ s.deadlock = 1 ∨
      ∃ x, i ≤ x ∧ ∃ y ∈ successors tg x, Rejoins (successors tg) y) := by
  induction n generalizing i s with
  | zero =>
    refine ⟨s, rfl, hsized, ?_⟩
    have hnone (x : Nat) (hx : i ≤ x) : successors tg x = [] := by
      rw [successors, List.getElem?_eq_none (hn ▸ hx)]
      rfl
    constructor
    · exact .inl
    · rintro (h | ⟨x, hx, y, hy, -⟩)
      · exact h
      · rw [hnone x hx] at hy
        exact absurd hy List.not_mem_nil
  | succ n ih =>
    by_cases hdone : s.deadlock = 1
    · refine ⟨s, ?_, hsized, by simp [hdone]⟩
      rw [checkFrom, if_pos hdone]
    · obtain ⟨s₁, hsearch, hsized₁, hflag₁⟩ := searchForCycle_spec hlinked hroom hfuel hsized
        (x := i) (by omega)
      obtain ⟨s', hcheck, hsized', hflag⟩ := ih hsized₁ (i := i + 1) (by omega)
      refine ⟨s', ?_, hsized', ?_⟩
      · rw [checkFrom, if_neg hdone, hsearch]
        exact hcheck
      · rw [hflag, hflag₁, or_assoc]
        refine or_congr_right ⟨?_, ?_⟩
        · rintro (h | ⟨x, hx, h⟩)
          · exact ⟨i, Nat.le_refl i, h⟩
          · exact ⟨x, Nat.le_of_succ_le hx, h⟩
        · rintro ⟨x, hx, h⟩
          rcases Nat.eq_or_lt_of_le hx with rfl | hlt
          · exact .inl h
          · exact .inr ⟨x, hlt, h⟩

theorem checkDeadLock_spec (h : Reach building free tg) (hsized : s.Sized)
    (hfuel : tg.vertexList.length < fuel) :
    ∃ s', checkDeadLock tg fuel s = some s' ∧ s'.Sized ∧ (s'.deadlock = 1 ↔ RejoinsBelowEdge tg) := by
  obtain ⟨hlinked, hroom⟩ := reach_linked h
  obtain ⟨s', hcheck, hsized', hflag⟩ := checkFrom_spec hlinked hroom hfuel (i := 0)
    (n := tg.vertexList.length) (s := { s with deadlock := 0 }) ⟨hsized.path, hsized.visited⟩
    (Nat.zero_add _)
  refine ⟨s', hcheck, hsized', ?_⟩
  rw [hflag, RejoinsBelowEdge]
  simp

-- ---------------------------------------------------------------------------
-- cycles
-- ---------------------------------------------------------------------------

/-- The check ends without a write outside the arrays. It finds a cycle if there is
one, and finds none where there is none and walks do not meet. -/
theorem checkDeadLock_iff_cyclic (h : Reach building free tg) (hsized : s.Sized)
    (hfuel : tg.vertexList.length < fuel) :
    ∃ s', checkDeadLock tg fuel s = some s' ∧ ((s'.deadlock = 1 ↔ Cyclic (successors tg)) ↔
      Cyclic (successors tg) ∨ ¬ RejoinsBelowEdge tg) := by
  obtain ⟨s', hcheck, -, hflag⟩ := checkDeadLock_spec h hsized hfuel
  have hcyclic : Cyclic (successors tg) → RejoinsBelowEdge tg := Cyclic.rejoins
  refine ⟨s', hcheck, ?_⟩
  rw [hflag]
  tauto

def thread (i : Nat) : Pair := { zeroedPair with thId := i }

def fresh : Scan := ⟨List.replicate (maxSlots + 1) 0, List.replicate maxSlots 0, 0, 0⟩

theorem fresh_sized : fresh.Sized := ⟨List.length_replicate, List.length_replicate⟩

def crossed : TaskGraph := ⟨[⟨thread 1, [thread 2]⟩, ⟨thread 2, [thread 1]⟩], []⟩

theorem checkDeadLock_crossed : ∃ s', checkDeadLock crossed 3 fresh = some s' ∧ s'.deadlock = 1 := by
  have h0 : Reach building free zeroed := .init rfl
  have h1 := h0.step (i := Edit.addEdge (thread 1) (thread 2)) trivial rfl
  have h2 : Reach building free crossed := h1.step (i := Edit.addEdge (thread 2) (thread 1)) trivial rfl
  have hcyclic : Cyclic (successors crossed) := ⟨0, [0, 0], nofun, by decide⟩
  obtain ⟨s', hcheck, hiff⟩ := checkDeadLock_iff_cyclic h2 fresh_sized (by decide : 2 < 3)
  exact ⟨s', hcheck, (hiff.mpr (.inl hcyclic)).mpr hcyclic⟩

/-- 1 waits for 2, which waits for 3 and 4, which both wait for 5. -/
def diamond : TaskGraph :=
  ⟨[⟨thread 1, [thread 2]⟩, ⟨thread 2, [thread 3, thread 4]⟩, ⟨thread 3, [thread 5]⟩,
    ⟨thread 4, [thread 5]⟩, ⟨thread 5, []⟩], []⟩

theorem diamond_built : Reach building free diamond := by
  have h0 : Reach building free zeroed := .init rfl
  have h1 := h0.step (i := Edit.addEdge (thread 1) (thread 2)) trivial rfl
  have h2 := h1.step (i := Edit.addEdge (thread 2) (thread 3)) trivial rfl
  have h3 := h2.step (i := Edit.addEdge (thread 2) (thread 4)) trivial rfl
  have h4 := h3.step (i := Edit.addEdge (thread 3) (thread 5)) trivial rfl
  exact h4.step (i := Edit.addEdge (thread 4) (thread 5)) trivial rfl

theorem diamond_not_cyclic : ¬ Cyclic (successors diamond) := by
  refine Walks.not_cyclic fun x y hy => ?_
  match x with
  | 0 | 1 | 2 | 3 | 4 => revert y; decide
  | x + 5 => exact absurd hy List.not_mem_nil

/-- No thread of the diamond waits for itself, but the check reports it. -/
theorem diamond_reported : ¬ ∀ (tg : TaskGraph) (s : Scan) (fuel : Nat), Reach building free tg →
    s.Sized → tg.vertexList.length < fuel →
    ∃ s', checkDeadLock tg fuel s = some s' ∧ (s'.deadlock = 1 ↔ Cyclic (successors tg)) := by
  intro h
  obtain ⟨s₁, hcheck₁, hiff⟩ := h diamond fresh 6 diamond_built fresh_sized (by decide)
  obtain ⟨s₂, hcheck₂, -, hflag⟩ := checkDeadLock_spec diamond_built fresh_sized (by decide : 5 < 6)
  obtain rfl := Option.some.inj (hcheck₁.symm.trans hcheck₂)
  have hrejoins : RejoinsBelowEdge diamond :=
    ⟨0, 1, by decide, [0, 0], [1, 0], 4, by decide, by decide, by decide⟩
  exact diamond_not_cyclic (hiff.mp (hflag.mpr hrejoins))

end LearningCode.Deadlock
