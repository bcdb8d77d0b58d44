import Mathlib.Data.List.Sort
import LearningCode.Lib.Chain
import LearningCode.SkipList.Levels

/-!
# What each skip list operation does to the sequence of nodes

The nodes of level 0 are the list; level `i` is the chain of those of them that
are taller than `i`. Every operation changes the list by one node and keeps all
the chains.
-/

namespace LearningCode.SkipList

open Chain

variable {z z' : Zskiplist} {h h' : Heap} {nodes pre suf : List Ptr} {x y : Ptr}

def onLevel (h : Heap) (i : Nat) (nodes : List Ptr) : List Ptr :=
  nodes.filter fun x => i < height h x

abbrev Before (h : Heap) (x y : Ptr) : Prop := scoreOf h x ≤ scoreOf h y

theorem length_middle (pre suf : List Ptr) (x : Ptr) :
    (pre ++ x :: suf).length = (pre ++ suf).length + 1 := by
  simp only [List.length_append, List.length_cons]
  omega

theorem nodup_header_middle {w : Ptr} :
    (w :: (pre ++ x :: suf)).Nodup ↔ x ∉ w :: (pre ++ suf) ∧ (w :: (pre ++ suf)).Nodup := by
  rw [← List.cons_append, List.nodup_middle, List.nodup_cons]
  rfl

/-- All but the level: what holds in the middle of an operation too. -/
structure Levels (z : Zskiplist) (nodes : List Ptr) : Prop where
  header : height z.heap z.header = maxLevel
  nodup : (z.header :: nodes).Nodup
  tall : ∀ x ∈ nodes, 0 < height z.heap x ∧ height z.heap x ≤ z.level
  chain : ∀ i < maxLevel, Linked (forward z.heap · i) z.header (onLevel z.heap i nodes)
  sorted : nodes.Pairwise (Before z.heap)
  level : 0 < z.level ∧ z.level ≤ maxLevel
  count : z.count = nodes.length
  length : z.length = .ofNat nodes.length

/-- The skip list holds exactly `nodes`, in this order. -/
structure Rep (z : Zskiplist) (nodes : List Ptr) : Prop extends Levels z nodes where
  top : z.level = 1 ∨ ∃ x ∈ nodes, height z.heap x = z.level

-- ---------------------------------------------------------------------------
-- Levels as sublists
-- ---------------------------------------------------------------------------

theorem mem_onLevel : x ∈ onLevel h i nodes ↔ x ∈ nodes ∧ i < height h x := by
  simp [onLevel]

@[simp] theorem onLevel_append : onLevel h i (pre ++ suf) = onLevel h i pre ++ onLevel h i suf :=
  List.filter_append ..

theorem onLevel_cons_of_lt (hx : i < height h x) :
    onLevel h i (x :: nodes) = x :: onLevel h i nodes := List.filter_cons_of_pos (by simpa using hx)

theorem onLevel_cons_of_le (hx : height h x ≤ i) : onLevel h i (x :: nodes) = onLevel h i nodes :=
  List.filter_cons_of_neg (by simpa using hx)

theorem onLevel_congr (hs : ∀ q ∈ nodes, height h' q = height h q) :
    onLevel h' i nodes = onLevel h i nodes :=
  List.filter_congr fun q hq => by rw [hs q hq]

theorem onLevel_sublist : (onLevel h i nodes).Sublist nodes := List.filter_sublist

theorem onLevel_succ_sublist : (onLevel h (i + 1) nodes).Sublist (onLevel h i nodes) :=
  List.monotone_filter_right _ fun x hx => by
    have : i + 1 < height h x := of_decide_eq_true hx
    exact decide_eq_true (by omega)

theorem Levels.onLevel_zero (hz : Levels z nodes) (hsub : ∀ x ∈ pre, x ∈ nodes) :
    onLevel z.heap 0 pre = pre :=
  List.filter_eq_self.mpr fun x hx => decide_eq_true (hz.tall x (hsub x hx)).1

theorem Levels.onLevel_nil (hz : Levels z nodes) (hi : z.level ≤ i) : onLevel z.heap i nodes = [] :=
  List.filter_eq_nil_iff.mpr fun x hx => by
    have := (hz.tall x hx).2
    simp only [decide_eq_true_eq]
    omega

def lastOn (z : Zskiplist) (pre : List Ptr) (i : Nat) : Ptr :=
  (onLevel z.heap i pre).getLastD z.header

theorem lastOn_cases (z : Zskiplist) (pre : List Ptr) (i : Nat) :
    lastOn z pre i = z.header ∨ lastOn z pre i ∈ onLevel z.heap i pre := by
  have := List.getLastD_mem_cons (l := onLevel z.heap i pre) (a := z.header)
  exact List.mem_cons.mp this

theorem Levels.lastOn_tall (hz : Levels z (pre ++ suf)) (hi : i < maxLevel) :
    i < height z.heap (lastOn z pre i) := by
  rcases lastOn_cases z pre i with heq | hmem
  · rw [heq, hz.header]
    exact hi
  · exact (mem_onLevel.mp hmem).2

theorem Levels.forward_lastOn (hz : Levels z (pre ++ suf)) (hi : i < maxLevel) :
    forward z.heap (lastOn z pre i) i = some (onLevel z.heap i suf).head? := by
  have := hz.chain i hi
  rw [onLevel_append] at this
  exact this.next_last

/-- Every chain but level 0 may be shorter than the list, none longer. -/
theorem onLevel_length_le (h : Heap) (i : Nat) (nodes : List Ptr) :
    (onLevel h i nodes).length ≤ nodes.length := List.length_filter_le ..

-- ---------------------------------------------------------------------------
-- The search
-- ---------------------------------------------------------------------------

structure Split (h : Heap) (score : Nat) (pre suf : List Ptr) : Prop where
  below : ∀ x ∈ pre, scoreOf h x < score
  above : ∀ x ∈ suf, score ≤ scoreOf h x

theorem exists_split (hs : nodes.Pairwise (Before h)) (score : Nat) :
    ∃ pre suf, nodes = pre ++ suf ∧ Split h score pre suf := by
  induction nodes with
  | nil => exact ⟨[], [], rfl, fun _ h => (nomatch h), fun _ h => (nomatch h)⟩
  | cons x nodes ih =>
    obtain ⟨hx, hs⟩ := List.pairwise_cons.mp hs
    rcases Nat.lt_or_ge (scoreOf h x) score with hlt | hge
    · obtain ⟨pre, suf, rfl, hsplit⟩ := ih hs
      refine ⟨x :: pre, suf, rfl, fun y hy => ?_, hsplit.above⟩
      exact (List.mem_cons.mp hy).elim (fun h => h ▸ hlt) (hsplit.below y)
    · refine ⟨[], x :: nodes, rfl, fun _ h => (nomatch h), fun y hy => ?_⟩
      exact (List.mem_cons.mp hy).elim (fun h => h ▸ hge) fun h => hge.trans (hx y h)

theorem walk_spec {l m : List Ptr} (hchain : Linked (forward h · i) x (l ++ m))
    (hl : ∀ y ∈ l, i < height h y ∧ scoreOf h y < score)
    (hm : ∀ y ∈ m, i < height h y ∧ score ≤ scoreOf h y) (hturns : l.length < turns) :
    walk h score i x turns = some (l.getLastD x) := by
  induction l generalizing x turns with
  | nil =>
    obtain ⟨turns, rfl⟩ : ∃ t, turns = t + 1 := ⟨turns - 1, by omega⟩
    have hnext : forward h x i = some m.head? := hchain.next_head
    cases m with
    | nil => simp only [walk, hnext, List.head?_nil, Option.bind_eq_bind, Option.bind_some]; rfl
    | cons y m =>
      obtain ⟨hy, hge⟩ := hm y List.mem_cons_self
      obtain ⟨n, hn, -, hscore⟩ := node_of_height hy
      simp only [walk, hnext, List.head?_cons, Option.bind_eq_bind, Option.bind_some, hn]
      rw [if_neg (by omega)]
      rfl
  | cons y l ih =>
    cases turns with
    | zero => omega
    | succ turns =>
      obtain ⟨hy, hlt⟩ := hl y List.mem_cons_self
      obtain ⟨n, hn, -, hscore⟩ := node_of_height hy
      have hnext : forward h x i = some (some y) := hchain.1
      simp only [walk, hnext, Option.bind_eq_bind, Option.bind_some, hn]
      rw [if_pos (by omega), List.getLastD_cons]
      exact ih hchain.2 (fun w hw => hl w (List.mem_cons_of_mem y hw))
        (by simpa using hturns)

/-- Where the search turns down on each level it leaves the last node before
`score`. It starts on each level where it left the one above. -/
theorem search_spec (hz : Levels z (pre ++ suf)) (hsplit : Split z.heap score pre suf) (k : Nat)
    (hk : k ≤ maxLevel) (update : Update)
    (hx : x = z.header ∨ x ∈ pre ∧ k ≤ height z.heap x) :
    ∃ x' update', search z score k x update = some (x', update') ∧
      (∀ i < k, update' i = some (lastOn z pre i)) ∧ (∀ i, k ≤ i → update' i = update i) ∧
      (0 < k → x' = lastOn z pre 0) := by
  induction k generalizing x update with
  | zero => exact ⟨x, update, rfl, fun i hi => absurd hi (Nat.not_lt_zero i), fun _ _ => rfl,
      fun h => absurd h (Nat.lt_irrefl 0)⟩
  | succ k ih =>
    have hchain := hz.chain k hk
    rw [onLevel_append] at hchain
    have hmem : x = z.header ∨ x ∈ onLevel z.heap k pre := hx.imp_right fun h => mem_onLevel.mpr h
    obtain ⟨l, ⟨l₀, hl₀⟩, hl, hlast⟩ := hchain.enter hmem
    have hin : ∀ y ∈ l, y ∈ onLevel z.heap k pre := fun y hy => hl₀ ▸ List.mem_append_right l₀ hy
    have hwalk : walk z.heap score k x (z.count + 1) = some (lastOn z pre k) := by
      refine (walk_spec hl (fun y hy => ?_) (fun y hy => ?_) ?_).trans (congrArg some hlast)
      · have := mem_onLevel.mp (hin y hy)
        exact ⟨this.2, hsplit.below y this.1⟩
      · have := mem_onLevel.mp hy
        exact ⟨this.2, hsplit.above y this.1⟩
      · have h₁ : l.length ≤ (onLevel z.heap k pre).length := by
          rw [hl₀, List.length_append]
          omega
        have h₂ := onLevel_length_le z.heap k pre
        have h₃ := hz.count
        rw [List.length_append] at h₃
        omega
    have hnext : lastOn z pre k = z.header ∨
        lastOn z pre k ∈ pre ∧ k ≤ height z.heap (lastOn z pre k) :=
      (lastOn_cases z pre k).imp_right fun h => ⟨(mem_onLevel.mp h).1, (mem_onLevel.mp h).2.le⟩
    obtain ⟨x', update', hrest, hlow, hhigh, hx'⟩ := ih (by omega)
      (Function.update update k (some (lastOn z pre k))) hnext
    refine ⟨x', update', ?_, fun i hi => ?_, fun i hi => ?_, fun _ => ?_⟩
    · rw [search, hwalk]
      exact hrest
    · rcases Nat.eq_or_lt_of_le (Nat.le_of_lt_succ hi) with rfl | hlt
      · rw [hhigh i (Nat.le_refl i), Function.update_self]
      · exact hlow i hlt
    · rw [hhigh i (by omega), Function.update_of_ne (by omega)]
    · cases k with
      | zero =>
        cases hrest
        rfl
      | succ k => exact hx' (Nat.succ_pos k)

-- ---------------------------------------------------------------------------
-- zslInsert
-- ---------------------------------------------------------------------------

theorem zslRandomLevel_bounds (ups : Nat) : 0 < zslRandomLevel ups ∧ zslRandomLevel ups ≤ maxLevel := by
  simp only [zslRandomLevel]
  split
  · next h => exact ⟨by omega, h.le⟩
  · exact ⟨by decide, Nat.le_refl _⟩

/-- Every level from 1 to 32 can come out. -/
theorem zslRandomLevel_onto (h0 : 0 < k) (hk : k ≤ maxLevel) : zslRandomLevel (k - 1) = k := by
  simp only [zslRandomLevel]
  split <;> omega

structure Inserted (z z' : Zskiplist) (p : Ptr) (score : Nat) (func : Handler) : Prop where
  header : z'.header = z.header
  node : (shape z'.heap p).map (fun n => (n.1, n.2.1)) = some (score, func)
  other : ∀ q, q ≠ p → shape z'.heap q = shape z.heap q

theorem Levels.allocated (hz : Levels z nodes) (hp : z.heap p = none) : p ∉ z.header :: nodes := by
  have hzero : height z.heap p = 0 := by simp [height, shape, hp]
  intro hmem
  rcases List.mem_cons.mp hmem with rfl | hmem
  · exact absurd (hzero.symm.trans hz.header) (by decide)
  · have := (hz.tall p hmem).1
    omega

theorem Levels.linked (hz : Levels z (pre ++ suf)) (hp : p ∉ z.header :: (pre ++ suf))
    (hkeep : ∀ q, q ≠ p → shape h' q = shape z.heap q)
    (hnew : ∀ j < height h' p, forward h' p j = forward z.heap (lastOn z pre j) j)
    (hfwd : ∀ q ∈ z.header :: (pre ++ suf), ∀ j, forward h' q j =
      if j < height h' p ∧ q = lastOn z pre j then some (some p) else forward z.heap q j)
    (i : Nat) (hi : i < maxLevel) :
    Linked (forward h' · i) z.header (onLevel h' i (pre ++ p :: suf)) := by
  have hne : ∀ q ∈ z.header :: (pre ++ suf), q ≠ p := by
    rintro q hq rfl
    exact hp hq
  have hheight : ∀ q ∈ pre ++ suf, height h' q = height z.heap q := fun q hq => by
    rw [height, hkeep q (hne q (List.mem_cons_of_mem _ hq))]
    rfl
  have hpre : onLevel h' i pre = onLevel z.heap i pre :=
    onLevel_congr fun q hq => hheight q (List.mem_append_left suf hq)
  have hsuf : onLevel h' i suf = onLevel z.heap i suf :=
    onLevel_congr fun q hq => hheight q (List.mem_append_right pre hq)
  have hin : ∀ q, q = z.header ∨ q ∈ onLevel z.heap i (pre ++ suf) → q ∈ z.header :: (pre ++ suf) :=
    fun q hq => List.mem_cons.mpr (hq.imp_right fun h => onLevel_sublist.subset h)
  have hchain := hz.chain i hi
  have hnd : (z.header :: onLevel z.heap i (pre ++ suf)).Nodup :=
    hz.nodup.sublist (onLevel_sublist.cons_cons z.header)
  have hlastIn : lastOn z pre i ∈ z.header :: (pre ++ suf) :=
    hin _ ((lastOn_cases z pre i).imp_right fun h => by
      rw [onLevel_append]
      exact List.mem_append_left _ h)
  rw [onLevel_append, hpre]
  rw [onLevel_append] at hchain hnd
  rcases Nat.lt_or_ge i (height h' p) with hlt | hge
  · rw [onLevel_cons_of_lt hlt, hsuf]
    refine hchain.insert hnd ?_ (hnew i hlt) fun q hq hmem => ?_
    · exact (hfwd _ hlastIn i).trans (if_pos ⟨hlt, rfl⟩)
    · rw [← onLevel_append] at hmem
      exact (hfwd q (hin q hmem) i).trans (if_neg fun h => hq h.2)
  · rw [onLevel_cons_of_le hge, hsuf]
    refine hchain.congr fun q hmem => ?_
    rw [← onLevel_append] at hmem
    exact (hfwd q (hin q hmem) i).trans (if_neg fun h => absurd h.1 (by omega))

theorem sorted_insert (hs : (pre ++ suf).Pairwise (Before h)) (hsplit : Split h score pre suf)
    (hp : scoreOf h' p = score) (hkeep : ∀ q ∈ pre ++ suf, scoreOf h' q = scoreOf h q) :
    (pre ++ p :: suf).Pairwise (Before h') := by
  have hs' : (pre ++ suf).Pairwise (Before h') := hs.imp_of_mem fun hx hy hle => by
    rw [Before, hkeep _ hx, hkeep _ hy]
    exact hle
  obtain ⟨hpre, hsuf, hcross⟩ := List.pairwise_append.mp hs'
  refine List.pairwise_append.mpr ⟨hpre, List.pairwise_cons.mpr ⟨fun y hy => ?_, hsuf⟩, ?_⟩
  · rw [Before, hp, hkeep y (List.mem_append_right pre hy)]
    exact hsplit.above y hy
  · intro x hx y hy
    rcases List.mem_cons.mp hy with rfl | hy
    · rw [Before, hp, hkeep x (List.mem_append_left suf hx)]
      exact (hsplit.below x hx).le
    · exact hcross x hx y hy

theorem Levels.raiseLevel (hz : Levels z (pre ++ suf))
    (hupdate : ∀ i < z.level, update i = some (lastOn z pre i)) (level : Nat) :
    (∀ i < level, (raiseLevel z update level).1 i = some (lastOn z pre i)) ∧
      (raiseLevel z update level).2 = max z.level level := by
  have hhigh : ∀ i, z.level ≤ i → lastOn z pre i = z.header := fun i hi => by
    have := hz.onLevel_nil hi
    rw [onLevel_append, List.append_eq_nil_iff] at this
    rw [lastOn, this.1]
    rfl
  rw [SkipList.raiseLevel]
  split
  · next hlt =>
    refine ⟨fun i hi => ?_, (Nat.max_eq_right hlt.le).symm⟩
    cases Decidable.em (z.level ≤ i) with
    | inl hle => exact (if_pos ⟨hle, hi⟩).trans (congrArg some (hhigh i hle).symm)
    | inr hlt => exact (if_neg fun h => hlt h.1).trans (hupdate i (by omega))
  · next hge => exact ⟨fun i hi => hupdate i (by omega), (Nat.max_eq_left (by omega)).symm⟩

theorem Rep.insert {p : Ptr} {func : Handler} {level : Nat} (hz : Rep z (pre ++ suf))
    (hsplit : Split z.heap score pre suf) (hp : p ∉ z.header :: (pre ++ suf))
    (hlevel : 0 < level ∧ level ≤ maxLevel) (hnode : shape h' p = some (score, func, level))
    (hkeep : ∀ q, q ≠ p → shape h' q = shape z.heap q)
    (hnew : ∀ j < level, forward h' p j = forward z.heap (lastOn z pre j) j)
    (hfwd : ∀ q ∈ z.header :: (pre ++ suf), ∀ j, forward h' q j =
      if j < level ∧ q = lastOn z pre j then some (some p) else forward z.heap q j) :
    Rep { z with
        heap := h', level := max z.level level, length := z.length + 1, count := z.count + 1 }
      (pre ++ p :: suf) := by
  have hlv := hz.level
  have hheight : height h' p = level := by
    rw [height, hnode]
    rfl
  have hscore : scoreOf h' p = score := by
    rw [scoreOf, hnode]
    rfl
  have hne : ∀ q ∈ z.header :: (pre ++ suf), q ≠ p := by
    rintro q hq rfl
    exact hp hq
  have hold : ∀ q ∈ z.header :: (pre ++ suf), height h' q = height z.heap q := fun q hq => by
    rw [height, hkeep q (hne q hq)]
    rfl
  have hmem : ∀ q, q ∈ pre ++ p :: suf ↔ q = p ∨ q ∈ pre ++ suf := fun q => by
    simp only [List.mem_append, List.mem_cons]
    exact or_left_comm
  have hlen : (pre ++ p :: suf).length = (pre ++ suf).length + 1 := length_middle pre suf p
  refine ⟨⟨?_, ?_, ?_, ?_, ?_, ?_, ?_, ?_⟩, ?_⟩
  · exact (hold _ List.mem_cons_self).trans hz.header
  · exact nodup_header_middle.mpr ⟨hp, hz.nodup⟩
  · rintro q hq
    rcases (hmem q).mp hq with rfl | hq
    · rw [hheight]
      exact ⟨hlevel.1, Nat.le_max_right ..⟩
    · have htall := hz.tall q hq
      rw [hold q (List.mem_cons_of_mem _ hq)]
      exact ⟨htall.1, htall.2.trans (Nat.le_max_left ..)⟩
  · rw [← hheight] at hnew hfwd
    exact hz.linked hp hkeep hnew hfwd
  · exact sorted_insert hz.sorted hsplit hscore fun q hq => by
      rw [scoreOf, hkeep q (hne q (List.mem_cons_of_mem _ hq))]
      rfl
  · exact ⟨Nat.lt_of_lt_of_le hlv.1 (Nat.le_max_left ..), Nat.max_le.mpr ⟨hlv.2, hlevel.2⟩⟩
  · rw [hlen, hz.count]
  · rw [hlen, hz.length, Int32.ofNat_add]
    rfl
  · rcases Nat.lt_or_ge z.level level with hlt | hge
    · exact .inr ⟨p, (hmem p).mpr (.inl rfl), hheight.trans (Nat.max_eq_right hlt.le).symm⟩
    · rw [Nat.max_eq_left hge]
      refine hz.top.imp_right ?_
      rintro ⟨x, hx, htop⟩
      exact ⟨x, (hmem x).mpr (.inr hx), (hold x (List.mem_cons_of_mem _ hx)).trans htop⟩

theorem zslInsert_eq (hz : Rep z (pre ++ suf)) (hsplit : Split z.heap score pre suf)
    (func : Handler) (ups : Nat) (b : Block) (hb : z.heap b.ptr = none) :
    ∃ h', zslInsert z score func ups b = some ({ z with
        heap := h', level := max z.level (zslRandomLevel ups), length := z.length + 1,
        count := z.count + 1 }, b.ptr) ∧
      shape h' b.ptr = some (score, func, zslRandomLevel ups) ∧
      (∀ q, q ≠ b.ptr → shape h' q = shape z.heap q) ∧
      (∀ j < zslRandomLevel ups, forward h' b.ptr j = forward z.heap (lastOn z pre j) j) ∧
      ∀ q, q ≠ b.ptr → ∀ j, forward h' q j =
        if j < zslRandomLevel ups ∧ q = lastOn z pre j then some (some b.ptr)
        else forward z.heap q j := by
  obtain ⟨-, hmax⟩ := zslRandomLevel_bounds ups
  obtain ⟨x', update, hsearch, hupdate, -, -⟩ := search_spec hz.toLevels hsplit z.level hz.level.2
    (fun _ => none) (.inl rfl)
  -- the heap once the node is there and not yet linked
  let h₀ : Heap := Function.update z.heap b.ptr
    (some (zslCreateNode (zslRandomLevel ups) score func b.junk))
  have hne : ∀ i < maxLevel, lastOn z pre i ≠ b.ptr := fun i hi heq => by
    have htall := hz.lastOn_tall hi
    rw [heq, height, shape, hb] at htall
    exact absurd htall (Nat.not_lt_zero i)
  have hshape₀ : ∀ q, q ≠ b.ptr → shape h₀ q = shape z.heap q := fun q hq => by
    rw [shape, show h₀ q = z.heap q from Function.update_of_ne hq ..]
    rfl
  have hfwd₀ : ∀ q j, q ≠ b.ptr → forward h₀ q j = forward z.heap q j := fun q j hq => by
    rw [forward, show h₀ q = z.heap q from Function.update_of_ne hq ..]
    rfl
  have hnode : shape h₀ b.ptr = some (score, func, zslRandomLevel ups) := by
    simp [shape, h₀, zslCreateNode]
  have hheight : height h₀ b.ptr = zslRandomLevel ups := by rw [height, hnode]; rfl
  obtain ⟨update', zlevel, hraise⟩ : ∃ u l, raiseLevel z update (zslRandomLevel ups) = (u, l) :=
    ⟨_, _, rfl⟩
  obtain ⟨hupdate', hzlevel⟩ := hraise ▸ hz.raiseLevel hupdate (zslRandomLevel ups)
  obtain ⟨h₁, hlink, hsame, hfwd⟩ := link_spec (h := h₀) (x := b.ptr) (u := lastOn z pre)
    (zslRandomLevel ups) hheight.ge
    (fun i hi => by
      rw [height, hshape₀ _ (hne i (by omega))]
      exact hz.lastOn_tall (by omega))
    (fun i hi => hne i (by omega)) hupdate'
  have hzlevel : zlevel = max z.level (zslRandomLevel ups) := hzlevel
  refine ⟨h₁, ?_, (hsame _).trans hnode, fun q hq => (hsame q).trans (hshape₀ q hq),
    fun j hj => ?_, fun q hq j => ?_⟩
  · simp only [zslInsert, hsearch, hraise, Option.bind_eq_bind, Option.bind_some]
    show ((List.range (zslRandomLevel ups)).foldlM (linkLevel b.ptr update') h₀).bind _ = _
    rw [hlink, ← hzlevel]
    rfl
  · rw [hfwd, if_pos ⟨hj, rfl⟩, hfwd₀ _ _ (hne j (by omega))]
  · rw [hfwd, if_neg fun h => hq h.2, hfwd₀ q j hq]

theorem insert_spec (hz : Rep z (pre ++ suf)) (hsplit : Split z.heap score pre suf)
    (func : Handler) (ups : Nat) (b : Block) (hb : z.heap b.ptr = none) :
    ∃ z', zslInsert z score func ups b = some (z', b.ptr) ∧ Rep z' (pre ++ b.ptr :: suf) ∧
      Inserted z z' b.ptr score func := by
  have hfresh := hz.allocated hb
  obtain ⟨h', hcall, hnode, hkeep, hnew, hfwd⟩ := zslInsert_eq hz hsplit func ups b hb
  refine ⟨_, hcall, ?_, rfl, by rw [hnode]; rfl, hkeep⟩
  refine hz.insert hsplit hfresh (zslRandomLevel_bounds ups) hnode hkeep hnew fun q hq => ?_
  refine hfwd q ?_
  rintro rfl
  exact hfresh hq

-- ---------------------------------------------------------------------------
-- Taking a node out
-- ---------------------------------------------------------------------------

/-- The node before comes right before `x` on the levels of `x` and on no other. -/
theorem Levels.next_iff (hz : Levels z (pre ++ x :: suf)) (hi : i < maxLevel) :
    forward z.heap (lastOn z pre i) i = some (some x) ↔ i < height z.heap x := by
  rw [hz.forward_lastOn hi]
  constructor
  · intro h
    exact (mem_onLevel.mp (List.mem_of_mem_head? (Option.some.inj h))).2
  · intro h
    rw [onLevel_cons_of_lt h]
    rfl

theorem Levels.unlinked (hz : Levels z (pre ++ x :: suf)) (hs : SameNodes z.heap h')
    (hfwd : ∀ q j, forward h' q j =
      if j < z.level ∧ q = lastOn z pre j ∧ forward z.heap (lastOn z pre j) j = some (some x)
      then forward z.heap x j else forward z.heap q j)
    (i : Nat) (hi : i < maxLevel) :
    Linked (forward h' · i) z.header (onLevel h' i (pre ++ suf)) := by
  have hchain := hz.chain i hi
  have hnd : (z.header :: onLevel z.heap i (pre ++ x :: suf)).Nodup :=
    hz.nodup.sublist (onLevel_sublist.cons_cons z.header)
  rw [onLevel_congr fun _ _ => hs.height]
  rw [onLevel_append] at hchain hnd ⊢
  rcases Nat.lt_or_ge i (height z.heap x) with hlt | hge
  · have htall := (hz.tall x (by simp)).2
    rw [onLevel_cons_of_lt hlt] at hchain hnd
    refine hchain.remove hnd ?_ fun q hq _ => ?_
    · exact (hfwd _ i).trans (if_pos ⟨by omega, rfl, (hz.next_iff hi).mpr hlt⟩)
    · exact (hfwd q i).trans (if_neg fun h => hq h.2.1)
  · rw [onLevel_cons_of_le hge] at hchain
    refine hchain.congr fun q _ => (hfwd q i).trans (if_neg fun h => ?_)
    have := (hz.next_iff hi).mp h.2.2
    omega

theorem remove_spec (hz : Rep z (pre ++ x :: suf)) (update : Update) (levels : List Nat) (hnd : levels.Nodup)
    (hlevels : ∀ i, i ∈ levels ↔ i < z.level)
    (hupdate : ∀ i < z.level, update i = some (lastOn z pre i)) :
    ∃ h' level', levels.foldlM (unlinkLevel x update) z.heap = some h' ∧
      lowerLevel h' z.header z.level = some level' ∧ SameNodes z.heap h' ∧
      Rep { z with
          heap := h', level := level', length := z.length - 1, count := z.count - 1 }
        (pre ++ suf) := by
  have hlv := hz.level
  obtain ⟨h', hfold, hs, hfwd⟩ := unlink_spec (h := z.heap) (x := x) (u := lastOn z pre) levels hnd
    (fun i hi => hz.lastOn_tall (by have := (hlevels i).mp hi; omega))
    (fun i hi hf => (hz.next_iff (by have := (hlevels i).mp hi; omega)).mp hf)
    fun i hi => hupdate i ((hlevels i).mp hi)
  simp only [hlevels] at hfwd
  have hchain := hz.unlinked hs hfwd
  have hheader : height h' z.header = maxLevel := hs.height.trans hz.header
  obtain ⟨k, hlower, hk, hle, hempty, htop⟩ := lowerLevel_spec z.level hlv.1
    (show z.level ≤ height h' z.header by omega)
  have hsub : (pre ++ suf).Sublist (pre ++ x :: suf) :=
    (List.sublist_cons_self x suf).append_left pre
  have htall : ∀ y ∈ pre ++ suf, 0 < height h' y ∧ height h' y ≤ k := by
    intro y hy
    have hold := hz.tall y (hsub.subset hy)
    rw [← hs.height (q := y)] at hold
    refine ⟨hold.1, Nat.le_of_not_lt fun hlt => ?_⟩
    -- a node on level `k` would come after the header there
    have hhead := (hchain k (by omega)).next_head
    rw [hempty k (Nat.le_refl k) (by omega)] at hhead
    have := List.head?_eq_none_iff.mp (Option.some.inj hhead).symm
    exact List.not_mem_nil (this ▸ mem_onLevel.mpr ⟨hy, hlt⟩)
  have hlen : (pre ++ x :: suf).length = (pre ++ suf).length + 1 := length_middle pre suf x
  refine ⟨h', k, hfold, hlower, hs,
    ⟨hheader, ?_, htall, hchain, ?_, ⟨hk, hle.trans hlv.2⟩, ?_, ?_⟩, ?_⟩
  · exact hz.nodup.sublist (hsub.cons_cons z.header)
  · exact (hz.sorted.sublist hsub).imp fun h => by rw [Before, hs.scoreOf, hs.scoreOf]; exact h
  · show z.count - 1 = _
    rw [hz.count, hlen, Nat.add_sub_cancel]
  · show z.length - 1 = _
    rw [hz.length, hlen, Int32.ofNat_add]
    exact Int32.add_sub_cancel ..
  · refine htop.imp_right ?_
    rintro ⟨f, hf⟩
    have hhead := (hchain (k - 1) (by omega)).next_head
    have hmem := mem_onLevel.mp (List.mem_of_mem_head? (Option.some.inj (hhead.symm.trans hf)))
    refine ⟨f, hmem.1, ?_⟩
    have := htall f hmem.1
    show height h' f = k
    omega

theorem min_spec (hz : Levels z nodes) : zslMin z = some nodes.head? := by
  have := (hz.chain 0 (by decide)).next_head
  rwa [hz.onLevel_zero fun _ h => h] at this

theorem deleteHead_nil (hz : Levels z []) : zslDeleteHead z = some z := by
  rw [zslDeleteHead, min_spec hz]
  rfl

theorem deleteHead_spec (hz : Rep z (x :: nodes)) :
    ∃ z', zslDeleteHead z = some z' ∧ Rep z' nodes ∧ z'.header = z.header ∧
      SameNodes z.heap z'.heap := by
  obtain ⟨h', level', hfold, hlower, hs, hrep⟩ := remove_spec
    (show Rep z ([] ++ x :: nodes) from hz) (fun _ => some z.header) (List.range z.level).reverse
    (List.nodup_reverse.mpr List.nodup_range) (fun i => by simp) fun _ _ => rfl
  refine ⟨_, ?_, hrep, rfl, hs⟩
  rw [zslDeleteHead, min_spec hz.toLevels]
  simp only [List.head?_cons, Option.bind_eq_bind, Option.bind_some]
  rw [hfold]
  simp only [Option.bind_some, hlower]

theorem Rep.frame (hz : Rep z nodes) (h' : Heap) (hagree : ∀ q ∈ z.header :: nodes, h' q = z.heap q) :
    Rep { z with heap := h' } nodes := by
  have hnode : ∀ q ∈ nodes, h' q = z.heap q := fun q hq => hagree q (List.mem_cons_of_mem _ hq)
  have hheight : ∀ q ∈ nodes, height h' q = height z.heap q := fun q hq => by
    rw [height, shape, hnode q hq]
    rfl
  have hscore : ∀ q ∈ nodes, scoreOf h' q = scoreOf z.heap q := fun q hq => by
    rw [scoreOf, shape, hnode q hq]
    rfl
  refine ⟨⟨?_, hz.nodup, fun q hq => ?_, fun i hi => ?_, ?_, hz.level, hz.count, hz.length⟩, ?_⟩
  · show height h' z.header = maxLevel
    rw [height, shape, hagree _ List.mem_cons_self]
    exact hz.header
  · show 0 < height h' q ∧ height h' q ≤ z.level
    rw [hheight q hq]
    exact hz.tall q hq
  · show Linked _ _ (onLevel h' i nodes)
    rw [onLevel_congr hheight]
    refine (hz.chain i hi).congr fun q hq => ?_
    show forward h' q i = forward z.heap q i
    rw [forward, hagree q (List.mem_cons.mpr (hq.imp_right fun h => onLevel_sublist.subset h))]
    rfl
  · refine hz.sorted.imp_of_mem fun hx hy hle => ?_
    show scoreOf h' _ ≤ scoreOf h' _
    rw [hscore _ hx, hscore _ hy]
    exact hle
  · refine hz.top.imp_right ?_
    rintro ⟨x, hx, htop⟩
    exact ⟨x, hx, (hheight x hx).trans htop⟩

/-- The search by score stops before the first node with the score of `zn`. -/
theorem Levels.target (hz : Levels z nodes) (hzn : zn ∈ nodes) :
    ∃ pre x suf, nodes = pre ++ x :: suf ∧ Split z.heap (scoreOf z.heap zn) pre (x :: suf) ∧
      scoreOf z.heap x = scoreOf z.heap zn := by
  obtain ⟨pre, rest, rfl, hsplit⟩ := exists_split hz.sorted (scoreOf z.heap zn)
  have hrest : zn ∈ rest := (List.mem_append.mp hzn).resolve_left fun h =>
    absurd (hsplit.below zn h) (Nat.lt_irrefl _)
  cases rest with
  | nil => exact absurd hrest List.not_mem_nil
  | cons x suf =>
    have hle : scoreOf z.heap x ≤ scoreOf z.heap zn := by
      rcases List.mem_cons.mp hrest with rfl | hmem
      · exact Nat.le_refl _
      · exact (List.pairwise_cons.mp (List.pairwise_append.mp hz.sorted).2.1).1 zn hmem
    exact ⟨pre, x, suf, rfl, hsplit, hle.antisymm (hsplit.above x List.mem_cons_self)⟩

theorem deleteAt_spec (hz : Rep z (pre ++ x :: suf)) (hzn : zn ∈ pre ++ x :: suf)
    (hsplit : Split z.heap (scoreOf z.heap zn) pre (x :: suf))
    (hx : scoreOf z.heap x = scoreOf z.heap zn) :
    ∃ z', zslDelete z zn = some z' ∧ Rep z' (pre ++ suf) ∧ z'.header = z.header ∧
      z'.heap x = none ∧ ∀ q, q ≠ x → shape z'.heap q = shape z.heap q := by
  obtain ⟨n, hn, -, hscore⟩ := node_of_height (hz.tall zn hzn).1
  obtain ⟨nx, hnx, -, hscorex⟩ := node_of_height (hz.tall x (by simp)).1
  have hlv := hz.level
  obtain ⟨x', update, hsearch, hupdate, -, hx'⟩ := search_spec hz.toLevels hsplit z.level hlv.2
    (fun _ => none) (.inl rfl)
  have hnext : forward z.heap x' 0 = some (some x) := by
    rw [hx' hlv.1]
    exact (hz.next_iff (by decide)).mpr (hz.tall x (by simp)).1
  obtain ⟨h', level', hfold, hlower, hs, hrep⟩ := remove_spec hz update (List.range z.level)
    List.nodup_range (fun i => List.mem_range) hupdate
  have hout : x ∉ z.header :: (pre ++ suf) := (nodup_header_middle.mp hz.nodup).1
  refine ⟨_, ?_, hrep.frame (Function.update h' x none) ?_, rfl, ?_, ?_⟩
  · have hsame : n.score = nx.score := by omega
    rw [← hscore, hsame] at hsearch
    simp only [zslDelete, hn, hsearch, hnext, hnx, hsame, zslDeleteNode, hfold, hlower,
      Option.bind_eq_bind, Option.bind_some, ↓reduceIte]
  · rintro q hq
    refine Function.update_of_ne ?_ ..
    rintro rfl
    exact hout hq
  · exact Function.update_self ..
  · rintro q hq
    show shape (Function.update h' x none) q = _
    rw [← hs q, shape, Function.update_of_ne hq]
    rfl

/-- `zslDelete` takes out the first node with the score of `zn`, and frees it. -/
theorem delete_spec (hz : Rep z nodes) (hzn : zn ∈ nodes) :
    ∃ pre x suf z', nodes = pre ++ x :: suf ∧ scoreOf z.heap x = scoreOf z.heap zn ∧
      zslDelete z zn = some z' ∧ Rep z' (pre ++ suf) ∧ z'.header = z.header ∧
      z'.heap x = none ∧ ∀ q, q ≠ x → shape z'.heap q = shape z.heap q := by
  obtain ⟨pre, x, suf, rfl, hsplit, hx⟩ := hz.target hzn
  obtain ⟨z', h⟩ := deleteAt_spec hz hzn hsplit hx
  exact ⟨pre, x, suf, z', rfl, hx, h⟩

end LearningCode.SkipList
