import LearningCode.Lib.Transition
import LearningCode.SkipList.Operations

/-!
# Whole runs of the skip list

Any calls from `zslCreate` on, `malloc` returning whatever address is free and
`zslRandomLevel` whatever level it likes.
-/

namespace LearningCode.SkipList

open Chain

variable {z z' : Zskiplist} {nodes : List Ptr}

inductive Op
  | insert (score : Nat) (func : Handler) (ups : Nat) (b : Block)
  | deleteHead
  | delete (zn : Ptr)

def call (z : Zskiplist) : Op → Option Zskiplist
  | .insert score func ups b => (zslInsert z score func ups b).map (·.1)
  | .deleteHead => zslDeleteHead z
  | .delete zn => zslDelete z zn

def InList (z : Zskiplist) (zn : Ptr) : Prop :=
  ∃ nodes, Linked (forward z.heap · 0) z.header nodes ∧ zn ∈ nodes

def Legal (z : Zskiplist) : Op → Prop
  | .insert _ _ _ b => z.heap b.ptr = none
  | .deleteHead => True
  | .delete zn => InList z zn

def calls : Transition Zskiplist Op where
  init z := ∃ heap b, heap b.ptr = none ∧ z = zslCreate heap b
  step z op z' := Legal z op ∧ call z op = some z'

-- ---------------------------------------------------------------------------
-- The representation, over a run
-- ---------------------------------------------------------------------------

theorem create_rep (heap : Heap) (b : Block) : Rep (zslCreate heap b) [] := by
  have hshape : shape (zslCreate heap b).heap b.ptr = some (0, defaultHandler, maxLevel) := by
    simp [shape, zslCreate, zslCreateNode]
  refine ⟨⟨?_, List.nodup_singleton _, fun x hx => absurd hx List.not_mem_nil, fun i hi => ?_, .nil,
    ⟨Nat.one_pos, show 1 ≤ 32 by decide⟩, rfl, rfl⟩, .inl rfl⟩
  · show height _ b.ptr = maxLevel
    rw [height, hshape]
    rfl
  · show forward _ b.ptr i = some none
    simp [forward, zslCreate, zslCreateNode, hi]

theorem Levels.inList_iff (hz : Levels z nodes) : InList z x ↔ x ∈ nodes := by
  have hchain := hz.chain 0 (by decide)
  rw [hz.onLevel_zero fun _ h => h] at hchain
  constructor
  · rintro ⟨nodes', hchain', hx⟩
    exact hchain.unique hchain' ▸ hx
  · exact fun hx => ⟨nodes, hchain, hx⟩

def Op.links : Op → Nat
  | .insert .. => 1
  | _ => 0

theorem Rep.call (hz : Rep z nodes) (hl : Legal z op) :
    ∃ z' nodes', call z op = some z' ∧ Rep z' nodes' ∧
      nodes'.length ≤ nodes.length + op.links := by
  cases op with
  | insert score func ups b =>
    obtain ⟨pre, suf, rfl, hsplit⟩ := exists_split hz.sorted score
    obtain ⟨z', hcall, hrep, -⟩ := insert_spec hz hsplit func ups b hl
    exact ⟨z', _, by rw [SkipList.call, hcall]; rfl, hrep, (length_middle ..).le⟩
  | deleteHead =>
    cases nodes with
    | nil => exact ⟨z, [], deleteHead_nil hz.toLevels, hz, Nat.le_refl _⟩
    | cons x nodes =>
      obtain ⟨z', hcall, hrep, -⟩ := deleteHead_spec hz
      exact ⟨z', nodes, hcall, hrep, Nat.le_succ _⟩
  | delete zn =>
    obtain ⟨pre, x, suf, z', rfl, -, hcall, hrep, -⟩ := delete_spec hz (hz.inList_iff.mp hl)
    exact ⟨z', _, hcall, hrep, (length_middle pre suf x).symm.le.trans' (Nat.le_succ _)⟩

theorem reach_rep (h : calls.Reach Transition.free z) : ∃ nodes, Rep z nodes := by
  refine h.invariant (P := fun z => ∃ nodes, Rep z nodes) ?_ ?_
  · rintro z ⟨heap, b, -, rfl⟩
    exact ⟨[], create_rep heap b⟩
  · rintro z op z' ⟨nodes, hz⟩ - ⟨hlegal, hcall⟩
    obtain ⟨z'', nodes', hcall', hz', -⟩ := hz.call hlegal
    cases hcall.symm.trans hcall'
    exact ⟨nodes', hz'⟩

-- ---------------------------------------------------------------------------
-- The chains in themselves
-- ---------------------------------------------------------------------------

/-- `chain i` is what the forward pointers of level `i` pass through. -/
structure WellFormed (z : Zskiplist) (chain : Nat → List Ptr) : Prop where
  linked : ∀ i < maxLevel, Linked (forward z.heap · i) z.header (chain i)
  sorted : ∀ i < maxLevel, (chain i).Pairwise fun x y => scoreOf z.heap x ≤ scoreOf z.heap y
  nested : ∀ i, i + 1 < maxLevel → (chain (i + 1)).Sublist (chain i)
  above : ∀ i, z.level ≤ i → i < maxLevel → forward z.heap z.header i = some none
  bounds : 1 ≤ z.level ∧ z.level ≤ maxLevel
  top : z.level = 1 ∨ ∃ x, forward z.heap z.header (z.level - 1) = some (some x)
  length : z.length.toInt = (chain 0).length

theorem Rep.wellFormed (hz : Rep z nodes) (hlen : nodes.length < 2 ^ 31) :
    WellFormed z fun i => onLevel z.heap i nodes := by
  refine ⟨hz.chain, fun i _ => hz.sorted.sublist onLevel_sublist,
    fun i _ => onLevel_succ_sublist, fun i hle hi => ?_, hz.level, ?_, ?_⟩
  · have := (hz.chain i hi).next_head
    rwa [hz.onLevel_nil hle] at this
  · refine hz.top.imp_right ?_
    rintro ⟨x, hx, htop⟩
    have hlv := hz.level
    rw [(hz.chain (z.level - 1) (by omega)).next_head]
    have hmem : x ∈ onLevel z.heap (z.level - 1) nodes := mem_onLevel.mpr ⟨hx, by omega⟩
    cases hl : onLevel z.heap (z.level - 1) nodes with
    | nil => exact absurd (hl ▸ hmem) List.not_mem_nil
    | cons y l => exact ⟨y, rfl⟩
  · rw [hz.onLevel_zero fun _ h => h, hz.length]
    exact Int32.toInt_ofNat_of_lt hlen

/-- All but `length` is right whatever the number of nodes. -/
theorem Rep.wellFormed_iff (hz : Rep z nodes) :
    (∃ chain, WellFormed z chain) ↔ nodes.length < 2 ^ 31 := by
  constructor
  · rintro ⟨chain, hw⟩
    obtain hnodes : chain 0 = nodes := by
      rw [(hw.linked 0 (by decide)).unique (hz.chain 0 (by decide)), hz.onLevel_zero fun _ h => h]
    have hlen := hw.length
    have hmax := Int32.toInt_lt z.length
    rw [hnodes] at hlen
    omega
  · exact fun hlen => ⟨_, hz.wellFormed hlen⟩

/-- Where a node is linked, `length` has not reached `INT_MAX`. -/
def Room (z : Zskiplist) : Op → Prop
  | .insert .. => z.length.toInt < 2147483647
  | _ => True

theorem Room.links (hroom : Room z op) (hz : Rep z nodes) (hlen : nodes.length < 2 ^ 31) :
    nodes.length + op.links < 2 ^ 31 := by
  cases op with
  | insert =>
    have hlt : z.length.toInt < 2 ^ 31 - 1 := hroom
    rw [hz.length, Int32.toInt_ofNat_of_lt hlen] at hlt
    simp only [Op.links]
    omega
  | deleteHead => exact hlen
  | delete => exact hlen

theorem reach_room (h : calls.Reach Room z) : ∃ nodes, Rep z nodes ∧ nodes.length < 2 ^ 31 := by
  refine h.invariant (P := fun z => ∃ nodes, Rep z nodes ∧ nodes.length < 2 ^ 31) ?_ ?_
  · rintro z ⟨heap, b, -, rfl⟩
    exact ⟨[], create_rep heap b, by decide⟩
  · rintro z op z' ⟨nodes, hz, hlen⟩ hroom ⟨hlegal, hcall⟩
    obtain ⟨z'', nodes', hcall', hz', hle⟩ := hz.call hlegal
    cases hcall.symm.trans hcall'
    exact ⟨nodes', hz', hle.trans_lt (hroom.links hz hlen)⟩

/-- After any calls that keep to the `int` the chains are well formed, and the
next call has a result. -/
theorem reach_wellFormed (h : calls.Reach Room z) :
    (∃ chain, WellFormed z chain) ∧ ∀ op, Legal z op → ∃ z', call z op = some z' := by
  obtain ⟨nodes, hz, hlen⟩ := reach_room h
  refine ⟨⟨_, hz.wellFormed hlen⟩, fun op hl => ?_⟩
  obtain ⟨z', -, hcall, -⟩ := hz.call hl
  exact ⟨z', hcall⟩

theorem two_timers : ∃ z, calls.Reach Room z ∧ z.level = 3 ∧ z.length = 2 ∧
    Linked (forward z.heap · 0) z.header [2, 1] ∧ scoreOf z.heap 2 = scoreOf z.heap 1 := by
  let junk : Nat → Option Ptr := fun _ => some 7
  let z₀ := zslCreate (fun _ => none) ⟨0, junk⟩
  obtain ⟨z₁, z₂, hone, hfree, hroom, htwo, hlevel, hlength, hfirst, hsecond, hend, hscore⟩ :
      ∃ z₁ z₂,
      call z₀ (.insert 5 0 0 ⟨1, junk⟩) = some z₁ ∧ z₁.heap 2 = none ∧ z₁.length = 1 ∧
      call z₁ (.insert 5 0 2 ⟨2, junk⟩) = some z₂ ∧ z₂.level = 3 ∧ z₂.length = 2 ∧
      forward z₂.heap z₂.header 0 = some (some 2) ∧ forward z₂.heap 2 0 = some (some 1) ∧
      forward z₂.heap 1 0 = some none ∧ scoreOf z₂.heap 2 = scoreOf z₂.heap 1 :=
    ⟨_, _, rfl, rfl, rfl, rfl, rfl, rfl, rfl, rfl, rfl, rfl⟩
  have hrun₁ : calls.Reach Room z₁ :=
    .step (i := .insert 5 0 0 ⟨1, junk⟩) (t := z₀) (.init ⟨_, _, rfl, rfl⟩)
      (show (0 : Int32).toInt < 2147483647 by decide) ⟨rfl, hone⟩
  have hrun₂ : calls.Reach Room z₂ :=
    .step (i := .insert 5 0 2 ⟨2, junk⟩) hrun₁
      (show z₁.length.toInt < 2147483647 by rw [hroom]; decide) ⟨hfree, htwo⟩
  exact ⟨z₂, hrun₂, hlevel, hlength, ⟨hfirst, hsecond, hend⟩, hscore⟩

/-- One of the two is deleted. -/
theorem reach_wellFormed_three : ∃ z, calls.Reach Room z ∧ z.level = 3 ∧
    z.length = 2 ∧ (∃ chain, WellFormed z chain) ∧ ∃ z', call z (.delete 2) = some z' := by
  obtain ⟨z, hrun, hlevel, hlength, hchain, -⟩ := two_timers
  exact ⟨z, hrun, hlevel, hlength, (reach_wellFormed hrun).1,
    (reach_wellFormed hrun).2 (.delete 2) ⟨[2, 1], hchain, List.mem_cons_self⟩⟩

def armings (n : Nat) : List Op :=
  (List.range n).map fun i => .insert 5 0 0 ⟨i + 1, fun _ => none⟩

theorem armings_path (n : Nat) : ∃ z nodes,
    calls.Path (zslCreate (fun _ => none) ⟨0, fun _ => none⟩) (armings n) z ∧
      Rep z nodes ∧ nodes.length = n ∧ ∀ q, n < q → shape z.heap q = none := by
  induction n with
  | zero =>
    refine ⟨_, [], .nil _, create_rep _ _, rfl, fun q hq => ?_⟩
    simp [shape, zslCreate, Nat.ne_of_gt hq]
  | succ n ih =>
    obtain ⟨z, nodes, hpath, hz, hlen, hfree⟩ := ih
    have hblock : z.heap (n + 1) = none := Option.map_eq_none_iff.mp (hfree _ n.lt_succ_self)
    obtain ⟨pre, suf, rfl, hsplit⟩ := exists_split hz.sorted 5
    obtain ⟨z', hcall, hz', hins⟩ := insert_spec hz hsplit 0 0 ⟨n + 1, fun _ => none⟩ hblock
    refine ⟨z', _, ?_, hz', by rw [length_middle, hlen], fun q hq => ?_⟩
    · rw [armings, List.range_succ, List.map_append]
      exact hpath.snoc ⟨hblock, by rw [call, hcall]; rfl⟩
    · rw [hins.other q (Nat.ne_of_gt hq)]
      exact hfree q (Nat.lt_of_succ_lt hq)

/-- After `2 ^ 31` of them `length` is negative. -/
theorem length_wraps : ∃ z, calls.Reach Transition.free z ∧
    calls.Path (zslCreate (fun _ => none) ⟨0, fun _ => none⟩) (armings (2 ^ 31)) z ∧
    z.length.toInt = -2147483648 ∧ ¬ ∃ chain, WellFormed z chain := by
  obtain ⟨z, nodes, hpath, hz, hlen, -⟩ := armings_path (2 ^ 31)
  have hinit : calls.init (zslCreate (fun _ => none) ⟨0, fun _ => none⟩) := ⟨_, _, rfl, rfl⟩
  refine ⟨z, ?_, hpath, ?_, fun h => ?_⟩
  · exact (Transition.Reach.init hinit).path hpath fun _ _ _ => trivial
  · rw [hz.length, hlen]
    decide
  · exact absurd (hz.wellFormed_iff.mp h) (by omega)

end LearningCode.SkipList

/-!
## Cancelling a timer

`zslDelete` looks for the score of the node it is given and takes out the first node
that has it. That is the node itself if no node before it has the same score.
-/

namespace LearningCode.SkipList

open Chain

variable {z z' : Zskiplist} {nodes pre suf : List Ptr} {x zn : Ptr}

structure Cancelled (z z' : Zskiplist) (zn : Ptr) : Prop where
  header : z'.header = z.header
  freed : ∀ q, z'.heap q = none ↔ z.heap q = none ∨ q = zn
  levels : ∀ i < maxLevel, ∀ l, Linked (forward z.heap · i) z.header l →
    Linked (forward z'.heap · i) z.header (l.filter (· ≠ zn))
  kept : ∀ q, q ≠ zn → shape z'.heap q = shape z.heap q
  length : z'.length = z.length - 1

def Precedes (z : Zskiplist) (x zn : Ptr) : Prop :=
  ∃ pre mid suf, Linked (forward z.heap · 0) z.header (pre ++ x :: (mid ++ zn :: suf))

def FirstOfScore (z : Zskiplist) (zn : Ptr) : Prop :=
  ∀ x, Precedes z x zn → scoreOf z.heap x ≠ scoreOf z.heap zn

theorem Levels.precedes_iff (hz : Levels z nodes) :
    Precedes z x zn ↔ ∃ pre mid suf, nodes = pre ++ x :: (mid ++ zn :: suf) := by
  have hchain := hz.chain 0 (by decide)
  rw [hz.onLevel_zero fun _ h => h] at hchain
  constructor
  · rintro ⟨pre, mid, suf, hchain'⟩
    exact ⟨pre, mid, suf, hchain.unique hchain'⟩
  · rintro ⟨pre, mid, suf, rfl⟩
    exact ⟨pre, mid, suf, hchain⟩

theorem Levels.target_eq_iff (hz : Levels z (pre ++ x :: suf)) (hzn : zn ∈ pre ++ x :: suf)
    (hsplit : Split z.heap (scoreOf z.heap zn) pre (x :: suf))
    (hx : scoreOf z.heap x = scoreOf z.heap zn) : x = zn ↔ FirstOfScore z zn := by
  constructor
  · rintro rfl y hy heq
    obtain ⟨pre', mid, suf', hnodes⟩ := hz.precedes_iff.mp hy
    have hnd := (List.nodup_middle.mp (List.nodup_cons.mp hz.nodup).2)
    have hnot : x ∉ pre ++ suf := (List.nodup_cons.mp hnd).1
    have hsame : pre ++ x :: suf = (pre' ++ y :: mid) ++ x :: suf' := by
      rw [hnodes, List.append_assoc, List.cons_append]
    obtain ⟨hpre, -, -⟩ := (List.append_cons_inj_of_notMem
      (fun h => hnot (List.mem_append_left suf h)) fun h => hnot (List.mem_append_right pre h)).mp hsame
    have hlt := hsplit.below y (by rw [hpre]; simp)
    omega
  · intro hfirst
    have hmem : zn ∈ x :: suf := (List.mem_append.mp hzn).resolve_left fun h =>
      absurd (hsplit.below zn h) (Nat.lt_irrefl _)
    rcases List.mem_cons.mp hmem with rfl | hmem
    · rfl
    · obtain ⟨mid, suf, rfl⟩ := List.append_of_mem hmem
      exact absurd hx (hfirst x (hz.precedes_iff.mpr ⟨pre, mid, suf, rfl⟩))

theorem Levels.cancelled (hz : Levels z (pre ++ zn :: suf)) (hz' : Levels z' (pre ++ suf))
    (hheader : z'.header = z.header) (hfree : z'.heap zn = none)
    (hkept : ∀ q, q ≠ zn → shape z'.heap q = shape z.heap q) : Cancelled z z' zn := by
  have hout : zn ∉ pre ++ suf :=
    (List.nodup_cons.mp (List.nodup_middle.mp (List.nodup_cons.mp hz.nodup).2)).1
  have hheight : ∀ q ∈ pre ++ suf, height z'.heap q = height z.heap q := fun q hq => by
    rw [height, hkept q fun heq => hout (heq ▸ hq)]
    rfl
  refine ⟨hheader, fun q => ?_, fun i hi l hl => ?_, hkept, ?_⟩
  · cases Decidable.em (q = zn) with
    | inl heq => simp [heq, hfree]
    | inr hne =>
      have := congrArg Option.isNone (hkept q hne)
      simp only [shape, Option.isNone_map] at this
      rw [or_iff_left hne, ← Option.isNone_iff_eq_none, ← Option.isNone_iff_eq_none, this]
  · obtain rfl := (hz.chain i hi).unique hl
    have hchain := hz'.chain i hi
    rw [hheader, onLevel_congr hheight] at hchain
    have hfilter : (onLevel z.heap i (pre ++ zn :: suf)).filter (· ≠ zn) =
        onLevel z.heap i (pre ++ suf) := by
      have hnone : (pre ++ zn :: suf).filter (· ≠ zn) = pre ++ suf := by
        rw [List.filter_append, List.filter_cons_of_neg (by simp), ← List.filter_append]
        exact List.filter_eq_self.mpr fun q hq => decide_eq_true fun heq => hout (heq ▸ hq)
      rw [onLevel, List.filter_comm, hnone, onLevel]
    rwa [hfilter]
  · rw [hz'.length, hz.length, length_middle, Int32.ofNat_add]
    exact (Int32.add_sub_cancel ..).symm

/-- `zslDelete` always has a result, and cancels `zn` if no earlier node has its score. -/
theorem delete_cancels_iff (h : calls.Reach Transition.free z) (hzn : InList z zn) :
    ∃ z', zslDelete z zn = some z' ∧ (Cancelled z z' zn ↔ FirstOfScore z zn) := by
  obtain ⟨nodes, hz⟩ := reach_rep h
  have hmem := hz.inList_iff.mp hzn
  obtain ⟨pre, x, suf, rfl, hsplit, hx⟩ := hz.target hmem
  obtain ⟨z', hcall, hz', hheader, hfree, hkept⟩ := deleteAt_spec hz hmem hsplit hx
  refine ⟨z', hcall, ?_⟩
  rw [← hz.target_eq_iff hmem hsplit hx]
  constructor
  · intro hc
    -- only the node that is freed can be the one cancelled
    refine ((hc.freed x).mp hfree).resolve_left fun hnone => ?_
    exact hz.allocated hnone (List.mem_cons_of_mem _ (by simp))
  · rintro rfl
    exact hz.toLevels.cancelled hz'.toLevels hheader hfree hkept

theorem delete_cancels_two : ∃ z z', InList z 2 ∧ zslDelete z 2 = some z' ∧ Cancelled z z' 2 := by
  obtain ⟨z, hroom, -, -, hchain, -⟩ := two_timers
  have hrun : calls.Reach Transition.free z := hroom.mono fun _ _ _ => trivial
  have hin : InList z 2 := ⟨[2, 1], hchain, List.mem_cons_self⟩
  have hfirst : FirstOfScore z 2 := by
    rintro x ⟨pre, mid, suf, hlinked⟩
    have heq := hchain.unique hlinked
    have hmem : 2 ∈ [1] := by
      cases pre with
      | nil => rw [(List.cons.inj heq).2]; simp
      | cons w pre => rw [(List.cons.inj heq).2]; simp
    exact absurd hmem (by decide)
  obtain ⟨z', hcall, hiff⟩ := delete_cancels_iff hrun hin
  exact ⟨z, z', hin, hcall, hiff.mpr hfirst⟩

/-- Cancelling the timer armed first frees the other one of the same score. -/
theorem delete_other : ¬ ∀ (z : Zskiplist) (zn : Ptr), calls.Reach Transition.free z → InList z zn →
    ∃ z', zslDelete z zn = some z' ∧ Cancelled z z' zn := by
  intro h
  obtain ⟨z, hroom, -, -, hchain, hscore⟩ := two_timers
  have hrun : calls.Reach Transition.free z := hroom.mono fun _ _ _ => trivial
  obtain ⟨z', hcall, hc⟩ := h z 1 hrun ⟨[2, 1], hchain, by decide⟩
  obtain ⟨nodes, hz⟩ := reach_rep hrun
  have hmem : 1 ∈ nodes := hz.inList_iff.mp ⟨[2, 1], hchain, by decide⟩
  obtain ⟨pre, x, suf, rfl, hsplit, hx⟩ := hz.target hmem
  obtain ⟨z'', hcall', -, -, hfree, -⟩ := deleteAt_spec hz hmem hsplit hx
  obtain rfl := Option.some.inj (hcall.symm.trans hcall')
  -- node 1 would have to be the first of its score
  obtain rfl : x = 1 := ((hc.freed x).mp hfree).resolve_left fun hnone =>
    hz.allocated hnone (List.mem_cons_of_mem _ (by simp))
  exact (hz.target_eq_iff hmem hsplit hx).mp rfl 2 ⟨[], [], [], hchain⟩ hscore

end LearningCode.SkipList
