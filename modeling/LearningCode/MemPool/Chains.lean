import LearningCode.Lib.Chain
import LearningCode.MemPool.Release
import LearningCode.MemPool.Written

/-!
# The lists of the memory pool as they lie in memory

Where the fields hold what the lists say, the functions that read and write the fields do
to them what the functions over lists do to the lists. A new region is zero here, as the
lists take it to be.
-/

namespace LearningCode.MemPool.Written

open Records LearningCode.Span

def MpNode.of (n : MemPool.MpNode) (next : Ptr) : MpNode :=
  ⟨some n.stop, some n.last, some next, some n.quote, some n.failed⟩

def MpLarge.of (l : MemPool.MpLarge) (next : Ptr) : MpLarge :=
  ⟨some next, some l.size, some l.alloc⟩

def MpNode.zero : MpNode := ⟨some 0, some 0, some none, some 0, some 0⟩

abbrev firstNode : List MemPool.MpNode → Ptr := first MemPool.MpNode.addr

abbrev firstLarge : List MemPool.MpLarge → Ptr := first MemPool.MpLarge.addr

abbrev Nodes (m : Memory) : List MemPool.MpNode → Prop :=
  Stored MemPool.MpNode.addr MpNode.of m.node

abbrev Headers (m : Memory) : List MemPool.MpLarge → Prop :=
  Stored MemPool.MpLarge.addr MpLarge.of m.large

variable {m m' : Memory} {pool pool' : MpPool} {p p' : MemPool.MpPool} {size a turns n x : Nat}
  {answer answer' ret : Ptr} {before rest l l' : List MemPool.MpNode} {cur : MemPool.MpNode}
  {large : List MemPool.MpLarge} {regions regions' pages : List Span} {r : Span}

@[simp] theorem read_some {α : Type} (x : α) : read (some x) = .ok x := rfl

-- ---------------------------------------------------------------------------
-- The loops over the chains
-- ---------------------------------------------------------------------------

theorem carve_stored (size : Nat) (h : Nodes m l) (hlt : l.length < turns) :
    MemPool.carve size l = none ∧ carve size turns m (firstNode l) = .ok none ∨
      ∃ before cur rest cur', l = before ++ cur :: rest ∧ cur'.addr = cur.addr ∧
        MemPool.carve size l = some (mpAlignPtr cur.last, before ++ cur' :: rest) ∧
        carve size turns m (firstNode l) =
          .ok (some (m.set cur.addr (.of cur' (firstNode rest)), mpAlignPtr cur.last)) := by
  induction l generalizing turns with
  | nil =>
    obtain ⟨turns, rfl⟩ := Nat.exists_eq_add_one.mpr hlt
    exact .inl ⟨rfl, rfl⟩
  | cons cur l ih =>
    obtain ⟨turns, rfl⟩ := Nat.exists_eq_add_one.mpr (Nat.zero_lt_of_lt hlt)
    have hcell := h.1
    simp only [MemPool.carve, carve, first_cons, hcell, MpNode.of, read_some, ok_bind]
    by_cases hroom : uint64 (cur.stop + 2 ^ 64 - mpAlignPtr cur.last) ≥ size
    · simp only [if_pos hroom]
      exact .inr ⟨[], cur, l, { cur with quote := cur.quote + 1, last := mpAlignPtr cur.last + size },
        rfl, rfl, rfl, rfl⟩
    · simp only [if_neg hroom]
      rcases ih h.2 (Nat.lt_of_succ_lt_succ hlt) with ⟨hnone, hrun⟩ |
          ⟨before, n, rest, n', rfl, haddr, hsome, hrun⟩
      · exact .inl ⟨by rw [hnone]; rfl, hrun⟩
      · exact .inr ⟨cur :: before, n, rest, n', rfl, haddr, by rw [hsome]; rfl, hrun⟩

theorem release_stored (pool : MpPool) (x : Nat) (h : Nodes m l) (hlt : l.length < turns) :
    MemPool.release pool.addr pool.head x l = none ∧
        release pool x turns m (firstNode l) = .ok (m, false) ∨
      ∃ before cur rest cur' rewound, l = before ++ cur :: rest ∧ cur'.addr = cur.addr ∧
        MemPool.release pool.addr pool.head x l = some (rewound, before ++ cur' :: rest) ∧
        release pool x turns m (firstNode l) =
          .ok (m.set cur.addr (.of cur' (firstNode rest)), rewound) := by
  induction l generalizing turns with
  | nil =>
    obtain ⟨turns, rfl⟩ := Nat.exists_eq_add_one.mpr hlt
    exact .inl ⟨rfl, rfl⟩
  | cons cur l ih =>
    obtain ⟨turns, rfl⟩ := Nat.exists_eq_add_one.mpr (Nat.zero_lt_of_lt hlt)
    have hcell := h.1
    have hinside : inside m x cur.addr = .ok (decide (cur.addr ≤ x ∧ x ≤ cur.stop)) := by
      unfold inside
      by_cases hle : cur.addr ≤ x
      · simp [hle, hcell, MpNode.of, Except.map]
      · simp [hle]
    simp only [MemPool.release, release, first_cons, hinside, hcell, MpNode.of, read_some, ok_bind,
      decide_eq_true_eq]
    by_cases hin : cur.addr ≤ x ∧ x ≤ cur.stop
    · simp only [if_pos hin]
      by_cases hzero : cur.quote - 1 = 0
      · simp only [if_pos hzero]
        let last := if cur.addr = pool.head then pool.addr + sizeofPool + sizeofNode
          else cur.addr + sizeofNode
        exact .inr ⟨[], cur, l,
          { cur with quote := cur.quote - 1, last := last, failed := 0 }, true, rfl, rfl, rfl,
          by simp [Memory.set, last]⟩
      · simp only [if_neg hzero]
        exact .inr ⟨[], cur, l, { cur with quote := cur.quote - 1 }, false, rfl, rfl, rfl, rfl⟩
    · simp only [if_neg hin]
      rcases ih h.2 (Nat.lt_of_succ_lt_succ hlt) with ⟨hnone, hrun⟩ |
          ⟨before, n, rest, n', rewound, rfl, haddr, hsome, hrun⟩
      · exact .inl ⟨by rw [hnone]; rfl, hrun⟩
      · exact .inr ⟨cur :: before, n, rest, n', rewound, rfl, haddr, by rw [hsome]; rfl, hrun⟩

theorem reuse_stored (size a : Nat) (h : Headers m large) (hlt : large.length < turns) :
    MemPool.reuse size a n large = none ∧ reuse size a turns n m (firstLarge large) = .ok none ∨
      ∃ before cur rest cur', large = before ++ cur :: rest ∧ cur'.addr = cur.addr ∧
        MemPool.reuse size a n large = some (before ++ cur' :: rest) ∧
        reuse size a turns n m (firstLarge large) =
          .ok (some (m.setLarge cur.addr (.of cur' (firstLarge rest)))) := by
  induction large generalizing turns n with
  | nil =>
    obtain ⟨turns, rfl⟩ := Nat.exists_eq_add_one.mpr hlt
    exact .inl ⟨rfl, rfl⟩
  | cons cur large ih =>
    obtain ⟨turns, rfl⟩ := Nat.exists_eq_add_one.mpr (Nat.zero_lt_of_lt hlt)
    have hcell := h.1
    cases halloc : cur.alloc with
    | none =>
      refine .inr ⟨[], cur, large, { cur with size := int32 size, alloc := some a }, rfl, rfl, ?_, ?_⟩
      · simp only [MemPool.reuse, halloc, if_true, List.nil_append]
      · simp only [reuse, first_cons, hcell, MpLarge.of, halloc, read_some, ok_bind]
    | some block =>
      simp only [MemPool.reuse, reuse, first_cons, hcell, MpLarge.of, halloc, read_some, ok_bind,
        reduceCtorEq, if_false]
      by_cases hn : n > 3
      · simp only [if_pos hn]
        exact .inl ⟨trivial, trivial⟩
      · simp only [if_neg hn]
        rcases ih h.2 (Nat.lt_of_succ_lt_succ hlt) with ⟨hnone, hrun⟩ |
            ⟨before, l, rest, l', rfl, haddr, hsome, hrun⟩
        · exact .inl ⟨by rw [hnone]; rfl, hrun⟩
        · exact .inr ⟨cur :: before, l, rest, l', rfl, haddr, by rw [hsome]; rfl, hrun⟩

theorem freeLarge_stored (h : Headers m large) (hlt : large.length < turns)
    (hkept : ∀ l ∈ large, l.alloc = some x → (m.free (some x)).large l.addr = m.large l.addr) :
    MemPool.freeLarge x large = none ∧
        freeLarge (some x) turns m (firstLarge large) = .ok none ∨
      ∃ before cur rest cur', large = before ++ cur :: rest ∧ cur'.addr = cur.addr ∧
        MemPool.freeLarge x large = some (before ++ cur' :: rest) ∧
        freeLarge (some x) turns m (firstLarge large) =
          .ok (some ((m.free (some x)).setLarge cur.addr (.of cur' (firstLarge rest)))) := by
  induction large generalizing turns with
  | nil =>
    obtain ⟨turns, rfl⟩ := Nat.exists_eq_add_one.mpr hlt
    exact .inl ⟨rfl, rfl⟩
  | cons cur large ih =>
    obtain ⟨turns, rfl⟩ := Nat.exists_eq_add_one.mpr (Nat.zero_lt_of_lt hlt)
    rw [List.forall_mem_cons] at hkept
    have hcell := h.1
    simp only [MemPool.freeLarge, freeLarge, first_cons, hcell, MpLarge.of, read_some, ok_bind]
    by_cases heq : some x = cur.alloc
    · simp only [if_pos heq]
      refine .inr ⟨[], cur, large, { cur with size := 0, alloc := none }, rfl, rfl, rfl, ?_⟩
      rw [← heq, hkept.1 heq.symm, hcell]
      rfl
    · simp only [if_neg heq]
      rcases ih h.2 (Nat.lt_of_succ_lt_succ hlt) hkept.2 with ⟨hnone, hrun⟩ |
          ⟨before, l, rest, l', rfl, haddr, hsome, hrun⟩
      · exact .inl ⟨by rw [hnone]; rfl, hrun⟩
      · exact .inr ⟨cur :: before, l, rest, l', rfl, haddr, by rw [hsome]; rfl, hrun⟩

-- ---------------------------------------------------------------------------
-- Regions that come and go
-- ---------------------------------------------------------------------------

def Same (pages : List Span) (m m' : Memory) : Prop :=
  ∀ r ∈ pages, ∀ x, r.addr ≤ x → x < r.stop → m'.node x = m.node x ∧ m'.large x = m.large x

theorem Same.fill (n : MpNode) (h : ∀ r' ∈ pages, Apart r r') : Same pages m (m.fill n r) := by
  intro r' hr' x hle hlt
  have hout : ¬(r.addr ≤ x ∧ x < r.stop) := by
    have hapart := h r' hr'
    simp only [Apart] at hapart
    omega
  simp only [Memory.fill, if_neg hout, and_self]

theorem Same.obtain (h : ∀ r' ∈ pages, Apart r r') : Same pages m (m.obtain r) :=
  Same.fill m.found h

theorem Same.refl (m : Memory) : Same pages m m := fun _ _ _ _ _ => ⟨rfl, rfl⟩

theorem Same.trans {m'' : Memory} (h : Same pages m m') (h' : Same pages m' m'') :
    Same pages m m'' := by
  intro r hr x hle hlt
  obtain ⟨hnode, hlarge⟩ := h r hr x hle hlt
  obtain ⟨hnode', hlarge'⟩ := h' r hr x hle hlt
  exact ⟨hnode'.trans hnode, hlarge'.trans hlarge⟩

theorem foldl_fill (l : List Span) (h : ∀ r ∈ l, ∀ r' ∈ pages, Apart r r') :
    Same pages m (l.foldl (Memory.fill · .raw) m) ∧
      (l.foldl (Memory.fill · .raw) m).found = m.found := by
  induction l generalizing m with
  | nil => exact ⟨.refl m, rfl⟩
  | cons r l ih =>
    rw [List.forall_mem_cons] at h
    obtain ⟨hsame, hfound⟩ := @ih (m.fill .raw r) h.2
    exact ⟨(Same.fill .raw h.1).trans hsame, hfound⟩

theorem Same.free (h : ∀ r ∈ m.regions, r.addr = a → ∀ r' ∈ pages, Apart r r') :
    Same pages m (m.free (some a)) ∧ (m.free (some a)).found = m.found := by
  refine foldl_fill _ fun r hr => ?_
  obtain ⟨hr, heq⟩ := List.mem_filter.mp hr
  exact h r hr (of_decide_eq_true heq)

/-- The nodes and headers lie in the pages, each at an address of its own. -/
structure Housed (p : MemPool.MpPool) (pages : List Span) : Prop where
  nodes : (p.nodes.map MemPool.MpNode.addr).Nodup
  large : (p.large.map MemPool.MpLarge.addr).Nodup
  node_mem : ∀ n ∈ p.nodes, ∃ r ∈ pages, r.addr ≤ n.addr ∧ n.addr < r.stop
  large_mem : ∀ l ∈ p.large, ∃ r ∈ pages, r.addr ≤ l.addr ∧ l.addr < r.stop

theorem housed {larges pieces : List Span} {starts : List Nat}
    (hlaid : Laid p regions size starts larges) (hcarved : Carved p.nodes pieces)
    (hheaders : (p.large.map MemPool.MpLarge.header).Sublist pieces) :
    Housed p (MemPool.pages p.addr size starts) := by
  refine ⟨?_, ?_, fun n hn => ?_, fun l hl => ?_⟩
  · refine List.pairwise_map.mpr (hcarved.frames.imp_of_mem fun {n n'} hn hn' hframe => ?_)
    have hroom := hcarved.room n hn
    have hroom' := hcarved.room n' hn'
    simp only [sizeofNode] at hroom hroom'
    omega
  · have hapart := hcarved.apart.sublist hheaders
    refine List.pairwise_map.mpr ((List.pairwise_map.mp hapart).imp fun {l l'} h => ?_)
    have hpos : 0 < sizeofLarge := Nat.succ_pos _
    exact Apart.addr_ne h hpos hpos
  · obtain ⟨r, hr, haddr, hstop⟩ := hlaid.page hn
    have hroom := hcarved.room n hn
    simp only [sizeofNode] at hroom
    exact ⟨r, hr, haddr, by omega⟩
  · obtain ⟨-, hpos, n, hn, hstart, hlast⟩ :=
      hcarved.placed l.header (hheaders.subset (List.mem_map_of_mem hl))
    obtain ⟨r, hr, haddr, hstop⟩ := hlaid.page hn
    have hroom := hcarved.room n hn
    simp only [MemPool.MpLarge.header, Span.stop, sizeofNode, sizeofLarge] at *
    exact ⟨r, hr, by omega, by omega⟩

/-- The fields of the pool and of all that is linked to it are those of the lists. -/
structure Holds (m : Memory) (pool : MpPool) (p : MemPool.MpPool) (regions : Regions) : Prop where
  addr : pool.addr = p.addr
  current : pool.current = p.current
  head : p.head = some pool.head
  large : pool.large = firstLarge p.large
  nodes : Nodes m p.nodes
  headers : Headers m p.large
  regions : m.regions = regions
  found : m.found = .zero

theorem Holds.same (h : Holds m pool p regions) (hh : Housed p pages) (hsame : Same pages m m')
    (hregions : m'.regions = regions') (hfound : m'.found = m.found) :
    Holds m' pool p regions' := by
  refine { h with
    nodes := h.nodes.congr fun n hn => ?_
    headers := h.headers.congr fun l hl => ?_
    regions := hregions
    found := hfound.trans h.found }
  · obtain ⟨r, hr, hle, hlt⟩ := hh.node_mem n hn
    exact (hsame r hr _ hle hlt).1
  · obtain ⟨r, hr, hle, hlt⟩ := hh.large_mem l hl
    exact (hsame r hr _ hle hlt).2

end LearningCode.MemPool.Written
