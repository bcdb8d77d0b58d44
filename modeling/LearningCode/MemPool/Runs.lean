import Mathlib.Data.List.Pairwise
import LearningCode.Lib.Transition
import LearningCode.MemPool.Alloc

/-!
# Whole runs of the memory pool

A run starts with `mp_create_pool`. Beside the pool it keeps the blocks that
were returned and not given back since.
-/

namespace LearningCode.MemPool

open LearningCode.Span Transition

structure State where
  pool : MpPool
  regions : Regions
  live : List Span

inductive Op
  | malloc (size : Nat) (answer answer' : Option Nat)
  | calloc (size : Nat) (answer answer' : Option Nat)
  | free (p : Nat)
  | reset

def State.allocated (st : State) (size : Nat) (r : MpPool × Regions × Option Nat) : State :=
  ⟨r.1, r.2.1, r.2.2.toList.map (⟨·, size⟩) ++ st.live⟩

def call (st : State) : Op → Option State
  | .malloc size answer answer' =>
    (mpMalloc st.pool st.regions size answer answer').map (st.allocated size)
  | .calloc size answer answer' =>
    (mpCalloc st.pool st.regions size answer answer').map (st.allocated size)
  | .free p => (mpFree st.pool st.regions p).map fun r => ⟨r.1, r.2, free st.live p⟩
  | .reset => (mpResetPool st.pool st.regions).map fun r => ⟨r.1, r.2, []⟩

/-- The answers of `posix_memalign` are fresh, and what is freed is live. -/
def Legal (st : State) : Op → Prop
  | .malloc size answer answer' => Fresh st.regions size answer ∧
      Fresh (answer.toList.map (⟨·, size⟩) ++ st.regions) pageSize answer'
  | .calloc size answer answer' => Fresh st.regions size answer ∧
      Fresh (answer.toList.map (⟨·, size⟩) ++ st.regions) pageSize answer'
  | .free p => ∃ b ∈ st.live, b.addr = p
  | .reset => True

def runs : Transition State Op where
  init st := st.live = [] ∧ ∃ size answer, Fresh [] (poolSize size) answer ∧
    mpCreatePool [] size answer = (st.regions, some st.pool)
  step st op st' := Legal st op ∧ call st op = some st'

def isLarge (b : Span) : Bool := pageSize - sizeofNode < b.size

def isSmall (b : Span) : Bool := !isLarge b

def MpLarge.header (l : MpLarge) : Span := ⟨l.addr, sizeofLarge⟩

def pieces (live : List Span) (large : List MpLarge) : List Span :=
  live.filter isSmall ++ large.map MpLarge.header

structure Inv (st : State) : Prop where
  carved : Carved st.pool.nodes (pieces st.live st.pool.large)
  laid : ∃ size starts, Laid st.pool st.regions size starts (st.live.filter isLarge)
  allocs : (st.pool.large.filterMap MpLarge.alloc).Perm
    ((st.live.filter isLarge).map Span.addr)

variable {st st' : State} {pool : MpPool} {regions larges l m : List Span} {b r : Span}
  {size p big n : Nat} {starts as : List Nat} {large large' : List MpLarge}
  {answer answer' : Option Nat} {nodes : List MpNode}

-- ---------------------------------------------------------------------------
-- What the invariant says about blocks
-- ---------------------------------------------------------------------------

theorem apart_larges (hc : Carved pool.nodes l) (h : Laid pool regions size starts larges)
    (hb : b ∈ l) (hr : r ∈ larges) : Apart b r := by
  obtain ⟨-, -, n, hn, haddr, hlast⟩ := hc.placed b hb
  obtain ⟨page, hpage, hstart, hstop⟩ := h.page hn
  have hroom := (hc.room n hn).2
  have hapart := (List.pairwise_append.mp h.pairwise).2.2 page hpage r hr
  refine hapart.within ⟨?_, ?_⟩
  · exact Nat.le_trans hstart (Nat.le_trans (Nat.le_add_right _ _) haddr)
  · exact Nat.le_trans hlast (Nat.le_trans hroom hstop)

theorem Inv.small_mem (hb : b ∈ st.live) (hsmall : isLarge b = false) :
    b ∈ pieces st.live st.pool.large := by
  refine List.mem_append_left _ (List.mem_filter.mpr ⟨hb, ?_⟩)
  simp [isSmall, hsmall]

theorem Inv.live_perm : (st.live.filter isLarge ++ st.live.filter isSmall).Perm st.live :=
  List.filter_append_perm isLarge st.live

theorem Inv.apart (h : Inv st) : st.live.Pairwise Apart := by
  obtain ⟨size, starts, hlaid⟩ := h.laid
  refine pairwise_of_perm ?_ Inv.live_perm
  refine List.pairwise_append.mpr ⟨(List.pairwise_append.mp hlaid.pairwise).2.1,
    (List.pairwise_append.mp h.carved.apart).1, ?_⟩
  intro r hr b hb
  exact (apart_larges h.carved hlaid (List.mem_append_left _ hb) hr).symm

theorem Inv.pos (h : Inv st) (hb : b ∈ st.live) : 0 < b.size := by
  obtain ⟨size, starts, hlaid⟩ := h.laid
  cases hlarge : isLarge b with
  | true => exact (hlaid.sound b (hlaid.mem_larges (List.mem_filter.mpr ⟨hb, hlarge⟩))).2.2
  | false => exact (h.carved.placed b (Inv.small_mem hb hlarge)).2.1

theorem perm_cons_free (h : l.Pairwise Apart) (hpos : ∀ b ∈ l, 0 < b.size) (hb : b ∈ l) :
    l.Perm (b :: free l b.addr) := by
  obtain ⟨front, back, rfl⟩ := List.append_of_mem hb
  have hperm : (front ++ b :: back).Perm (b :: (front ++ back)) := List.perm_middle
  refine hperm.trans (List.Perm.cons b ?_)
  have hrest := free_of_apart (pairwise_of_perm h hperm) fun c hc =>
    hpos c (hperm.mem_iff.mpr hc)
  have hfree := hperm.filter fun c => c.addr ≠ b.addr
  rw [List.filter_cons_of_neg (by simp)] at hfree
  exact (hfree.trans (.of_eq hrest)).symm

-- ---------------------------------------------------------------------------
-- mp_create_pool
-- ---------------------------------------------------------------------------

theorem Inv.create (hfresh : Fresh [] (poolSize size) answer)
    (h : mpCreatePool [] size answer = (regions, some pool)) : Inv ⟨pool, regions, []⟩ := by
  cases answer with
  | none => cases h
  | some a =>
    cases h
    obtain ⟨halign, hlt, -⟩ := hfresh a rfl
    simp only [mpAlignment] at halign
    have hsize : pageSize ≤ poolSize size := by
      unfold poolSize
      split
      · exact Nat.le_refl _
      · next h => exact Nat.le_of_not_lt fun hlt => h (.inl hlt)
    generalize poolSize size = size' at hsize hlt ⊢
    simp only [pageSize] at hsize
    refine ⟨⟨List.pairwise_singleton .., ?_, ?_, ?_, by simp [pieces], by simp [pieces]⟩,
      ⟨size', [], ⟨rfl, .refl _, List.pairwise_singleton .., ?_, hsize,
        ⟨_, List.mem_singleton_self _, rfl⟩⟩⟩, .nil⟩
    · intro n hn
      rw [List.mem_singleton.mp hn]
      simp only [mpAlignment, pageSize]
      omega
    · intro n hn
      rw [List.mem_singleton.mp hn]
      simp only [pageSize, sizeofPool, sizeofNode]
      omega
    · intro n hn
      rw [List.mem_singleton.mp hn]
      simp [pieces]
    · intro r hr
      rw [List.mem_singleton.mp hr]
      simp only [Span.stop, mpAlignment] at *
      omega

-- ---------------------------------------------------------------------------
-- mp_malloc
-- ---------------------------------------------------------------------------

theorem isLarge_of_lt (h : pageSize - sizeofNode < size) (p : Nat) : isLarge ⟨p, size⟩ = true :=
  decide_eq_true h

theorem isLarge_of_le (h : size ≤ pageSize - sizeofNode) (p : Nat) : isLarge ⟨p, size⟩ = false :=
  decide_eq_false (Nat.not_lt_of_le h)

theorem Inv.mallocSmall (h : Inv st) (hfresh : Fresh st.regions pageSize answer) (hpos : 0 < size)
    (hsize : size ≤ pageSize - sizeofNode) : ∃ st',
      (mpMallocSmall st.pool st.regions size answer).map (st.allocated size) = some st' ∧
      Inv st' := by
  obtain ⟨width, starts, hlaid⟩ := h.laid
  obtain ⟨pool', regions', ret, hrun, hsmall⟩ :=
    mpMallocSmall_spec hlaid h.carved hfresh hpos hsize
  refine ⟨st.allocated size (pool', regions', ret), by rw [hrun]; rfl, ?_⟩
  obtain ⟨starts', hlaid'⟩ := hsmall.laid
  have hnotLarge : (ret.toList.map fun p => (⟨p, size⟩ : Span)).filter isLarge = [] := by
    cases ret <;> simp [isLarge_of_le hsize]
  have hallSmall : (ret.toList.map fun p => (⟨p, size⟩ : Span)).filter isSmall =
      ret.toList.map fun p => ⟨p, size⟩ := by
    cases ret <;> simp [isSmall, isLarge_of_le hsize]
  refine ⟨?_, ⟨width, starts', ?_⟩, ?_⟩
  · simpa [State.allocated, pieces, hallSmall, hsmall.large] using hsmall.carved
  · simpa [State.allocated, hnotLarge] using hlaid'
  · simpa [State.allocated, hnotLarge, hsmall.large] using h.allocs

theorem reuse_spec (h : reuse size big n large = some large') :
    large'.map MpLarge.header = large.map MpLarge.header ∧
      (large'.filterMap MpLarge.alloc).Perm (big :: large.filterMap MpLarge.alloc) := by
  induction large generalizing n large' with
  | nil => cases h
  | cons l large ih =>
    simp only [reuse] at h
    split at h
    · next hnone =>
      cases h
      exact ⟨by simp [MpLarge.header], by simp [hnone]⟩
    · split at h
      · cases h
      · obtain ⟨large'', hrun, rfl⟩ := Option.map_eq_some_iff.mp h
        obtain ⟨hheader, hperm⟩ := ih hrun
        refine ⟨by rw [List.map_cons, List.map_cons, hheader], ?_⟩
        cases halloc : l.alloc with
        | none => simpa [halloc] using hperm
        | some a =>
          simp only [List.filterMap_cons, halloc]
          exact (hperm.cons a).trans (List.Perm.swap ..)

theorem filter_large (h : pageSize - sizeofNode < size) :
    ((⟨p, size⟩ : Span) :: l).filter isLarge = ⟨p, size⟩ :: l.filter isLarge :=
  List.filter_cons_of_pos (isLarge_of_lt h p)

theorem filter_small (h : pageSize - sizeofNode < size) :
    ((⟨p, size⟩ : Span) :: l).filter isSmall = l.filter isSmall :=
  List.filter_cons_of_neg (by simp [isSmall, isLarge_of_lt h p])

theorem Inv.mallocLarge (h : Inv st) (hfresh : Fresh st.regions size answer)
    (hfresh' : Fresh (answer.toList.map (⟨·, size⟩) ++ st.regions) pageSize answer')
    (hsize : pageSize - sizeofNode < size) : ∃ st',
      (mpMallocLarge st.pool st.regions size answer answer').map (st.allocated size) = some st' ∧
      Inv st' := by
  cases answer with
  | none => exact ⟨_, rfl, h⟩
  | some big =>
    obtain ⟨width, starts, hlaid⟩ := h.laid
    have hlaid := hlaid.addLarge (hfresh big rfl) (Nat.zero_lt_of_lt hsize)
    simp only [mpMallocLarge]
    cases hreuse : reuse size big 0 st.pool.large with
    | some large =>
      obtain ⟨hheader, hperm⟩ := reuse_spec hreuse
      refine ⟨_, rfl, ?_, ⟨width, starts, ?_⟩, ?_⟩
      · simpa [State.allocated, pieces, filter_small hsize, hheader] using h.carved
      · have hkept : Laid { st.pool with large := large } _ width starts _ :=
          hlaid.of_frames rfl rfl hlaid.current
        simpa [State.allocated, filter_large hsize] using hkept
      · simpa [State.allocated, filter_large hsize] using hperm.trans (h.allocs.cons big)
    | none =>
      obtain ⟨pool', regions', ret, hrun, hsmall⟩ := mpMallocSmall_spec hlaid h.carved
        hfresh' (by decide : 0 < sizeofLarge) (by decide)
      obtain ⟨starts', hlaid'⟩ := hsmall.laid
      cases ret with
      | none =>
        refine ⟨st.allocated size (pool', free regions' big, none), by simp [hrun], ?_, ?_, ?_⟩
        · simpa [State.allocated, pieces, hsmall.large] using hsmall.carved
        · have hback := hlaid'.free List.mem_cons_self
          have hrest : free ((⟨big, size⟩ : Span) :: st.live.filter isLarge) big =
              st.live.filter isLarge := by
            have hapart := (List.pairwise_append.mp hlaid'.pairwise).2.1
            have hkept := free_of_apart hapart fun r hr =>
              (hlaid'.sound r (hlaid'.mem_larges hr)).2.2
            rw [free, List.filter_cons_of_neg (by simp)]
            exact hkept
          rw [hrest] at hback
          exact ⟨width, starts', hback⟩
        · simpa [State.allocated, hsmall.large] using h.allocs
      | some a =>
        refine ⟨st.allocated size ({ pool' with
          large := ⟨a, int32 size, some big⟩ :: pool'.large }, regions', some big),
          by simp [hrun], ?_, ⟨width, starts', ?_⟩, ?_⟩
        · have hperm : (⟨a, sizeofLarge⟩ :: pieces st.live st.pool.large).Perm
              (pieces (⟨big, size⟩ :: st.live) (⟨a, int32 size, some big⟩ :: st.pool.large)) := by
            simp only [pieces, filter_small hsize, List.map_cons]
            exact List.perm_middle.symm
          rw [← hsmall.large] at hperm
          exact hsmall.carved.perm (by rw [hsmall.large] at hperm ⊢; exact hperm)
        · have hkept : Laid { pool' with large := ⟨a, int32 size, some big⟩ :: pool'.large } _
              width starts' _ := hlaid'.of_frames rfl rfl hlaid'.current
          simpa [State.allocated, filter_large hsize] using hkept
        · simpa [State.allocated, filter_large hsize, hsmall.large] using h.allocs

theorem Inv.malloc (h : Inv st) (hfresh : Fresh st.regions size answer)
    (hfresh' : Fresh (answer.toList.map (⟨·, size⟩) ++ st.regions) pageSize answer') : ∃ st',
      (mpMalloc st.pool st.regions size answer answer').map (st.allocated size) = some st' ∧
      Inv st' := by
  unfold mpMalloc
  split
  · exact ⟨_, rfl, h⟩
  · next hzero =>
    split
    · next hlarge => exact h.mallocLarge hfresh hfresh' hlarge
    · next hsmall =>
      refine h.mallocSmall ?_ (Nat.pos_of_ne_zero hzero) (Nat.le_of_not_lt hsmall)
      intro a ha
      obtain ⟨halign, hlt, hapart⟩ := hfresh' a ha
      exact ⟨halign, hlt, fun r hr => hapart r (List.mem_append_right _ hr)⟩

-- ---------------------------------------------------------------------------
-- mp_free
-- ---------------------------------------------------------------------------

theorem freeLarge_spec (h : some p ∈ large.map MpLarge.alloc) : ∃ large',
    freeLarge p large = some large' ∧ large'.map MpLarge.header = large.map MpLarge.header ∧
      (large.filterMap MpLarge.alloc).Perm (p :: large'.filterMap MpLarge.alloc) := by
  induction large with
  | nil => cases h
  | cons l large ih =>
    by_cases heq : some p = l.alloc
    · refine ⟨{ l with size := 0, alloc := none } :: large, by simp [freeLarge, heq],
        by simp [MpLarge.header], ?_⟩
      simp [← heq]
    · have hmem : some p ∈ large.map MpLarge.alloc := by
        rcases List.mem_cons.mp h with hl | hl
        · exact absurd hl heq
        · exact hl
      obtain ⟨large', hrun, hheader, hperm⟩ := ih hmem
      refine ⟨l :: large', by simp [freeLarge, heq, hrun], by simp [hheader], ?_⟩
      cases halloc : l.alloc with
      | none => simpa [halloc] using hperm
      | some a =>
        simp only [List.filterMap_cons, halloc]
        exact (hperm.cons a).trans (List.Perm.swap ..)

theorem freeLarge_none (h : some p ∉ large.map MpLarge.alloc) : freeLarge p large = none := by
  induction large with
  | nil => rfl
  | cons l large ih =>
    simp only [List.map_cons, List.mem_cons, not_or] at h
    simp [freeLarge, h.1, ih h.2]

theorem mem_alloc_iff : some p ∈ large.map MpLarge.alloc ↔ p ∈ large.filterMap MpLarge.alloc := by
  simp

theorem release_spec {cur : MpNode} {before rest : List MpNode} {addr head : Nat}
    (hc : Carved (before ++ cur :: rest) (b :: l)) (hin : inside cur b = true)
    (hstart : cur.addr + sizeofNode ≤ b.addr)
    (hhead : cur.addr = head → cur.addr = addr + sizeofPool) : ∃ rewound last failed,
      release addr head b.addr (before ++ cur :: rest) = some (rewound,
        before ++ { cur with quote := cur.quote - 1, last := last, failed := failed } :: rest) ∧
      (last = cur.last ∨ cur.quote - 1 = 0 ∧ last = cur.addr + sizeofNode) := by
  have hmiss : ∀ n ∈ before, ¬(n.addr ≤ b.addr ∧ b.addr ≤ n.stop) := by
    intro n hn
    have hframe := hc.frame_of_mem (List.mem_append_left rest hn)
    simp only [inside, decide_eq_true_eq, sizeofNode] at hin hstart
    omega
  clear hc
  induction before with
  | nil =>
    have hhit : cur.addr ≤ b.addr ∧ b.addr ≤ cur.stop := by
      simp only [inside, decide_eq_true_eq] at hin
      omega
    by_cases hzero : cur.quote - 1 = 0
    · refine ⟨true, cur.addr + sizeofNode, 0, ?_, .inr ⟨hzero, rfl⟩⟩
      simp only [release, List.nil_append, if_pos hhit, if_pos hzero]
      split
      · next h => rw [hhead h]
      · rfl
    · refine ⟨false, cur.last, cur.failed, ?_, .inl rfl⟩
      simp only [release, List.nil_append, if_pos hhit, if_neg hzero]
  | cons n before ih =>
    rw [List.forall_mem_cons] at hmiss
    obtain ⟨rewound, last, failed, hrun, hlast⟩ := ih hmiss.2
    refine ⟨rewound, last, failed, ?_, hlast⟩
    simp only [release, List.cons_append, if_neg hmiss.1, hrun, Option.map_some]

theorem Laid.head (h : Laid pool regions size starts larges) :
    pool.head = some (pool.addr + sizeofPool) := by
  have hframes := h.frames
  cases hnodes : pool.nodes with
  | nil => simp [hnodes] at hframes
  | cons n nodes =>
    simp only [hnodes, List.map_cons, List.cons.injEq, Prod.mk.injEq] at hframes
    simp [MpPool.head, hnodes, hframes.1.1]

theorem Laid.exists_head (h : Laid pool regions size starts larges) :
    ∃ n ∈ pool.nodes, n.addr = pool.addr + sizeofPool := by
  have hhead := h.head
  simp only [MpPool.head, Option.map_eq_some_iff] at hhead
  obtain ⟨n, hn, haddr⟩ := hhead
  exact ⟨n, List.mem_of_mem_head? hn, haddr⟩

theorem Inv.free_large (h : Inv st) (hb : b ∈ st.live) (hlarge : isLarge b = true) : ∃ st',
    call st (.free b.addr) = some st' ∧ Inv st' := by
  obtain ⟨width, starts, hlaid⟩ := h.laid
  have hmem : b ∈ st.live.filter isLarge := List.mem_filter.mpr ⟨hb, hlarge⟩
  have hpos : ∀ c ∈ st.live.filter isLarge, 0 < c.size :=
    fun c hc => h.pos (List.mem_of_mem_filter hc)
  have hperm := perm_cons_free (h.apart.sublist List.filter_sublist) hpos hmem
  have halloc : some b.addr ∈ st.pool.large.map MpLarge.alloc := by
    rw [mem_alloc_iff, h.allocs.mem_iff]
    exact List.mem_map_of_mem hmem
  obtain ⟨large', hrun, hheader, hallocs⟩ := freeLarge_spec halloc
  have hcomm : (free st.live b.addr).filter isLarge = free (st.live.filter isLarge) b.addr :=
    List.filter_comm ..
  have hsmall : (free st.live b.addr).filter isSmall = st.live.filter isSmall := by
    rw [free, List.filter_comm]
    refine List.filter_eq_self.mpr ?_
    intro c hc
    have hapart := apart_larges h.carved hlaid (List.mem_append_left _ hc) hmem
    simpa using hapart.addr_ne (h.pos (List.mem_of_mem_filter hc)) (h.pos hb)
  have hcall : call st (.free b.addr) = some
      ⟨{ st.pool with large := large' }, free st.regions b.addr, free st.live b.addr⟩ := by
    simp only [call, mpFree, hrun, Option.map_some]
  refine ⟨_, hcall, ?_, ⟨width, starts, ?_⟩, ?_⟩
  · simpa [pieces, hsmall, hheader] using h.carved
  · have hkept : Laid { st.pool with large := large' } _ width starts _ :=
      (hlaid.free hmem).of_frames rfl rfl hlaid.current
    rw [hcomm]
    exact hkept
  · rw [hcomm]
    exact (List.perm_cons b.addr).mp (hallocs.symm.trans (h.allocs.trans (hperm.map Span.addr)))

theorem Inv.free_small (h : Inv st) (hb : b ∈ st.live) (hsmall : isLarge b = false) : ∃ st',
    call st (.free b.addr) = some st' ∧ Inv st' := by
  obtain ⟨width, starts, hlaid⟩ := h.laid
  have hpiece := Inv.small_mem hb hsmall
  have hnone : freeLarge b.addr st.pool.large = none := by
    refine freeLarge_none ?_
    rw [mem_alloc_iff, h.allocs.mem_iff]
    intro hmem
    obtain ⟨r, hr, heq⟩ := List.mem_map.mp hmem
    have hapart := apart_larges h.carved hlaid hpiece hr
    exact hapart.addr_ne (h.pos hb) (h.pos (List.mem_of_mem_filter hr)) heq.symm
  -- the block among the pieces
  have hperm : (st.live.filter isSmall).Perm (b :: free (st.live.filter isSmall) b.addr) :=
    perm_cons_free (h.apart.sublist List.filter_sublist)
      (fun c hc => h.pos (List.mem_of_mem_filter hc))
      (List.mem_filter.mpr ⟨hb, by simp [isSmall, hsmall]⟩)
  have hcarved : Carved st.pool.nodes (b :: pieces (free st.live b.addr) st.pool.large) := by
    refine h.carved.perm ?_
    have hcomm : (free st.live b.addr).filter isSmall = free (st.live.filter isSmall) b.addr :=
      List.filter_comm ..
    rw [pieces, pieces, hcomm]
    exact hperm.append_right _
  obtain ⟨-, hpos, cur, hcur, hstart, hstop⟩ := h.carved.placed b hpiece
  obtain ⟨before, rest, hnodes⟩ := List.append_of_mem hcur
  have hin : inside cur b = true := by
    have hroom := (h.carved.room cur hcur).2
    simp only [inside, decide_eq_true_eq, Span.stop, sizeofNode] at *
    omega
  rw [hnodes] at hcarved
  obtain ⟨rewound, last, failed, hrun, hlast⟩ := release_spec hcarved hin hstart
    (id : cur.addr = st.pool.addr + sizeofPool → _)
  have hlarges : (free st.live b.addr).filter isLarge = st.live.filter isLarge := by
    rw [free, List.filter_comm]
    refine List.filter_eq_self.mpr ?_
    intro r hr
    have hapart := apart_larges h.carved hlaid hpiece hr
    simpa using (hapart.addr_ne hpos (h.pos (List.mem_of_mem_filter hr))).symm
  have hcall : call st (.free b.addr) = some ⟨{ st.pool with
      nodes := before ++
        { cur with quote := cur.quote - 1, last := last, failed := failed } :: rest
      current := if rewound then st.pool.addr + sizeofPool else st.pool.current },
      st.regions, free st.live b.addr⟩ := by
    simp only [call, mpFree, hnone, hlaid.head, hnodes, hrun, Option.bind_eq_bind,
      Option.bind_some, Option.map_some]
  refine ⟨_, hcall, hcarved.release hin hlast, ⟨width, starts, ?_⟩, ?_⟩
  · rw [hlarges]
    refine hlaid.of_frames rfl (by simp [hnodes]) ?_
    have haddrs : ∀ n ∈ st.pool.nodes, ∃ n' ∈ before ++ { cur with
        quote := cur.quote - 1, last := last, failed := failed } :: rest, n'.addr = n.addr := by
      intro n hn
      rw [hnodes] at hn
      rcases mem_middle.mp hn with rfl | hn
      · exact ⟨_, mem_middle.mpr (.inl rfl), rfl⟩
      · exact ⟨n, mem_middle.mpr (.inr hn), rfl⟩
    cases rewound with
    | true =>
      obtain ⟨n, hn, haddr⟩ := hlaid.exists_head
      obtain ⟨n', hn', haddr'⟩ := haddrs n hn
      exact ⟨n', hn', haddr'.trans haddr⟩
    | false =>
      obtain ⟨n, hn, haddr⟩ := hlaid.current
      obtain ⟨n', hn', haddr'⟩ := haddrs n hn
      exact ⟨n', hn', haddr'.trans haddr⟩
  · rw [hlarges]
    exact h.allocs

-- ---------------------------------------------------------------------------
-- mp_reset_pool
-- ---------------------------------------------------------------------------

theorem Laid.freeAll (h : Laid pool regions size starts larges)
    (has : as.Perm (larges.map Span.addr)) :
    Laid pool (as.foldl MemPool.free regions) size starts [] := by
  induction as generalizing regions larges with
  | nil =>
    have hnil : larges = [] := List.map_eq_nil_iff.mp (List.nil_perm.mp has)
    rw [← hnil]
    exact h
  | cons a as ih =>
    obtain ⟨r, hr, rfl⟩ := List.mem_map.mp (has.subset List.mem_cons_self)
    have hperm := perm_cons_free (List.pairwise_append.mp h.pairwise).2.1
      (fun c hc => (h.sound c (h.mem_larges hc)).2.2) hr
    exact ih (h.free hr) ((List.perm_cons r.addr).mp (has.trans (hperm.map Span.addr)))

theorem Inv.reset (h : Inv st) : ∃ st', call st .reset = some st' ∧ Inv st' := by
  obtain ⟨width, starts, hlaid⟩ := h.laid
  let rewind (cur : MpNode) : MpNode :=
    { cur with last := cur.addr + sizeofNode, failed := 0, quote := 0 }
  have hcall : call st .reset = some ⟨{ st.pool with
      large := [], current := st.pool.addr + sizeofPool, nodes := st.pool.nodes.map rewind },
      (st.pool.large.filterMap MpLarge.alloc).foldl free st.regions, []⟩ := by
    simp only [call, mpResetPool, hlaid.head, Option.bind_eq_bind, Option.bind_some,
      Option.map_some]
    rfl
  refine ⟨_, hcall, ⟨?_, ?_, ?_, ?_, by simp [pieces], by simp [pieces]⟩, ⟨width, starts, ?_⟩, .nil⟩
  · exact List.pairwise_map.mpr h.carved.frames
  · intro n hn
    obtain ⟨m, hm, rfl⟩ := List.mem_map.mp hn
    exact h.carved.aligned m hm
  · intro n hn
    obtain ⟨m, hm, rfl⟩ := List.mem_map.mp hn
    obtain ⟨hstart, hstop⟩ := h.carved.room m hm
    exact ⟨Nat.le_refl _, Nat.le_trans hstart hstop⟩
  · intro n hn
    obtain ⟨m, hm, rfl⟩ := List.mem_map.mp hn
    simp [pieces, rewind]
  · refine (hlaid.freeAll h.allocs).of_frames rfl ?_ ?_
    · rw [List.map_map]
      rfl
    · obtain ⟨n, hn, haddr⟩ := hlaid.exists_head
      exact ⟨rewind n, List.mem_map_of_mem hn, haddr⟩

-- ---------------------------------------------------------------------------
-- Runs
-- ---------------------------------------------------------------------------

/-- Every call in order has a result, and keeps the invariant. -/
theorem Inv.call {op : Op} (h : Inv st) (hop : Legal st op) :
    ∃ st', call st op = some st' ∧ Inv st' := by
  cases op with
  | malloc size answer answer' => exact h.malloc hop.1 hop.2
  | calloc size answer answer' => exact h.malloc hop.1 hop.2
  | free p =>
    obtain ⟨b, hb, rfl⟩ := hop
    cases hlarge : isLarge b with
    | true => exact h.free_large hb hlarge
    | false => exact h.free_small hb hlarge
  | reset => exact h.reset

theorem inv_of_reach (h : Reach runs Transition.free st) : Inv st := by
  refine h.invariant (P := Inv) ?_ ?_
  · rintro ⟨pool, regions, live⟩ ⟨rfl, size, answer, hfresh, hcreate⟩
    exact Inv.create hfresh hcreate
  · rintro s op s' hs - ⟨hop, hcall⟩
    obtain ⟨s'', hcall', hs'⟩ := hs.call hop
    rw [hcall] at hcall'
    cases hcall'
    exact hs'

/-- Live blocks lie apart from each other and from what the pool keeps. -/
structure Separated (st : State) : Prop where
  apart : st.live.Pairwise Apart
  aligned : ∀ b ∈ st.live, b.addr % mpAlignment = 0
  inside : ∀ b ∈ st.live,
    (∃ n ∈ st.pool.nodes, n.addr + sizeofNode ≤ b.addr ∧ b.stop ≤ n.stop) ∨
      b ∈ st.regions ∧ ∃ l ∈ st.pool.large, l.alloc = some b.addr
  pool : ∀ b ∈ st.live, Apart b ⟨st.pool.addr, sizeofPool⟩
  nodes : ∀ b ∈ st.live, ∀ n ∈ st.pool.nodes, Apart b ⟨n.addr, sizeofNode⟩
  headers : ∀ b ∈ st.live, ∀ l ∈ st.pool.large, Apart b l.header
  quote : ∀ n ∈ st.pool.nodes, n.quote =
    ((st.live.filter isSmall).countP (MemPool.inside n) : Nat) +
      (st.pool.large.map MpLarge.header).countP (MemPool.inside n)

theorem Laid.apart_page {c : Span} (h : Laid pool regions size starts larges)
    (hr : r ∈ pages pool.addr size starts) (hc : Within c r) (hb : b ∈ larges) : Apart b c :=
  (((List.pairwise_append.mp h.pairwise).2.2 r hr b hb).within hc).symm

theorem Inv.separated_large (h : Inv st) (hb : b ∈ st.live) (hlarge : isLarge b = true) :
    (b ∈ st.regions ∧ ∃ l ∈ st.pool.large, l.alloc = some b.addr) ∧
      b.addr % mpAlignment = 0 ∧ Apart b ⟨st.pool.addr, sizeofPool⟩ ∧
      (∀ n ∈ st.pool.nodes, Apart b ⟨n.addr, sizeofNode⟩) ∧
      ∀ l ∈ st.pool.large, Apart b l.header := by
  obtain ⟨width, starts, hlaid⟩ := h.laid
  have hmem : b ∈ st.live.filter isLarge := List.mem_filter.mpr ⟨hb, hlarge⟩
  have hregion := hlaid.mem_larges hmem
  refine ⟨⟨hregion, ?_⟩, (hlaid.sound b hregion).1, ?_, ?_, ?_⟩
  · have halloc : b.addr ∈ st.pool.large.filterMap MpLarge.alloc :=
      h.allocs.mem_iff.mpr (List.mem_map_of_mem hmem)
    simpa using halloc
  · refine hlaid.apart_page List.mem_cons_self ⟨Nat.le_refl _, ?_⟩ hmem
    have hsize := hlaid.pageSize_le
    simp only [Span.stop, sizeofPool, pageSize] at *
    omega
  · intro n hn
    obtain ⟨r, hr, hstart, hstop⟩ := hlaid.page hn
    obtain ⟨hroom, hroom'⟩ := h.carved.room n hn
    exact hlaid.apart_page hr ⟨hstart, Nat.le_trans hroom (Nat.le_trans hroom' hstop)⟩ hmem
  · intro l hl
    exact (apart_larges h.carved hlaid
      (List.mem_append_right _ (List.mem_map_of_mem hl)) hmem).symm

theorem Inv.separated_small (h : Inv st) (hb : b ∈ st.live) (hsmall : isLarge b = false) :
    (∃ n ∈ st.pool.nodes, n.addr + sizeofNode ≤ b.addr ∧ b.stop ≤ n.stop) ∧
      b.addr % mpAlignment = 0 ∧ Apart b ⟨st.pool.addr, sizeofPool⟩ ∧
      (∀ n ∈ st.pool.nodes, Apart b ⟨n.addr, sizeofNode⟩) ∧
      ∀ l ∈ st.pool.large, Apart b l.header := by
  obtain ⟨width, starts, hlaid⟩ := h.laid
  obtain ⟨halign, hpos, n, hn, hstart, hlast⟩ := h.carved.placed b (Inv.small_mem hb hsmall)
  have hstop := Nat.le_trans hlast (h.carved.room n hn).2
  refine ⟨⟨n, hn, hstart, hstop⟩, halign, ?_, ?_, ?_⟩
  · rcases hlaid.frame hn with ⟨haddr, -⟩ | ⟨hstarts, hpage⟩
    · right
      simp only [Span.stop, sizeofPool, sizeofNode] at *
      omega
    · -- another page than the pool's
      have hpages := (List.pairwise_append.mp hlaid.pairwise).1
      have hapart := (List.pairwise_cons.mp hpages).1 _ (List.mem_map_of_mem hstarts)
      have hsize := hlaid.pageSize_le
      simp only [Apart, Span.stop, sizeofPool, sizeofNode, pageSize] at *
      omega
  · intro m hm
    by_cases hmn : m = n
    · subst hmn
      exact .inr hstart
    · have : Std.Symm fun n m : MpNode => n.stop ≤ m.addr ∨ m.stop ≤ n.addr := ⟨fun _ _ => Or.symm⟩
      have hframe := h.carved.frames.forall hm hn hmn
      have hroom := h.carved.room m hm
      simp only [Apart, Span.stop, sizeofNode] at *
      omega
  · intro l hl
    refine (List.pairwise_append.mp h.carved.apart).2.2 b ?_ _ (List.mem_map_of_mem hl)
    exact List.mem_filter.mpr ⟨hb, by simp [isSmall, hsmall]⟩

theorem Inv.separated (h : Inv st) : Separated st := by
  have hcases (b : Span) (hb : b ∈ st.live) := isLarge b |>.eq_false_or_eq_true
  refine ⟨h.apart, ?_, ?_, ?_, ?_, ?_, ?_⟩
  · intro b hb
    rcases hcases b hb with hlarge | hsmall
    · exact (h.separated_large hb hlarge).2.1
    · exact (h.separated_small hb hsmall).2.1
  · intro b hb
    rcases hcases b hb with hlarge | hsmall
    · exact .inr (h.separated_large hb hlarge).1
    · exact .inl (h.separated_small hb hsmall).1
  · intro b hb
    rcases hcases b hb with hlarge | hsmall
    · exact (h.separated_large hb hlarge).2.2.1
    · exact (h.separated_small hb hsmall).2.2.1
  · intro b hb
    rcases hcases b hb with hlarge | hsmall
    · exact (h.separated_large hb hlarge).2.2.2.1
    · exact (h.separated_small hb hsmall).2.2.2.1
  · intro b hb
    rcases hcases b hb with hlarge | hsmall
    · exact (h.separated_large hb hlarge).2.2.2.2
    · exact (h.separated_small hb hsmall).2.2.2.2
  · intro n hn
    have hquote := h.carved.quote n hn
    rw [pieces, List.countP_append] at hquote
    exact hquote

/-- Whatever is allocated, freed and reset, live blocks stay separated, and the
next call has a result. -/
theorem blocks_separated (h : Reach runs Transition.free st) :
    Separated st ∧ ∀ op, Legal st op → ∃ st', call st op = some st' := by
  have hinv := inv_of_reach h
  refine ⟨hinv.separated, fun op hop => ?_⟩
  obtain ⟨st', hcall, -⟩ := hinv.call hop
  exact ⟨st', hcall⟩

def onePage : State where
  pool := ⟨65536, [], [⟨65560, 69632, 65700, 1, 0⟩], 65560⟩
  regions := [⟨65536, 4096⟩]
  live := [⟨65600, 100⟩]

def emptyPage : State where
  pool := ⟨65536, [], [⟨65560, 69632, 65592, 0, 0⟩], 65560⟩
  regions := [⟨65536, 4096⟩]
  live := []

theorem onePage_reach : Reach runs Transition.free onePage := by
  have hnone (regions : Regions) (size : Nat) : Fresh regions size none := nofun
  have hfirst : Fresh [] (poolSize 4096) (some 65536) := by
    rintro a ⟨⟩
    exact ⟨rfl, by decide, by simp⟩
  have hinit : runs.init emptyPage := ⟨rfl, 4096, some 65536, hfirst, rfl⟩
  have hstep : runs.step emptyPage (.malloc 100 none none) onePage :=
    ⟨⟨hnone _ _, hnone _ _⟩, rfl⟩
  exact .step (.init hinit) trivial hstep

theorem blocks_separated_onePage :
    Separated onePage ∧ ∀ op, Legal onePage op → ∃ st', call onePage op = some st' :=
  blocks_separated onePage_reach

end LearningCode.MemPool
