import LearningCode.Lib.Ledger
import LearningCode.MemPool.Runs

/-!
# What the memory pool gives back

The calls of `posix_memalign` and `free` in the order the functions make them, by the
address of the region. A request that fails obtains nothing and leaves no entry.
-/

namespace LearningCode.MemPool

open LearningCode.Span Transition Ledger

/-- Behind the first page the regions of the nodes begin with the nodes. -/
def mpDestroyPool (pool : MpPool) (regions : Regions) : Option Regions :=
  let regions := (pool.large.filterMap MpLarge.alloc).foldl free regions
  match pool.nodes with
  | [] => none
  | _ :: nodes => some (free ((nodes.map MpNode.addr).foldl free regions) pool.addr)

-- ---------------------------------------------------------------------------
-- The calls of each function
-- ---------------------------------------------------------------------------

def obtainedCalls (answer : Option Nat) : List (Event Nat) := answer.toList.map .obtained

def mpMallocSmallCalls (pool : MpPool) (size : Nat) (answer : Option Nat) : List (Event Nat) :=
  match carve size (pool.nodes.span fun cur => cur.addr ≠ pool.current).2 with
  | some _ => []
  | none => obtainedCalls answer

def mpMallocLargeCalls (pool : MpPool) (regions : Regions) (size : Nat)
    (answer answer' : Option Nat) : List (Event Nat) :=
  match answer with
  | none => []
  | some bigAddr =>
    .obtained bigAddr ::
      match reuse size bigAddr 0 pool.large with
      | some _ => []
      | none =>
        mpMallocSmallCalls pool sizeofLarge answer' ++
          -- the block goes back when there is no header for it
          match mpMallocSmall pool (⟨bigAddr, size⟩ :: regions) sizeofLarge answer' with
          | some (_, _, none) => [.freed bigAddr]
          | _ => []

def mpMallocCalls (pool : MpPool) (regions : Regions) (size : Nat) (answer answer' : Option Nat) :
    List (Event Nat) :=
  if size = 0 then []
  else if size > pageSize - sizeofNode then mpMallocLargeCalls pool regions size answer answer'
  else mpMallocSmallCalls pool size answer'

def mpFreeCalls (pool : MpPool) (p : Nat) : List (Event Nat) :=
  match freeLarge p pool.large with
  | some _ => [.freed p]
  | none => []

def mpResetPoolCalls (pool : MpPool) : List (Event Nat) :=
  (pool.large.filterMap MpLarge.alloc).map .freed

def mpDestroyPoolCalls (pool : MpPool) : List (Event Nat) :=
  (pool.large.filterMap MpLarge.alloc).map .freed ++
    (pool.nodes.tail.map MpNode.addr).map .freed ++ [.freed pool.addr]

def calls (st : State) : Op → List (Event Nat)
  | .malloc size answer answer' => mpMallocCalls st.pool st.regions size answer answer'
  | .calloc size answer answer' => mpMallocCalls st.pool st.regions size answer answer'
  | .free p => mpFreeCalls st.pool p
  | .reset => mpResetPoolCalls st.pool

structure Logged where
  state : State
  log : List (Event Nat)

def logged : Transition Logged Op where
  init s := s.state.live = [] ∧ ∃ size answer, Fresh [] (poolSize size) answer ∧
    mpCreatePool [] size answer = (s.state.regions, some s.state.pool) ∧
    s.log = obtainedCalls answer
  step s op s' := runs.step s.state op s'.state ∧ s'.log = s.log ++ calls s.state op

-- ---------------------------------------------------------------------------
-- The calls are in order
-- ---------------------------------------------------------------------------

variable {s : Logged} {st st' : State} {op : Op} {pool pool' : MpPool}
  {regions regions' larges : Regions} {size sz a p : Nat} {answer answer' ret : Option Nat}
  {starts : List Nat}

abbrev addrs (regions : Regions) : List Nat := regions.map Span.addr

theorem addrs_free (regions : Regions) (p : Nat) :
    addrs (free regions p) = (addrs regions).filter (· ≠ p) := by
  simp only [addrs, free, List.filter_map]
  rfl

theorem addrs_foldl_free (as : List Nat) (regions : Regions) :
    addrs (as.foldl free regions) =
      as.foldl (fun held k => held.filter (· ≠ k)) (addrs regions) := by
  induction as generalizing regions with
  | nil => rfl
  | cons a as ih => rw [List.foldl_cons, List.foldl_cons, ih, addrs_free]

theorem mem_foldl_free {as : List Nat} {r : Span} (hr : r ∈ as.foldl free regions) :
    r ∈ regions ∧ r.addr ∉ as := by
  induction as generalizing regions with
  | nil => exact ⟨hr, List.not_mem_nil⟩
  | cons a as ih =>
    obtain ⟨hmem, hnot⟩ := ih hr
    obtain ⟨hmem, hne⟩ := List.mem_filter.mp hmem
    exact ⟨hmem, List.not_mem_cons_of_ne_of_not_mem (of_decide_eq_true hne) hnot⟩

theorem nodup_addrs (h : regions.Pairwise Apart) (hpos : ∀ r ∈ regions, 0 < r.size) :
    (addrs regions).Nodup := by
  refine List.pairwise_map.mpr ?_
  refine h.imp_of_mem fun hr hr' hapart => ?_
  exact hapart.addr_ne (hpos _ hr) (hpos _ hr')

theorem Laid.nodup_addrs (h : Laid pool regions size starts larges) : (addrs regions).Nodup :=
  MemPool.nodup_addrs h.apart fun r hr => (h.sound r hr).2.2

theorem Fresh.not_mem (h : Fresh regions sz (some a)) (hsz : 0 < sz)
    (hpos : ∀ r ∈ regions, 0 < r.size) : a ∉ addrs regions := by
  intro hmem
  obtain ⟨r, hr, heq⟩ := List.mem_map.mp hmem
  exact ((h a rfl).2.2 r hr).addr_ne hsz (hpos r hr) heq.symm

/-- What a function did to the regions in use is what its calls say. -/
def Told (regions : Regions) (log : List (Event Nat)) (regions' : Regions) : Prop :=
  replay (addrs regions) log = some (addrs regions')

theorem Told.trans {log log' : List (Event Nat)} {regions'' : Regions}
    (h : Told regions log regions') (h' : Told regions' log' regions'') :
    Told regions (log ++ log') regions'' :=
  (replay_append h).trans h'

theorem Told.obtained (h : Fresh regions sz (some a)) (hsz : 0 < sz)
    (hpos : ∀ r ∈ regions, 0 < r.size) : Told regions [.obtained a] (⟨a, sz⟩ :: regions) := by
  simp [Told, replay, h.not_mem hsz hpos]

theorem Told.freed (h : a ∈ addrs regions) : Told regions [.freed a] (free regions a) := by
  simp only [Told, replay, if_pos h, addrs_free]

theorem Told.freedAll {as : List Nat} (hnodup : as.Nodup) (hsub : as ⊆ addrs regions) :
    Told regions (as.map .freed) (as.foldl free regions) := by
  rw [Told, addrs_foldl_free]
  exact replay_freed hnodup hsub

theorem mpMallocSmall_told (hfresh : Fresh regions pageSize answer)
    (hpos : ∀ r ∈ regions, 0 < r.size)
    (h : mpMallocSmall pool regions sz answer = some (pool', regions', ret)) :
    Told regions (mpMallocSmallCalls pool sz answer) regions' ∧
      (ret = none → regions' = regions ∧ mpMallocSmallCalls pool sz answer = []) := by
  simp only [mpMallocSmall] at h
  simp only [mpMallocSmallCalls]
  generalize pool.nodes.span (fun cur => cur.addr ≠ pool.current) = parts at h ⊢
  obtain ⟨before, rest⟩ := parts
  dsimp only at h ⊢
  cases hcarve : carve sz rest with
  | some r =>
    rw [hcarve] at h
    cases h
    exact ⟨rfl, by rintro ⟨⟩⟩
  | none =>
    rw [hcarve] at h
    cases answer with
    | none =>
      cases h
      exact ⟨rfl, fun _ => ⟨rfl, rfl⟩⟩
    | some block =>
      obtain ⟨r, -, heq⟩ := Option.bind_eq_some_iff.mp h
      cases heq
      exact ⟨.obtained hfresh (by decide) hpos, by rintro ⟨⟩⟩

theorem Fresh.behind (h : Fresh (answer.toList.map (⟨·, sz⟩) ++ regions) pageSize answer') :
    Fresh regions pageSize answer' := by
  intro a ha
  obtain ⟨halign, hlt, hapart⟩ := h a ha
  exact ⟨halign, hlt, fun r hr => hapart r (List.mem_append_right _ hr)⟩

theorem mpMallocLarge_told (hfresh : Fresh regions size answer)
    (hfresh' : Fresh (answer.toList.map (⟨·, size⟩) ++ regions) pageSize answer')
    (hsize : 0 < size) (hpos : ∀ r ∈ regions, 0 < r.size)
    (h : mpMallocLarge pool regions size answer answer' = some (pool', regions', ret)) :
    Told regions (mpMallocLargeCalls pool regions size answer answer') regions' := by
  cases answer with
  | none =>
    cases h
    rfl
  | some big =>
    have hbig : Told regions [.obtained big] (⟨big, size⟩ :: regions) :=
      .obtained hfresh hsize hpos
    have hpos' : ∀ r ∈ (⟨big, size⟩ :: regions : Regions), 0 < r.size :=
      List.forall_mem_cons.mpr ⟨hsize, hpos⟩
    refine hbig.trans ?_
    simp only [mpMallocLarge] at h
    cases hreuse : reuse size big 0 pool.large with
    | some large =>
      rw [hreuse] at h
      cases h
      rfl
    | none =>
      rw [hreuse] at h
      obtain ⟨⟨pool'', regions'', ret'⟩, hsmall, h⟩ := Option.bind_eq_some_iff.mp h
      obtain ⟨htold, hnull⟩ := mpMallocSmall_told hfresh' hpos' hsmall
      refine htold.trans ?_
      rw [hsmall]
      cases ret' with
      | none =>
        obtain ⟨rfl, -⟩ := hnull rfl
        cases h
        exact .freed List.mem_cons_self
      | some header =>
        cases h
        rfl

theorem mpMalloc_told (hfresh : Fresh regions size answer)
    (hfresh' : Fresh (answer.toList.map (⟨·, size⟩) ++ regions) pageSize answer')
    (hpos : ∀ r ∈ regions, 0 < r.size)
    (h : mpMalloc pool regions size answer answer' = some (pool', regions', ret)) :
    Told regions (mpMallocCalls pool regions size answer answer') regions' := by
  unfold mpMalloc at h
  unfold mpMallocCalls
  split at h
  · next hzero =>
    cases h
    rw [if_pos hzero]
    rfl
  · next hzero =>
    rw [if_neg hzero]
    split at h
    · next hlarge =>
      rw [if_pos hlarge]
      exact mpMallocLarge_told hfresh hfresh' (Nat.pos_of_ne_zero hzero) hpos h
    · next hsmall =>
      rw [if_neg hsmall]
      exact (mpMallocSmall_told hfresh'.behind hpos h).1

theorem Inv.allocs_held (h : Inv st) :
    (st.pool.large.filterMap MpLarge.alloc).Nodup ∧
      st.pool.large.filterMap MpLarge.alloc ⊆ addrs st.regions := by
  obtain ⟨width, starts, hlaid⟩ := h.laid
  have hlarges : addrs (st.live.filter isLarge) ⊆ addrs st.regions := by
    intro a ha
    obtain ⟨r, hr, rfl⟩ := List.mem_map.mp ha
    exact List.mem_map_of_mem (hlaid.mem_larges hr)
  refine ⟨?_, fun a ha => hlarges (h.allocs.subset ha)⟩
  refine (h.allocs.nodup_iff).mpr (nodup_addrs ?_ ?_)
  · exact (List.pairwise_append.mp hlaid.pairwise).2.1
  · exact fun r hr => (hlaid.sound r (hlaid.mem_larges hr)).2.2

theorem mpFree_told (h : Inv st) (hrun : mpFree st.pool st.regions p = some (pool', regions')) :
    Told st.regions (mpFreeCalls st.pool p) regions' := by
  simp only [mpFree] at hrun
  simp only [mpFreeCalls]
  cases hlarge : freeLarge p st.pool.large with
  | some large =>
    rw [hlarge] at hrun
    cases hrun
    have halloc : p ∈ st.pool.large.filterMap MpLarge.alloc := by
      rw [← mem_alloc_iff]
      by_contra hnot
      rw [freeLarge_none hnot] at hlarge
      cases hlarge
    exact .freed (h.allocs_held.2 halloc)
  | none =>
    rw [hlarge] at hrun
    obtain ⟨head, -, hrun⟩ := Option.bind_eq_some_iff.mp hrun
    split at hrun
    · cases hrun
      rfl
    · cases hrun
      rfl

theorem mpResetPool_told (h : Inv st)
    (hrun : mpResetPool st.pool st.regions = some (pool', regions')) :
    Told st.regions (mpResetPoolCalls st.pool) regions' := by
  obtain ⟨head, -, hrun⟩ := Option.bind_eq_some_iff.mp hrun
  cases hrun
  exact .freedAll h.allocs_held.1 h.allocs_held.2

theorem call_told (h : Inv st) (hop : Legal st op) (hcall : call st op = some st') :
    Told st.regions (calls st op) st'.regions := by
  have hpos : ∀ r ∈ st.regions, 0 < r.size := by
    obtain ⟨width, starts, hlaid⟩ := h.laid
    exact fun r hr => (hlaid.sound r hr).2.2
  cases op with
  | malloc size answer answer' =>
    obtain ⟨r, hrun, rfl⟩ := Option.map_eq_some_iff.mp hcall
    exact mpMalloc_told hop.1 hop.2 hpos hrun
  | calloc size answer answer' =>
    obtain ⟨r, hrun, rfl⟩ := Option.map_eq_some_iff.mp hcall
    exact mpMalloc_told hop.1 hop.2 hpos hrun
  | free p =>
    obtain ⟨r, hrun, rfl⟩ := Option.map_eq_some_iff.mp hcall
    exact mpFree_told h hrun
  | reset =>
    obtain ⟨r, hrun, rfl⟩ := Option.map_eq_some_iff.mp hcall
    exact mpResetPool_told h hrun

-- ---------------------------------------------------------------------------
-- mp_destroy_pool
-- ---------------------------------------------------------------------------

theorem Inv.destroy (h : Inv st) : mpDestroyPool st.pool st.regions = some [] ∧
    Told st.regions (mpDestroyPoolCalls st.pool) [] := by
  obtain ⟨width, starts, hlaid⟩ := h.laid
  obtain ⟨n, nodes, hnodes⟩ : ∃ n nodes, st.pool.nodes = n :: nodes := by
    obtain ⟨n, hn, -⟩ := hlaid.current
    exact List.exists_cons_of_ne_nil (List.ne_nil_of_mem hn)
  have hstarts : nodes.map MpNode.addr = starts := by
    have hframes := hlaid.frames
    rw [hnodes, List.map_cons, List.cons.injEq] at hframes
    have haddr := congrArg (List.map Prod.fst) hframes.2
    rw [List.map_map, List.map_map] at haddr
    exact haddr.trans (List.map_id _)
  let as := st.pool.large.filterMap MpLarge.alloc ++ nodes.map MpNode.addr ++ [st.pool.addr]
  have hperm : as.Perm (addrs st.regions) := by
    have hused := hlaid.used.map Span.addr
    have hpages : addrs (pages st.pool.addr width starts) = st.pool.addr :: starts := by
      simp [addrs, pages, Function.comp_def]
    rw [List.map_append] at hused
    change (addrs st.regions).Perm (addrs (pages st.pool.addr width starts) ++ _) at hused
    rw [hpages] at hused
    refine List.Perm.trans ?_ hused.symm
    simp only [as, hstarts]
    refine List.perm_append_comm.trans ?_
    exact (List.perm_append_comm.trans (List.Perm.append_left starts h.allocs)).cons _
  have hfreed : Told st.regions (as.map .freed) (as.foldl free st.regions) :=
    .freedAll (hperm.nodup_iff.mpr hlaid.nodup_addrs) hperm.subset
  have hnone : as.foldl free st.regions = [] := by
    refine List.eq_nil_iff_forall_not_mem.mpr fun r hr => ?_
    obtain ⟨hmem, hnot⟩ := mem_foldl_free hr
    exact hnot (hperm.mem_iff.mpr (List.mem_map_of_mem hmem))
  constructor
  · simp only [as, List.foldl_append] at hnone
    simp only [mpDestroyPool, hnodes]
    exact congrArg some hnone
  · rw [hnone] at hfreed
    simpa [mpDestroyPoolCalls, hnodes, as] using hfreed

theorem logged_reach (h : Reach logged Transition.free s) :
    Reach runs Transition.free s.state ∧ Told [] s.log s.state.regions := by
  refine h.invariant (P := fun s => Reach runs Transition.free s.state ∧
    Told [] s.log s.state.regions) ?_ ?_
  · rintro s ⟨hlive, size, answer, hfresh, hcreate, hlog⟩
    refine ⟨.init ⟨hlive, size, answer, hfresh, hcreate⟩, ?_⟩
    cases answer with
    | none => cases (Prod.mk.inj hcreate).2
    | some a =>
      rw [hlog, ← (Prod.mk.inj hcreate).1]
      rfl
  · rintro s op s' ⟨hreach, htold⟩ - ⟨hstep, hlog⟩
    refine ⟨.step hreach trivial hstep, ?_⟩
    rw [hlog]
    exact htold.trans (call_told (inv_of_reach hreach) hstep.1 hstep.2)

/-- Whatever was allocated, freed and reset before it, `mp_destroy_pool` leaves no
region in use, and each was given to `free` once. -/
theorem destroy_settled (h : Reach logged Transition.free s) :
    mpDestroyPool s.state.pool s.state.regions = some [] ∧
      Settled (s.log ++ mpDestroyPoolCalls s.state.pool) := by
  obtain ⟨hreach, htold⟩ := logged_reach h
  obtain ⟨hrun, hfreed⟩ := (inv_of_reach hreach).destroy
  exact ⟨hrun, settled_of_replay (htold.trans hfreed)⟩

def oneLarge : Logged where
  state :=
    { pool := ⟨65536, [⟨65600, 5000, some 131072⟩], [⟨65560, 69632, 65624, 1, 0⟩], 65560⟩
      regions := [⟨131072, 5000⟩, ⟨65536, 4096⟩]
      live := [⟨131072, 5000⟩] }
  log := [.obtained 65536, .obtained 131072]

theorem oneLarge_reach : Reach logged Transition.free oneLarge := by
  have hfirst : Fresh [] (poolSize 4096) (some 65536) := by
    rintro a ⟨⟩
    exact ⟨rfl, by decide, by simp⟩
  have hlarge : Fresh emptyPage.regions 5000 (some 131072) := by
    rintro a ⟨⟩
    refine ⟨rfl, by decide, ?_⟩
    simp [emptyPage, Apart, Span.stop]
  have hinit : logged.init ⟨emptyPage, [.obtained 65536]⟩ :=
    ⟨rfl, 4096, some 65536, hfirst, rfl, rfl⟩
  have hstep : logged.step ⟨emptyPage, [.obtained 65536]⟩ (.malloc 5000 (some 131072) none)
      oneLarge := ⟨⟨⟨hlarge, by rintro _ ⟨⟩⟩, rfl⟩, rfl⟩
  exact .step (.init hinit) trivial hstep

theorem destroy_settled_oneLarge :
    mpDestroyPool oneLarge.state.pool oneLarge.state.regions = some [] ∧
      Settled (oneLarge.log ++ mpDestroyPoolCalls oneLarge.state.pool) :=
  destroy_settled oneLarge_reach

end LearningCode.MemPool
