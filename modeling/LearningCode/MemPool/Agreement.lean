import LearningCode.MemPool.Chains

/-!
# Calls and runs of the memory pool in memory

What every function leaves in memory is what the function over lists makes of the lists,
so every run over lists is one over memory.
-/

namespace LearningCode.MemPool.Written

open Records LearningCode.Span

variable {m m' : Memory} {pool pool' : MpPool} {p p' : MemPool.MpPool} {size a turns n x : Nat}
  {answer answer' ret : Ptr} {before rest l l' : List MemPool.MpNode} {cur : MemPool.MpNode}
  {large : List MemPool.MpLarge} {regions regions' pages : List Span} {r : Span}

-- ---------------------------------------------------------------------------
-- mp_malloc_block
-- ---------------------------------------------------------------------------

/-- Only the nodes at these addresses are written. -/
structure Writes (addrs : List Nat) (m m' : Memory) : Prop where
  node : ∀ x ∉ addrs, m'.node x = m.node x
  large : m'.large = m.large
  regions : m'.regions = m.regions
  found : m'.found = m.found

@[simp] theorem set_node (n : MpNode) : (m.set a n).node = Function.update m.node a n := rfl

theorem Writes.set (n : MpNode) : Writes [a] m (m.set a n) :=
  ⟨fun _ hx => Function.update_of_ne (mt List.mem_singleton.mpr hx) .., rfl, rfl, rfl⟩

theorem Writes.trans {addrs addrs' : List Nat} {m'' : Memory} (h : Writes addrs m m')
    (h' : Writes addrs' m' m'') (hsub : addrs' ⊆ addrs) : Writes addrs m m'' where
  node x hx := (h'.node x fun hmem => hx (hsub hmem)).trans (h.node x hx)
  large := h'.large.trans h.large
  regions := h'.regions.trans h.regions
  found := h'.found.trans h.found

theorem Writes.mono {addrs addrs' : List Nat} (h : Writes addrs m m') (hsub : addrs ⊆ addrs') :
    Writes addrs' m m' :=
  { h with node := fun x hx => h.node x fun hmem => hx (hsub hmem) }

theorem set_first (h : Nodes m (cur :: rest)) (hcur : cur.addr ∉ rest.map MemPool.MpNode.addr)
    (n : MpNode) : Nodes (m.set cur.addr n) rest := by
  refine h.2.congr fun n' hn' => (Writes.set n).node _ fun hmem => hcur ?_
  exact List.mem_singleton.mp hmem ▸ List.mem_map_of_mem hn'

theorem passOver_stored {c c' : Nat} (h : Nodes m (cur :: rest))
    (hnodup : ((cur :: rest).map MemPool.MpNode.addr).Nodup) (hlt : rest.length < turns)
    (hrun : MemPool.passOver c (cur :: rest) = some (c', l')) : ∃ front last m',
      l' = front ++ [last] ∧
      l'.map MemPool.MpNode.addr = (cur :: rest).map MemPool.MpNode.addr ∧
      passOver turns m cur.addr c = .ok (m', last.addr, c') ∧ Nodes m' l' ∧
      Writes ((cur :: rest).map MemPool.MpNode.addr) m m' := by
  induction rest generalizing cur m c l' turns with
  | nil =>
    obtain ⟨turns, rfl⟩ := Nat.exists_eq_add_one.mpr hlt
    cases hrun
    have hcell := h.1
    refine ⟨[], cur, m, rfl, rfl, ?_, h, fun _ _ => rfl, rfl, rfl, rfl⟩
    simp only [passOver, hcell, MpNode.of, read_some, ok_bind, first_nil]
  | cons next rest ih =>
    obtain ⟨turns, rfl⟩ := Nat.exists_eq_add_one.mpr (Nat.zero_lt_of_lt hlt)
    obtain ⟨⟨c₁, l₁⟩, hrest, hl'⟩ := Option.bind_eq_some_iff.mp hrun
    cases hl'
    obtain ⟨hcur, hnodup⟩ := List.nodup_cons.mp hnodup
    let cur' : MemPool.MpNode := { cur with failed := cur.failed + 1 }
    obtain ⟨front, last, m', rfl, haddrs, hpass, hnodes, hwrites⟩ :=
      ih (set_first h hcur (.of cur' (some next.addr))) hnodup (Nat.lt_of_succ_lt_succ hlt) hrest
    have hcell := h.1
    refine ⟨cur' :: front, last, m', rfl, ?_, ?_, ⟨?_, hnodes⟩, ?_⟩
    · rw [List.map_cons, haddrs]
      rfl
    · rw [passOver, hcell]
      exact hpass
    · have hfirst : first MemPool.MpNode.addr (front ++ [last]) = some next.addr := by
        have hhead := congrArg List.head? haddrs
        rwa [List.head?_map] at hhead
      rw [hwrites.node _ hcur, set_node, Function.update_self, hfirst]
    · exact ((Writes.set _).mono (by simp)).trans hwrites (List.subset_cons_self ..)

/-- The loop, which starts in the middle of the list, on the list as a whole. -/
theorem passOver_from {c c' : Nat} (h : Nodes m (before ++ cur :: rest))
    (hnodup : ((before ++ cur :: rest).map MemPool.MpNode.addr).Nodup) (hlt : rest.length < turns)
    (hrun : MemPool.passOver c (cur :: rest) = some (c', l')) : ∃ front last m',
      l' = front ++ [last] ∧
      (before ++ l').map MemPool.MpNode.addr =
        (before ++ cur :: rest).map MemPool.MpNode.addr ∧
      passOver turns m cur.addr c = .ok (m', last.addr, c') ∧ Nodes m' (before ++ l') ∧
      Writes ((before ++ cur :: rest).map MemPool.MpNode.addr) m m' := by
  rw [List.map_append] at hnodup
  obtain ⟨-, hnodup₁, hapart⟩ := List.nodup_append.mp hnodup
  obtain ⟨front, last, m', rfl, haddrs, hloop, hnodes, hwrites⟩ :=
    passOver_stored h.append_right hnodup₁ hlt hrun
  refine ⟨front, last, m', rfl, ?_, hloop, ?_, ?_⟩
  · rw [List.map_append, haddrs, List.map_append]
  · have hhead := congrArg List.head? haddrs
    rw [List.head?_map, List.head?_map] at hhead
    refine h.replace hnodes hhead fun n hn => hwrites.node _ fun hmem => ?_
    exact hapart _ (List.mem_map_of_mem hn) _ hmem rfl
  · rw [List.map_append]
    exact hwrites.mono (List.subset_append_right ..)

@[simp] theorem set_set (n n' : MpNode) : (m.set a n).set a n' = m.set a n' := by
  simp [Memory.set]

/-- The new page begins with a node, and its `quote` counts up from zero. -/
theorem newNode_written {block : Nat} (hfound : m.found = .zero) (hrun : passOver turns
      ((m.obtain ⟨block, pageSize⟩).set block
        (.of ⟨block, block + pageSize, mpAlignPtr (block + sizeofNode) + size, 1, 0⟩ none))
      pool.current pool.current = .ok (m', x, n)) :
    mpMallocBlock turns m pool size (some block) =
      .ok (m'.set x { m'.node x with next := some (some block) }, { pool with current := n },
        some (mpAlignPtr (block + sizeofNode))) := by
  have hzero : (m.obtain ⟨block, pageSize⟩).node block = .zero := by
    simp [Memory.obtain, Memory.fill, Span.stop, hfound]
  simp only [MpNode.of] at hrun
  simp only [mpMallocBlock, set_node, Function.update_self, hzero, MpNode.zero, read_some, ok_bind,
    set_set, Int.zero_add, hrun]

theorem mpMallocBlock_holds (h : Holds m pool p regions) (hh : Housed p pages)
    (hfresh : ∀ b, answer = some b → ∀ r ∈ pages, Apart ⟨b, pageSize⟩ r)
    (hcurrent : ∃ n ∈ p.nodes, n.addr = p.current) (hlt : p.nodes.length ≤ turns)
    (hrun : MemPool.mpMallocBlock p regions size answer = some (p', regions', ret)) :
    ∃ m' pool', mpMallocBlock turns m pool size answer = .ok (m', pool', ret) ∧
      Holds m' pool' p' regions' := by
  cases answer with
  | none =>
    cases hrun
    exact ⟨m, pool, rfl, h⟩
  | some block =>
    obtain ⟨before, cur, rest, hspan, hnodes, hcur⟩ := span_current hcurrent
    obtain ⟨c, l', hpass, -, -⟩ := @passOver_spec p.current _ (List.cons_ne_nil cur rest)
    simp only [MemPool.mpMallocBlock, hspan, hpass, Option.bind_eq_bind, Option.bind_some] at hrun
    cases hrun
    let new : MemPool.MpNode :=
      ⟨block, block + pageSize, mpAlignPtr (block + sizeofNode) + size, 1, 0⟩
    have hnew : ∀ n ∈ p.nodes, n.addr ≠ block := by
      intro n hn heq
      obtain ⟨r, hr, hle, hlt⟩ := hh.node_mem n hn
      have hapart := hfresh block rfl r hr
      simp only [Apart, Span.stop, pageSize] at hapart hlt
      omega
    -- the page is obtained, its node written, and the loop counts the others up
    have h₁ := h.same hh (Same.obtain (hfresh block rfl)) (congrArg (_ :: ·) h.regions) rfl
    have hset := Writes.set (m := m.obtain ⟨block, pageSize⟩) (a := block) (.of new none)
    have hnodes₂ : Nodes ((m.obtain ⟨block, pageSize⟩).set block (.of new none)) p.nodes :=
      h₁.nodes.congr fun n hn => hset.node _ (by simpa using hnew n hn)
    have hblock : block ∉ p.nodes.map MemPool.MpNode.addr := by
      intro hmem
      obtain ⟨n, hn, heq⟩ := List.mem_map.mp hmem
      exact hnew n hn heq
    have hnodup := hh.nodes
    rw [hnodes] at hnodes₂ hnodup hlt hblock
    have hturns : rest.length < turns := by
      simp only [List.length_append, List.length_cons] at hlt
      omega
    obtain ⟨front, last, m₃, rfl, haddrs, hloop, hall, hwrites⟩ :=
      passOver_from hnodes₂ hnodup hturns hpass
    have hcell : m₃.node block = .of new none := by
      rw [hwrites.node block hblock, set_node, Function.update_self]
    rw [← List.append_assoc] at hall haddrs
    have hlast : m₃.node last.addr = .of last none := hall.read
    have hlinked := hall.link (haddrs ▸ hnodup) (s := new) hcell (haddrs ▸ hblock)
    rw [hcur, ← h.current] at hloop
    refine ⟨_, _, newNode_written h.found hloop, h.addr, rfl, ?_, h.large, ?_, ?_, ?_, ?_⟩
    · have hhead := congrArg List.head? haddrs
      rw [List.head?_map, List.head?_map, ← hnodes] at hhead
      rw [← h.head, MemPool.MpPool.head, MemPool.MpPool.head, ← hhead]
      cases before <;> cases front <;> rfl
    · rw [hlast]
      simp only [List.append_assoc, List.cons_append, List.nil_append] at hlinked ⊢
      exact hlinked
    · exact h₁.headers.congr fun l _ => congrFun hwrites.large l.addr
    · exact hwrites.regions.trans h₁.regions
    · exact hwrites.found.trans h₁.found

-- ---------------------------------------------------------------------------
-- mp_malloc
-- ---------------------------------------------------------------------------

theorem first_write {ρ : Type} {place : ρ → Nat} {k l : List ρ} {r r' : ρ}
    (hplace : place r' = place r) : first place (k ++ r' :: l) = first place (k ++ r :: l) :=
  first_append_congr (by rw [first_cons, first_cons, hplace])

theorem Holds.writeNode {n n' : MemPool.MpNode} (h : Holds m pool p regions) (hh : Housed p pages)
    (hnodes : p.nodes = before ++ n :: rest) (haddr : n'.addr = n.addr) :
    Holds (m.set n.addr (.of n' (firstNode rest))) pool { p with nodes := before ++ n' :: rest }
      regions := by
  have hchain := h.nodes
  have hnodup := hh.nodes
  rw [hnodes] at hchain hnodup
  refine { h with head := ?_, nodes := hchain.write hnodup haddr }
  have hfirst : first MemPool.MpNode.addr (before ++ n' :: rest) = first MemPool.MpNode.addr p.nodes :=
    hnodes ▸ first_write haddr
  exact hfirst.trans h.head

theorem Holds.writeLarge {front back : List MemPool.MpLarge} {n n' : MemPool.MpLarge}
    (h : Holds m pool p regions) (hh : Housed p pages) (hlarge : p.large = front ++ n :: back)
    (haddr : n'.addr = n.addr) :
    Holds (m.setLarge n.addr (.of n' (firstLarge back))) pool
      { p with large := front ++ n' :: back } regions := by
  have hchain := h.headers
  have hnodup := hh.large
  rw [hlarge] at hchain hnodup
  refine { h with large := ?_, headers := hchain.write hnodup haddr }
  rw [h.large, hlarge]
  exact (first_write haddr).symm

theorem mpMallocSmall_holds (h : Holds m pool p regions) (hh : Housed p pages)
    (hfresh : ∀ b, answer = some b → ∀ r ∈ pages, Apart ⟨b, pageSize⟩ r)
    (hcurrent : ∃ n ∈ p.nodes, n.addr = p.current) (hlt : p.nodes.length < turns)
    (hrun : MemPool.mpMallocSmall p regions size answer = some (p', regions', ret)) :
    ∃ m' pool', mpMallocSmall turns m pool size answer = .ok (m', pool', ret) ∧
      Holds m' pool' p' regions' := by
  obtain ⟨before, cur, rest, hspan, hnodes, hcur⟩ := span_current hcurrent
  have hchain := h.nodes
  rw [hnodes] at hchain hlt
  have hturns : (cur :: rest).length < turns := by
    rw [List.length_append] at hlt
    omega
  have hstart : firstNode (cur :: rest) = some pool.current :=
    congrArg some (hcur.trans h.current.symm)
  simp only [MemPool.mpMallocSmall, hspan] at hrun
  rcases carve_stored size hchain.append_right hturns with ⟨hnone, hcarve⟩ |
      ⟨front, n, back, n', hsplit, haddr, hsome, hcarve⟩
  · rw [hnone] at hrun
    rw [hstart] at hcarve
    simp only [mpMallocSmall, hcarve, ok_bind]
    refine mpMallocBlock_holds h hh hfresh hcurrent ?_ hrun
    rw [hnodes]
    exact Nat.le_of_lt hlt
  · rw [hsome] at hrun
    rw [hstart] at hcarve
    cases hrun
    simp only [mpMallocSmall, hcarve, ok_bind]
    rw [hsplit, ← List.append_assoc] at hnodes
    refine ⟨_, _, rfl, ?_⟩
    rw [← List.append_assoc]
    exact h.writeNode hh hnodes haddr

theorem region_unique {larges : List Span} {starts : List Nat} {b : Span}
    (h : Laid p regions size starts larges) (hr : r ∈ regions) (hb : b ∈ regions)
    (haddr : r.addr = b.addr) : r = b := by
  by_contra hne
  have : Std.Symm Apart := ⟨fun _ _ => Apart.symm⟩
  exact (h.apart.forall hr hb hne).addr_ne (h.sound r hr).2.2 (h.sound b hb).2.2 haddr

theorem large_apart {larges : List Span} {starts : List Nat} {b : Span}
    (h : Laid p regions size starts larges) (hb : b ∈ larges) (hr : r ∈ regions)
    (haddr : r.addr = b.addr) : ∀ r' ∈ MemPool.pages p.addr size starts, Apart r r' := by
  intro r' hr'
  rw [region_unique h hr (h.mem_larges hb) haddr]
  exact ((List.pairwise_append.mp h.pairwise).2.2 r' hr' b hb).symm

theorem Holds.addLarge {bigAddr : Nat} {sz : Int} (h : Holds m pool p regions)
    (hnew : ∀ l ∈ p.large, l.addr ≠ a) :
    Holds (m.setLarge a ⟨some pool.large, some sz, some (some bigAddr)⟩)
      { pool with large := some a } { p with large := ⟨a, sz, some bigAddr⟩ :: p.large }
      regions := by
  refine { h with large := rfl, headers := ⟨?_, h.headers.congr fun l hl => ?_⟩ }
  · rw [h.large]
    exact Function.update_self ..
  · exact Function.update_of_ne (hnew l hl) ..

theorem fresh_apart {larges : List Span} {starts : List Nat} {sz : Nat}
    (h : Fresh regions sz answer) (hlaid : Laid p regions size starts larges) :
    ∀ b, answer = some b → ∀ r ∈ MemPool.pages p.addr size starts, Apart ⟨b, sz⟩ r :=
  fun b hb r hr => (h b hb).2.2 r (hlaid.mem_pages hr)

theorem mpMallocLarge_holds {larges pieces : List Span} {starts : List Nat} {width : Nat}
    (h : Holds m pool p regions) (hlaid : Laid p regions width starts larges)
    (hcarved : Carved p.nodes pieces)
    (hheaders : (p.large.map MemPool.MpLarge.header).Sublist pieces)
    (hfresh : Fresh regions size answer) (hpos : 0 < size)
    (hfresh' : Fresh (answer.toList.map (⟨·, size⟩) ++ regions) pageSize answer')
    (hnodes : p.nodes.length < turns) (hlarge : p.large.length < turns)
    (hrun : MemPool.mpMallocLarge p regions size answer answer' = some (p', regions', ret)) :
    ∃ m' pool', mpMallocLarge turns m pool size answer answer' = .ok (m', pool', ret) ∧
      Holds m' pool' p' regions' := by
  cases answer with
  | none =>
    cases hrun
    exact ⟨m, pool, rfl, h⟩
  | some bigAddr =>
    have hh := housed hlaid hcarved hheaders
    have h₁ := h.same hh (Same.obtain (fresh_apart hfresh hlaid bigAddr rfl))
      (congrArg (_ :: ·) h.regions) rfl
    have hlaid₁ := hlaid.addLarge (hfresh bigAddr rfl) hpos
    simp only [MemPool.mpMallocLarge] at hrun
    simp only [mpMallocLarge, h.large]
    rcases reuse_stored size bigAddr (n := 0) h₁.headers hlarge with
        ⟨hnone, hreuse⟩ | ⟨front, l, back, l', hsplit, haddr, hsome, hreuse⟩
    · rw [hnone] at hrun
      obtain ⟨p₂, regions₂, ret₂, hsmall, hspec⟩ := mpMallocSmall_spec hlaid₁ hcarved hfresh'
        (by decide : 0 < sizeofLarge) (by decide)
      obtain ⟨m₂, pool₂, hrun₂, h₂⟩ := mpMallocSmall_holds h₁ hh
        (fresh_apart hfresh' hlaid₁) hlaid₁.current hnodes hsmall
      obtain ⟨starts₂, hlaid₂⟩ := hspec.laid
      simp only [hsmall, Option.bind_eq_bind, Option.bind_some] at hrun
      simp only [hreuse, hrun₂, ok_bind]
      cases ret₂ with
      | none =>
        -- no header for the block, which goes back
        cases hrun
        have hheaders₂ : (p'.large.map MemPool.MpLarge.header).Sublist pieces := by
          rwa [hspec.large]
        have hsame : Same (MemPool.pages p'.addr width starts₂) m₂ (m₂.free (some bigAddr)) ∧
            (m₂.free (some bigAddr)).found = m₂.found :=
          Same.free fun r hr heq => large_apart hlaid₂ List.mem_cons_self (h₂.regions ▸ hr) heq
        exact ⟨_, _, rfl, h₂.same (housed hlaid₂ hspec.carved hheaders₂) hsame.1
          (congrArg (MemPool.free · bigAddr) h₂.regions) hsame.2⟩
      | some header =>
        cases hrun
        refine ⟨_, _, rfl, h₂.addLarge fun l hl => ?_⟩
        have hapart := List.rel_of_pairwise_cons hspec.carved.apart
          (hheaders.subset (List.mem_map_of_mem (hspec.large ▸ hl)))
        have hsize : 0 < sizeofLarge := by decide
        exact (Apart.addr_ne hapart hsize hsize).symm
    · rw [hsome] at hrun
      cases hrun
      simp only [hreuse, ok_bind]
      exact ⟨_, _, rfl, h₁.writeLarge hh hsplit haddr⟩

-- ---------------------------------------------------------------------------
-- mp_free, mp_reset_pool and mp_destroy_pool
-- ---------------------------------------------------------------------------

variable {st st' : MemPool.State}

theorem inv_housed (hinv : Inv st) : ∃ width starts,
    Laid st.pool st.regions width starts (st.live.filter isLarge) ∧
      Housed st.pool (MemPool.pages st.pool.addr width starts) := by
  obtain ⟨width, starts, hlaid⟩ := hinv.laid
  exact ⟨width, starts, hlaid, housed hlaid hinv.carved (List.sublist_append_right ..)⟩

theorem alloc_large (hinv : Inv st) (ha : a ∈ st.pool.large.filterMap MemPool.MpLarge.alloc) :
    ∃ b ∈ st.live.filter isLarge, b.addr = a :=
  List.mem_map.mp (hinv.allocs.mem_iff.mp ha)

theorem mpFree_holds (h : Holds m pool st.pool st.regions) (hinv : Inv st)
    (hnodes : st.pool.nodes.length < turns) (hlarge : st.pool.large.length < turns)
    (hrun : MemPool.mpFree st.pool st.regions x = some (p', regions')) :
    ∃ m' pool', mpFree turns m pool (some x) = .ok (m', pool') ∧ Holds m' pool' p' regions' := by
  obtain ⟨width, starts, hlaid, hh⟩ := inv_housed hinv
  have hsame (hx : x ∈ st.pool.large.filterMap MemPool.MpLarge.alloc) :
      Same (MemPool.pages st.pool.addr width starts) m (m.free (some x)) ∧
        (m.free (some x)).found = m.found := by
    obtain ⟨b, hb, rfl⟩ := alloc_large hinv hx
    exact Same.free fun r hr heq => large_apart hlaid hb (h.regions ▸ hr) heq
  have hkept (l : MemPool.MpLarge) (hl : l ∈ st.pool.large) (halloc : l.alloc = some x) :
      (m.free (some x)).large l.addr = m.large l.addr := by
    obtain ⟨r, hr, hle, hlt⟩ := hh.large_mem l hl
    exact ((hsame (List.mem_filterMap.mpr ⟨l, hl, halloc⟩)).1 r hr _ hle hlt).2
  simp only [MemPool.mpFree] at hrun
  simp only [mpFree]
  rcases freeLarge_stored h.headers hlarge hkept with ⟨hnone, hfree⟩ |
      ⟨front, l, back, l', hsplit, haddr, hsome, hfree⟩ <;> rw [← h.large] at hfree
  · rw [hnone] at hrun
    simp only [h.head, Option.bind_eq_bind, Option.bind_some] at hrun
    have hstart : some pool.head = firstNode st.pool.nodes := h.head.symm
    simp only [hfree, hstart, ok_bind, Option.getD_some]
    rcases release_stored pool x h.nodes hnodes with ⟨hmiss, hrelease⟩ |
        ⟨before, n, rest, n', rewound, hsplit, haddr, hhit, hrelease⟩
    · rw [h.addr] at hmiss
      rw [hmiss] at hrun
      cases hrun
      simp only [hrelease, ok_bind, Bool.false_eq_true, if_false]
      exact ⟨_, _, rfl, h⟩
    · rw [h.addr] at hhit
      rw [hhit] at hrun
      cases hrun
      simp only [hrelease, ok_bind, h.current]
      exact ⟨_, _, rfl, { h.writeNode hh hsplit haddr with current := rfl }⟩
  · rw [hsome] at hrun
    cases hrun
    simp only [hfree, ok_bind]
    have hx : x ∈ st.pool.large.filterMap MemPool.MpLarge.alloc := by
      by_contra hx
      have hnone := MemPool.freeLarge_none (mt mem_alloc_iff.mp hx)
      rw [hsome] at hnone
      cases hnone
    have hfreed := h.same hh (hsame hx).1 (congrArg (MemPool.free · x) h.regions) (hsame hx).2
    exact ⟨_, _, rfl, hfreed.writeLarge hh hsplit haddr⟩

/-- The headers are read while their blocks go back. -/
theorem freeAll_stored (h : Headers m large) (hlt : large.length < turns)
    (hapart : ∀ a ∈ large.filterMap MemPool.MpLarge.alloc, ∀ r ∈ m.regions, r.addr = a →
      ∀ r' ∈ pages, Apart r r')
    (hmem : ∀ l ∈ large, ∃ r ∈ pages, r.addr ≤ l.addr ∧ l.addr < r.stop) : ∃ m',
      freeAll turns m (firstLarge large) = .ok m' ∧ Same pages m m' ∧ m'.found = m.found ∧
        m'.regions = (large.filterMap MemPool.MpLarge.alloc).foldl MemPool.free m.regions := by
  induction large generalizing m turns with
  | nil =>
    obtain ⟨turns, rfl⟩ := Nat.exists_eq_add_one.mpr hlt
    exact ⟨m, rfl, .refl m, rfl, rfl⟩
  | cons l large ih =>
    obtain ⟨turns, rfl⟩ := Nat.exists_eq_add_one.mpr (Nat.zero_lt_of_lt hlt)
    rw [List.forall_mem_cons] at hmem
    have hcell := h.1
    cases halloc : l.alloc with
    | none =>
      rw [List.filterMap_cons, halloc] at hapart ⊢
      obtain ⟨m', hrun, hrest⟩ := ih h.2 (Nat.lt_of_succ_lt_succ hlt) hapart hmem.2
      refine ⟨m', ?_, hrest⟩
      simp only [freeAll, first_cons, hcell, MpLarge.of, halloc, read_some, ok_bind, Memory.free]
      exact hrun
    | some block =>
      rw [List.filterMap_cons, halloc] at hapart ⊢
      rw [List.forall_mem_cons] at hapart
      obtain ⟨hsame, hfound⟩ := Same.free hapart.1
      have hread (l : MemPool.MpLarge) (hl : ∃ r ∈ pages, r.addr ≤ l.addr ∧ l.addr < r.stop) :
          (m.free (some block)).large l.addr = m.large l.addr := by
        obtain ⟨r, hr, hle, hlt⟩ := hl
        exact (hsame r hr _ hle hlt).2
      obtain ⟨m', hrun, hsame', hfound', hregions⟩ := ih
        (h.2.congr fun l hl => hread l (hmem.2 l hl)) (Nat.lt_of_succ_lt_succ hlt)
        (fun a ha r hr => hapart.2 a ha r (List.mem_of_mem_filter hr)) hmem.2
      refine ⟨m', ?_, hsame.trans hsame', hfound'.trans hfound, hregions⟩
      have hnext := hread l hmem.1
      simp only [freeAll, first_cons, hcell, MpLarge.of, halloc, read_some, ok_bind, hnext]
      exact hrun

theorem freeAll_holds (h : Holds m pool st.pool st.regions) (hinv : Inv st)
    (hlarge : st.pool.large.length < turns) : ∃ m', freeAll turns m pool.large = .ok m' ∧
      Holds m' pool st.pool
        ((st.pool.large.filterMap MemPool.MpLarge.alloc).foldl MemPool.free st.regions) := by
  obtain ⟨width, starts, hlaid, hh⟩ := inv_housed hinv
  have hapart : ∀ a ∈ st.pool.large.filterMap MemPool.MpLarge.alloc, ∀ r ∈ m.regions,
      r.addr = a → ∀ r' ∈ MemPool.pages st.pool.addr width starts, Apart r r' := by
    intro a ha r hr heq
    obtain ⟨b, hb, rfl⟩ := alloc_large hinv ha
    exact large_apart hlaid hb (h.regions ▸ hr) heq
  obtain ⟨m', hfree, hsame, hfound, hregions⟩ :=
    freeAll_stored h.headers hlarge hapart hh.large_mem
  rw [h.regions] at hregions
  exact ⟨m', h.large ▸ hfree, h.same hh hsame hregions hfound⟩

theorem rewind_stored (h : Nodes m l) (hnodup : (l.map MemPool.MpNode.addr).Nodup)
    (hlt : l.length < turns) : ∃ m', rewind turns m (firstNode l) = .ok m' ∧
      Nodes m' (l.map fun cur =>
        { cur with last := cur.addr + sizeofNode, failed := 0, quote := 0 }) ∧
      Writes (l.map MemPool.MpNode.addr) m m' := by
  induction l generalizing m turns with
  | nil =>
    obtain ⟨turns, rfl⟩ := Nat.exists_eq_add_one.mpr hlt
    exact ⟨m, rfl, trivial, fun _ _ => rfl, rfl, rfl, rfl⟩
  | cons cur l ih =>
    obtain ⟨turns, rfl⟩ := Nat.exists_eq_add_one.mpr (Nat.zero_lt_of_lt hlt)
    obtain ⟨hcur, hnodup⟩ := List.nodup_cons.mp hnodup
    let cur' : MemPool.MpNode := { cur with last := cur.addr + sizeofNode, failed := 0, quote := 0 }
    obtain ⟨m', hrun, hnodes, hwrites⟩ :=
      ih (set_first h hcur (.of cur' (firstNode l))) hnodup (Nat.lt_of_succ_lt_succ hlt)
    have hcell := h.1
    refine ⟨m', ?_, ⟨?_, hnodes⟩, ?_⟩
    · simp only [rewind, first_cons, hcell, set_node, Function.update_self, MpNode.of, read_some,
        ok_bind]
      exact hrun
    · rw [hwrites.node _ hcur, set_node, Function.update_self]
      cases l <;> rfl
    · exact ((Writes.set _).mono (by simp)).trans hwrites (List.subset_cons_self ..)

theorem mpResetPool_holds (h : Holds m pool st.pool st.regions) (hinv : Inv st)
    (hnodes : st.pool.nodes.length < turns) (hlarge : st.pool.large.length < turns)
    (hrun : MemPool.mpResetPool st.pool st.regions = some (p', regions')) :
    ∃ m' pool', mpResetPool turns m pool = .ok (m', pool') ∧ Holds m' pool' p' regions' := by
  obtain ⟨width, starts, -, hh⟩ := inv_housed hinv
  obtain ⟨m₁, hfree, h₁⟩ := freeAll_holds h hinv hlarge
  obtain ⟨m₂, hrewind, hnodes₂, hwrites⟩ := rewind_stored h₁.nodes hh.nodes hnodes
  simp only [MemPool.mpResetPool, h.head, Option.bind_eq_bind, Option.bind_some] at hrun
  cases hrun
  have hstart : some pool.head = firstNode st.pool.nodes := h.head.symm
  simp only [mpResetPool, hfree, hstart, hrewind, ok_bind]
  refine ⟨_, _, rfl, h.addr, rfl, ?_, rfl, hnodes₂, trivial, ?_, hwrites.found.trans h₁.found⟩
  · rw [← h.head, MemPool.MpPool.head, MemPool.MpPool.head]
    cases st.pool.nodes <;> rfl
  · exact hwrites.regions.trans h₁.regions

/-- A node is read before its page goes back. -/
theorem freeNodes_stored (h : Nodes m l) (hlt : l.length < turns)
    (hapart : l.Pairwise fun n n' => ∀ r ∈ m.regions, r.addr = n.addr → Apart r ⟨n'.addr, 1⟩) :
    ∃ m', freeNodes turns m (firstNode l) = .ok m' ∧
      m'.regions = (l.map MemPool.MpNode.addr).foldl MemPool.free m.regions := by
  induction l generalizing m turns with
  | nil =>
    obtain ⟨turns, rfl⟩ := Nat.exists_eq_add_one.mpr hlt
    exact ⟨m, rfl, rfl⟩
  | cons n l ih =>
    obtain ⟨turns, rfl⟩ := Nat.exists_eq_add_one.mpr (Nat.zero_lt_of_lt hlt)
    obtain ⟨hn, hapart⟩ := List.pairwise_cons.mp hapart
    have hkept : Nodes (m.free (some n.addr)) l := by
      refine h.2.congr fun n' hn' => ?_
      have hsame : Same [⟨n'.addr, 1⟩] m (m.free (some n.addr)) :=
        (Same.free fun r hr heq => by simpa using hn n' hn' r hr heq).1
      exact (hsame _ List.mem_cons_self n'.addr (Nat.le_refl _) (Nat.lt_succ_self _)).1
    obtain ⟨m', hrun, hregions⟩ := ih hkept (Nat.lt_of_succ_lt_succ hlt)
      (hapart.imp fun h r hr => h r (List.mem_of_mem_filter hr))
    have hcell := h.1
    refine ⟨m', ?_, hregions⟩
    simp only [freeNodes, first_cons, hcell, MpNode.of, read_some, ok_bind]
    exact hrun

theorem tail_pages {larges : List Span} {starts : List Nat}
    (h : Laid p regions size starts larges) :
    (p.nodes.tail.map fun n => (⟨n.addr, pageSize⟩ : Span)) =
      starts.map fun start => ⟨start, pageSize⟩ := by
  have hframes := congrArg (fun l => (List.tail l).map fun f => (⟨f.1, pageSize⟩ : Span)) h.frames
  simp only [← List.map_tail, List.map_map, List.tail_cons] at hframes
  exact hframes

theorem mpDestroyPool_holds (h : Holds m pool st.pool st.regions) (hinv : Inv st)
    (hnodes : st.pool.nodes.length < turns) (hlarge : st.pool.large.length < turns) :
    ∃ m', mpDestroyPool turns m pool = .ok m' ∧
      MemPool.mpDestroyPool st.pool st.regions = some m'.regions := by
  obtain ⟨width, starts, hlaid⟩ := hinv.laid
  obtain ⟨m₁, hfree, h₁⟩ := freeAll_holds h hinv hlarge
  have htail := tail_pages hlaid
  have hpages := (List.pairwise_cons.mp (List.pairwise_append.mp hlaid.pairwise).1).2
  rw [← htail] at hpages
  have hmem : ∀ n ∈ st.pool.nodes.tail, (⟨n.addr, pageSize⟩ : Span) ∈ st.regions := by
    intro n hn
    refine hlaid.mem_pages (List.mem_cons_of_mem _ ?_)
    rw [← htail]
    exact List.mem_map_of_mem hn
  have hhead := h.head
  have hchain := h₁.nodes
  simp only [MemPool.mpDestroyPool, mpDestroyPool, hfree, ok_bind]
  cases hl : st.pool.nodes with
  | nil =>
    rw [MemPool.MpPool.head, hl] at hhead
    cases hhead
  | cons n rest =>
    rw [hl] at hchain hnodes hpages hmem
    rw [MemPool.MpPool.head, hl] at hhead
    have hstart : n.addr = pool.head := Option.some.inj hhead
    obtain ⟨m₂, hrun, hregions₂⟩ := freeNodes_stored hchain.2
      (Nat.lt_of_le_of_lt (Nat.le_succ _) hnodes) (by
        refine (List.pairwise_map.mp hpages).imp_of_mem fun {n n'} hn hn' hapart r hr heq => ?_
        -- the region is the page of `n`
        have hheld : r ∈ st.regions := by
          rw [h₁.regions] at hr
          exact (mem_foldl_free hr).1
        rw [region_unique hlaid hheld (hmem n hn) heq]
        have hbyte : Within ⟨n'.addr, 1⟩ ⟨n'.addr, pageSize⟩ :=
          ⟨Nat.le_refl _, Nat.add_le_add_left (Nat.succ_pos 4095) _⟩
        exact (hapart.symm.within hbyte).symm)
    have hcell := hchain.1
    rw [hstart] at hcell
    simp only [hcell, MpNode.of, read_some, ok_bind, hrun]
    refine ⟨_, rfl, ?_⟩
    rw [← h₁.regions, ← hregions₂, ← h.addr]
    rfl

-- ---------------------------------------------------------------------------
-- Runs
-- ---------------------------------------------------------------------------

def Op.of : MemPool.Op → Op
  | .malloc size answer answer' => .malloc size answer answer'
  | .calloc size answer answer' => .calloc size answer answer'
  | .free p => .free (some p)
  | .reset => .reset

/-- The runs over memory that is zero when it comes from `posix_memalign`. -/
def runs : Transition State MemPool.Op where
  init st := ∃ m size a, m.regions = [] ∧ st = createdFrom .zero m size a
  step st op st' := ∃ m pool turns, st = ⟨m, some pool⟩ ∧ call turns m pool (.of op) = .ok st'

theorem create_holds (hregions : m.regions = [])
    (hcreate : MemPool.mpCreatePool [] size (some a) = (regions, some p)) : ∃ pool,
      (createdFrom .zero m size a).pool = some pool ∧
        Holds (createdFrom .zero m size a).memory pool p regions := by
  cases hcreate
  refine ⟨_, rfl, rfl, rfl, rfl, rfl, ⟨?_, trivial⟩, trivial, congrArg (_ :: ·) hregions, rfl⟩
  have hin : a ≤ a + sizeofPool ∧ a + sizeofPool < a + poolSize size := by
    have hsize : pageSize ≤ poolSize size := by
      unfold poolSize
      split
      · exact Nat.le_refl _
      · next h => exact Nat.le_of_not_lt fun hlt => h (.inl hlt)
    simp only [pageSize, sizeofPool] at hsize ⊢
    omega
  simp [createdFrom, mpCreatePool, Memory.set, Memory.obtain, Memory.fill, Span.stop, hin,
    MpNode.zero, MpNode.of]

theorem mpMalloc_holds (h : Holds m pool st.pool st.regions) (hinv : Inv st)
    (hfresh : Fresh st.regions size answer)
    (hfresh' : Fresh (answer.toList.map (⟨·, size⟩) ++ st.regions) pageSize answer')
    (hnodes : st.pool.nodes.length < turns) (hlarge : st.pool.large.length < turns)
    (hrun : MemPool.mpMalloc st.pool st.regions size answer answer' = some (p', regions', ret)) :
    ∃ m' pool', mpMalloc turns m pool size answer answer' = .ok (m', pool', ret) ∧
      Holds m' pool' p' regions' := by
  obtain ⟨width, starts, hlaid, hh⟩ := inv_housed hinv
  unfold MemPool.mpMalloc at hrun
  unfold mpMalloc
  split at hrun
  · next hzero =>
    cases hrun
    rw [if_pos hzero]
    exact ⟨m, pool, rfl, h⟩
  · next hzero =>
    rw [if_neg hzero]
    split at hrun
    · next hbig =>
      rw [if_pos hbig]
      exact mpMallocLarge_holds h hlaid hinv.carved (List.sublist_append_right ..) hfresh
        (Nat.pos_of_ne_zero hzero) hfresh' hnodes hlarge hrun
    · next hsmall =>
      rw [if_neg hsmall]
      refine mpMallocSmall_holds h hh (fun b hb r hr => ?_) hlaid.current hnodes hrun
      exact (hfresh' b hb).2.2 r (List.mem_append_right _ (hlaid.mem_pages hr))

theorem call_holds {op : MemPool.Op} (h : Holds m pool st.pool st.regions) (hinv : Inv st)
    (hop : Legal st op) (hcall : MemPool.call st op = some st') : ∃ turns m' pool',
      call turns m pool (.of op) = .ok ⟨m', some pool'⟩ ∧ Holds m' pool' st'.pool st'.regions := by
  have hnodes : st.pool.nodes.length < st.pool.nodes.length + st.pool.large.length + 1 := by omega
  have hlarge : st.pool.large.length < st.pool.nodes.length + st.pool.large.length + 1 := by omega
  refine ⟨st.pool.nodes.length + st.pool.large.length + 1, ?_⟩
  cases op with
  | malloc size answer answer' =>
    obtain ⟨⟨p', regions', ret⟩, hrun, rfl⟩ := Option.map_eq_some_iff.mp hcall
    obtain ⟨m', pool', hmalloc, h'⟩ := mpMalloc_holds h hinv hop.1 hop.2 hnodes hlarge hrun
    exact ⟨m', pool', by simp only [call, Op.of, hmalloc, ok_bind], h'⟩
  | calloc size answer answer' =>
    obtain ⟨⟨p', regions', ret⟩, hrun, rfl⟩ := Option.map_eq_some_iff.mp hcall
    obtain ⟨m', pool', hmalloc, h'⟩ := mpMalloc_holds h hinv hop.1 hop.2 hnodes hlarge hrun
    exact ⟨m', pool', by simp only [call, Op.of, mpCalloc, hmalloc, ok_bind], h'⟩
  | free x =>
    obtain ⟨⟨p', regions'⟩, hrun, rfl⟩ := Option.map_eq_some_iff.mp hcall
    obtain ⟨m', pool', hfree, h'⟩ := mpFree_holds h hinv hnodes hlarge hrun
    exact ⟨m', pool', by simp only [call, Op.of, hfree, ok_bind], h'⟩
  | reset =>
    obtain ⟨⟨p', regions'⟩, hrun, rfl⟩ := Option.map_eq_some_iff.mp hcall
    obtain ⟨m', pool', hreset, h'⟩ := mpResetPool_holds h hinv hnodes hlarge hrun
    exact ⟨m', pool', by simp only [call, Op.of, hreset, ok_bind], h'⟩

/-- Every run over the lists is one over memory. -/
theorem reach_holds (h : Transition.Reach MemPool.runs Transition.free st) : ∃ m pool,
    Transition.Reach runs Transition.free ⟨m, some pool⟩ ∧ Holds m pool st.pool st.regions := by
  induction h with
  | @init st h =>
    obtain ⟨-, size, answer, -, hcreate⟩ := h
    cases answer with
    | none =>
      have hnone : none = some st.pool := congrArg Prod.snd hcreate
      cases hnone
    | some a =>
      let m : Memory := ⟨[], .zero, fun _ => .zero, fun _ => .raw⟩
      obtain ⟨pool, hpool, h'⟩ := create_holds (m := m) rfl hcreate
      refine ⟨_, pool, .init ⟨m, size, a, rfl, ?_⟩, h'⟩
      rw [← hpool]
  | step hs _ hstep ih =>
    obtain ⟨m, pool, hreach, h⟩ := ih
    obtain ⟨turns, m', pool', hrun, h'⟩ := call_holds h (inv_of_reach hs) hstep.1 hstep.2
    exact ⟨m', pool', hreach.step trivial ⟨m, pool, turns, rfl, hrun⟩, h'⟩

end LearningCode.MemPool.Written
