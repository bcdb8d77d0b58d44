import Mathlib.Data.List.Nodup
import Mathlib.Data.List.TakeDrop
import LearningCode.MemPool.Pages

/-!
# Allocation keeps the layout

The regions in use are the pages of the nodes and the large blocks. A call
leaves them apart, whatever fresh regions `posix_memalign` gives it.
-/

namespace LearningCode.MemPool

open LearningCode.Span

variable {pool : MpPool} {regions larges pieces : List Span} {size sz a current : Nat}
  {starts : List Nat} {answer : Option Nat} {before l l' : List MpNode} {n : MpNode} {r b : Span}

/-- What `posix_memalign` promises of its answer. -/
def Fresh (regions : Regions) (size : Nat) (answer : Option Nat) : Prop :=
  ∀ a, answer = some a → a % mpAlignment = 0 ∧ a + size < 2 ^ 64 ∧
    ∀ r ∈ regions, Apart ⟨a, size⟩ r

def pages (a size : Nat) (starts : List Nat) : List Span :=
  ⟨a, size⟩ :: starts.map fun start => ⟨start, pageSize⟩

/-- The regions are the pages, where the nodes lie, and the large blocks. -/
structure Laid (pool : MpPool) (regions : Regions) (size : Nat) (starts : List Nat)
    (larges : List Span) : Prop where
  frames : pool.nodes.map (fun n => (n.addr, n.stop)) =
    (pool.addr + sizeofPool, pool.addr + pageSize) :: starts.map fun start => (start, start + pageSize)
  used : regions.Perm (pages pool.addr size starts ++ larges)
  apart : regions.Pairwise Apart
  sound : ∀ r ∈ regions, r.addr % mpAlignment = 0 ∧ r.stop < 2 ^ 64 ∧ 0 < r.size
  pageSize_le : pageSize ≤ size
  current : ∃ n ∈ pool.nodes, n.addr = pool.current

theorem Laid.frame (h : Laid pool regions size starts larges) (hn : n ∈ pool.nodes) :
    n.addr = pool.addr + sizeofPool ∧ n.stop = pool.addr + pageSize ∨
      n.addr ∈ starts ∧ n.stop = n.addr + pageSize := by
  have hmem := List.mem_map_of_mem (f := fun n : MpNode => (n.addr, n.stop)) hn
  rw [h.frames, List.mem_cons] at hmem
  rcases hmem with heq | hmem
  · exact .inl (Prod.mk.inj heq)
  · obtain ⟨start, hstart, heq⟩ := List.mem_map.mp hmem
    obtain ⟨rfl, hstop⟩ := Prod.mk.inj heq
    exact .inr ⟨hstart, hstop.symm⟩

theorem Laid.page (h : Laid pool regions size starts larges) (hn : n ∈ pool.nodes) :
    ∃ r ∈ pages pool.addr size starts, r.addr ≤ n.addr ∧ n.stop ≤ r.stop := by
  have hsize := h.pageSize_le
  rcases h.frame hn with ⟨haddr, hstop⟩ | ⟨hstart, hstop⟩
  · refine ⟨⟨pool.addr, size⟩, List.mem_cons_self, ?_, ?_⟩
    · rw [haddr]
      exact Nat.le_add_right ..
    · rw [hstop]
      exact Nat.add_le_add_left hsize _
  · exact ⟨⟨n.addr, pageSize⟩, List.mem_cons_of_mem _ (List.mem_map_of_mem hstart), Nat.le_refl _,
      Nat.le_of_eq hstop⟩

theorem Laid.mem_pages (h : Laid pool regions size starts larges)
    (hr : r ∈ pages pool.addr size starts) : r ∈ regions :=
  h.used.mem_iff.mpr (List.mem_append_left _ hr)

theorem Laid.mem_larges (h : Laid pool regions size starts larges) (hr : r ∈ larges) :
    r ∈ regions := h.used.mem_iff.mpr (List.mem_append_right _ hr)

theorem Laid.pairwise (h : Laid pool regions size starts larges) :
    (pages pool.addr size starts ++ larges).Pairwise Apart := pairwise_of_perm h.apart h.used

theorem Laid.fresh_frame (h : Laid pool regions size starts larges)
    (hfresh : ∀ r ∈ regions, Apart ⟨a, sz⟩ r) (hn : n ∈ pool.nodes) :
    n.stop ≤ a ∨ a + sz ≤ n.addr := by
  obtain ⟨r, hr, haddr, hstop⟩ := h.page hn
  rcases hfresh r (h.mem_pages hr) with hbefore | hafter
  · exact .inr (Nat.le_trans hbefore haddr)
  · exact .inl (Nat.le_trans hstop hafter)

/-- Only where the nodes lie matters. -/
theorem Laid.of_frames {pool' : MpPool} (h : Laid pool regions size starts larges)
    (haddr : pool'.addr = pool.addr)
    (hframes : pool'.nodes.map (fun n => (n.addr, n.stop)) =
      pool.nodes.map fun n => (n.addr, n.stop))
    (hcurrent : ∃ n ∈ pool'.nodes, n.addr = pool'.current) :
    Laid pool' regions size starts larges := by
  refine ⟨?_, ?_, h.apart, h.sound, h.pageSize_le, hcurrent⟩
  · rw [haddr, hframes, h.frames]
  · rw [haddr]
    exact h.used

theorem Laid.addLarge (h : Laid pool regions size starts larges)
    (ha : a % mpAlignment = 0 ∧ a + sz < 2 ^ 64 ∧ ∀ r ∈ regions, Apart ⟨a, sz⟩ r) (hsz : 0 < sz) :
    Laid pool (⟨a, sz⟩ :: regions) size starts (⟨a, sz⟩ :: larges) := by
  refine ⟨h.frames, ?_, List.pairwise_cons.mpr ⟨ha.2.2, h.apart⟩, ?_, h.pageSize_le, h.current⟩
  · exact (h.used.cons _).trans List.perm_middle.symm
  · rintro r hr
    rcases List.mem_cons.mp hr with rfl | hr
    · exact ⟨ha.1, ha.2.1, hsz⟩
    · exact h.sound r hr

theorem free_of_apart (h : (r :: larges).Pairwise Apart) (hpos : ∀ b ∈ r :: larges, 0 < b.size) :
    free larges r.addr = larges := by
  refine List.filter_eq_self.mpr ?_
  intro b hb
  have hne := ((List.pairwise_cons.mp h).1 b hb).addr_ne (hpos r List.mem_cons_self)
    (hpos b (List.mem_cons_of_mem _ hb))
  simpa using hne.symm

theorem Laid.free (h : Laid pool regions size starts larges) (hr : r ∈ larges) :
    Laid pool (free regions r.addr) size starts (free larges r.addr) := by
  have hpos : ∀ b ∈ pages pool.addr size starts ++ larges, 0 < b.size := by
    intro b hb
    exact (h.sound b (h.used.mem_iff.mpr hb)).2.2
  have hpages : MemPool.free (pages pool.addr size starts) r.addr = pages pool.addr size starts := by
    refine List.filter_eq_self.mpr ?_
    intro b hb
    have hapart := (List.pairwise_append.mp h.pairwise).2.2 b hb r hr
    have hne := hapart.addr_ne (hpos b (List.mem_append_left _ hb))
      (hpos r (List.mem_append_right _ hr))
    simpa using hne
  refine ⟨h.frames, ?_, h.apart.sublist List.filter_sublist, ?_, h.pageSize_le, h.current⟩
  · have hfilter := h.used.filter fun b => b.addr ≠ r.addr
    rw [List.filter_append] at hfilter
    rw [← hpages]
    exact hfilter
  · intro b hb
    exact h.sound b (List.mem_of_mem_filter hb)

-- ---------------------------------------------------------------------------
-- The loops
-- ---------------------------------------------------------------------------

theorem span_current (h : ∃ n ∈ l, n.addr = current) : ∃ before cur rest,
    (l.span fun cur => cur.addr ≠ current) = (before, cur :: rest) ∧ l = before ++ cur :: rest ∧
      cur.addr = current := by
  obtain ⟨n, hn, rfl⟩ := h
  induction l with
  | nil => cases hn
  | cons m l ih =>
    by_cases hm : m.addr = n.addr
    · exact ⟨[], m, l, by simp [List.span_eq_takeWhile_dropWhile, hm], rfl, hm⟩
    · rcases List.mem_cons.mp hn with rfl | hn
      · exact absurd rfl hm
      · obtain ⟨before, cur, rest, hspan, rfl, hcur⟩ := ih hn
        refine ⟨m :: before, cur, rest, ?_, rfl, hcur⟩
        rw [List.span_eq_takeWhile_dropWhile] at hspan ⊢
        obtain ⟨htake, hdrop⟩ := Prod.mk.inj hspan
        have hne : decide (m.addr ≠ n.addr) = true := decide_eq_true hm
        simp only [List.takeWhile_cons, List.dropWhile_cons, hne, if_true, htake, hdrop]

theorem carve_eq (h : carve sz l = some (a, l')) : ∃ before cur rest, l = before ++ cur :: rest ∧
    uint64 (cur.stop + 2 ^ 64 - mpAlignPtr cur.last) ≥ sz ∧ a = mpAlignPtr cur.last ∧
    l' = before ++ { cur with quote := cur.quote + 1, last := mpAlignPtr cur.last + sz } :: rest := by
  induction l generalizing l' with
  | nil => cases h
  | cons cur l ih =>
    simp only [carve] at h
    split at h
    · next hroom =>
      cases h
      exact ⟨[], cur, l, rfl, hroom, rfl, rfl⟩
    · obtain ⟨⟨a', m⟩, hr, heq⟩ := Option.map_eq_some_iff.mp h
      cases heq
      obtain ⟨before, cur', rest, rfl, hroom, rfl, rfl⟩ := ih hr
      exact ⟨cur :: before, cur', rest, rfl, hroom, rfl, rfl⟩

/-- The loop over the nodes only counts, and ends with a `current` among them. -/
theorem passOver_spec (h : l ≠ []) : ∃ c l', passOver current l = some (c, l') ∧
    l'.map MpNode.core = l.map MpNode.core ∧ (c = current ∨ ∃ n ∈ l, n.addr = c) := by
  induction l generalizing current with
  | nil => exact absurd rfl h
  | cons cur l ih =>
    cases l with
    | nil => exact ⟨current, [cur], rfl, rfl, .inl rfl⟩
    | cons next rest =>
      obtain ⟨c, l', hrun, hcore, hc⟩ :=
        @ih (if cur.failed > 4 then next.addr else current) (List.cons_ne_nil _ _)
      refine ⟨c, { cur with failed := cur.failed + 1 } :: l', ?_, ?_, ?_⟩
      · simp only [passOver, hrun, Option.bind_eq_bind, Option.bind_some]
      · rw [List.map_cons, List.map_cons, hcore]
        rfl
      · rcases hc with rfl | ⟨n, hn, hnc⟩
        · split
          · exact .inr ⟨next, by simp, rfl⟩
          · exact .inl rfl
        · exact .inr ⟨n, List.mem_cons_of_mem _ hn, hnc⟩

theorem frames_of_core (h : l'.map MpNode.core = l.map MpNode.core) :
    l'.map (fun n => (n.addr, n.stop)) = l.map fun n => (n.addr, n.stop) := by
  have hmap := congrArg (List.map fun x : Nat × Nat × Nat × Int => (x.1, x.2.1)) h
  rw [List.map_map, List.map_map] at hmap
  exact hmap

-- ---------------------------------------------------------------------------
-- A small block
-- ---------------------------------------------------------------------------

theorem core_append (h : l'.map MpNode.core = l.map MpNode.core) :
    (before ++ l').map MpNode.core = (before ++ l).map MpNode.core := by
  rw [List.map_append, List.map_append, h]

/-- What a call of the small branch leaves: nothing new, or a new piece. -/
structure Small (pool pool' : MpPool) (regions' : Regions) (size sz : Nat) (larges pieces : List Span)
    (ret : Option Nat) : Prop where
  addr : pool'.addr = pool.addr
  large : pool'.large = pool.large
  laid : ∃ starts, Laid pool' regions' size starts larges
  carved : Carved pool'.nodes (ret.toList.map (⟨·, sz⟩) ++ pieces)

theorem mpMallocBlock_spec (h : Laid pool regions size starts larges)
    (hc : Carved pool.nodes pieces) (hfresh : Fresh regions pageSize answer) (hpos : 0 < sz)
    (hsz : sz ≤ pageSize - sizeofNode) : ∃ pool' regions' ret,
      mpMallocBlock pool regions sz answer = some (pool', regions', ret) ∧
      Small pool pool' regions' size sz larges pieces ret := by
  cases answer with
  | none => exact ⟨pool, regions, none, rfl, rfl, rfl, ⟨starts, h⟩, hc⟩
  | some block =>
    obtain ⟨halign, hlt, hapart⟩ := hfresh block rfl
    obtain ⟨before, cur, rest, hspan, hnodes, hcur⟩ := span_current h.current
    obtain ⟨c, l', hrun, hcore, hcurrent⟩ :=
      @passOver_spec pool.current _ (List.cons_ne_nil cur rest)
    have hframe : ∀ n ∈ pool.nodes, n.stop ≤ block ∨ block + pageSize ≤ n.addr :=
      fun n hn => h.fresh_frame hapart hn
    have hret : mpAlignPtr (block + sizeofNode) = block + sizeofNode := by
      simp only [pageSize, mpAlignment, sizeofNode] at *
      exact mpAlignPtr_of_aligned (by omega) (by omega)
    have hsame : (before ++ l').map MpNode.core = pool.nodes.map MpNode.core := by
      rw [hnodes]
      exact core_append hcore
    have hcarved := (hc.of_core hsame).addNode halign hlt ?_
    · have hcall : mpMallocBlock pool regions sz (some block) = some
          ({ pool with
              nodes := before ++ l' ++
                [⟨block, block + pageSize, mpAlignPtr (block + sizeofNode) + sz, 1, 0⟩]
              current := c },
            ⟨block, pageSize⟩ :: regions, some (mpAlignPtr (block + sizeofNode))) := by
        simp only [mpMallocBlock, hspan, hrun, Option.bind_eq_bind, Option.bind_some]
      refine ⟨_, _, _, hcall, rfl, rfl, ⟨starts ++ [block], ?_⟩, ?_⟩
      · refine ⟨?_, ?_, List.pairwise_cons.mpr ⟨hapart, h.apart⟩, ?_, h.pageSize_le, ?_⟩
        · rw [List.map_append, frames_of_core hsame, h.frames]
          simp
        · refine (h.used.cons _).trans ?_
          simp only [pages, List.map_append, List.map_cons, List.map_nil, List.cons_append,
            List.append_assoc, List.nil_append]
          exact (List.Perm.swap ..).trans (List.perm_middle.symm.cons _)
        · rintro r hr
          rcases List.mem_cons.mp hr with rfl | hr
          · exact ⟨halign, hlt, by simp⟩
          · exact h.sound r hr
        · have hkept : ∃ n ∈ before ++ l', n.addr = c := by
            have haddr : (before ++ l').map MpNode.addr = pool.nodes.map MpNode.addr := by
              have hmap := congrArg (List.map Prod.fst) hsame
              rwa [List.map_map, List.map_map] at hmap
            have hin : c ∈ pool.nodes.map MpNode.addr := by
              rcases hcurrent with rfl | ⟨n, hn, rfl⟩
              · exact List.mem_map.mpr ⟨cur, by simp [hnodes], hcur⟩
              · exact List.mem_map.mpr ⟨n, hnodes ▸ List.mem_append_right _ hn, rfl⟩
            rw [← haddr] at hin
            exact List.mem_map.mp hin
          obtain ⟨n, hn, hnc⟩ := hkept
          exact ⟨n, List.mem_append_left _ hn, hnc⟩
      · rw [hret]
        have hfits : mpAlignPtr (block + sizeofNode) + sz ≤ block + pageSize := by
          rw [hret]
          simp only [pageSize, sizeofNode] at *
          omega
        have hmore := hcarved.carve hpos hfits
        rw [hret] at hmore
        exact hmore
    · intro n hn
      have hmem := List.mem_map_of_mem (f := MpNode.core) hn
      rw [hsame] at hmem
      obtain ⟨m, hm, heq⟩ := List.mem_map.mp hmem
      simp only [MpNode.core, Prod.mk.injEq] at heq
      rw [← heq.1, ← heq.2.1]
      exact hframe m hm

theorem mpMallocSmall_spec (h : Laid pool regions size starts larges)
    (hc : Carved pool.nodes pieces) (hfresh : Fresh regions pageSize answer) (hpos : 0 < sz)
    (hsz : sz ≤ pageSize - sizeofNode) : ∃ pool' regions' ret,
      mpMallocSmall pool regions sz answer = some (pool', regions', ret) ∧
      Small pool pool' regions' size sz larges pieces ret := by
  obtain ⟨before, cur, rest, hspan, hnodes, hcur⟩ := span_current h.current
  simp only [mpMallocSmall, hspan]
  cases hrun : carve sz (cur :: rest) with
  | none => exact mpMallocBlock_spec h hc hfresh hpos hsz
  | some r =>
    obtain ⟨a, l'⟩ := r
    obtain ⟨front, n, back, hsplit, hroom, rfl, rfl⟩ := carve_eq hrun
    rw [hsplit, ← List.append_assoc] at hnodes
    rw [hnodes] at hc
    have hn : n ∈ (before ++ front) ++ n :: back := mem_middle.mpr (.inl rfl)
    have hcarved := hc.carve hpos ((hc.fits_iff hn).mp hroom)
    refine ⟨_, _, _, rfl, rfl, rfl, ⟨starts, h.of_frames rfl ?_ ?_⟩, ?_⟩
    · simp [hnodes]
    · obtain ⟨m, hm, haddr⟩ := h.current
      rw [hnodes] at hm
      simp only [← List.append_assoc]
      rcases mem_middle.mp hm with rfl | hm
      · exact ⟨{ m with quote := m.quote + 1, last := mpAlignPtr m.last + sz },
          mem_middle.mpr (.inl rfl), haddr⟩
      · exact ⟨m, mem_middle.mpr (.inr hm), haddr⟩
    · rw [List.append_assoc] at hcarved
      exact hcarved

end LearningCode.MemPool
