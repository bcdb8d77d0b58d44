import Mathlib.Data.List.Perm.Basic
import LearningCode.MemPool.Model

/-!
# Pieces carved from the nodes

A node gives out pieces from `last` on and counts them; it starts anew when the
count is back at zero. The pieces are the small blocks in use and the headers
of large blocks.
-/

namespace LearningCode.MemPool

open LearningCode.Span

variable {nodes before rest : List MpNode} {cur n m : MpNode} {pieces l : List Span} {b c : Span}
  {size mem p block : Nat}

def inside (n : MpNode) (b : Span) : Bool := n.addr ≤ b.addr ∧ b.addr < n.stop

/-- The pieces lie in the nodes, apart from each other, and are counted there. -/
structure Carved (nodes : List MpNode) (pieces : List Span) : Prop where
  frames : nodes.Pairwise fun n m => n.stop ≤ m.addr ∨ m.stop ≤ n.addr
  aligned : ∀ n ∈ nodes, n.stop % mpAlignment = 0 ∧ n.stop < 2 ^ 64
  room : ∀ n ∈ nodes, n.addr + sizeofNode ≤ n.last ∧ n.last ≤ n.stop
  quote : ∀ n ∈ nodes, n.quote = pieces.countP (inside n)
  placed : ∀ b ∈ pieces, b.addr % mpAlignment = 0 ∧ 0 < b.size ∧
    ∃ n ∈ nodes, n.addr + sizeofNode ≤ b.addr ∧ b.stop ≤ n.last
  apart : pieces.Pairwise Apart

theorem Carved.perm (h : Carved nodes pieces) (hl : pieces.Perm l) : Carved nodes l :=
  { h with
    quote := fun n hn => (h.quote n hn).trans (congrArg _ (hl.countP_eq _))
    placed := fun b hb => h.placed b (hl.mem_iff.mpr hb)
    apart := pairwise_of_perm h.apart hl }

def MpNode.core (n : MpNode) : Nat × Nat × Nat × Int := (n.addr, n.stop, n.last, n.quote)

/-- `failed` does not matter. -/
theorem Carved.of_core {nodes' : List MpNode} (h : Carved nodes pieces)
    (hcore : nodes'.map MpNode.core = nodes.map MpNode.core) : Carved nodes' pieces := by
  have hback : ∀ n ∈ nodes', ∃ m ∈ nodes, m.core = n.core := by
    intro n hn
    have hmem := List.mem_map_of_mem (f := MpNode.core) hn
    rw [hcore] at hmem
    obtain ⟨m, hm, heq⟩ := List.mem_map.mp hmem
    exact ⟨m, hm, heq⟩
  have hforth : ∀ m ∈ nodes, ∃ n ∈ nodes', n.core = m.core := by
    intro m hm
    have hmem := List.mem_map_of_mem (f := MpNode.core) hm
    rw [← hcore] at hmem
    obtain ⟨n, hn, heq⟩ := List.mem_map.mp hmem
    exact ⟨n, hn, heq⟩
  simp only [MpNode.core, Prod.mk.injEq] at hback hforth
  refine ⟨?_, ?_, ?_, ?_, ?_, h.apart⟩
  · have hframes : (nodes.map MpNode.core).Pairwise fun x y => x.2.1 ≤ y.1 ∨ y.2.1 ≤ x.1 :=
      List.pairwise_map.mpr h.frames
    rw [← hcore] at hframes
    exact List.pairwise_map.mp hframes
  · intro n hn
    obtain ⟨m, hm, -, hstop, -, -⟩ := hback n hn
    exact hstop ▸ h.aligned m hm
  · intro n hn
    obtain ⟨m, hm, haddr, hstop, hlast, -⟩ := hback n hn
    exact haddr ▸ hstop ▸ hlast ▸ h.room m hm
  · intro n hn
    obtain ⟨m, hm, haddr, hstop, -, hquote⟩ := hback n hn
    have hsame : inside n = inside m := by
      funext b
      simp [inside, haddr, hstop]
    rw [hsame, ← hquote]
    exact h.quote m hm
  · intro b hb
    obtain ⟨halign, hpos, m, hm, haddr, hlast⟩ := h.placed b hb
    obtain ⟨n, hn, haddr', -, hlast', -⟩ := hforth m hm
    exact ⟨halign, hpos, n, hn, haddr' ▸ haddr, hlast' ▸ hlast⟩

-- ---------------------------------------------------------------------------
-- Alignment
-- ---------------------------------------------------------------------------

theorem mpAlignPtr_spec (h : p + 15 < 2 ^ 64) :
    p ≤ mpAlignPtr p ∧ mpAlignPtr p < p + 16 ∧ mpAlignPtr p % 16 = 0 := by
  simp only [mpAlignPtr, uint64, mpAlignment]
  omega

theorem mpAlignPtr_of_aligned (h : p + 15 < 2 ^ 64) (hp : p % 16 = 0) : mpAlignPtr p = p := by
  simp only [mpAlignPtr, uint64, mpAlignment]
  omega

theorem Carved.next (h : Carved nodes pieces) (hn : n ∈ nodes) :
    n.last ≤ mpAlignPtr n.last ∧ mpAlignPtr n.last ≤ n.stop ∧ mpAlignPtr n.last % 16 = 0 := by
  obtain ⟨hstop, hlt⟩ := h.aligned n hn
  obtain ⟨-, hlast⟩ := h.room n hn
  simp only [mpAlignment] at hstop
  obtain ⟨hle, hlt', hmod⟩ := mpAlignPtr_spec (p := n.last) (by omega)
  exact ⟨hle, by omega, hmod⟩

/-- The pointer difference that is compared is the room left. -/
theorem Carved.fits_iff (h : Carved nodes pieces) (hn : n ∈ nodes) :
    uint64 (n.stop + 2 ^ 64 - mpAlignPtr n.last) ≥ size ↔ mpAlignPtr n.last + size ≤ n.stop := by
  obtain ⟨-, hle, -⟩ := h.next hn
  have hlt := (h.aligned n hn).2
  simp only [uint64]
  omega

-- ---------------------------------------------------------------------------
-- One node of the list
-- ---------------------------------------------------------------------------

theorem Carved.frame_of_mem (h : Carved (before ++ cur :: rest) pieces)
    (hn : n ∈ before ++ rest) : n.stop ≤ cur.addr ∨ cur.stop ≤ n.addr := by
  have hframes := h.frames
  rw [List.pairwise_append, List.pairwise_cons] at hframes
  rcases List.mem_append.mp hn with hn | hn
  · exact hframes.2.2 n hn cur List.mem_cons_self
  · exact (hframes.2.1.1 n hn).symm

theorem mem_middle : n ∈ before ++ cur :: rest ↔ n = cur ∨ n ∈ before ++ rest := by
  simp only [List.mem_append, List.mem_cons]
  tauto

theorem Carved.same_place (h : Carved (before ++ cur :: rest) pieces) (haddr : n.addr = cur.addr)
    (hstop : n.stop = cur.stop) :
    ((before ++ n :: rest).Pairwise fun n m => n.stop ≤ m.addr ∨ m.stop ≤ n.addr) ∧
      ∀ m ∈ before ++ n :: rest, m.stop % mpAlignment = 0 ∧ m.stop < 2 ^ 64 := by
  have hframes := h.frames
  rw [List.pairwise_append, List.pairwise_cons] at hframes ⊢
  obtain ⟨hbefore, ⟨hcur, hrest⟩, hacross⟩ := hframes
  refine ⟨⟨hbefore, ⟨?_, hrest⟩, fun m hm m' hm' => ?_⟩, fun m hm => ?_⟩
  · simpa only [haddr, hstop] using hcur
  · rcases List.mem_cons.mp hm' with rfl | hm'
    · simpa only [haddr, hstop] using hacross m hm cur List.mem_cons_self
    · exact hacross m hm m' (List.mem_cons_of_mem _ hm')
  · rcases mem_middle.mp hm with rfl | hm
    · simpa only [hstop] using h.aligned cur (mem_middle.mpr (.inl rfl))
    · exact h.aligned m (mem_middle.mpr (.inr hm))

theorem Carved.not_inside (h : Carved (before ++ cur :: rest) pieces) (hn : n ∈ before ++ rest)
    (haddr : cur.addr ≤ b.addr) (hstop : b.addr < cur.stop) : inside n b = false := by
  have hframe := h.frame_of_mem hn
  simp only [inside, decide_eq_false_iff_not]
  omega

theorem Carved.carve (h : Carved (before ++ cur :: rest) pieces) (hpos : 0 < size)
    (hfits : mpAlignPtr cur.last + size ≤ cur.stop) :
    Carved (before ++ { cur with
        quote := cur.quote + 1, last := mpAlignPtr cur.last + size } :: rest)
      (⟨mpAlignPtr cur.last, size⟩ :: pieces) := by
  have hcur : cur ∈ before ++ cur :: rest := mem_middle.mpr (.inl rfl)
  obtain ⟨hle, hstop, hmod⟩ := h.next hcur
  obtain ⟨haddr, hlast⟩ := h.room cur hcur
  have hold (n : MpNode) (hn : n ∈ before ++ rest) : n ∈ before ++ cur :: rest :=
    mem_middle.mpr (.inr hn)
  obtain ⟨hframes, haligned⟩ := h.same_place (n := { cur with
    quote := cur.quote + 1, last := mpAlignPtr cur.last + size }) rfl rfl
  refine ⟨hframes, haligned, ?_, ?_, ?_, ?_⟩
  · intro n hn
    rcases mem_middle.mp hn with rfl | hn
    · exact ⟨Nat.le_trans haddr (Nat.le_trans hle (Nat.le_add_right _ _)), hfits⟩
    · exact h.room n (hold n hn)
  · intro n hn
    rcases mem_middle.mp hn with rfl | hn
    · have hin : inside cur ⟨mpAlignPtr cur.last, size⟩ = true := by
        simp only [inside, decide_eq_true_eq]
        omega
      have hquote := h.quote cur hcur
      have hsame : inside { cur with
          quote := cur.quote + 1, last := mpAlignPtr cur.last + size } = inside cur := rfl
      rw [hsame, List.countP_cons_of_pos hin, Int.natCast_add, ← hquote]
      rfl
    · have hout := h.not_inside (b := ⟨mpAlignPtr cur.last, size⟩) hn (by simp only; omega)
        (by simp only; omega)
      simpa [hout] using h.quote n (hold n hn)
  · intro b hb
    rcases List.mem_cons.mp hb with rfl | hb
    · refine ⟨hmod, hpos, _, mem_middle.mpr (.inl rfl), ?_, Nat.le_refl _⟩
      exact Nat.le_trans haddr hle
    · obtain ⟨halign, hpos, n, hn, haddr', hlast'⟩ := h.placed b hb
      refine ⟨halign, hpos, ?_⟩
      rcases mem_middle.mp hn with rfl | hn
      · refine ⟨_, mem_middle.mpr (.inl rfl), haddr', ?_⟩
        exact Nat.le_trans hlast' (Nat.le_trans hle (Nat.le_add_right _ _))
      · exact ⟨n, mem_middle.mpr (.inr hn), haddr', hlast'⟩
  · refine List.pairwise_cons.mpr ⟨?_, h.apart⟩
    intro b hb
    obtain ⟨-, -, n, hn, haddr', hlast'⟩ := h.placed b hb
    simp only [Apart, Span.stop] at *
    rcases mem_middle.mp hn with rfl | hn
    · right
      exact Nat.le_trans hlast' hle
    · have hframe := h.frame_of_mem hn
      have hroom := (h.room n (hold n hn)).2
      omega

theorem Carved.addNode (h : Carved nodes pieces) (hblock : block % mpAlignment = 0)
    (hlt : block + pageSize < 2 ^ 64)
    (hfresh : ∀ n ∈ nodes, n.stop ≤ block ∨ block + pageSize ≤ n.addr) :
    Carved (nodes ++ [⟨block, block + pageSize, block + sizeofNode, 0, 0⟩]) pieces := by
  refine ⟨?_, ?_, ?_, ?_, ?_, h.apart⟩
  · refine List.pairwise_append.mpr ⟨h.frames, List.pairwise_singleton .., ?_⟩
    rintro n hn m hm
    rw [List.mem_singleton.mp hm]
    exact hfresh n hn
  · intro n hn
    rcases List.mem_append.mp hn with hn | hn
    · exact h.aligned n hn
    · rw [List.mem_singleton.mp hn]
      simp only [mpAlignment, pageSize] at *
      exact ⟨by omega, hlt⟩
  · intro n hn
    rcases List.mem_append.mp hn with hn | hn
    · exact h.room n hn
    · rw [List.mem_singleton.mp hn]
      simp only [pageSize, sizeofNode]
      exact ⟨Nat.le_refl _, by omega⟩
  · intro n hn
    rcases List.mem_append.mp hn with hn | hn
    · exact h.quote n hn
    · rw [List.mem_singleton.mp hn]
      have hnone : pieces.countP (inside ⟨block, block + pageSize, block + sizeofNode, 0, 0⟩) = 0 := by
        refine List.countP_eq_zero.mpr ?_
        intro b hb
        obtain ⟨-, hpos, m, hm, haddr, hlast⟩ := h.placed b hb
        have hroom := (h.room m hm).2
        have hframe := hfresh m hm
        simp only [inside, Span.stop, decide_eq_true_eq, sizeofNode] at *
        omega
      rw [hnone]
      rfl
  · intro b hb
    obtain ⟨halign, hpos, n, hn, haddr, hlast⟩ := h.placed b hb
    exact ⟨halign, hpos, n, List.mem_append_left _ hn, haddr, hlast⟩

theorem Carved.release (h : Carved (before ++ cur :: rest) (b :: pieces))
    (hin : inside cur b = true) {last : Nat} {failed : Int}
    (hlast : last = cur.last ∨ cur.quote - 1 = 0 ∧ last = cur.addr + sizeofNode) :
    Carved (before ++ { cur with quote := cur.quote - 1, last := last, failed := failed } :: rest)
      pieces := by
  have hcur : cur ∈ before ++ cur :: rest := mem_middle.mpr (.inl rfl)
  obtain ⟨haddr, hstop⟩ := h.room cur hcur
  have hold (n : MpNode) (hn : n ∈ before ++ rest) : n ∈ before ++ cur :: rest :=
    mem_middle.mpr (.inr hn)
  have hquote : cur.quote - 1 = pieces.countP (inside cur) := by
    rw [h.quote cur hcur, List.countP_cons_of_pos hin]
    simp
  have hin' : cur.addr ≤ b.addr ∧ b.addr < cur.stop := by simpa [inside] using hin
  obtain ⟨hframes, haligned⟩ := h.same_place (n := { cur with
    quote := cur.quote - 1, last := last, failed := failed }) rfl rfl
  refine ⟨hframes, haligned, ?_, ?_, ?_, (List.pairwise_cons.mp h.apart).2⟩
  · intro n hn
    rcases mem_middle.mp hn with rfl | hn
    · rcases hlast with rfl | ⟨-, rfl⟩
      · exact ⟨haddr, hstop⟩
      · exact ⟨Nat.le_refl _, Nat.le_trans haddr hstop⟩
    · exact h.room n (hold n hn)
  · intro n hn
    rcases mem_middle.mp hn with rfl | hn
    · exact hquote
    · have hout := h.not_inside hn hin'.1 hin'.2
      simpa [hout] using h.quote n (hold n hn)
  · intro c hc
    obtain ⟨halign, hpos, n, hn, haddr', hlast'⟩ := h.placed c (List.mem_cons_of_mem _ hc)
    refine ⟨halign, hpos, ?_⟩
    rcases mem_middle.mp hn with rfl | hn
    · rcases hlast with rfl | ⟨hzero, rfl⟩
      · exact ⟨_, mem_middle.mpr (.inl rfl), haddr', hlast'⟩
      · -- no piece is left in the node
        rw [hquote] at hzero
        have hnone := List.countP_eq_zero.mp (Int.natCast_eq_zero.mp hzero) c hc
        simp only [inside, Span.stop, decide_eq_true_eq, sizeofNode] at *
        omega
    · exact ⟨n, mem_middle.mpr (.inr hn), haddr', hlast'⟩

end LearningCode.MemPool
