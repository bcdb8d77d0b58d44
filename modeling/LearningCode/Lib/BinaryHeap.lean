import Mathlib.Order.Lattice
import Mathlib.Order.Nat
import Mathlib.Logic.Function.Basic

/-!
# Binary heaps with a hole

Keys of a linear order in the slots `0 .. n` of an array, the children of `i`
at `2 * i + 1` and `2 * i + 2`. A sift keeps one slot, the hole, out of the
order and moves it along a path; what it carries is put down at the end.
-/

namespace LearningCode.BinaryHeap

variable {α : Type*} [LinearOrder α] {k : Nat → α} {n h c : Nat} {x : α}

def parent (i : Nat) : Nat := (i - 1) / 2

theorem parent_lt (hi : 0 < i) : parent i < i := by unfold parent; omega

def Ordered (k : Nat → α) (n : Nat) : Prop := ∀ i, 0 < i → i < n → k (parent i) ≤ k i

def IsChild (n h c : Nat) : Prop := 0 < c ∧ c < n ∧ parent c = h

/-- The order off slot `h`, and across it. -/
structure Hole (k : Nat → α) (n h : Nat) : Prop where
  off : ∀ i, 0 < i → i < n → i ≠ h → parent i ≠ h → k (parent i) ≤ k i
  across : ∀ c, IsChild n h c → 0 < h → k (parent h) ≤ k c

/-- `x` may stand in slot `h` as far as the slots above are concerned. -/
def Above (k : Nat → α) (h : Nat) (x : α) : Prop := 0 < h → k (parent h) ≤ x

/-- `x` may stand in slot `h` as far as its children are concerned. -/
def Below (k : Nat → α) (n h : Nat) (x : α) : Prop := ∀ c, IsChild n h c → x ≤ k c

theorem IsChild.lt (hc : IsChild n h c) : h < c := by
  obtain ⟨h0, -, rfl⟩ := hc
  exact parent_lt h0

theorem Ordered.hole (ho : Ordered k n) (hh : h < n) : Hole k n h := by
  refine ⟨fun i h0 hi _ _ => ho i h0 hi, fun c hc h0 => ?_⟩
  have hup := ho c hc.1 hc.2.1
  rw [hc.2.2] at hup
  exact (ho h h0 hh).trans hup

theorem Ordered.congr {k' : Nat → α} (ho : Ordered k n) (h : ∀ i < n, k' i = k i) :
    Ordered k' n := by
  intro i h0 hi
  rw [h i hi, h (parent i) ((parent_lt h0).trans hi)]
  exact ho i h0 hi

theorem Ordered.mono {m : Nat} (ho : Ordered k n) (hm : m ≤ n) : Ordered k m :=
  fun i h0 hi => ho i h0 (hi.trans_le hm)

theorem Ordered.top_le (ho : Ordered k n) (hi : i < n) : k 0 ≤ k i := by
  induction i using Nat.strongRecOn with
  | ind i ih =>
    rcases Nat.eq_zero_or_pos i with rfl | h0
    · exact le_rfl
    · exact (ih _ (parent_lt h0) ((parent_lt h0).trans hi)).trans (ho i h0 hi)

theorem Hole.fill (hk : Hole k n h) (ha : Above k h x) (hb : Below k n h x) :
    Ordered (Function.update k h x) n := by
  intro i h0 hi
  by_cases hih : i = h
  · subst hih
    rw [Function.update_self, Function.update_of_ne (parent_lt h0).ne]
    exact ha h0
  · rw [Function.update_of_ne hih]
    by_cases hp : parent i = h
    · rw [hp, Function.update_self]
      exact hb i ⟨h0, hi, hp⟩
    · rw [Function.update_of_ne hp]
      exact hk.off i h0 hi hih hp

theorem Hole.congr {k' : Nat → α} (hk : Hole k n h) (heq : ∀ i < n, i ≠ h → k' i = k i)
    (hh : h < n) : Hole k' n h := by
  refine ⟨fun i h0 hi hih hph => ?_, fun c hc h0 => ?_⟩
  · rw [heq i hi hih, heq _ ((parent_lt h0).trans hi) hph]
    exact hk.off i h0 hi hih hph
  · rw [heq c hc.2.1 hc.lt.ne', heq _ ((parent_lt h0).trans hh) (parent_lt h0).ne]
    exact hk.across c hc h0

-- ---------------------------------------------------------------------------
-- Moving the hole up
-- ---------------------------------------------------------------------------

theorem Hole.sibling {c : Nat} (hk : Hole k n h) (h0 : 0 < h) (hc : IsChild n (parent h) c)
    (hch : c ≠ h) : k (parent h) ≤ k c := by
  have hle := hk.off c hc.1 hc.2.1 hch (by rw [hc.2.2]; exact (parent_lt h0).ne)
  rwa [hc.2.2] at hle

theorem Hole.up (hk : Hole k n h) (h0 : 0 < h) (hh : h < n) :
    Hole (Function.update k h (k (parent h))) n (parent h) := by
  have hlt := parent_lt h0
  refine ⟨fun i hi0 hi hip hpp => ?_, fun c hc hp0 => ?_⟩
  · have hih : i ≠ h := by rintro rfl; exact hpp rfl
    rw [Function.update_of_ne hih]
    by_cases hph : parent i = h
    · rw [hph, Function.update_self]
      exact hk.across i ⟨hi0, hi, hph⟩ h0
    · rw [Function.update_of_ne hph]
      exact hk.off i hi0 hi hih hph
  · have hpp := parent_lt hp0
    have hup : k (parent (parent h)) ≤ k (parent h) :=
      hk.off _ hp0 (hlt.trans hh) hlt.ne (hpp.trans hlt).ne
    rw [Function.update_of_ne (hpp.trans hlt).ne]
    by_cases hch : c = h
    · subst hch
      rw [Function.update_self]
      exact hup
    · rw [Function.update_of_ne hch]
      exact hup.trans (hk.sibling h0 hc hch)

theorem Below.up (hk : Hole k n h) (h0 : 0 < h) (hx : x ≤ k (parent h)) :
    Below (Function.update k h (k (parent h))) n (parent h) x := by
  intro c hc
  by_cases hch : c = h
  · subst hch
    rw [Function.update_self]
    exact hx
  · rw [Function.update_of_ne hch]
    exact hx.trans (hk.sibling h0 hc hch)

-- ---------------------------------------------------------------------------
-- Moving the hole down
-- ---------------------------------------------------------------------------

def IsMinChild (k : Nat → α) (n h c : Nat) : Prop :=
  IsChild n h c ∧ ∀ d, IsChild n h d → k c ≤ k d

theorem Hole.down (hk : Hole k n h) (hc : IsMinChild k n h c) :
    Hole (Function.update k h (k c)) n c := by
  have hlt := hc.1.lt
  refine ⟨fun i hi0 hi hic hpc => ?_, fun d hd _ => ?_⟩
  · by_cases hih : i = h
    · subst hih
      rw [Function.update_self, Function.update_of_ne (parent_lt hi0).ne]
      exact hk.across c hc.1 hi0
    · rw [Function.update_of_ne hih]
      by_cases hph : parent i = h
      · rw [hph, Function.update_self]
        exact hc.2 i ⟨hi0, hi, hph⟩
      · rw [Function.update_of_ne hph]
        exact hk.off i hi0 hi hih hph
  · have hdlt := hd.lt
    rw [hc.1.2.2, Function.update_self, Function.update_of_ne (hlt.trans hdlt).ne']
    have := hk.off d hd.1 hd.2.1 (hlt.trans hdlt).ne' (by rw [hd.2.2]; exact hlt.ne')
    rwa [hd.2.2] at this

theorem Above.down (hc : IsChild n h c) (hx : k c ≤ x) : Above (Function.update k h (k c)) c x := by
  intro _
  rw [hc.2.2, Function.update_self]
  exact hx

end LearningCode.BinaryHeap
