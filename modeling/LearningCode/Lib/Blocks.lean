import Mathlib.Data.List.Basic
import Mathlib.Data.List.Induction

/-!
# Arrays of a fixed size

A list stands for the whole array. Reads and writes are checked against its
length. The loops are the usual ones that move slots one up, one down, or from
one array to another; what they do is said for an array cut into pieces.
-/

namespace LearningCode.Blocks

universe u

variable {α : Type u} {a b p o m q r src : List α} {x y v : α} {i n : Nat}

def write (a : List α) (i : Nat) (v : α) : Option (List α) :=
  if i < a.length then some (a.set i v) else none

/-- `for (j = 0; j < n; j++) dst[d + j] = src[s + j]`. -/
def copy (src : List α) : (n d s : Nat) → List α → Option (List α)
  | 0, _, _, dst => some dst
  | n + 1, d, s, dst => do
    let v ← src[s]?
    let dst ← write dst d v
    copy src n (d + 1) (s + 1) dst

/-- `for (j = lo; j < lo + n; j++) a[j] = a[j + 1]`. -/
def shiftDown : (n lo : Nat) → List α → Option (List α)
  | 0, _, a => some a
  | n + 1, lo, a => do
    let v ← a[lo + 1]?
    let a ← write a lo v
    shiftDown n (lo + 1) a

/-- `for (j = lo + n - 1; j >= lo; j--) a[j + 1] = a[j]`. -/
def shiftUp : (n lo : Nat) → List α → Option (List α)
  | 0, _, a => some a
  | n + 1, lo, a => do
    let v ← a[lo + n]?
    let a ← write a (lo + n + 1) v
    shiftUp n lo a

def slice (a : List α) (i n : Nat) : Option (List α) :=
  if i + n ≤ a.length then some ((a.drop i).take n) else none

def overwrite (a : List α) (i : Nat) (b : List α) : Option (List α) :=
  if i + b.length ≤ a.length then some (a.take i ++ b ++ a.drop (i + b.length)) else none

theorem read_split (hi : i = p.length) : (p ++ x :: q)[i]? = some x := by
  subst hi
  simp

theorem write_split (hi : i = p.length) :
    write (p ++ x :: q) i v = some (p ++ v :: q) := by
  subst hi
  simp [write]

theorem write_eq_none (hi : a.length ≤ i) : write a i v = none := if_neg (Nat.not_lt.mpr hi)

theorem slice_split (hi : i = p.length) (hn : n = m.length) :
    slice (p ++ (m ++ q)) i n = some m := by
  subst hi hn
  simp [slice]

theorem overwrite_split (hi : i = p.length) (hb : b.length = m.length) :
    overwrite (p ++ (m ++ q)) i b = some (p ++ (b ++ q)) := by
  subst hi
  simp [overwrite, hb]

theorem overwrite_append (hi : i = p.length) (hb : b.length ≤ q.length) :
    overwrite (p ++ q) i b = some (p ++ (b ++ q.drop b.length)) := by
  have hsplit := overwrite_split (q := q.drop b.length) hi
    (List.length_take_of_le hb).symm
  rwa [List.take_append_drop] at hsplit

theorem copy_split (hd : n = m.length) (ho : o.length = m.length) :
    copy (p ++ m ++ q) n a.length p.length (a ++ o ++ r) =
      some (a ++ m ++ r) := by
  subst hd
  induction m generalizing p a o with
  | nil => simp [List.length_eq_zero_iff.mp ho, copy]
  | cons x m ih =>
    cases o with
    | nil => cases ho
    | cons y o =>
      have hread : (p ++ x :: m ++ q)[p.length]? = some x := by simp
      have hwrite : write (a ++ y :: o ++ r) a.length x = some (a ++ x :: o ++ r) := by
        simp [write]
      have hrest := ih (p := p ++ [x]) (a := a ++ [x]) (Nat.succ.inj ho)
      simp only [List.length_append, List.length_singleton, List.append_assoc,
        List.singleton_append] at hrest
      simp only [List.length_cons, copy, hread, hwrite, Option.bind_eq_bind, Option.bind_some]
      simpa using hrest

theorem shiftDown_split (hn : n = q.length) (hi : i = p.length) :
    ∃ y ∈ x :: q, shiftDown n i (p ++ x :: (q ++ r)) = some (p ++ (q ++ y :: r)) := by
  subst hn hi
  induction q generalizing p x with
  | nil => exact ⟨x, List.mem_cons_self, rfl⟩
  | cons z q ih =>
    obtain ⟨y, hy, h⟩ := ih (p := p ++ [z]) (x := z)
    refine ⟨y, List.mem_cons_of_mem x hy, ?_⟩
    have hread : (p ++ x :: (z :: q ++ r))[p.length + 1]? = some z := by
      simp
    simp only [List.length_cons, shiftDown, hread, write_split rfl, Option.bind_eq_bind,
      Option.bind_some]
    simpa using h

theorem shiftUp_split (hn : n = q.length) (hi : i = p.length) :
    ∃ y ∈ x :: q, shiftUp n i (p ++ (q ++ x :: r)) = some (p ++ y :: (q ++ r)) := by
  subst hn hi
  induction q using List.reverseRecOn generalizing x r with
  | nil => exact ⟨x, List.mem_cons_self, rfl⟩
  | append_singleton q z ih =>
    obtain ⟨y, hy, h⟩ := ih (x := z) (r := z :: r)
    refine ⟨y, ?_, ?_⟩
    · simp only [List.mem_cons, List.mem_append, List.not_mem_nil, or_false] at hy ⊢
      exact hy.elim (fun h => .inr (.inr h)) fun h => .inr (.inl h)
    · have hread : (p ++ (q ++ [z] ++ x :: r))[p.length + q.length]? = some z := by
        simp
      have hwrite : write (p ++ (q ++ [z] ++ x :: r)) (p.length + q.length + 1) z =
          some (p ++ (q ++ z :: (z :: r))) := by
        have := write_split (p := p ++ (q ++ [z])) (x := x) (q := r) (v := z) rfl
        simpa [Nat.add_assoc] using this
      simp only [List.length_append, List.length_singleton, shiftUp, hread, hwrite,
        Option.bind_eq_bind, Option.bind_some]
      simpa using h

-- ---------------------------------------------------------------------------
-- Arrays with one value throughout
-- ---------------------------------------------------------------------------

variable {len lo : Nat}

theorem read_replicate (h : i < len) : (List.replicate len v)[i]? = some v := by simp [h]

theorem write_replicate (h : i < len) :
    write (List.replicate len v) i v = some (List.replicate len v) := by
  simp [write, h]

theorem shiftDown_replicate (h : lo + n < len) :
    shiftDown n lo (List.replicate len v) = some (List.replicate len v) := by
  induction n generalizing lo with
  | zero => rfl
  | succ n ih =>
    have hread : lo + 1 < len := by omega
    have hwrite : lo < len := by omega
    simp only [shiftDown, read_replicate hread, write_replicate hwrite, Option.bind_eq_bind,
      Option.bind_some]
    exact ih (by omega)

theorem shiftUp_replicate (h : lo + n < len) :
    shiftUp n lo (List.replicate len v) = some (List.replicate len v) := by
  induction n with
  | zero => rfl
  | succ n ih =>
    have hread : lo + n < len := by omega
    have hwrite : lo + n + 1 < len := by omega
    simp only [shiftUp, read_replicate hread, write_replicate hwrite, Option.bind_eq_bind,
      Option.bind_some]
    exact ih hread

end LearningCode.Blocks
