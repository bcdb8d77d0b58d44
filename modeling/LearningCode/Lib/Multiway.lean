import Mathlib.Data.List.Basic
import Mathlib.Order.Basic

/-!
# Multiway search trees of uniform depth

A cell has a name, keys, and subtrees one level lower; on the lowest level there
are none. The level is part of the type, so that all leaves have one depth. A
frame is a cell with a hole, its keys and subtrees paired up around the hole.
-/

namespace LearningCode.Multiway

structure Cell (ι κ α : Type) where
  name : ι
  keys : List κ
  children : List α

/-- Trees with `h` levels of cells. -/
@[reducible] def Sub (ι κ : Type) : Nat → Type
  | 0 => Empty
  | h + 1 => Cell ι κ (Sub ι κ h)

abbrev MultiTree (ι κ : Type) (h : Nat) := Cell ι κ (Sub ι κ h)

variable {ι κ α β : Type} {h : Nat}

def weave : List (List κ) → List κ → List κ
  | [], ks => ks
  | c :: cs, [] => c ++ weave cs []
  | c :: cs, k :: ks => c ++ k :: weave cs ks

def inorder : (h : Nat) → Sub ι κ h → List κ
  | 0, _ => []
  | h + 1, c => weave (c.children.map (inorder h)) c.keys

def names : (h : Nat) → Sub ι κ h → List ι
  | 0, _ => []
  | h + 1, c => c.name :: c.children.flatMap (names h)

def size : (h : Nat) → Sub ι κ h → Nat
  | 0, _ => 0
  | _ + 1, c => c.keys.length

/-- At most `hi` keys in each cell, at least `lo` below the top, and one more
subtree than keys except on the lowest level. -/
def Shaped (lo hi : Nat) : (h : Nat) → Sub ι κ h → Prop
  | 0, _ => True
  | h + 1, c => c.keys.length ≤ hi ∧ (0 < h → c.children.length = c.keys.length + 1) ∧
      ∀ x ∈ c.children, lo ≤ size h x ∧ Shaped lo hi h x

/-- A cell with a hole between `before` and `after`. -/
structure Frame (ι κ α : Type) where
  name : ι
  before : List (α × κ)
  after : List (κ × α)

namespace Frame

def keys (f : Frame ι κ α) : List κ := f.before.map Prod.snd ++ f.after.map Prod.fst

def fill (f : Frame ι κ α) (x : α) : Cell ι κ α where
  name := f.name
  keys := f.keys
  children := f.before.map Prod.fst ++ x :: f.after.map Prod.snd

@[simp] theorem fill_name (f : Frame ι κ α) (x : α) : (f.fill x).name = f.name := rfl

@[simp] theorem fill_keys (f : Frame ι κ α) (x : α) : (f.fill x).keys = f.keys := rfl

@[simp] theorem fill_children (f : Frame ι κ α) (x : α) :
    (f.fill x).children = f.before.map Prod.fst ++ x :: f.after.map Prod.snd := rfl

@[simp] theorem keys_length (f : Frame ι κ α) :
    f.keys.length = f.before.length + f.after.length := by simp [keys]

def siblings (f : Frame ι κ α) : List α := f.before.map Prod.fst ++ f.after.map Prod.snd

theorem mem_children {f : Frame ι κ α} {x y : α} :
    y ∈ (f.fill x).children ↔ y = x ∨ y ∈ f.siblings := by
  simp only [fill_children, siblings, List.mem_append, List.mem_cons]
  exact or_left_comm

def lead (g : α → List κ) (l : List (α × κ)) : List κ := l.flatMap fun p => g p.1 ++ [p.2]

def trail (g : α → List κ) (l : List (κ × α)) : List κ := l.flatMap fun p => p.1 :: g p.2

theorem weave_lead (l : List (List κ × κ)) (cs : List (List κ)) (ks : List κ) :
    weave (l.map Prod.fst ++ cs) (l.map Prod.snd ++ ks) =
      lead id l ++ weave cs ks := by
  induction l with
  | nil => rfl
  | cons p l ih => simp [weave, ih, lead]

theorem weave_trail (c : List κ) (l : List (κ × List κ)) :
    weave (c :: l.map Prod.snd) (l.map Prod.fst) = c ++ trail id l := by
  induction l generalizing c with
  | nil => simp [weave, trail]
  | cons p l ih => simp [weave, ih, trail]

end Frame

open Multiway.Frame

theorem inorder_fill (f : Frame ι κ (Sub ι κ h)) (x : Sub ι κ h) :
    inorder (h + 1) (f.fill x) =
      lead (inorder h) f.before ++ (inorder h x ++ trail (inorder h) f.after) := by
  have hlead := weave_lead (f.before.map fun p => (inorder h p.1, p.2))
    (inorder h x :: (f.after.map fun p => (p.1, inorder h p.2)).map Prod.snd)
    ((f.after.map fun p => (p.1, inorder h p.2)).map Prod.fst)
  rw [weave_trail] at hlead
  simpa [inorder, keys, lead, trail, List.flatMap_map, Function.comp_def] using hlead

theorem exists_fill {c : MultiTree ι κ (h + 1)} (hc : c.children.length = c.keys.length + 1)
    {pre suf : List κ} (hk : c.keys = pre ++ suf) :
    ∃ f x, c = Frame.fill f x ∧ f.before.map Prod.snd = pre ∧ f.after.map Prod.fst = suf := by
  obtain ⟨name, keys, children⟩ := c
  subst hk
  have hc : children.length = pre.length + suf.length + 1 := by simpa using hc
  have hlt : pre.length < children.length := by omega
  refine ⟨⟨name, (children.take pre.length).zip pre, suf.zip (children.drop (pre.length + 1))⟩,
    children.get ⟨pre.length, hlt⟩, ?_, ?_, ?_⟩
  · have h₁ : ((children.take pre.length).zip pre).map Prod.fst = children.take pre.length :=
      List.map_fst_zip (by rw [List.length_take]; exact Nat.min_le_left ..)
    have h₂ : (suf.zip (children.drop (pre.length + 1))).map Prod.snd =
        children.drop (pre.length + 1) := List.map_snd_zip (by simp; omega)
    have h₃ : ((children.take pre.length).zip pre).map Prod.snd = pre :=
      List.map_snd_zip (by simp; omega)
    have h₄ : (suf.zip (children.drop (pre.length + 1))).map Prod.fst = suf :=
      List.map_fst_zip (by simp; omega)
    simp only [fill, Frame.keys, h₁, h₂, h₃, h₄]
    congr 1
    rw [List.get_eq_getElem, ← List.drop_eq_getElem_cons hlt, List.take_append_drop]
  · exact List.map_snd_zip (by simp; omega)
  · exact List.map_fst_zip (by simp; omega)

theorem names_fill_perm (f : Frame ι κ (Sub ι κ h)) (x : Sub ι κ h) :
    (names (h + 1) (f.fill x)).Perm
      (f.name :: (names h x ++ f.siblings.flatMap (names h))) := by
  refine .cons _ ?_
  rw [fill_children, siblings, List.flatMap_append, List.flatMap_cons, List.flatMap_append]
  exact List.perm_append_comm_assoc _ _ _

theorem shaped_fill {lo hi : Nat} {f : Frame ι κ (Sub ι κ h)} {x : Sub ι κ h} :
    Shaped lo hi (h + 1) (f.fill x) ↔ f.keys.length ≤ hi ∧ (lo ≤ size h x ∧ Shaped lo hi h x) ∧
      ∀ y ∈ f.siblings, lo ≤ size h y ∧ Shaped lo hi h y := by
  simp only [Shaped, fill_keys, Frame.mem_children, forall_eq_or_imp]
  refine and_congr_right fun _ => and_iff_right fun _ => ?_
  simp [keys, fill]
  omega

-- ---------------------------------------------------------------------------
-- Neighbours
-- ---------------------------------------------------------------------------

def Cell.join (l : Cell ι κ α) (k : κ) (r : Cell ι κ α) : Cell ι κ α where
  name := l.name
  keys := l.keys ++ k :: r.keys
  children := l.children ++ r.children

@[simp] theorem join_name (l : Cell ι κ α) (k : κ) (r : Cell ι κ α) :
    (l.join k r).name = l.name := rfl

@[simp] theorem join_keys (l : Cell ι κ α) (k : κ) (r : Cell ι κ α) :
    (l.join k r).keys = l.keys ++ k :: r.keys := rfl

@[simp] theorem join_children (l : Cell ι κ α) (k : κ) (r : Cell ι κ α) :
    (l.join k r).children = l.children ++ r.children := rfl

/-- A subtree on each side of every key, except on the lowest level. -/
def Balanced (h : Nat) (c : Cell ι κ α) : Prop := 0 < h → c.children.length = c.keys.length + 1

theorem weave_append {cs ds : List (List κ)} {ks ls : List κ} {k : κ}
    (h : cs.length = ks.length + 1 ∨ cs = [] ∧ ds = []) :
    weave (cs ++ ds) (ks ++ k :: ls) = weave cs ks ++ k :: weave ds ls := by
  induction cs generalizing ks with
  | nil =>
    rcases h with h | ⟨-, rfl⟩
    · cases h
    · simp [weave]
  | cons c cs ih =>
    have hlen : cs.length = ks.length := by simpa using h
    cases ks with
    | nil =>
      obtain rfl : cs = [] := List.length_eq_zero_iff.mp hlen
      simp [weave]
    | cons j ks => simp [weave, ih (.inl hlen)]

theorem Sub.eq_nil (l : List (Sub ι κ 0)) : l = [] := by
  cases l with
  | nil => rfl
  | cons x _ => cases x

theorem inorder_join {l r : MultiTree ι κ h} {k : κ} (hl : Balanced h l) :
    inorder (h + 1) (l.join k r) = inorder (h + 1) l ++ k :: inorder (h + 1) r := by
  simp only [inorder, join_keys, join_children, List.map_append]
  apply weave_append
  cases h with
  | zero => exact .inr (by simp [Sub.eq_nil l.children, Sub.eq_nil r.children])
  | succ h => exact .inl (by simpa using hl (Nat.succ_pos h))

theorem join_cut (c : Cell ι κ α) {ls ks : List κ} {k : κ} (hk : c.keys = ls ++ k :: ks) (n : Nat)
    (m : ι) : Cell.join ⟨c.name, ls, c.children.take n⟩ k ⟨m, ks, c.children.drop n⟩ = c := by
  obtain ⟨name, keys, children⟩ := c
  subst hk
  simp [Cell.join]

theorem inorder_cut {c : MultiTree ι κ h} (hc : Balanced h c) {ls ks : List κ} {k : κ}
    (hk : c.keys = ls ++ k :: ks) {n : Nat} (hn : n = ls.length + 1) (m : ι) :
    inorder (h + 1) c = inorder (h + 1) ⟨c.name, ls, c.children.take n⟩ ++
      k :: inorder (h + 1) ⟨m, ks, c.children.drop n⟩ := by
  have hl : Balanced h (⟨c.name, ls, c.children.take n⟩ : MultiTree ι κ h) := by
    intro hpos
    have hlen := hc hpos
    rw [hk, List.length_append, List.length_cons] at hlen
    simp only [List.length_take]
    omega
  rw [← inorder_join hl, join_cut c hk]

theorem names_pair_perm (n : ι) (b : List (Sub ι κ (h + 1) × κ)) (a : List (κ × Sub ι κ (h + 1)))
    (l r : MultiTree ι κ h) (k : κ) : (names (h + 2) (Frame.fill ⟨n, b, (k, r) :: a⟩ l)).Perm
      (n :: l.name :: r.name :: ((l.children ++ r.children).flatMap (names h) ++
        (Frame.siblings ⟨n, b, a⟩).flatMap (names (h + 1)))) := by
  refine (names_fill_perm _ _).trans (.cons _ (.cons _ ?_))
  have hmove (L R A B : List ι) (x : ι) :
      (L ++ (B ++ x :: (R ++ A))).Perm (x :: ((L ++ R) ++ (B ++ A))) := by
    rw [← List.append_assoc]
    refine List.perm_middle.trans (.cons _ ?_)
    rw [List.append_assoc, List.append_assoc]
    exact (List.perm_append_comm_assoc _ _ _).append_left _
  simp only [siblings, List.map_cons, List.flatMap_append, List.flatMap_cons]
  exact hmove _ _ _ _ _

theorem inorder_fill_pair (n : ι) (b : List (Sub ι κ (h + 1) × κ)) (a : List (κ × Sub ι κ (h + 1)))
    (l r : MultiTree ι κ h) (k : κ) :
    inorder (h + 2) (Frame.fill ⟨n, b, (k, r) :: a⟩ l) = lead (inorder (h + 1)) b ++
      ((inorder (h + 1) l ++ k :: inorder (h + 1) r) ++ trail (inorder (h + 1)) a) := by
  rw [inorder_fill]
  simp [trail]

theorem fill_swap (n : ι) (b : List (α × κ)) (a : List (κ × α)) (l r : α) (k : κ) :
    Frame.fill ⟨n, b ++ [(l, k)], a⟩ r = Frame.fill ⟨n, b, (k, r) :: a⟩ l := by
  simp [fill, keys]

end LearningCode.Multiway
