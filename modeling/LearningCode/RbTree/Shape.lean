import Mathlib.Tactic.Tauto
import LearningCode.RbTree.Model

/-!
# Trees in memory

What it means that a tree is stored in the memory under a parent, that a context
is stored around a hole, and that the two make up all of a `rbtree`.
-/

namespace LearningCode.RbTree

open RedBlack RedBlack.Context

structure Binding where
  ptr : Ptr
  key : Int
  value : Ptr

variable {T T' : Rbtree} {mem mem' : Ptr → RbtreeNode} {nil root par par' h : Ptr}
  {s : Side} {c c' : Color} {b b' : Binding} {t u v : ColoredTree Binding} {ctx : Context Binding}
  {f : Frame Binding}

/-- The node of `b` with `p` on the side `s` and `q` on the other. -/
def cell (b : Binding) (c : Color) (s : Side) (p q par : Ptr) : RbtreeNode :=
  match s with
  | .left => ⟨c, p, q, par, b.key, b.value⟩
  | .right => ⟨c, q, p, par, b.key, b.value⟩

section cell

variable {p q r : Ptr}

@[simp] theorem child_cell : (cell b c s p q par).child s = p := by cases s <;> rfl

@[simp] theorem child_flip_cell : (cell b c s p q par).child s.flip = q := by cases s <;> rfl

@[simp] theorem parent_cell : (cell b c s p q par).parent = par := by cases s <;> rfl

@[simp] theorem color_cell : (cell b c s p q par).color = c := by cases s <;> rfl

@[simp] theorem key_cell : (cell b c s p q par).key = b.key := by cases s <;> rfl

@[simp] theorem value_cell : (cell b c s p q par).value = b.value := by cases s <;> rfl

@[simp] theorem setChild_cell : (cell b c s p q par).setChild s r = cell b c s r q par := by
  cases s <;> rfl

@[simp] theorem setChild_flip_cell :
    (cell b c s p q par).setChild s.flip r = cell b c s p r par := by cases s <;> rfl

@[simp] theorem setParent_cell :
    { cell b c s p q par with parent := r } = cell b c s p q r := by cases s <;> rfl

@[simp] theorem setColor_cell :
    { cell b c s p q par with color := c' } = cell b c' s p q par := by cases s <;> rfl

end cell

def top (nil : Ptr) : ColoredTree Binding → Ptr
  | .leaf => nil
  | .node _ b _ _ => b.ptr

@[simp] theorem top_join : top nil (.join s c b t u) = b.ptr := by cases s <;> rfl

def up (nil : Ptr) : Context Binding → Ptr
  | [] => nil
  | f :: _ => f.item.ptr

/-- `t` is stored under the node `par`. -/
def Stored (mem : Ptr → RbtreeNode) (nil : Ptr) : Ptr → ColoredTree Binding → Prop
  | _, .leaf => True
  | par, .node c b l r =>
    (b.ptr ≠ nil ∧ mem b.ptr = cell b c .left (top nil l) (top nil r) par) ∧
      Stored mem nil b.ptr l ∧ Stored mem nil b.ptr r

theorem stored_join : Stored mem nil par (.join s c b t u) ↔
    (b.ptr ≠ nil ∧ mem b.ptr = cell b c s (top nil t) (top nil u) par) ∧
      Stored mem nil b.ptr t ∧ Stored mem nil b.ptr u := by
  cases s with
  | left => exact Iff.rfl
  | right => exact and_congr Iff.rfl And.comm

/-- `ctx` is stored below `root`, around a hole that holds the pointer `h`. -/
def Around (mem : Ptr → RbtreeNode) (nil root : Ptr) : Context Binding → Ptr → Prop
  | [], h => root = h
  | f :: ctx, h =>
    (f.item.ptr ≠ nil ∧
      mem f.item.ptr = cell f.item f.color f.side h (top nil f.sibling) (up nil ctx)) ∧
      Stored mem nil f.item.ptr f.sibling ∧ Around mem nil root ctx f.item.ptr

abbrev ptrs (l : List Binding) : List Ptr := l.map Binding.ptr

theorem Stored.ne_nil (h : Stored mem nil par t) : nil ∉ ptrs t.inorder := by
  induction t generalizing par with
  | leaf => exact List.not_mem_nil
  | node c b l r ihl ihr =>
    obtain ⟨⟨hb, -⟩, hl, hr⟩ := h
    simp only [ColoredTree.inorder, ptrs, List.map_append, List.map_cons, List.mem_append, List.mem_cons,
      not_or]
    exact ⟨ihl hl, hb.symm, ihr hr⟩

theorem mem_ptrs_items_cons {p : Ptr} : p ∈ ptrs (items (f :: ctx)) ↔
    p = f.item.ptr ∨ p ∈ ptrs f.sibling.inorder ∨ p ∈ ptrs (items ctx) := by
  rw [ptrs, ((items_cons_perm f ctx).map Binding.ptr).mem_iff]
  simp

theorem mem_ptrs_join {p : Ptr} : p ∈ ptrs (ColoredTree.join s c b t u).inorder ↔
    p = b.ptr ∨ p ∈ ptrs t.inorder ∨ p ∈ ptrs u.inorder := by
  rw [ptrs, ((ColoredTree.inorder_join_perm s c b t u).map Binding.ptr).mem_iff]
  simp

theorem mem_ptrs_items_append {ctx' : Context Binding} {p : Ptr} :
    p ∈ ptrs (items (ctx ++ ctx')) ↔ p ∈ ptrs (items ctx) ∨ p ∈ ptrs (items ctx') := by
  induction ctx with
  | nil => simp
  | cons f ctx ih => rw [List.cons_append, mem_ptrs_items_cons, ih, mem_ptrs_items_cons]; tauto

theorem Around.ne_nil (ha : Around mem nil root ctx h) : nil ∉ ptrs (items ctx) := by
  induction ctx generalizing h with
  | nil => exact List.not_mem_nil
  | cons f ctx ih =>
    obtain ⟨⟨hf, -⟩, hs, hctx⟩ := ha
    rw [mem_ptrs_items_cons]
    rintro (h | h | h)
    · exact hf h.symm
    · exact hs.ne_nil h
    · exact ih hctx h

theorem Stored.congr (h : Stored mem nil par t) (hmem : ∀ p ∈ ptrs t.inorder, mem' p = mem p) :
    Stored mem' nil par t := by
  induction t generalizing par with
  | leaf => trivial
  | node c b l r ihl ihr =>
    obtain ⟨⟨hb, hcell⟩, hl, hr⟩ := h
    simp only [ColoredTree.inorder, ptrs, List.map_append, List.map_cons, List.mem_append,
      List.mem_cons] at hmem
    refine ⟨⟨hb, ?_⟩, ihl hl fun p hp => hmem p (.inl hp), ihr hr fun p hp => ?_⟩
    · exact (hmem b.ptr (.inr (.inl rfl))).trans hcell
    · exact hmem p (.inr (.inr hp))

theorem Around.congr (ha : Around mem nil root ctx h)
    (hmem : ∀ p ∈ ptrs (items ctx), mem' p = mem p) : Around mem' nil root ctx h := by
  induction ctx generalizing h with
  | nil => exact ha
  | cons f ctx ih =>
    obtain ⟨⟨hf, hcell⟩, hs, hctx⟩ := ha
    refine ⟨⟨hf, ?_⟩, hs.congr fun p hp => ?_, ih hctx fun p hp => ?_⟩
    · exact (hmem _ (mem_ptrs_items_cons.mpr (.inl rfl))).trans hcell
    · exact hmem p (mem_ptrs_items_cons.mpr (.inr (.inl hp)))
    · exact hmem p (mem_ptrs_items_cons.mpr (.inr (.inr hp)))

/-- `t` sits in the hole of `ctx`, and no node is used twice. -/
structure At (T : Rbtree) (ctx : Context Binding) (t : ColoredTree Binding) : Prop where
  here : Stored T.mem T.nil (up T.nil ctx) t
  around : Around T.mem T.nil T.root ctx (top T.nil t)
  nodup : (ptrs (plug ctx t).inorder).Nodup

theorem at_cons : At T (f :: ctx) t ↔ At T ctx (f.fill t) := by
  constructor
  · rintro ⟨ht, ⟨hcell, hs, hctx⟩, hnodup⟩
    exact ⟨stored_join.mpr ⟨hcell, ht, hs⟩, by rwa [Frame.fill, top_join], hnodup⟩
  · rintro ⟨ht, hctx, hnodup⟩
    obtain ⟨hcell, ht, hs⟩ := stored_join.mp ht
    rw [Frame.fill, top_join] at hctx
    exact ⟨ht, ⟨hcell, hs, hctx⟩, hnodup⟩

theorem at_append {ctx' : Context Binding} : At T (ctx ++ ctx') t ↔ At T ctx' (plug ctx t) := by
  induction ctx generalizing t with
  | nil => exact Iff.rfl
  | cons f ctx ih => exact at_cons.trans ih

theorem At.whole (h : At T ctx t) : At T [] (plug ctx t) := by
  rw [← List.append_nil ctx] at h
  exact at_append.mp h

theorem At.focus (h : At T [] (plug ctx t)) : At T ctx t := by
  rw [← List.append_nil ctx]
  exact at_append.mpr h

theorem At.sibling (h : At T (⟨s, c, b, u⟩ :: ctx) t) : At T (⟨s.flip, c, b, t⟩ :: ctx) u := by
  rw [at_cons] at h ⊢
  show At T ctx (.join s.flip c b u t)
  rw [ColoredTree.join_flip]
  exact h

theorem At.into (h : At T ctx (.join s c b t u)) : At T (⟨s, c, b, u⟩ :: ctx) t := at_cons.mpr h

theorem At.into_flip (h : At T ctx (.join s c b t u)) : At T (⟨s.flip, c, b, t⟩ :: ctx) u :=
  h.into.sibling

theorem At.out (h : At T (⟨s, c, b, u⟩ :: ctx) t) : At T ctx (.join s c b t u) := at_cons.mp h

theorem At.out_flip (h : At T (⟨s.flip, c, b, u⟩ :: ctx) t) : At T ctx (.join s c b u t) := by
  have := h.sibling.out
  rwa [Side.flip_flip] at this

theorem At.nodup_perm (h : At T ctx t) : (ptrs (items ctx ++ t.inorder)).Nodup :=
  ((inorder_plug_perm ctx t).map Binding.ptr).nodup_iff.mp h.nodup

theorem At.disjoint (h : At T ctx t) {p : Ptr} (hp : p ∈ ptrs t.inorder) :
    p ∉ ptrs (items ctx) := by
  have hnodup := h.nodup_perm
  rw [ptrs, List.map_append, List.nodup_append] at hnodup
  exact fun hp' => hnodup.2.2 p hp' p hp rfl

theorem top_mem {p : Ptr} (h : t ≠ .leaf) : top p t ∈ ptrs t.inorder := by
  cases t with
  | leaf => exact absurd rfl h
  | node c b l r => simp [top, ColoredTree.inorder]

theorem At.top_notMem (h : At T ctx t) : top T.nil t ∉ ptrs (items ctx) := by
  cases ht : t with
  | leaf => exact h.around.ne_nil
  | node c b l r => exact ht ▸ h.disjoint (top_mem (by simp [ht]))

theorem Around.root_mem (ha : Around mem nil root (f :: ctx) h) :
    root ∈ ptrs (items (f :: ctx)) := by
  induction ctx generalizing f h with
  | nil => exact mem_ptrs_items_cons.mpr (.inl ha.2.2)
  | cons g ctx ih => exact mem_ptrs_items_cons.mpr (.inr (.inr (ih ha.2.2)))

theorem At.top_eq_root_iff (h : At T ctx t) : top T.nil t = T.root ↔ ctx = [] := by
  cases ctx with
  | nil => exact iff_of_true h.around.symm rfl
  | cons f ctx =>
    refine iff_of_false (fun heq => h.top_notMem ?_) (fun h => (nomatch h))
    exact heq ▸ h.around.root_mem

theorem At.nodup_here (h : At T ctx t) : (ptrs t.inorder).Nodup := by
  have hnodup := h.nodup_perm
  rw [ptrs, List.map_append, List.nodup_append] at hnodup
  exact hnodup.2.1

theorem At.nodup_around (h : At T ctx t) : (ptrs (items ctx)).Nodup := by
  have hnodup := h.nodup_perm
  rw [ptrs, List.map_append, List.nodup_append] at hnodup
  exact hnodup.1

theorem At.notMem (h : At T ctx (.join s c b t u)) : b.ptr ∉ ptrs (items ctx) ∧
    b.ptr ∉ ptrs t.inorder ∧ b.ptr ∉ ptrs u.inorder := by
  have hnodup := h.nodup_here
  rw [ptrs, ((ColoredTree.inorder_join_perm s c b t u).map _).nodup_iff] at hnodup
  simp only [List.map_cons, List.map_append, List.nodup_cons, List.mem_append, not_or] at hnodup
  exact ⟨h.disjoint (mem_ptrs_join.mpr (.inl rfl)), hnodup.1⟩

-- ---------------------------------------------------------------------------
-- What the code reads
-- ---------------------------------------------------------------------------

theorem At.cell (h : At T ctx (.join s c b t u)) :
    T.mem b.ptr = cell b c s (top T.nil t) (top T.nil u) (up T.nil ctx) :=
  (stored_join.mp h.here).1.2

theorem At.ne_nil (h : At T ctx (.join s c b t u)) : b.ptr ≠ T.nil := (stored_join.mp h.here).1.1

theorem top_eq_nil_iff (h : Stored mem nil par t) : top nil t = nil ↔ t = .leaf := by
  cases t with
  | leaf => exact iff_of_true rfl rfl
  | node c b l r => exact iff_of_false h.1.1 (fun h => (nomatch h))

/-- Leaves are black as long as the sentinel is. -/
theorem At.color_top (h : At T ctx t) (hnil : (T.mem T.nil).color = .black) :
    T.color (top T.nil t) = t.color := by
  cases t with
  | leaf => exact hnil
  | node c b l r =>
    rw [Rbtree.color, top, h.here.1.2]
    rfl

theorem At.color_up (h : At T ctx t) (hnil : (T.mem T.nil).color = .black) :
    T.color (up T.nil ctx) = (Context.color ctx).getD .black := by
  cases ctx with
  | nil => exact hnil
  | cons f ctx =>
    rw [Rbtree.color, up, h.around.1.2, color_cell]
    rfl

/-- The parent link at the hole: the sentinel's can be anything. -/
theorem At.parent_top (h : At T ctx t)
    (hnil : t = .leaf → (T.mem T.nil).parent = up T.nil ctx) :
    T.parent (top T.nil t) = up T.nil ctx := by
  cases t with
  | leaf => exact hnil rfl
  | node c b l r =>
    rw [Rbtree.parent, top, h.here.1.2]
    rfl

theorem At.parent_eq (h : At T (f :: ctx) t) (ht : t ≠ .leaf) :
    T.parent (top T.nil t) = f.item.ptr := h.parent_top fun h => absurd h ht

theorem At.parent_frame (h : At T (f :: ctx) t) : T.parent f.item.ptr = up T.nil ctx := by
  rw [Rbtree.parent, h.around.1.2, parent_cell]

theorem At.child_frame (h : At T (f :: ctx) t) : T.child f.side f.item.ptr = top T.nil t := by
  rw [Rbtree.child, h.around.1.2, child_cell]

theorem At.child_flip_frame (h : At T (f :: ctx) t) :
    T.child f.side.flip f.item.ptr = top T.nil f.sibling := by
  rw [Rbtree.child, h.around.1.2, child_flip_cell]

theorem At.color_frame (h : At T (f :: ctx) t) : T.color f.item.ptr = f.color := by
  rw [Rbtree.color, h.around.1.2, color_cell]

theorem At.top_ne_sibling (h : At T (f :: ctx) t) (hne : t ≠ .leaf ∨ f.sibling ≠ .leaf) :
    top T.nil t ≠ top T.nil f.sibling := by
  intro heq
  cases ht : t with
  | leaf =>
    have hnil : top T.nil f.sibling = T.nil := by rw [← heq, ht]; rfl
    exact hne.elim (absurd ht) (absurd ((top_eq_nil_iff h.around.2.1).mp hnil))
  | node c b l r =>
    refine h.top_notMem (mem_ptrs_items_cons.mpr (.inr (.inl ?_)))
    rw [heq]
    refine top_mem fun hs => ?_
    exact absurd ((top_eq_nil_iff h.here).mp (by rw [heq, hs]; rfl)) (by simp [ht])

theorem At.sideOf_eq (h : At T (f :: ctx) t) (hne : t ≠ .leaf ∨ f.sibling ≠ .leaf)
    (hnil : t = .leaf → (T.mem T.nil).parent = f.item.ptr) :
    sideOf T (top T.nil t) = f.side := by
  have hpar : T.parent (top T.nil t) = f.item.ptr := h.parent_top hnil
  have hchild := h.child_frame
  have hflip := h.child_flip_frame
  rw [sideOf, hpar]
  cases hs : f.side with
  | left => rw [hs] at hchild; exact if_pos hchild.symm
  | right =>
    rw [hs] at hflip
    refine if_neg fun heq => h.top_ne_sibling hne (heq.trans hflip)

theorem At.root_eq (h : At T [] t) : T.root = top T.nil t := h.around

end LearningCode.RbTree
