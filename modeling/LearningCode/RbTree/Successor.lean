import LearningCode.RbTree.Runs

/-!
# The order of the nodes

The successor is the next node in order: the first one of the subtree on the right, and
where there is none, the first node on the way up that is reached from the left.
-/

namespace LearningCode.RbTree

open RedBlack RedBlack.Context

variable {T : Rbtree} {s : Side} {c : Color} {a b : Binding} {t u l r : ColoredTree Binding}
  {ctx : Context Binding} {pre suf : List Binding} {p : Ptr}

def Below (T : Rbtree) (x p : Ptr) : Prop := ∃ path, follow T path x = some p

/-- `y` is the node of the subtree at `x` with the key furthest on the side `s`. -/
def Outermost (T : Rbtree) (s : Side) (x y : Ptr) : Prop :=
  Below T x y ∧ ∀ p, Below T x p → p = y ∨ Precedes s.flip (T.mem y).key (T.mem p).key

/-- `y` is the node with the smallest key above that of `x`, or the sentinel. -/
def Next (T : Rbtree) (x y : Ptr) : Prop :=
  (y = T.nil ∧ ∀ p, Linked T p → (T.mem p).key ≤ (T.mem x).key) ∨
  (Linked T y ∧ (T.mem x).key < (T.mem y).key ∧
    ∀ p, Linked T p → (T.mem x).key < (T.mem p).key → p = y ∨ (T.mem y).key < (T.mem p).key)

def first (nil : Ptr) : List Binding → Ptr
  | [] => nil
  | b :: _ => b.ptr

-- ---------------------------------------------------------------------------
-- The ends of a subtree
-- ---------------------------------------------------------------------------

theorem At.below_iff (ht : At T ctx t) : Below T (top T.nil t) p ↔ p ∈ ptrs t.inorder :=
  ht.exists_follow_iff

theorem sorted_plug_end (hside : ∀ f ∈ ctx, f.side = s)
    (hs : Sorted (plug ctx (.join s c b .leaf u)).inorder) :
    ∀ a ∈ (plug ctx (.join s c b .leaf u)).inorder, a = b ∨ Precedes s.flip b.key a.key := by
  intro a ha
  rw [inorder_plug] at hs ha
  cases s with
  | left =>
    rw [before_of_left hside] at hs ha
    obtain rfl | ha := List.mem_cons.mp ha
    · exact .inl rfl
    · exact .inr ((List.pairwise_cons.mp hs).1 a ha)
  | right =>
    rw [after_of_right hside, List.append_nil] at hs ha
    rw [ColoredTree.join, ColoredTree.inorder, ColoredTree.inorder, ← List.append_assoc] at hs ha
    obtain ha | ha := List.mem_append.mp ha
    · exact .inr ((List.pairwise_append.mp hs).2.2 a ha b List.mem_cons_self)
    · exact .inl (List.mem_singleton.mp ha)

theorem At.outermost (ht : At T ctx t) (hne : t ≠ .leaf) (hs : Sorted t.inorder) (s : Side) :
    ∃ y, Returns (outermost s T · (top T.nil t)) y ∧ Outermost T s (top T.nil t) y := by
  obtain ⟨ctx', c, b, u, rfl, hside, hret⟩ := outermost_spec (s := s) ht hne
  have hb : b ∈ (plug ctx' (.join s c b .leaf u)).inorder := by
    rw [inorder_plug]
    have hjoin := (ColoredTree.inorder_join_perm s c b .leaf u).mem_iff.mpr List.mem_cons_self
    exact List.mem_append_left _ (List.mem_append_right _ hjoin)
  refine ⟨b.ptr, hret, ht.below_iff.mpr (List.mem_map_of_mem hb), fun p hp => ?_⟩
  obtain ⟨a, ha, rfl⟩ := List.mem_map.mp (ht.below_iff.mp hp)
  rw [(ht.here.binding ha).1, (ht.here.binding hb).1]
  exact (sorted_plug_end hside hs a ha).imp_left (congrArg Binding.ptr)

-- ---------------------------------------------------------------------------
-- The successor
-- ---------------------------------------------------------------------------

/-- Frame by frame: below a node's right the climb goes on, below its left it ends. -/
theorem climb_spec (ht : At T ctx t) (hne : t ≠ .leaf) :
    Returns (climb T · (top T.nil t) (up T.nil ctx)) (first T.nil (after ctx)) := by
  induction ctx generalizing t with
  | nil => exact .last fun turns => if_neg fun h => h.1 rfl
  | cons f ctx ih =>
    obtain ⟨s, c, a, u⟩ := f
    have hnil : a.ptr ≠ T.nil := ht.out.ne_nil
    cases s with
    | left =>
      have hright : T.child .right a.ptr = top T.nil u := ht.child_flip_frame
      refine .last fun turns => ?_
      rw [up, climb, hright, if_neg fun h => ht.top_ne_sibling (.inl hne) h.2]
      rfl
    | right =>
      have hright : T.child .right a.ptr = top T.nil t := ht.child_frame
      have hrest := ih ht.out ColoredTree.join_ne_leaf
      rw [top_join] at hrest
      refine hrest.turn fun turns => ?_
      rw [up, climb, hright, if_pos ⟨hnil, rfl⟩, ht.parent_frame]

theorem rbtreeSuccessor_spec (ht : At T ctx (.join .right c b r l)) :
    Returns (rbtreeSuccessor · T b.ptr) (first T.nil (r.inorder ++ after ctx)) := by
  have hright : T.child .right b.ptr = top T.nil r := by rw [Rbtree.child, ht.cell, child_cell]
  have hparent : T.parent b.ptr = up T.nil ctx := by rw [Rbtree.parent, ht.cell, parent_cell]
  by_cases hr : r = .leaf
  · subst hr
    have hclimb := climb_spec ht ColoredTree.join_ne_leaf
    rw [top_join] at hclimb
    refine hclimb.congr fun turns => ?_
    rw [rbtreeSuccessor, hright, hparent, if_neg fun h => h rfl]
  · have hne : top T.nil r ≠ T.nil := mt (top_eq_nil_iff ht.into.here).mp hr
    obtain ⟨ctx', c', b', u, rfl, hside, hmini⟩ := outermost_spec (s := .left) ht.into hr
    have hfirst : first T.nil ((plug ctx' (.join .left c' b' .leaf u)).inorder ++ after ctx) =
        b'.ptr := by
      rw [inorder_plug, before_of_left hside]
      rfl
    rw [hfirst]
    refine hmini.congr fun turns => ?_
    rw [rbtreeSuccessor, hright, if_pos hne, rbtreeMini]

theorem sorted_append_cons (hs : Sorted (pre ++ b :: suf)) (ha : a ∈ pre ++ b :: suf)
    (hlt : b.key < a.key) : a ∈ suf := by
  obtain ⟨-, -, hpre⟩ := List.pairwise_append.mp hs
  obtain ha | ha := List.mem_append.mp ha
  · exact absurd (hpre a ha b List.mem_cons_self) (Int.not_lt.mpr (Int.le_of_lt hlt))
  · obtain rfl | ha := List.mem_cons.mp ha
    · exact absurd hlt (Int.lt_irrefl _)
    · exact ha

theorem next_first (ht : At T [] t) (horder : t.inorder = pre ++ b :: suf) (hs : Sorted t.inorder) :
    Next T b.ptr (first T.nil suf) := by
  have hkey : ∀ a ∈ t.inorder, (T.mem a.ptr).key = a.key := fun a ha => (ht.here.binding ha).1
  have hlinked : ∀ p, Linked T p → ∃ a ∈ t.inorder, a.ptr = p :=
    fun p hp => List.mem_map.mp (ht.linked_iff.mp hp)
  have hb : b ∈ t.inorder := by simp [horder]
  rw [Next, hkey b hb]
  cases suf with
  | nil =>
    refine .inl ⟨rfl, fun p hp => ?_⟩
    obtain ⟨a, ha, rfl⟩ := hlinked p hp
    rw [hkey a ha]
    rw [horder] at hs ha
    exact Int.not_lt.mp fun hlt => List.not_mem_nil (sorted_append_cons hs ha hlt)
  | cons d suf =>
    have hd : d ∈ t.inorder := by simp [horder]
    rw [first, hkey d hd]
    rw [horder] at hs
    obtain ⟨hbehind, hsuf⟩ := List.pairwise_cons.mp (List.pairwise_append.mp hs).2.1
    refine .inr ⟨ht.linked_iff.mpr (List.mem_map_of_mem hd), hbehind d List.mem_cons_self,
      fun p hp hlt => ?_⟩
    obtain ⟨a, ha, rfl⟩ := hlinked p hp
    rw [hkey a ha] at hlt ⊢
    obtain rfl | ha := List.mem_cons.mp (sorted_append_cons hs (horder ▸ ha) hlt)
    · exact .inl rfl
    · exact .inr ((List.pairwise_cons.mp hsuf).1 a ha)

/-- In any tree the calls lead to, and from any of its nodes: the successor is the next node by
key or the sentinel, and the ends of the subtree are its least and its greatest node. -/
theorem reach_successor (h : calls.Reach Transition.free T) (x : Ptr) (hx : Linked T x) :
    (∃ y, Returns (rbtreeSuccessor · T x) y ∧ Next T x y) ∧
    (∃ y, Returns (rbtreeMini · T x) y ∧ Outermost T .left x y) ∧
    ∃ y, Returns (rbtreeMaxi · T x) y ∧ Outermost T .right x y := by
  obtain ⟨t, ht, hs⟩ := reach_tree h
  obtain ⟨ctx, c, b, r, l, hat, rfl, rfl⟩ := ht.stored.exists_node hx .right
  have horder : (plug ctx (.join .right c b r l)).inorder =
      before ctx ++ l.inorder ++ b :: (r.inorder ++ after ctx) := by
    rw [inorder_plug]
    simp [ColoredTree.join, ColoredTree.inorder]
  have hends := hat.outermost ColoredTree.join_ne_leaf (sorted_of_plug hs)
  simp only [top_join] at hends
  exact ⟨⟨_, rbtreeSuccessor_spec hat, next_first ht.stored horder hs⟩, hends .left, hends .right⟩

theorem reach_successor_two : ∃ T, calls.Reach Transition.free T ∧ T.root = 1 ∧
    (∃ y, Returns (rbtreeSuccessor · T 1) y ∧ Next T 1 y) ∧
    (∃ y, Returns (rbtreeMini · T 1) y ∧ Outermost T .left 1 y) ∧
    ∃ y, Returns (rbtreeMaxi · T 1) y ∧ Outermost T .right 1 y := by
  obtain ⟨T, hrun, hroot, -, -, hlinked⟩ := reach_two
  exact ⟨T, hrun, hroot, reach_successor hrun 1 hlinked⟩

end LearningCode.RbTree
