import LearningCode.Lib.Transition
import LearningCode.RbTree.Delete
import LearningCode.RbTree.Insert

/-!
# Whole runs of the red-black tree

Any calls from the empty tree on. Between the calls the program does what it
likes with the nodes that are not in the tree.
-/

namespace LearningCode.RbTree

open RedBlack RedBlack.Context

variable {T T' : Rbtree} {s : Side} {c : Color} {b z : Binding} {t u l r : ColoredTree Binding}
  {ctx : Context Binding} {path : List Side} {bs bs' : List Binding} {p q y : Ptr} {op : Op}

def follow (T : Rbtree) : List Side → Ptr → Option Ptr
  | [], p => if p = T.nil then none else some p
  | s :: path, p => if p = T.nil then none else follow T path (T.child s p)

def Linked (T : Rbtree) (p : Ptr) : Prop := ∃ path, follow T path T.root = some p

inductive Op
  | write (p : Ptr) (n : RbtreeNode)
  | insert (z : Ptr)
  | delete (z : Ptr)

def Legal (T : Rbtree) : Op → Prop
  | .write p _ => p ≠ T.nil ∧ ¬Linked T p
  | .insert z => z ≠ T.nil ∧ ¬Linked T z
  | .delete z => Linked T z

def Call (T : Rbtree) (op : Op) (T' : Rbtree) : Prop :=
  match op with
  | .write p n => T' = T.modify p fun _ => n
  | .insert z => Returns (rbtreeInsert · T z) T'
  | .delete z => ∃ y, Returns (rbtreeDelete · T z) (T', y)

def calls : Transition Rbtree Op where
  init T := T.root = T.nil ∧ T.color T.nil = .black
  step T op T' := Legal T op ∧ Call T op T'

-- ---------------------------------------------------------------------------
-- Paths
-- ---------------------------------------------------------------------------

theorem At.follow (ht : At T ctx t) (h : follow T path (top T.nil t) = some p) :
    ∃ ctx' c b l r, plug ctx' (.node c b l r) = t ∧ b.ptr = p := by
  induction path generalizing ctx t with
  | nil =>
    rw [RbTree.follow] at h
    split at h
    · cases h
    · cases t with
      | leaf => exact absurd rfl ‹_›
      | node c b l r => exact ⟨[], c, b, l, r, rfl, Option.some.inj h⟩
  | cons s path ih =>
    rw [RbTree.follow] at h
    split at h
    · cases h
    · have hne : t ≠ .leaf := by rintro rfl; exact absurd rfl ‹_›
      obtain ⟨c, b, u, v, rfl⟩ := ColoredTree.exists_join s hne
      have hchild : T.child s b.ptr = top T.nil u := by rw [Rbtree.child, ht.cell, child_cell]
      rw [top_join, hchild] at h
      obtain ⟨ctx', c', b', l, r, rfl, hp⟩ := ih ht.into h
      exact ⟨ctx' ++ [⟨s, c, b, v⟩], c', b', l, r, plug_append _ _ _, hp⟩

theorem At.follow_mem (ht : At T ctx t) (h : RbTree.follow T path (top T.nil t) = some p) :
    p ∈ ptrs t.inorder := by
  obtain ⟨ctx', c, b, l, r, rfl, rfl⟩ := ht.follow h
  simp [inorder_plug, ColoredTree.inorder]

theorem At.follow_cons (ht : At T ctx (.join s c b t u)) :
    RbTree.follow T (s :: path) b.ptr = RbTree.follow T path (top T.nil t) := by
  rw [RbTree.follow, if_neg ht.ne_nil, Rbtree.child, ht.cell, child_cell]

theorem At.follow_nil (ht : At T ctx (.join s c b t u)) :
    RbTree.follow T [] b.ptr = some b.ptr := if_neg ht.ne_nil

theorem At.existsUnique_cons (ht : At T ctx (.join s c b t u)) (hp : p ∈ ptrs t.inorder)
    (h : ∃! path, RbTree.follow T path (top T.nil t) = some p) :
    ∃! path, RbTree.follow T path b.ptr = some p := by
  obtain ⟨path, hpath, huniq⟩ := h
  refine ⟨s :: path, ht.follow_cons.trans hpath, fun path' hpath' => ?_⟩
  obtain ⟨-, hbt, -⟩ := ht.notMem
  cases path' with
  | nil =>
    cases ht.follow_nil.symm.trans hpath'
    exact absurd hp hbt
  | cons s' path' =>
    obtain rfl | rfl := Side.eq_or_eq_flip s s'
    · rw [huniq path' (ht.follow_cons.symm.trans hpath')]
    · rw [← ColoredTree.join_flip] at ht
      have hmem := ht.into.follow_mem (ht.follow_cons.symm.trans hpath')
      refine absurd (mem_ptrs_items_cons.mpr (.inr (.inl hp))) (ht.into.disjoint hmem)

theorem At.existsUnique_path (ht : At T ctx t) (hp : p ∈ ptrs t.inorder) :
    ∃! path, RbTree.follow T path (top T.nil t) = some p := by
  induction t generalizing ctx with
  | leaf => cases hp
  | node c b l r ihl ihr =>
    have hleft : At T ctx (.join .left c b l r) := ht
    have hright : At T ctx (.join .right c b r l) := ht
    obtain rfl | hp | hp := (mem_ptrs_join (s := .left)).mp hp
    · refine ⟨[], hleft.follow_nil, fun path hpath => ?_⟩
      obtain ⟨-, hbl, hbr⟩ := hleft.notMem
      cases path with
      | nil => rfl
      | cons s path =>
        cases s with
        | left => exact absurd (hleft.into.follow_mem (hleft.follow_cons.symm.trans hpath)) hbl
        | right => exact absurd (hright.into.follow_mem (hright.follow_cons.symm.trans hpath)) hbr
    · exact hleft.existsUnique_cons hp (ihl hleft.into hp)
    · exact hright.existsUnique_cons hp (ihr hright.into hp)

theorem At.exists_follow_iff (ht : At T ctx t) :
    (∃ path, RbTree.follow T path (top T.nil t) = some p) ↔ p ∈ ptrs t.inorder := by
  constructor
  · rintro ⟨_, h⟩
    exact ht.follow_mem h
  · intro hp
    exact (ht.existsUnique_path hp).exists

theorem At.linked_iff (ht : At T [] t) : Linked T p ↔ p ∈ ptrs t.inorder := by
  rw [Linked, ht.root_eq]
  exact ht.exists_follow_iff

-- ---------------------------------------------------------------------------
-- What a call does
-- ---------------------------------------------------------------------------

inductive Effect (T : Rbtree) : Op → List Binding → List Binding → Prop
  | write (p : Ptr) (n : RbtreeNode) (bs : List Binding) : Effect T (.write p n) bs bs
  | present (z : Ptr) (bs : List Binding) : (T.mem z).key ∈ keys bs → Effect T (.insert z) bs bs
  | absent (z : Ptr) (pre suf : List Binding) : (T.mem z).key ∉ keys (pre ++ suf) →
    Effect T (.insert z) (pre ++ suf) (pre ++ ⟨z, (T.mem z).key, (T.mem z).value⟩ :: suf)
  | delete (b : Binding) (bs bs' : List Binding) (y : Ptr) : Removed b bs y bs' →
    Effect T (.delete b.ptr) bs bs'

theorem RedBlackTree.write (ht : RedBlackTree T t) (hp : p ≠ T.nil) (hout : p ∉ ptrs t.inorder)
    (n : RbtreeNode) : RedBlackTree (T.modify p fun _ => n) t := by
  have hsame : SameNil T (T.modify p fun _ => n) := sameNil_modify hp
  refine ⟨⟨?_, ht.stored.around, ht.stored.nodup⟩, hsame.black ht.nil_black, ht.root_black,
    ht.balanced⟩
  exact ht.stored.here.congr fun q hq => Rbtree.modify_ne (ne_of_mem_of_not_mem hq hout)

theorem Removed.sublist (h : Removed z bs y bs') : (keys bs').Sublist (keys bs) := by
  cases h with
  | self pre suf => exact ((List.sublist_cons_self z suf).append_left pre).map _
  | next pre suf b =>
    simp only [keys, List.map_append, List.map_cons]
    exact (List.sublist_cons_self z.key _).append_left _

theorem sorted_iff : Sorted bs ↔ (keys bs).Pairwise (· < ·) := List.pairwise_map.symm

theorem Removed.sorted (h : Removed z bs y bs') (hs : Sorted bs) : Sorted bs' :=
  sorted_iff.mpr ((sorted_iff.mp hs).sublist h.sublist)

theorem RedBlackTree.call (ht : RedBlackTree T t) (hs : Sorted t.inorder) (hl : Legal T op) :
    ∃ T' t', Call T op T' ∧ RedBlackTree T' t' ∧ Sorted t'.inorder ∧
      Effect T op t.inorder t'.inorder := by
  cases op with
  | write p n =>
    exact ⟨_, t, rfl, ht.write hl.1 (fun h => hl.2 (ht.stored.linked_iff.mpr h)) n, hs, .write ..⟩
  | insert z =>
    have hout : z ∉ ptrs t.inorder := fun h => hl.2 (ht.stored.linked_iff.mpr h)
    obtain ⟨hmem, hret⟩ | ⟨hmem, T', t', pre, suf, hret, -, ht', h, h', hs'⟩ :=
      rbtreeInsert_spec ht hs hl.1 hout
    · exact ⟨T, t, hret, ht, hs, .present _ _ hmem⟩
    · refine ⟨T', t', hret, ht', hs', ?_⟩
      rw [h] at hmem ⊢
      rw [h']
      exact .absent _ _ _ hmem
  | delete z =>
    obtain ⟨b, hb, rfl⟩ := List.mem_map.mp (ht.stored.linked_iff.mp hl)
    obtain ⟨T', t', y, hret, -, ht', hrem⟩ := rbtreeDelete_spec ht hb
    exact ⟨T', t', ⟨y, hret⟩, ht', hrem.sorted hs, .delete _ _ _ _ hrem⟩

theorem Call.unique {T'' : Rbtree} (h : Call T op T') (h' : Call T op T'') : T' = T'' := by
  cases op with
  | write p n => exact Eq.trans h (Eq.symm h')
  | insert z => exact Returns.unique h h'
  | delete z =>
    obtain ⟨y, h⟩ := h
    obtain ⟨y', h'⟩ := h'
    exact congrArg Prod.fst (h.unique h')

theorem init_redBlack (h : calls.init T) : RedBlackTree T .leaf :=
  ⟨⟨trivial, h.1, List.nodup_nil⟩, h.2, rfl, 0, rfl⟩

theorem reach_tree (h : calls.Reach Transition.free T) :
    ∃ t, RedBlackTree T t ∧ Sorted t.inorder := by
  refine h.invariant (P := fun T => ∃ t, RedBlackTree T t ∧ Sorted t.inorder) ?_ ?_
  · exact fun T hinit => ⟨.leaf, init_redBlack hinit, List.Pairwise.nil⟩
  · rintro T op T' ⟨t, ht, hs⟩ - ⟨hlegal, hcall⟩
    obtain ⟨T'', t', hcall', ht', hs', -⟩ := ht.call hs hlegal
    cases hcall.unique hcall'
    exact ⟨t', ht', hs'⟩

-- ---------------------------------------------------------------------------
-- The invariant in terms of the memory
-- ---------------------------------------------------------------------------

def blacksToNil (T : Rbtree) : List Side → Ptr → Option Nat
  | [], p => if p = T.nil then some 0 else none
  | s :: path, p =>
    if p = T.nil then none
    else (blacksToNil T path (T.child s p)).map (· + if T.color p = .black then 1 else 0)

def Precedes : Side → Int → Int → Prop
  | .left, key, key' => key' < key
  | .right, key, key' => key < key'

structure Invariant (T : Rbtree) : Prop where
  ordered : ∀ p s path q, Linked T p → follow T path (T.child s p) = some q →
    Precedes s (T.mem p).key (T.mem q).key
  root_black : T.color T.root = .black
  nil_black : T.color T.nil = .black
  red_child : ∀ p s, Linked T p → T.color p = .red → T.color (T.child s p) = .black
  blacks : ∃ n, ∀ path k, blacksToNil T path T.root = some k → k = n
  parent_root : T.root ≠ T.nil → T.parent T.root = T.nil
  parent : ∀ p s, Linked T p → T.child s p ≠ T.nil → T.parent (T.child s p) = p

theorem At.blacksToNil {n k : Nat} (ht : At T ctx t) (hb : t.Balanced n)
    (h : RbTree.blacksToNil T path (top T.nil t) = some k) : k = n := by
  induction path generalizing ctx t n k with
  | nil =>
    rw [RbTree.blacksToNil] at h
    split at h
    · cases (top_eq_nil_iff ht.here).mp ‹_›
      cases h
      exact hb.symm
    · cases h
  | cons s path ih =>
    rw [RbTree.blacksToNil] at h
    split at h
    · cases h
    · have hne : t ≠ .leaf := by rintro rfl; exact absurd rfl ‹_›
      obtain ⟨c, b, u, v, rfl⟩ := ColoredTree.exists_join s hne
      have hchild : T.child s b.ptr = top T.nil u := by rw [Rbtree.child, ht.cell, child_cell]
      have hcolor : T.color b.ptr = c := by rw [Rbtree.color, ht.cell, color_cell]
      rw [top_join, hchild, hcolor] at h
      obtain ⟨k', hk', rfl⟩ := Option.map_eq_some_iff.mp h
      cases c with
      | red => exact ih ht.into (ColoredTree.balanced_join_red.mp hb).2.1 hk'
      | black =>
        cases n with
        | zero => exact absurd hb ColoredTree.not_balanced_join_black
        | succ n => exact congrArg (· + 1) (ih ht.into (ColoredTree.balanced_join_black.mp hb).1 hk')

theorem Stored.binding (h : Stored T.mem T.nil p t) (hb : b ∈ t.inorder) :
    (T.mem b.ptr).key = b.key ∧ (T.mem b.ptr).value = b.value := by
  induction t generalizing p with
  | leaf => cases hb
  | node c b' l r ihl ihr =>
    obtain ⟨⟨-, hcell⟩, hl, hr⟩ := h
    obtain hb | hb := List.mem_append.mp hb
    · exact ihl hl hb
    · obtain rfl | hb := List.mem_cons.mp hb
      · rw [hcell]
        exact ⟨key_cell, value_cell⟩
      · exact ihr hr hb

theorem Stored.key (h : Stored T.mem T.nil p t) (hq : q ∈ ptrs t.inorder) :
    (T.mem q).key ∈ keys t.inorder := by
  obtain ⟨b, hb, rfl⟩ := List.mem_map.mp hq
  rw [(h.binding hb).1]
  exact List.mem_map_of_mem hb

theorem At.exists_node (ht : At T [] t) (hp : Linked T p) (s : Side) :
    ∃ ctx c b u v, At T ctx (.join s c b u v) ∧ plug ctx (.join s c b u v) = t ∧ b.ptr = p := by
  obtain ⟨path, hpath⟩ := hp
  rw [ht.root_eq] at hpath
  obtain ⟨ctx, c, b, l, r, rfl, hb⟩ := ht.follow hpath
  cases s with
  | left => exact ⟨ctx, c, b, l, r, ht.focus, rfl, hb⟩
  | right => exact ⟨ctx, c, b, r, l, ht.focus, rfl, hb⟩

theorem sorted_of_plug (hs : Sorted (plug ctx t).inorder) : Sorted t.inorder := by
  rw [inorder_plug] at hs
  exact hs.sublist ((List.sublist_append_right _ _).trans (List.sublist_append_left _ _))

theorem sorted_join (hs : Sorted (ColoredTree.join s c b t u).inorder) :
    ∀ k ∈ keys t.inorder, Precedes s b.key k := by
  intro k hk
  obtain ⟨a, ha, rfl⟩ := List.mem_map.mp hk
  cases s with
  | left => exact (sorted_node.mp hs).2.2.1 a ha
  | right => exact (sorted_node.mp hs).2.2.2.1 a ha

theorem RedBlackTree.invariant (ht : RedBlackTree T t) (hs : Sorted t.inorder) : Invariant T := by
  have hroot := ht.stored.root_eq
  obtain ⟨n, hb⟩ := ht.balanced
  refine ⟨fun p s path q hp hq => ?_, ?_, ht.nil_black, fun p s hp hred => ?_, ⟨n, ?_⟩, fun hne => ?_,
    fun p s hp hne => ?_⟩
  · obtain ⟨ctx, c, b, u, v, hat, rfl, rfl⟩ := ht.stored.exists_node hp s
    rw [Rbtree.child, hat.cell, child_cell] at hq
    rw [hat.cell, key_cell]
    exact sorted_join (sorted_of_plug hs) _ (hat.into.here.key (hat.into.follow_mem hq))
  · rw [hroot]
    exact (ht.stored.color_top ht.nil_black).trans ht.root_black
  · obtain ⟨ctx, c, b, u, v, hat, rfl, rfl⟩ := ht.stored.exists_node hp s
    obtain ⟨m, -, hm, -⟩ := fits_of_plug hb ht.root_black
    rw [Rbtree.color, hat.cell, color_cell] at hred
    subst hred
    rw [Rbtree.child, hat.cell, child_cell]
    exact (hat.into.color_top ht.nil_black).trans (ColoredTree.balanced_join_red.mp hm).1.1
  · rw [hroot]
    exact fun path k h => ht.stored.blacksToNil hb h
  · rw [hroot] at hne ⊢
    refine ht.stored.parent_top fun hleaf => absurd ?_ hne
    rw [hleaf]
    rfl
  · obtain ⟨ctx, c, b, u, v, hat, rfl, rfl⟩ := ht.stored.exists_node hp s
    rw [Rbtree.child, hat.cell, child_cell] at hne ⊢
    exact hat.into.parent_eq fun hleaf => hne ((top_eq_nil_iff hat.into.here).mpr hleaf)

/-- After any calls the tree is a red-black tree, and the next call returns. -/
theorem reach_redBlack (h : calls.Reach Transition.free T) :
    Invariant T ∧ ∀ op, Legal T op → ∃ T', Call T op T' := by
  obtain ⟨t, ht, hs⟩ := reach_tree h
  refine ⟨ht.invariant hs, fun op hl => ?_⟩
  obtain ⟨T', -, hcall, -⟩ := ht.call hs hl
  exact ⟨T', hcall⟩

def blank : Rbtree := ⟨fun p => ⟨.black, 7, 7, 7, p, 0⟩, 0, 0⟩

theorem insert_two : ∃ T₁ T₂, (∀ k, rbtreeInsert (k + 8) blank 1 = some T₁) ∧
    At T₁ [] (.node .black ⟨1, 1, 0⟩ .leaf .leaf) ∧
    (∀ k, rbtreeInsert (k + 8) T₁ 2 = some T₂) ∧ T₂.root = 1 ∧ T₂.child .right 1 = 2 ∧
    T₂.color 2 = .red ∧ follow T₂ [] T₂.root = some 1 :=
  ⟨_, _, fun _ => rfl, ⟨⟨⟨Nat.one_ne_zero, rfl⟩, trivial, trivial⟩, rfl, by decide⟩,
    fun _ => rfl, rfl, rfl, rfl, rfl⟩

theorem reach_two : ∃ T, calls.Reach Transition.free T ∧ T.root = 1 ∧ T.child .right 1 = 2 ∧
    T.color 2 = .red ∧ Linked T 1 := by
  obtain ⟨T₁, T₂, hone, htree, htwo, hroot, hchild, hcolor, hlinked⟩ := insert_two
  have hinit : calls.init blank := ⟨rfl, rfl⟩
  have hrun₁ : calls.Reach Transition.free T₁ :=
    .step (i := .insert 1) (.init hinit) trivial
      ⟨⟨Nat.one_ne_zero, fun h => List.not_mem_nil ((init_redBlack hinit).stored.linked_iff.mp h)⟩,
        .of_add 8 hone⟩
  have hnil : T₁.nil = 0 := by cases hone 0; rfl
  refine ⟨T₂, .step (i := .insert 2) hrun₁ trivial ⟨⟨?_, fun h => ?_⟩, .of_add 8 htwo⟩, hroot, hchild,
    hcolor, [], hlinked⟩
  · rw [hnil]
    decide
  · exact absurd (htree.linked_iff.mp h) (by decide)

theorem reach_redBlack_two : ∃ T, calls.Reach Transition.free T ∧ T.root = 1 ∧
    T.child .right 1 = 2 ∧ T.color 2 = .red ∧ Invariant T ∧ ∃ T', Call T (.delete 1) T' := by
  obtain ⟨T, hrun, hroot, hchild, hcolor, hlinked⟩ := reach_two
  exact ⟨T, hrun, hroot, hchild, hcolor, (reach_redBlack hrun).1,
    (reach_redBlack hrun).2 (.delete 1) hlinked⟩

end LearningCode.RbTree
