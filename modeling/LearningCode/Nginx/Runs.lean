import LearningCode.Lib.Transition
import LearningCode.Nginx.Delete
import LearningCode.Nginx.Insert

/-!
# Whole runs of the tree of nginx

Any calls from the empty tree on, with any function that compares keys. Between
the calls the program does what it likes with the nodes that are not in the tree.
-/

namespace LearningCode.Nginx

open RedBlack RedBlack.Context
open RbTree (Rbtree RbtreeNode Binding At Stored top up ptrs RedBlackTree)

variable {T T' : NgxRbtree} {s : Side} {c : Color} {p q z : Ptr} {b : Binding}
  {t u v : ColoredTree Binding} {ctx : Context Binding} {bs bs' : List Binding}
  {less : BitVec 32 → BitVec 32 → Bool} {k : BitVec 32} {op : Op}

def Linked (T : NgxRbtree) (p : Ptr) : Prop := RbTree.Linked (view T) p

inductive Op
  | write (p : Ptr) (n : NgxRbtreeNode)
  | insert (node : Ptr)
  | delete (node : Ptr)

def Legal (T : NgxRbtree) : Op → Prop
  | .write p _ => p ≠ T.sentinel ∧ ¬Linked T p
  | .insert node => node ≠ T.sentinel ∧ node ≠ NULL ∧ ¬Linked T node
  | .delete node => Linked T node

def Call (T : NgxRbtree) (op : Op) (T' : NgxRbtree) : Prop :=
  match op with
  | .write p n => T' = T.modify p fun _ => n
  | .insert node => Returns (ngxRbtreeInsert · T node) T'
  | .delete node => Returns (ngxRbtreeDelete · T node) T'

def calls (less : BitVec 32 → BitVec 32 → Bool) : Transition NgxRbtree Op where
  init T := ∃ mem s, T = ngxRbtreeInit mem s (insertBy less)
  step T op T' := Legal T op ∧ Call T op T'

structure Kept (less : BitVec 32 → BitVec 32 → Bool) (T : NgxRbtree) (t : ColoredTree Binding) :
    Prop where
  tree : RedBlackTree (view T) t
  compares : T.insert = insertBy less
  no_null : NULL ∉ ptrs t.inorder

def Effect (less : BitVec 32 → BitVec 32 → Bool) (T : NgxRbtree) :
    Op → List Binding → List Binding → Prop
  | .write _ _, bs, bs' => bs' = bs
  | .insert node, bs, bs' => Inserted less T.mem node bs bs'
  | .delete node, bs, bs' => ∃ b, b.ptr = node ∧ Erased b bs bs'

theorem linked_iff (ht : At (view T) [] t) : Linked T p ↔ p ∈ ptrs t.inorder := ht.linked_iff

theorem Inserted.mem_ptrs {mem : Mem} (h : Inserted less mem z bs bs') :
    p ∈ ptrs bs' ↔ p = z ∨ p ∈ ptrs bs := by
  obtain ⟨ctx, rfl, -, rfl⟩ := h
  rw [inorder_plug]
  simp only [ptrs, ColoredTree.inorder, List.append_nil, List.map_append, List.map_cons,
    List.mem_append, List.mem_cons, item]
  exact or_left_comm

theorem Erased.mem_ptrs (h : Erased b bs bs') (hp : p ∈ ptrs bs') : p ∈ ptrs bs := by
  obtain ⟨pre, suf, rfl, rfl⟩ := h
  have hsub : (pre ++ suf).Sublist (pre ++ b :: suf) := (List.sublist_cons_self b suf).append_left pre
  exact (hsub.map Binding.ptr).subset hp

theorem Kept.write (ht : Kept less T t) (hp : p ≠ T.sentinel) (hout : p ∉ ptrs t.inorder)
    (n : NgxRbtreeNode) : Kept less (T.modify p fun _ => n) t := by
  have hmem : ∀ q, q ≠ p → (view (T.modify p fun _ => n)).mem q = (view T).mem q := by
    intro q hq
    simp only [view, NgxRbtree.parent, NgxRbtree.modify_ne hq]
    rfl
  refine ⟨⟨at_congr ht.tree.stored rfl rfl fun q hq => hmem q (ne_of_mem_of_not_mem hq hout), ?_,
    ht.tree.root_black, ht.tree.balanced⟩, ht.compares, ht.no_null⟩
  exact (congrArg RbtreeNode.color (hmem _ hp.symm)).trans ht.tree.nil_black

theorem Kept.call (ht : Kept less T t) (hl : Legal T op) :
    ∃ T' t', Call T op T' ∧ T'.sentinel = T.sentinel ∧ Kept less T' t' ∧
      Effect less T op t.inorder t'.inorder := by
  cases op with
  | write p n =>
    exact ⟨_, t, rfl, rfl, ht.write hl.1 (fun h => hl.2 ((linked_iff ht.tree.stored).mpr h)) n, rfl⟩
  | insert node =>
    have hout : node ∉ ptrs t.inorder := fun h => hl.2.2 ((linked_iff ht.tree.stored).mpr h)
    obtain ⟨T', t', hret, hsent, hins, htree, ctx, hplug, hwalked, horder⟩ :=
      ngxRbtreeInsert_spec ht.compares ht.tree hl.1 hout
    have hinserted : Inserted less T.mem node t.inorder t'.inorder :=
      ⟨ctx, congrArg _ hplug, hwalked, horder⟩
    refine ⟨T', t', hret, hsent, ⟨htree, hins.trans ht.compares, fun h => ?_⟩, hinserted⟩
    exact (hinserted.mem_ptrs.mp h).elim (fun heq => hl.2.1 heq.symm) ht.no_null
  | delete node =>
    obtain ⟨b, hb, rfl⟩ := List.mem_map.mp ((linked_iff ht.tree.stored).mp hl)
    obtain ⟨l, herased, T', t', hret, hsent, hins, htree, rfl⟩ := ngxRbtreeDelete_spec ht.tree hb
    exact ⟨T', t', hret, hsent,
      ⟨htree, hins.trans ht.compares, fun h => ht.no_null (herased.mem_ptrs h)⟩, b, rfl, herased⟩

theorem Call.unique {T'' : NgxRbtree} (h : Call T op T') (h' : Call T op T'') : T' = T'' := by
  cases op with
  | write p n => exact Eq.trans h (Eq.symm h')
  | insert node => exact Returns.unique h h'
  | delete node => exact Returns.unique h h'

theorem init_kept (h : (calls less).init T) : Kept less T .leaf := by
  obtain ⟨mem, s, rfl⟩ := h
  refine ⟨⟨⟨trivial, rfl, List.nodup_nil⟩, ?_, rfl, 0, rfl⟩, rfl, List.not_mem_nil⟩
  rw [ngxRbtreeInit, view_setColor]
  exact congrArg RbtreeNode.color Rbtree.modify_self

theorem reach_kept {guard : NgxRbtree → Op → Prop} (h : (calls less).Reach guard T) :
    ∃ t, Kept less T t := by
  refine h.invariant (P := fun T => ∃ t, Kept less T t) (fun T hinit => ⟨.leaf, init_kept hinit⟩) ?_
  rintro T op T' ⟨t, ht⟩ - ⟨hlegal, hcall⟩
  obtain ⟨T'', t', hcall', -, ht', -⟩ := ht.call hlegal
  cases hcall.unique hcall'
  exact ⟨t', ht'⟩

-- ---------------------------------------------------------------------------
-- The invariant in terms of the memory
-- ---------------------------------------------------------------------------

/-- Nothing is said of the parent of the root. -/
structure Invariant (T : NgxRbtree) : Prop where
  root_black : T.color T.root = .black
  sentinel_black : T.color T.sentinel = .black
  red_child : ∀ p s, Linked T p → T.color p = .red → T.color (T.child s p) = .black
  blacks : ∃ n, ∀ path k, RbTree.blacksToNil (view T) path T.root = some k → k = n
  parent : ∀ p s, Linked T p → T.child s p ≠ T.sentinel → T.parent (T.child s p) = p

theorem Kept.invariant (h : Kept less T t) : Invariant T := by
  have ht := h.tree
  have hroot : T.root = top T.sentinel t := ht.stored.root_eq
  obtain ⟨n, hb⟩ := ht.balanced
  have hnode : ∀ p s, Linked T p → ∃ ctx c b u v, At (view T) ctx (.join s c b u v) ∧
      plug ctx (.join s c b u v) = t ∧ b.ptr = p ∧ T.child s p = top T.sentinel u ∧
      T.color p = c := by
    intro p s hp
    obtain ⟨ctx, c, b, u, v, hat, hplug, rfl⟩ := ht.stored.exists_node hp s
    refine ⟨ctx, c, b, u, v, hat, hplug, rfl, ?_, ?_⟩
    · rw [← child_view, Rbtree.child, hat.cell, RbTree.child_cell]
      rfl
    · rw [← color_view, Rbtree.color, hat.cell, RbTree.color_cell]
  refine ⟨?_, ht.nil_black, fun p s hp hred => ?_, ⟨n, fun path k hk => ?_⟩, fun p s hp hne => ?_⟩
  · rw [hroot]
    exact (ht.stored.color_top ht.nil_black).trans ht.root_black
  · obtain ⟨ctx, c, b, u, v, hat, rfl, rfl, hchild, hcolor⟩ := hnode p s hp
    obtain ⟨m, -, hm, -⟩ := fits_of_plug hb ht.root_black
    obtain rfl : Color.red = c := hred.symm.trans hcolor
    rw [hchild]
    exact (hat.into.color_top ht.nil_black).trans (ColoredTree.balanced_join_red.mp hm).1.1
  · rw [hroot] at hk
    exact ht.stored.blacksToNil hb hk
  · obtain ⟨ctx, c, b, u, v, hat, rfl, rfl, hchild, -⟩ := hnode p s hp
    rw [hchild] at hne ⊢
    exact parent_top hat.into fun hleaf => hne ((RbTree.top_eq_nil_iff hat.into.here).mpr hleaf)

/-- After any calls the tree is a red-black tree, and the next call returns. -/
theorem timers_redBlack (h : (calls less).Reach Transition.free T) :
    Invariant T ∧ ∀ op, Legal T op → ∃ T', Call T op T' := by
  obtain ⟨t, ht⟩ := reach_kept h
  refine ⟨ht.invariant, fun op hl => ?_⟩
  obtain ⟨T', -, hcall, -⟩ := ht.call hl
  exact ⟨T', hcall⟩

def blank : NgxRbtree :=
  ngxRbtreeInit (fun p => ⟨BitVec.ofNat 32 p, 7, 7, 7, .black⟩) 100 ngxRbtreeInsertValue

theorem insert_two : ∃ T₁ T₂, (∀ k, ngxRbtreeInsert (k + 8) blank 1 = some T₁) ∧
    (∀ k, ngxRbtreeInsert (k + 8) T₁ 2 = some T₂) ∧ T₁.sentinel = 100 ∧ T₂.root = 1 ∧
    T₂.child .right 1 = 2 ∧ T₂.color 2 = .red :=
  ⟨_, _, fun _ => rfl, fun _ => rfl, rfl, rfl, rfl, rfl⟩

theorem reach_two {guard : NgxRbtree → Op → Prop} (hg : ∀ T p, guard T (.insert p)) :
    ∃ T, (calls valueLess).Reach guard T ∧ T.root = 1 ∧ T.child .right 1 = 2 ∧ T.color 2 = .red := by
  obtain ⟨T₁, T₂, hone, htwo, hsent, hrest⟩ := insert_two
  have hinit : (calls valueLess).init blank := ⟨_, _, rfl⟩
  have hblank := init_kept hinit
  have hlegal : Legal blank (.insert 1) :=
    ⟨by decide, by decide, fun h => List.not_mem_nil ((linked_iff hblank.tree.stored).mp h)⟩
  have hcall : Call blank (.insert 1) T₁ := .of_add 8 hone
  obtain ⟨T', t, hcall', -, ht, heff⟩ := hblank.call hlegal
  cases hcall.unique hcall'
  refine ⟨T₂, .step (i := .insert 2) (.step (i := .insert 1) (.init hinit) (hg _ _) ⟨hlegal, hcall⟩)
    (hg _ _) ⟨⟨?_, by decide, fun h => ?_⟩, .of_add 8 htwo⟩, hrest⟩
  · rw [hsent]
    decide
  · obtain h | h := (Inserted.mem_ptrs heff).mp ((linked_iff ht.tree.stored).mp h)
    · exact absurd h (by decide)
    · exact absurd h List.not_mem_nil

theorem timers_redBlack_two : ∃ T, T.root = 1 ∧ T.child .right 1 = 2 ∧ T.color 2 = .red ∧
    Invariant T ∧ ∀ op, Legal T op → ∃ T', Call T op T' := by
  have hfree : ∀ (T : NgxRbtree) (p : Ptr), Transition.free T (Op.insert p) := fun _ _ => trivial
  obtain ⟨T, hrun, hroot, hchild, hcolor⟩ := reach_two hfree
  exact ⟨T, hroot, hchild, hcolor, timers_redBlack hrun⟩

end LearningCode.Nginx
