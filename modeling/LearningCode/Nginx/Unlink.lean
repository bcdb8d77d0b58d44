import LearningCode.Nginx.Fixup
import LearningCode.RbTree.Delete

/-!
# Unlinking

A node with two children gives its place to the next node in order, which is first
taken out of its own place further down. Until the links are complete parts of the
tree are stored on their own.
-/

namespace LearningCode.Nginx

open RedBlack RedBlack.Context
open RbTree (Rbtree RbtreeNode Binding At Around Hole Short Stored top up cell ptrs RedBlackTree)

variable {T T' : NgxRbtree} {V V' : Rbtree} {s : Side} {c c' : Color} {p q temp : Ptr}
  {x y z : Binding} {t u l r : ColoredTree Binding} {ctx ctx' : Context Binding} {f : Frame Binding}

-- ---------------------------------------------------------------------------
-- Taking out
-- ---------------------------------------------------------------------------

/-- Off the root the link from above is changed as in a rotation. -/
theorem takeOut_eq (h : p ≠ T.root) : takeOut T p q = relink .left T p q := by
  rw [takeOut, relink, if_neg h]
  rfl

def spliced (V : Rbtree) (x q : Ptr) (ctx : Context Binding) : Rbtree :=
  (RbTree.hang V x ctx).setParent x q

@[simp] theorem spliced_nil : (spliced V p q ctx).nil = V.nil := RbTree.hang_nil

theorem view_takeOut (ht : At (view T) (f :: ctx) (.join s c y t .leaf)) (q : Ptr) :
    view ((takeOut T y.ptr (top T.sentinel t)).setParent (top T.sentinel t) q) =
      spliced (view T) (top T.sentinel t) q (f :: ctx) := by
  have hroot := top_ne_root ht
  have htop := top_ne_root ht.into
  rw [RbTree.top_join] at hroot
  have hpar : (view T).parent y.ptr = up T.sentinel (f :: ctx) := by
    rw [Rbtree.parent, ht.cell, RbTree.parent_cell]
    rfl
  have hne : T.parent y.ptr ≠ T.sentinel := by
    rw [← parent_view hroot, hpar]
    exact ht.around.1.1
  have haround := ht.around
  rw [RbTree.top_join] at haround
  have hrelink : view (takeOut T y.ptr (top T.sentinel t)) =
      RbTree.hang (view T) (top T.sentinel t) (f :: ctx) := by
    rw [takeOut_eq hroot, view_relink hroot hne]
    exact RbTree.relink_eq haround hpar ht.ne_nil ht.notMem.1 .left _
  rw [view_setParent, hrelink]
  · rfl
  · rwa [takeOut_eq hroot, relink_root hroot]

structure Spliced (V : Rbtree) (q : Ptr) (ctx : Context Binding) (t : ColoredTree Binding) : Prop where
  here : Stored V.mem V.nil q t
  around : Around V.mem V.nil V.root ctx (top V.nil t)
  nodup : (ptrs (plug ctx t).inorder).Nodup
  nil_black : (V.mem V.nil).color = .black
  nil_parent : t = .leaf → (V.mem V.nil).parent = q

theorem spliced_spec (ht : At V ctx (.join s c y t .leaf)) (hnil : (V.mem V.nil).color = .black)
    (q : Ptr) : Spliced (spliced V (top V.nil t) q ctx) q ctx t ∧
      (spliced V (top V.nil t) q ctx).mem y.ptr = V.mem y.ptr := by
  obtain ⟨hyc, hyt, -⟩ := ht.notMem
  have hy_top : y.ptr ≠ top V.nil t := RbTree.top_ne_of_notMem hyt ht.ne_nil
  have htop : top V.nil t ∉ ptrs (items ctx) :=
    fun h => ht.into.top_notMem (RbTree.mem_ptrs_items_cons.mpr (.inr (.inr h)))
  have haround := ht.around
  rw [RbTree.top_join] at haround
  have hhang := haround.hang ht.nodup_around (top V.nil t)
  have hmem : ∀ r, r ∉ ptrs (items ctx) → (RbTree.hang V (top V.nil t) ctx).mem r = V.mem r :=
    fun r hr => RbTree.hang_mem hr
  have hnil₁ : (RbTree.hang V (top V.nil t) ctx).nil = V.nil := RbTree.hang_nil
  unfold spliced
  generalize RbTree.hang V (top V.nil t) ctx = W at *
  have hout : ∀ r ∈ ptrs t.inorder, r ∉ ptrs (items ctx) :=
    fun r hr => ht.disjoint (RbTree.mem_ptrs_join.mpr (.inr (.inl hr)))
  have hstored : Stored W.mem V.nil y.ptr t :=
    (RbTree.stored_join.mp ht.here).2.1.congr fun r hr => hmem r (hout r hr)
  refine ⟨⟨?_, ?_, ?_, ?_, ?_⟩, ?_⟩
  · show Stored _ W.nil q t
    rw [hnil₁]
    by_cases hleaf : t = .leaf
    · rw [hleaf]
      trivial
    · have hne : top V.nil t ≠ W.nil := by
        rw [hnil₁]
        exact mt (RbTree.top_eq_nil_iff ht.into.here).mp hleaf
      rw [← hnil₁] at hstored
      have hadopt := hstored.adopt ht.into.nodup_here (q := q)
      rw [RbTree.adopt, hnil₁] at hadopt
      rwa [if_pos (by rwa [hnil₁] at hne)] at hadopt
  · show Around _ W.nil W.root ctx (top W.nil t)
    rw [hnil₁]
    exact hhang.congr fun r hr => Rbtree.setParent_ne (ne_of_mem_of_not_mem hr htop)
  · have hsub : t.inorder.Sublist (ColoredTree.join s c y t .leaf).inorder := by
      cases s with
      | left => exact List.sublist_append_left t.inorder _
      | right => exact List.sublist_cons_self y t.inorder
    rw [ptrs, ((inorder_plug_perm ctx t).map _).nodup_iff]
    exact ht.nodup_perm.sublist ((hsub.append_left (items ctx)).map _)
  · show (W.setParent (top V.nil t) q).color W.nil = .black
    rw [Rbtree.color_setParent, hnil₁, Rbtree.color, hmem _ ht.around.ne_nil]
    exact hnil
  · rintro rfl
    show ((W.setParent V.nil q).mem W.nil).parent = q
    rw [hnil₁, Rbtree.setParent, Rbtree.modify_self]
  · rw [Rbtree.setParent_ne hy_top, hmem _ hyc]

-- ---------------------------------------------------------------------------
-- Putting in
-- ---------------------------------------------------------------------------

structure Parts (y : Binding) (l r : ColoredTree Binding) (ctx : Context Binding) : Prop where
  nodup_left : (ptrs l.inorder).Nodup
  nodup_right : (ptrs r.inorder).Nodup
  nodup_around : (ptrs (items ctx)).Nodup
  left : y.ptr ∉ ptrs l.inorder
  right : y.ptr ∉ ptrs r.inorder
  around : y.ptr ∉ ptrs (items ctx)
  left_right : ∀ p ∈ ptrs l.inorder, p ∉ ptrs r.inorder
  left_around : ∀ p ∈ ptrs l.inorder, p ∉ ptrs (items ctx)
  right_around : ∀ p ∈ ptrs r.inorder, p ∉ ptrs (items ctx)

theorem nodup_iff_parts : (ptrs (plug ctx (.node c y l r)).inorder).Nodup ↔ Parts y l r ctx := by
  have hperm : (plug ctx (.node c y l r)).inorder.Perm
      (items ctx ++ (y :: (l.inorder ++ r.inorder))) :=
    (inorder_plug_perm _ _).trans
      ((ColoredTree.inorder_join_perm .left c y l r).append_left (items ctx))
  rw [ptrs, (hperm.map _).nodup_iff, List.map_append, List.map_cons, List.map_append,
    List.nodup_append, List.nodup_cons, List.nodup_append, List.mem_append, not_or]
  constructor
  · rintro ⟨hctx, ⟨⟨hl, hr⟩, hndl, hndr, hlr⟩, hout⟩
    refine ⟨hndl, hndr, hctx, hl, hr, fun h => hout _ h _ List.mem_cons_self rfl,
      fun p hp hp' => hlr p hp p hp' rfl, fun p hp hp' => hout p hp' p ?_ rfl,
      fun p hp hp' => hout p hp' p ?_ rfl⟩
    · exact List.mem_cons_of_mem _ (List.mem_append_left _ hp)
    · exact List.mem_cons_of_mem _ (List.mem_append_right _ hp)
  · intro h
    refine ⟨h.nodup_around, ⟨⟨h.left, h.right⟩, h.nodup_left, h.nodup_right, ?_⟩, ?_⟩
    · rintro p hp q hq rfl
      exact h.left_right p hp hq
    · rintro p hp q hq rfl
      obtain rfl | hq := List.mem_cons.mp hq
      · exact h.around hp
      · obtain hq | hq := List.mem_append.mp hq
        · exact h.left_around p hq hp
        · exact h.right_around p hq hp

theorem at_adopted {q' : Ptr}
    (hcell : V.mem y.ptr = cell y c .left (top V.nil l) (top V.nil r) (up V.nil ctx))
    (hl : Stored V.mem V.nil q l) (hr : Stored V.mem V.nil q' r)
    (ha : Around V.mem V.nil V.root ctx y.ptr) (hne : y.ptr ≠ V.nil) (hparts : Parts y l r ctx) :
    At (RbTree.adopt (RbTree.adopt V (top V.nil l) y.ptr) (top V.nil r) y.ptr) ctx
      (.node c y l r) := by
  have hyl : y.ptr ≠ top V.nil l := RbTree.top_ne_of_notMem hparts.left hne
  have hyr : y.ptr ≠ top V.nil r := RbTree.top_ne_of_notMem hparts.right hne
  have hl₁ : Stored (RbTree.adopt V (top V.nil l) y.ptr).mem V.nil y.ptr l :=
    hl.adopt hparts.nodup_left
  have hr₁ : Stored (RbTree.adopt V (top V.nil l) y.ptr).mem V.nil q' r := by
    refine hr.congr fun p hp => RbTree.adopt_mem ?_
    exact RbTree.top_ne_of_notMem (fun h => hparts.left_right p h hp)
      (ne_of_mem_of_not_mem hp hr.ne_nil)
  have hr₂ := Stored.adopt (T := RbTree.adopt V (top V.nil l) y.ptr) (q := y.ptr)
    (by rw [RbTree.adopt_nil]; exact hr₁) hparts.nodup_right
  rw [RbTree.adopt_nil] at hr₂
  have hmem : ∀ p, p ≠ top V.nil l → p ≠ top V.nil r →
      (RbTree.adopt (RbTree.adopt V (top V.nil l) y.ptr) (top V.nil r) y.ptr).mem p = V.mem p :=
    fun p hpl hpr => (RbTree.adopt_mem hpr).trans (RbTree.adopt_mem hpl)
  refine ⟨⟨⟨?_, ?_⟩, ?_, ?_⟩, ?_, nodup_iff_parts.mpr hparts⟩
  · rwa [RbTree.adopt_nil, RbTree.adopt_nil]
  · rw [RbTree.adopt_nil, RbTree.adopt_nil, hmem _ hyl hyr]
    exact hcell
  · rw [RbTree.adopt_nil, RbTree.adopt_nil]
    refine hl₁.congr fun p hp => RbTree.adopt_mem ?_
    exact RbTree.top_ne_of_notMem (hparts.left_right p hp) (ne_of_mem_of_not_mem hp hl.ne_nil)
  · rw [RbTree.adopt_nil, RbTree.adopt_nil]
    exact hr₂
  · rw [RbTree.adopt_nil, RbTree.adopt_nil, RbTree.adopt_root, RbTree.adopt_root]
    refine ha.congr fun p hp => hmem p ?_ ?_
    · exact RbTree.top_ne_of_notMem (fun h => hparts.left_around p h hp)
        (ne_of_mem_of_not_mem hp ha.ne_nil)
    · exact RbTree.top_ne_of_notMem (fun h => hparts.right_around p h hp)
        (ne_of_mem_of_not_mem hp ha.ne_nil)

structure Vacant (T : NgxRbtree) (z y : Binding) (c : Color) (l r : ColoredTree Binding)
    (ctx : Context Binding) : Prop where
  cell : (view T).mem z.ptr = cell z c .left (top T.sentinel l) (top T.sentinel r) (up T.sentinel ctx)
  left : ∃ q, Stored (view T).mem T.sentinel q l
  right : ∃ q, Stored (view T).mem T.sentinel q r
  around : Around (view T).mem T.sentinel T.root ctx z.ptr
  leaving : Parts z l r ctx
  coming : Parts y l r ctx
  ne : y.ptr ≠ z.ptr
  leaving_ne_nil : z.ptr ≠ T.sentinel
  coming_ne_nil : y.ptr ≠ T.sentinel
  key : ((view T).mem y.ptr).key = y.key
  value : y.value = 0

def copied (T : NgxRbtree) (node subst : Ptr) : NgxRbtree :=
  T.modify subst fun n =>
    { n with left := (T.mem node).left, right := (T.mem node).right,
             parent := (T.mem node).parent, color := (T.mem node).color }

theorem ne_root (ha : Around V.mem V.nil V.root ctx q) (hp : p ∉ ptrs (items ctx)) (hne : p ≠ q) :
    p ≠ V.root := by
  cases ctx with
  | nil =>
    have hroot : V.root = q := ha
    rwa [hroot]
  | cons f ctx =>
    rintro rfl
    exact hp ha.root_mem

theorem copied_mem {n : Ptr} (hp : p ≠ q) :
    (view (copied T n q)).mem p = (view T).mem p := by
  have hmem : (copied T n q).mem p = T.mem p := NgxRbtree.modify_ne hp
  simp only [view, NgxRbtree.parent, hmem]
  rfl

theorem Vacant.shown_copied (h : Vacant T z y c l r ctx) (par : Ptr) :
    shown ((copied T z.ptr y.ptr).mem y.ptr) par =
      RbTree.cell y c .left (top T.sentinel l) (top T.sentinel r) par := by
  have hleft : (T.mem z.ptr).left = top T.sentinel l := congrArg RbtreeNode.left h.cell
  have hright : (T.mem z.ptr).right = top T.sentinel r := congrArg RbtreeNode.right h.cell
  have hcolor : (T.mem z.ptr).color = c := congrArg RbtreeNode.color h.cell
  have hkey : ((T.mem y.ptr).key.toNat : Int) = y.key := h.key
  rw [copied, NgxRbtree.modify_self]
  simp [shown, RbTree.cell, hleft, hright, hcolor, hkey, h.value]

structure Relinked (T T' : NgxRbtree) (z y : Binding) (c : Color) (l r : ColoredTree Binding)
    (ctx : Context Binding) : Prop where
  cell : (view T').mem y.ptr =
    cell y c .left (top T.sentinel l) (top T.sentinel r) (up T.sentinel ctx)
  other : ∀ p, p ∉ ptrs (items ctx) → p ≠ y.ptr → p ≠ z.ptr → (view T').mem p = (view T).mem p
  around : Around (view T').mem T.sentinel T'.root ctx y.ptr

theorem Vacant.relinked_root (h : Vacant T z y c l r []) :
    Relinked T (relink .left (copied T z.ptr y.ptr) z.ptr y.ptr) z y c l r [] := by
  have hroot : T.root = z.ptr := h.around
  have hrelink : relink .left (copied T z.ptr y.ptr) z.ptr y.ptr =
      { copied T z.ptr y.ptr with root := y.ptr } := if_pos hroot.symm
  rw [hrelink]
  refine ⟨?_, fun p _ hy hz => ?_, rfl⟩
  · refine Eq.trans ?_ (h.shown_copied _)
    exact congrArg (shown _) (if_pos rfl)
  · rw [← copied_mem (T := T) (n := z.ptr) hy]
    refine congrArg (shown _) ?_
    rw [if_neg hy]
    exact (if_neg (by rw [← hroot] at hz; exact hz)).symm

theorem Vacant.relinked_below (h : Vacant T z y c l r (f :: ctx)) :
    Relinked T (relink .left (copied T z.ptr y.ptr) z.ptr y.ptr) z y c l r (f :: ctx) := by
  have hmem := h.around.root_mem
  have hzroot : z.ptr ≠ T.root := fun heq => h.leaving.around (heq ▸ hmem)
  have hyroot : y.ptr ≠ T.root := fun heq => h.coming.around (heq ▸ hmem)
  have hpar : T.parent z.ptr = f.item.ptr := by
    rw [← parent_view hzroot, Rbtree.parent, h.cell, RbTree.parent_cell]
    rfl
  have hpar₁ : (copied T z.ptr y.ptr).parent z.ptr = f.item.ptr := by
    rw [NgxRbtree.parent, copied, NgxRbtree.modify_ne h.ne.symm]
    exact hpar
  have haround : Around (view (copied T z.ptr y.ptr)).mem T.sentinel T.root (f :: ctx) z.ptr :=
    h.around.congr fun p hp => copied_mem (ne_of_mem_of_not_mem hp h.coming.around)
  have hrelink : view (relink .left (copied T z.ptr y.ptr) z.ptr y.ptr) =
      RbTree.hang (view (copied T z.ptr y.ptr)) y.ptr (f :: ctx) := by
    rw [view_relink (T := copied T z.ptr y.ptr) hzroot]
    · exact RbTree.relink_eq haround ((parent_view (T := copied T z.ptr y.ptr) hzroot).trans hpar₁)
        h.leaving_ne_nil h.leaving.around .left y.ptr
    · rw [hpar₁]
      exact h.around.1.1
  refine ⟨?_, fun p hctx hy hz => ?_, ?_⟩
  · rw [hrelink, RbTree.hang_mem h.coming.around]
    refine Eq.trans ?_ (h.shown_copied _)
    refine congrArg (shown _) ((if_neg hyroot).trans ?_)
    rw [NgxRbtree.parent, copied, NgxRbtree.modify_self]
    exact hpar
  · rw [hrelink, RbTree.hang_mem hctx, copied_mem hy]
  · have hhang := Around.hang (T := view (copied T z.ptr y.ptr)) haround h.leaving.nodup_around y.ptr
    rw [← hrelink] at hhang
    exact hhang

theorem Vacant.relinked (h : Vacant T z y c l r ctx) :
    Relinked T (relink .left (copied T z.ptr y.ptr) z.ptr y.ptr) z y c l r ctx := by
  cases ctx with
  | nil => exact h.relinked_root
  | cons f ctx => exact h.relinked_below

theorem top_ne_root_of {t : ColoredTree Binding} (ha : Around V.mem V.nil V.root ctx y.ptr)
    (hne : y.ptr ≠ V.nil) (hy : y.ptr ∉ ptrs t.inorder)
    (hout : ∀ p ∈ ptrs t.inorder, p ∉ ptrs (items ctx)) : top V.nil t ≠ V.root := by
  refine ne_root ha (fun hmem => ?_) (RbTree.top_ne_of_notMem hy hne).symm
  by_cases hleaf : t = .leaf
  · subst hleaf
    exact ha.ne_nil hmem
  · exact hout _ (RbTree.top_mem hleaf) hmem

def adoptBoth (T : NgxRbtree) (subst : Ptr) : NgxRbtree :=
  let T := if T.child .left subst ≠ T.sentinel then T.setParent (T.child .left subst) subst else T
  if T.child .right subst ≠ T.sentinel then T.setParent (T.child .right subst) subst else T

theorem putIn_eq {node : Ptr} :
    putIn T node p = adoptBoth (relink .left (copied T node p) node p) p := rfl

theorem view_adoptBoth (hcell : (view T).mem y.ptr =
      cell y c .left (top T.sentinel l) (top T.sentinel r) q)
    (hl : top T.sentinel l ≠ T.root) (hr : top T.sentinel r ≠ T.root) :
    view (adoptBoth T y.ptr) =
      RbTree.adopt (RbTree.adopt (view T) (top T.sentinel l) y.ptr) (top T.sentinel r) y.ptr := by
  have hleft : T.child .left y.ptr = top T.sentinel l := by
    rw [← child_view, Rbtree.child, hcell, RbTree.child_cell]
  have hright : T.child .right y.ptr = top T.sentinel r := by
    rw [← child_view, Rbtree.child, hcell]
    exact RbTree.child_flip_cell
  have hadopt := view_adopt (q := y.ptr) hl
  have hroot := adopt_root T (top T.sentinel l) y.ptr
  have hright₁ : (if top T.sentinel l ≠ T.sentinel then T.setParent (top T.sentinel l) y.ptr
      else T).child .right y.ptr = top T.sentinel r := by
    split
    · rw [NgxRbtree.child_setParent, hright]
    · exact hright
  unfold adoptBoth
  rw [hleft]
  dsimp only
  rw [hright₁, ← hadopt]
  exact view_adopt (by rw [hroot]; exact hr)

theorem adoptBoth_insert : (adoptBoth T p).insert = T.insert := by
  unfold adoptBoth
  dsimp only
  split <;> split <;> rfl

theorem adoptBoth_sentinel : (adoptBoth T p).sentinel = T.sentinel := by
  unfold adoptBoth
  dsimp only
  split <;> split <;> rfl

theorem at_congr (h : At V ctx t) (hroot : V'.root = V.root) (hnil : V'.nil = V.nil)
    (hmem : ∀ p ∈ ptrs (plug ctx t).inorder, V'.mem p = V.mem p) : At V' ctx t := by
  have hperm : ∀ p, p ∈ ptrs (plug ctx t).inorder ↔ p ∈ ptrs (items ctx) ∨ p ∈ ptrs t.inorder := by
    intro p
    rw [ptrs, ((inorder_plug_perm ctx t).map _).mem_iff, List.map_append, List.mem_append]
  refine ⟨?_, ?_, h.nodup⟩
  · rw [hnil]
    exact h.here.congr fun p hp => hmem p ((hperm p).mpr (.inr hp))
  · rw [hnil, hroot]
    exact h.around.congr fun p hp => hmem p ((hperm p).mpr (.inl hp))

theorem view_clear (hp : p ≠ q) : (view (clear T q)).mem p = (view T).mem p := by
  have hmem : (clear T q).mem p = T.mem p := NgxRbtree.modify_ne hp
  simp only [view, NgxRbtree.parent, hmem]
  rfl

theorem putIn_spec (h : Vacant T z y c l r ctx) :
    At (view (clear (putIn T z.ptr y.ptr) z.ptr)) ctx (.node c y l r) ∧
      (view (clear (putIn T z.ptr y.ptr) z.ptr)).mem T.sentinel = (view T).mem T.sentinel ∧
      (clear (putIn T z.ptr y.ptr) z.ptr).sentinel = T.sentinel ∧
      (clear (putIn T z.ptr y.ptr) z.ptr).insert = T.insert := by
  obtain ⟨hcell, hother, haround⟩ := h.relinked
  have hsent : (relink .left (copied T z.ptr y.ptr) z.ptr y.ptr).sentinel = T.sentinel :=
    relink_sentinel
  have hins : (relink .left (copied T z.ptr y.ptr) z.ptr y.ptr).insert = T.insert := relink_insert
  rw [putIn_eq]
  generalize relink .left (copied T z.ptr y.ptr) z.ptr y.ptr = T₃ at *
  rw [← hsent] at hcell haround
  obtain ⟨ql, hl⟩ := h.left
  obtain ⟨qr, hr⟩ := h.right
  have hl₃ : Stored (view T₃).mem T₃.sentinel ql l := by
    rw [hsent]
    exact hl.congr fun p hp => hother p (h.coming.left_around p hp)
      (ne_of_mem_of_not_mem hp h.coming.left) (ne_of_mem_of_not_mem hp h.leaving.left)
  have hr₃ : Stored (view T₃).mem T₃.sentinel qr r := by
    rw [hsent]
    exact hr.congr fun p hp => hother p (h.coming.right_around p hp)
      (ne_of_mem_of_not_mem hp h.coming.right) (ne_of_mem_of_not_mem hp h.leaving.right)
  have hne : y.ptr ≠ T₃.sentinel := by rw [hsent]; exact h.coming_ne_nil
  have hview := view_adoptBoth hcell
    (top_ne_root_of haround hne h.coming.left h.coming.left_around)
    (top_ne_root_of haround hne h.coming.right h.coming.right_around)
  have hat := at_adopted hcell hl₃ hr₃ haround hne h.coming
  rw [view_nil, ← hview] at hat
  have hz : z.ptr ∉ ptrs (plug ctx (.node c y l r)).inorder := by
    rw [ptrs, ((inorder_plug_perm ctx _).map _).mem_iff, List.map_append, List.mem_append]
    have hnode := RbTree.mem_ptrs_join (s := .left) (c := c) (b := y) (t := l) (u := r) (p := z.ptr)
    rintro (hmem | hmem)
    · exact h.leaving.around hmem
    · obtain heq | hmem | hmem := hnode.mp hmem
      · exact h.ne heq.symm
      · exact h.leaving.left hmem
      · exact h.leaving.right hmem
  refine ⟨at_congr hat rfl rfl fun p hp => view_clear (ne_of_mem_of_not_mem hp hz), ?_,
    adoptBoth_sentinel.trans hsent, adoptBoth_insert.trans hins⟩
  rw [view_clear h.leaving_ne_nil.symm, hview]
  have hnil : T.sentinel ∉ ptrs (items ctx) := h.around.ne_nil
  rw [← hother _ hnil h.coming_ne_nil.symm h.leaving_ne_nil.symm, ← hsent]
  have houter := RbTree.adopt_mem_nil (T := RbTree.adopt (view T₃) (top T₃.sentinel l) y.ptr)
    (p := top T₃.sentinel r) (q := y.ptr)
  rw [RbTree.adopt_nil] at houter
  exact houter.trans RbTree.adopt_mem_nil

end LearningCode.Nginx
