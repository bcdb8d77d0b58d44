import LearningCode.Nginx.Unlink

/-!
# Deletion

The deleted node is gone from the order and the others keep their addresses and
their keys, whichever node was taken out of its place for it.
-/

namespace LearningCode.Nginx

open RedBlack RedBlack.Context
open RbTree (Rbtree RbtreeNode Binding At Around Hole Left Short Stored top up cell ptrs RedBlackTree)

variable {T T' : NgxRbtree} {V : Rbtree} {s : Side} {c c' : Color} {p q : Ptr}
  {y z : Binding} {t u l r : ColoredTree Binding} {ctx ctx' : Context Binding} {f : Frame Binding}

-- ---------------------------------------------------------------------------
-- The links
-- ---------------------------------------------------------------------------

theorem mem_ptrs_plug : p ∈ ptrs (plug ctx t).inorder ↔
    p ∈ ptrs (items ctx) ∨ p ∈ ptrs t.inorder := by
  rw [ptrs, ((inorder_plug_perm ctx t).map _).mem_iff, List.map_append, List.mem_append]

theorem Hole.clear (h : Hole (view T) ctx t) (hq : q ∉ ptrs (plug ctx t).inorder)
    (hne : q ≠ T.sentinel) : Hole (view (clear T q)) ctx t := by
  have hmem : ∀ p, p ≠ q → (view (Nginx.clear T q)).mem p = (view T).mem p := fun p hp => view_clear hp
  refine ⟨at_congr h.at_hole rfl rfl fun p hp => hmem p (ne_of_mem_of_not_mem hp hq), ?_, ?_⟩
  · exact (congrArg RbtreeNode.color (hmem _ hne.symm)).trans h.nil_black
  · exact fun hleaf => (congrArg RbtreeNode.parent (hmem _ hne.symm)).trans (h.nil_parent hleaf)

theorem takeOut_parent {node : Ptr} : (takeOut T p q).parent node = T.parent node := by
  unfold takeOut
  split
  · exact NgxRbtree.parent_setChild
  · exact NgxRbtree.parent_setChild

theorem takeOut_insert : (takeOut T p q).insert = T.insert := by
  unfold takeOut
  split <;> rfl

theorem takeOut_sentinel : (takeOut T p q).sentinel = T.sentinel := by
  unfold takeOut
  split <;> rfl

theorem unlink_self (ht : At (view T) (f :: ctx) (.join s c z t .leaf))
    (hnil : T.color T.sentinel = .black) :
    Hole (view (unlink T z.ptr z.ptr (top T.sentinel t))) (f :: ctx) t ∧
      (unlink T z.ptr z.ptr (top T.sentinel t)).sentinel = T.sentinel ∧
      (unlink T z.ptr z.ptr (top T.sentinel t)).insert = T.insert := by
  have hroot := top_ne_root ht
  rw [RbTree.top_join] at hroot
  have hpar : T.parent z.ptr = f.item.ptr := by
    rw [← parent_view hroot, Rbtree.parent, ht.cell, RbTree.parent_cell]
    rfl
  have heq : unlink T z.ptr z.ptr (top T.sentinel t) = clear
      ((takeOut T z.ptr (top T.sentinel t)).setParent (top T.sentinel t) f.item.ptr) z.ptr := by
    rw [unlink, if_pos rfl, takeOut_parent, hpar]
  obtain ⟨⟨hhere, haround, hnodup, hblack, hparent⟩, -⟩ := spliced_spec ht hnil f.item.ptr
  have hview := view_takeOut ht f.item.ptr
  rw [view_nil, ← hview] at hhere haround hblack hparent
  have hsent : ((takeOut T z.ptr (top T.sentinel t)).setParent (top T.sentinel t)
      f.item.ptr).sentinel = T.sentinel := takeOut_sentinel
  rw [heq]
  refine ⟨Hole.clear ⟨⟨hhere, haround, hnodup⟩, hblack, hparent⟩ ?_ ?_, hsent, takeOut_insert⟩
  · rw [mem_ptrs_plug, not_or]
    exact ⟨ht.notMem.1, ht.notMem.2.1⟩
  · rw [hsent]
    exact ht.ne_nil

/-- Below the frame of `z` everything is in its place, whatever the parent of `t` is taken for. -/
theorem Spliced.frame {V : Rbtree} (h : Spliced V q (ctx' ++ ⟨.right, c', z, l⟩ :: ctx) t)
    (hq : ctx' ≠ [] → q = up V.nil ctx') :
    (∃ par, Stored V.mem V.nil par (plug ctx' t)) ∧
      Around V.mem V.nil V.root (⟨.right, c', z, l⟩ :: ctx) (top V.nil (plug ctx' t)) := by
  cases ctx' with
  | nil => exact ⟨⟨q, h.here⟩, h.around⟩
  | cons g ctx' =>
    have hhere := h.here
    rw [hq (List.cons_ne_nil _ _)] at hhere
    have hat : At V (g :: ctx' ++ ⟨.right, c', z, l⟩ :: ctx) t := ⟨hhere, h.around, h.nodup⟩
    have hbelow := RbTree.at_append.mp hat
    exact ⟨⟨_, hbelow.here⟩, hbelow.around⟩

theorem unlink_parent (ht : At (view T) (ctx' ++ ⟨.right, c', z, l⟩ :: ctx) (.join s c y t .leaf)) :
    (if T.parent y.ptr = z.ptr then y.ptr else T.parent y.ptr) =
      up T.sentinel (ctx' ++ ⟨.right, c', y, l⟩ :: ctx) := by
  have hroot : y.ptr ≠ T.root := by
    have hmem := ht.notMem.1
    rintro heq
    cases ctx' <;> exact hmem (heq ▸ ht.around.root_mem)
  have hpar : T.parent y.ptr = up T.sentinel (ctx' ++ ⟨.right, c', z, l⟩ :: ctx) := by
    rw [← parent_view hroot, Rbtree.parent, ht.cell, RbTree.parent_cell]
    rfl
  rw [hpar]
  cases ctx' with
  | nil => exact if_pos rfl
  | cons g ctx' =>
    refine if_neg fun heq => ?_
    have hnodup := ht.nodup_around
    have heq : g.item.ptr = z.ptr := heq
    rw [List.cons_append, ptrs, ((items_cons_perm g _).map _).nodup_iff, List.map_cons,
      List.nodup_cons, List.map_append, List.mem_append, not_or] at hnodup
    refine hnodup.1.2 (heq ▸ RbTree.mem_ptrs_items_append.mpr (.inr ?_))
    exact RbTree.mem_ptrs_items_cons.mpr (.inl rfl)

theorem unlink_below (ht : At (view T) (ctx' ++ ⟨.right, c', z, l⟩ :: ctx) (.join s c y t .leaf))
    (hnil : T.color T.sentinel = .black) :
    Hole (view (unlink T z.ptr y.ptr (top T.sentinel t))) (ctx' ++ ⟨.right, c', y, l⟩ :: ctx) t ∧
      (unlink T z.ptr y.ptr (top T.sentinel t)).sentinel = T.sentinel ∧
      (unlink T z.ptr y.ptr (top T.sentinel t)).insert = T.insert := by
  obtain ⟨q, hq⟩ : ∃ q, q = up T.sentinel (ctx' ++ ⟨.right, c', y, l⟩ :: ctx) := ⟨_, rfl⟩
  obtain ⟨hyc, hyt, -⟩ := ht.notMem
  have hne : y.ptr ≠ z.ptr := fun heq => hyc (heq ▸
    RbTree.mem_ptrs_items_append.mpr (.inr (RbTree.mem_ptrs_items_cons.mpr (.inl rfl))))
  obtain ⟨f, above, hctx⟩ : ∃ f above, ctx' ++ ⟨.right, c', z, l⟩ :: ctx = f :: above := by
    cases ctx' with
    | nil => exact ⟨_, _, rfl⟩
    | cons g ctx' => exact ⟨_, _, rfl⟩
  have hview : view ((takeOut T y.ptr (top T.sentinel t)).setParent (top T.sentinel t) q) =
      spliced (view T) (top T.sentinel t) q (ctx' ++ ⟨.right, c', z, l⟩ :: ctx) := by
    rw [hctx] at ht ⊢
    exact view_takeOut ht q
  have heq : unlink T z.ptr y.ptr (top T.sentinel t) = clear (putIn
      ((takeOut T y.ptr (top T.sentinel t)).setParent (top T.sentinel t) q) z.ptr y.ptr) z.ptr := by
    have hpar := unlink_parent ht
    rw [unlink, if_neg hne, takeOut_parent, hq, ← hpar]
    split <;> rfl
  obtain ⟨hspliced, hymem⟩ := spliced_spec ht hnil q
  rw [view_nil, ← hview] at hspliced hymem
  have hsent : ((takeOut T y.ptr (top T.sentinel t)).setParent (top T.sentinel t) q).sentinel =
      T.sentinel := takeOut_sentinel
  have hins : ((takeOut T y.ptr (top T.sentinel t)).setParent (top T.sentinel t) q).insert =
      T.insert := takeOut_insert
  rw [heq]
  generalize (takeOut T y.ptr (top T.sentinel t)).setParent (top T.sentinel t) q = T₁ at *
  obtain ⟨⟨par, hright⟩, ⟨hz, hcell⟩, hleft, haround⟩ := Spliced.frame hspliced (by
    intro hne'
    rw [hq]
    cases ctx' with
    | nil => exact absurd rfl hne'
    | cons g ctx' => rfl)
  have hparts : Parts z l (plug ctx' t) ctx := by
    have hnodup := hspliced.nodup
    rw [plug_append] at hnodup
    exact nodup_iff_parts.mp hnodup
  have hcoming : Parts y l (plug ctx' t) ctx := by
    rw [RbTree.mem_ptrs_items_append, RbTree.mem_ptrs_items_cons] at hyc
    refine { hparts with left := fun h => ?_, right := fun h => ?_, around := fun h => ?_ }
    · exact hyc (.inr (.inr (.inl h)))
    · exact (mem_ptrs_plug.mp h).elim (fun h => hyc (.inl h)) hyt
    · exact hyc (.inr (.inr (.inr h)))
  have hkey : ((view T₁).mem y.ptr).key = y.key := by rw [hymem, ht.cell, RbTree.key_cell]
  have hvalue : y.value = 0 := by
    have hvalue : ((view T).mem y.ptr).value = y.value := by rw [ht.cell, RbTree.value_cell]
    exact hvalue.symm
  have hvacant : Vacant T₁ z y c' l (plug ctx' t) ctx :=
    ⟨hcell, ⟨_, hleft⟩, ⟨par, hright⟩, haround, hparts, hcoming, hne, hz, hsent ▸ ht.ne_nil, hkey,
      hvalue⟩
  obtain ⟨hat, hmem, hsent', hins'⟩ := putIn_spec hvacant
  have hmem : (view (clear (putIn T₁ z.ptr y.ptr) z.ptr)).mem
      (clear (putIn T₁ z.ptr y.ptr) z.ptr).sentinel = (view T₁).mem T₁.sentinel := by
    rw [hsent', hmem]
  refine ⟨⟨RbTree.at_append.mpr ?_, ?_, fun hleaf => ?_⟩, hsent'.trans hsent, hins'.trans hins⟩
  · exact RbTree.At.into (s := .right) hat
  · exact (congrArg RbtreeNode.color hmem).trans hspliced.nil_black
  · rw [view_nil, hsent', hsent, ← hq]
    refine Eq.trans ?_ (hspliced.nil_parent hleaf)
    rw [← hsent, ← hsent']
    exact congrArg RbtreeNode.parent hmem

-- ---------------------------------------------------------------------------
-- The whole deletion
-- ---------------------------------------------------------------------------

theorem deleteRoot_spec (ht : At (view T) [] (.join s c z t .leaf))
    (hnil : T.color T.sentinel = .black) (hb : ∃ n, t.Balanced n) :
    RedBlackTree (view (clear (({ T with root := top T.sentinel t } : NgxRbtree).setColor
      (top T.sentinel t) .black) z.ptr)) t.blacken := by
  have hroot : T.root = z.ptr := ht.root_eq.trans RbTree.top_join
  obtain ⟨-, hzt, -⟩ := ht.notMem
  have hmem : ∀ p ∈ ptrs t.inorder, (view { T with root := top T.sentinel t }).mem p =
      (RbTree.adopt (view T) (top T.sentinel t) T.sentinel).mem p := by
    intro p hp
    by_cases htop : p = top T.sentinel t
    · have hne : top T.sentinel t ≠ T.sentinel := by
        rw [← htop]
        exact ne_of_mem_of_not_mem hp ht.into.here.ne_nil
      rw [htop, RbTree.adopt, view_nil, if_pos hne, Rbtree.setParent, Rbtree.modify_self]
      simp [view, shown]
    · have hpz : p ≠ T.root := by
        rw [hroot]
        exact ne_of_mem_of_not_mem hp hzt
      rw [RbTree.adopt_mem htop]
      simp [view, NgxRbtree.parent, htop, hpz]
  have hstored : Stored (RbTree.adopt (view T) (top T.sentinel t) T.sentinel).mem T.sentinel
      T.sentinel t := ht.into.here.adopt ht.into.nodup_here
  have hat : At (view { T with root := top T.sentinel t }) [] t :=
    ⟨hstored.congr hmem, rfl, ht.into.nodup_here⟩
  obtain ⟨hblack, hsame⟩ := hat.blacken hnil
  have hblack' : At (view (({ T with root := top T.sentinel t } : NgxRbtree).setColor
      (top T.sentinel t) .black)) [] t.blacken := by
    rw [view_setColor]
    exact hblack
  have hzt' : z.ptr ∉ ptrs (plug [] t.blacken).inorder := by
    rwa [plug_nil, ColoredTree.inorder_blacken]
  obtain ⟨n, hn⟩ := hb
  refine ⟨at_congr hblack' rfl rfl fun p hp => view_clear (ne_of_mem_of_not_mem hp hzt'), ?_,
    ColoredTree.color_blacken t, hn.blacken⟩
  refine (congrArg RbtreeNode.color (view_clear ht.ne_nil.symm)).trans ?_
  rw [view_setColor]
  exact hsame.black hnil

theorem deleteEnd_spec (h : Hole (view T) ctx t) (hleft : Left ctx c t) :
    ∃ T' t', Returns (fun turns =>
        if decide (c = .red) then some T
        else do
          let (T, temp) ← deleteLoop turns T (top T.sentinel t)
          some (T.setColor temp .black)) T' ∧
      T'.sentinel = T.sentinel ∧ T'.insert = T.insert ∧ RedBlackTree (view T') t' ∧
      t'.inorder = (plug ctx t).inorder := by
  cases c with
  | red =>
    exact ⟨T, plug ctx t, .const fun turns => rfl, rfl, rfl,
      ⟨h.at_hole.whole, h.nil_black, hleft.2, hleft.1⟩, rfl⟩
  | black =>
    obtain ⟨T', q, t', hret, hsent, hins, htree, horder⟩ := deleteLoop_spec h hleft
    refine ⟨T'.setColor q .black, t', ?_, hsent, hins, htree, horder⟩
    exact hret.bind (k := fun _ r => some (r.1.setColor r.2 .black)) (.const fun turns => rfl)

def Erased (z : Binding) (l l' : List Binding) : Prop :=
  ∃ pre suf, l = pre ++ z :: suf ∧ l' = pre ++ suf

def Deleted (T : NgxRbtree) (p : Ptr) (l : List Binding) : Prop :=
  ∃ T' t', Returns (ngxRbtreeDelete · T p) T' ∧ T'.sentinel = T.sentinel ∧ T'.insert = T.insert ∧
    RedBlackTree (view T') t' ∧ t'.inorder = l

theorem delete_self (ht : RedBlackTree (view T) (plug ctx (.join s c z t .leaf)))
    (hchoose : ∀ turns, chooseSubst turns T z.ptr = some (top T.sentinel t, z.ptr)) :
    Deleted T z.ptr (plug ctx t).inorder := by
  obtain ⟨n, hb⟩ := ht.balanced
  have hat := ht.stored.focus
  cases ctx with
  | nil =>
    have hroot : z.ptr = T.root := (hat.root_eq.trans RbTree.top_join).symm
    have hbt : ∃ m, t.Balanced m := by
      cases c with
      | red => exact ⟨_, (ColoredTree.balanced_join_red.mp hb).2.1⟩
      | black =>
        cases n with
        | zero => exact absurd hb ColoredTree.not_balanced_join_black
        | succ n => exact ⟨n, (ColoredTree.balanced_join_black.mp hb).1⟩
    refine ⟨clear (({ T with root := top T.sentinel t } : NgxRbtree).setColor
      (top T.sentinel t) .black) z.ptr, t.blacken, .const fun turns => ?_, rfl, rfl,
      deleteRoot_spec hat ht.nil_black hbt, ColoredTree.inorder_blacken t⟩
    rw [ngxRbtreeDelete, hchoose]
    exact if_pos hroot
  | cons f ctx =>
    have hroot := top_ne_root hat
    rw [RbTree.top_join] at hroot
    obtain ⟨hhole, hsent, hins⟩ := unlink_self hat ht.nil_black
    have hcolor : T.color z.ptr = c := by
      rw [← color_view, Rbtree.color, hat.cell, RbTree.color_cell]
    obtain ⟨T', t', hret, hsent', hins', htree, horder⟩ :=
      deleteEnd_spec hhole (RbTree.left_of_balanced hb ht.root_black)
    refine ⟨T', t', hret.congr fun turns => ?_, hsent'.trans hsent, hins'.trans hins, htree, horder⟩
    rw [ngxRbtreeDelete, hchoose]
    simp only [Option.bind_eq_bind, Option.bind_some, deleteChosen, if_neg hroot, hcolor, hsent]

theorem delete_below (ht : RedBlackTree (view T)
      (plug (ctx' ++ ⟨.right, c', z, l⟩ :: ctx) (.join .right c y t .leaf)))
    (hchoose : Returns (chooseSubst · T z.ptr) (top T.sentinel t, y.ptr)) :
    Deleted T z.ptr (plug (ctx' ++ ⟨.right, c', y, l⟩ :: ctx) t).inorder := by
  obtain ⟨n, hb⟩ := ht.balanced
  have hat := ht.stored.focus
  have hroot : y.ptr ≠ T.root := by
    have hmem := hat.notMem.1
    rintro heq
    cases ctx' <;> exact hmem (heq ▸ hat.around.root_mem)
  have hcolor : T.color y.ptr = c := by
    rw [← color_view, Rbtree.color, hat.cell, RbTree.color_cell]
  -- The node that takes the place has the colour that was there.
  have hb' : (plug (ctx' ++ ⟨.right, c', y, l⟩ :: ctx) (.join .right c y t .leaf)).Balanced n := by
    rw [plug_append, plug_cons] at hb ⊢
    refine balanced_plug_congr (fun m hm => ?_) ?_ hb
    · exact ColoredTree.Balanced.item (s := .right) hm
    · rfl
  have hblack : (plug (ctx' ++ ⟨.right, c', y, l⟩ :: ctx) (.join .right c y t .leaf)).color =
      .black := by
    rw [← ht.root_black, plug_append, plug_append, plug_cons, plug_cons]
    exact color_plug_congr rfl
  obtain ⟨hhole, hsent, hins⟩ := unlink_below hat ht.nil_black
  obtain ⟨T', t', hret, hsent', hins', htree, horder⟩ :=
    deleteEnd_spec hhole (RbTree.left_of_balanced hb' hblack)
  have hchosen : Returns (deleteChosen · T z.ptr (top T.sentinel t) y.ptr) T' :=
    hret.congr fun turns => by
      rw [deleteChosen, if_neg hroot, hcolor, hsent]
  refine ⟨T', t', ?_, hsent'.trans hsent, hins'.trans hins, htree, horder⟩
  exact hchoose.bind (k := fun turns r => deleteChosen turns T z.ptr r.1 r.2) hchosen

theorem ngxRbtreeMin_eq (turns : Nat) (p : Ptr) :
    ngxRbtreeMin T turns p = RbTree.outermost .left (view T) turns p := by
  induction turns generalizing p with
  | zero => rfl
  | succ turns ih => rw [ngxRbtreeMin, RbTree.outermost, child_view, ih]; rfl

theorem ngxRbtreeDelete_spec (ht : RedBlackTree (view T) t) (hz : z ∈ t.inorder) :
    ∃ l, Erased z t.inorder l ∧ Deleted T z.ptr l := by
  obtain ⟨ctx, c, l, r, rfl⟩ := exists_plug hz
  have hat : At (view T) ctx (.join .left c z l r) := ht.stored.focus
  have hleft : T.child .left z.ptr = top T.sentinel l := by
    rw [← child_view, Rbtree.child, hat.cell, RbTree.child_cell]
    rfl
  have hright : T.child .right z.ptr = top T.sentinel r := by
    rw [← child_view, Rbtree.child, hat.cell]
    exact RbTree.child_flip_cell
  have hlnil : top T.sentinel l = T.sentinel ↔ l = .leaf := RbTree.top_eq_nil_iff hat.into.here
  have hrnil : top T.sentinel r = T.sentinel ↔ r = .leaf := RbTree.top_eq_nil_iff hat.into_flip.here
  by_cases hl : l = .leaf
  · subst hl
    refine ⟨_, ?_, delete_self (s := .right) (t := r) ht fun turns => ?_⟩
    · exact ⟨before ctx, r.inorder ++ after ctx, by simp [inorder_plug, ColoredTree.inorder],
        by simp [inorder_plug]⟩
    · rw [chooseSubst, hleft, hright]
      exact if_pos rfl
  · by_cases hr : r = .leaf
    · subst hr
      refine ⟨_, ?_, delete_self (s := .left) (t := l) ht fun turns => ?_⟩
      · exact ⟨before ctx ++ l.inorder, after ctx, by simp [inorder_plug, ColoredTree.inorder],
          by simp [inorder_plug]⟩
      · rw [chooseSubst, hleft, if_neg (mt hlnil.mp hl), hright]
        exact if_pos rfl
    · obtain ⟨ctx', c', b, u, rfl, hside, hmin⟩ :=
        RbTree.outermost_spec (s := .left) hat.into_flip hr
      have hbelow : RedBlackTree (view T)
          (plug (ctx' ++ ⟨.right, c, z, l⟩ :: ctx) (.join .right c' b u .leaf)) := by
        rw [plug_append]
        exact ht
      have hb := hbelow.stored.focus
      have hbleft : T.child .left b.ptr = T.sentinel := by
        rw [← child_view, Rbtree.child, hb.cell]
        exact RbTree.child_flip_cell
      have hbright : T.child .right b.ptr = top T.sentinel u := by
        rw [← child_view, Rbtree.child, hb.cell, RbTree.child_cell]
        rfl
      refine ⟨_, ?_, delete_below hbelow ?_⟩
      · refine ⟨before ctx ++ l.inorder, b :: (u.inorder ++ (after ctx' ++ after ctx)), ?_, ?_⟩
        · simp [inorder_plug, ColoredTree.inorder, ColoredTree.join, before_of_left hside]
        · simp [inorder_plug, before_append_right, after_append_right, before_of_left hside]
      · have hmap := hmin.map fun subst =>
          (if T.child .left subst ≠ T.sentinel then T.child .left subst else T.child .right subst,
            subst)
        rw [hbleft, if_neg (fun h => h rfl), hbright] at hmap
        refine hmap.congr fun turns => ?_
        rw [chooseSubst, hleft, if_neg (mt hlnil.mp hl), hright, if_neg (mt hrnil.mp hr),
          ngxRbtreeMin_eq]
        rfl

end LearningCode.Nginx
