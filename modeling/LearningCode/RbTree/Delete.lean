import LearningCode.RbTree.DeleteFixup

/-!
# Deletion

The node to unlink has at most one child. If it is not the one asked for it is
the next in order, whose binding moves into the node that stays.
-/

namespace LearningCode.RbTree

open RedBlack RedBlack.Context

variable {T T' : Rbtree} {s : Side} {c : Color} {b y z : Binding} {t u l r : ColoredTree Binding}
  {ctx : Context Binding} {n : Nat}

-- ---------------------------------------------------------------------------
-- The node to unlink
-- ---------------------------------------------------------------------------

theorem outermost_spec (ht : At T ctx t) (hne : t ≠ .leaf) :
    ∃ ctx' c b u, plug ctx' (.join s c b .leaf u) = t ∧ (∀ f ∈ ctx', f.side = s) ∧
      Returns (outermost s T · (top T.nil t)) b.ptr := by
  induction t using ColoredTree.join_induction (s := s) generalizing ctx with
  | leaf => exact absurd rfl hne
  | join c b u v ihu ihv =>
    have hchild : T.child s b.ptr = top T.nil u := by rw [Rbtree.child, ht.cell, child_cell]
    rw [top_join]
    by_cases hu : u = .leaf
    · subst hu
      refine ⟨[], c, b, v, rfl, fun f hf => absurd hf List.not_mem_nil, .last fun turns => ?_⟩
      rw [outermost, hchild, if_neg fun h => h rfl]
    · obtain ⟨ctx', c', b', u', rfl, hside, hret⟩ := ihu ht.into hu
      refine ⟨ctx' ++ [⟨s, c, b, v⟩], c', b', u', plug_append _ _ _, fun f hf => ?_,
        hret.turn fun turns => ?_⟩
      · obtain hf | hf := List.mem_append.mp hf
        · exact hside f hf
        · rw [List.mem_singleton.mp hf]
      · rw [outermost, hchild, if_pos fun h => hu ((top_eq_nil_iff ht.into.here).mp h)]

-- ---------------------------------------------------------------------------
-- Unlinking
-- ---------------------------------------------------------------------------

theorem onlyChild_eq (ht : At T ctx (.join s c y t .leaf)) :
    onlyChild T y.ptr = top T.nil t := by
  have hchild : T.child s y.ptr = top T.nil t := by rw [Rbtree.child, ht.cell, child_cell]
  have hnone : T.child s.flip y.ptr = T.nil := by
    rw [Rbtree.child, ht.cell, child_flip_cell]
    rfl
  cases s with
  | left =>
    rw [onlyChild, hchild]
    split
    · rfl
    · have hright : T.child .right y.ptr = T.nil := hnone
      rw [if_neg fun h => h hright]
      exact (not_not.mp ‹¬top T.nil t ≠ T.nil›).symm
  | right =>
    have hleft : T.child .left y.ptr = T.nil := hnone
    rw [onlyChild, if_neg fun h => h hleft, hchild]
    split
    · rfl
    · exact (not_not.mp ‹¬top T.nil t ≠ T.nil›).symm

/-- The subtree of `y` in the place of `y`; a leaf finds its parent through the sentinel. -/
theorem spliceOut_spec (ht : At T ctx (.join s c y t .leaf))
    (hnil : (T.mem T.nil).color = .black) :
    Hole (spliceOut T y.ptr (top T.nil t)) ctx t ∧
      (spliceOut T y.ptr (top T.nil t)).nil = T.nil ∧
      (spliceOut T y.ptr (top T.nil t)).mem y.ptr = T.mem y.ptr := by
  obtain ⟨hyc, hyt, -⟩ := ht.notMem
  have hy_top : y.ptr ≠ top T.nil t := top_ne_of_notMem hyt ht.ne_nil
  have htop : top T.nil t ∉ ptrs (items ctx) :=
    fun h => ht.into.top_notMem (mem_ptrs_items_cons.mpr (.inr (.inr h)))
  have hpar : T.parent y.ptr = up T.nil ctx := by rw [Rbtree.parent, ht.cell, parent_cell]
  obtain ⟨T₁, hT₁⟩ : ∃ T₁, T₁ = T.setParent (top T.nil t) (up T.nil ctx) := ⟨_, rfl⟩
  have hnil₁ : T₁.nil = T.nil := by rw [hT₁]; rfl
  have hroot₁ : T₁.root = T.root := by rw [hT₁]; rfl
  have hother : ∀ q, q ≠ top T.nil t → T₁.mem q = T.mem q := fun q hq => by
    rw [hT₁, Rbtree.setParent_ne hq]
  have haround : Around T₁.mem T₁.nil T₁.root ctx y.ptr := by
    have haround := ht.around
    rw [top_join] at haround
    rw [hnil₁, hroot₁]
    exact haround.congr fun q hq => hother q (ne_of_mem_of_not_mem hq htop)
  have hpar₁ : T₁.parent y.ptr = up T₁.nil ctx := by
    rw [Rbtree.parent, hother _ hy_top, hnil₁]
    exact hpar
  have hsplice : spliceOut T y.ptr (top T.nil t) = hang T₁ (top T.nil t) ctx := by
    rw [spliceOut, hpar, ← hT₁]
    exact relink_eq haround hpar₁ (hnil₁ ▸ ht.ne_nil) hyc .left _
  have hmem : ∀ q, q ∉ ptrs (items ctx) → (spliceOut T y.ptr (top T.nil t)).mem q = T₁.mem q :=
    fun q hq => by rw [hsplice, hang_mem hq]
  have hnil₂ : (spliceOut T y.ptr (top T.nil t)).nil = T.nil := by
    rw [hsplice, hang_nil, hnil₁]
  have hmem_nil := hmem T.nil ht.around.ne_nil
  refine ⟨⟨⟨?_, ?_, ?_⟩, ?_, ?_⟩, hnil₂, (hmem _ hyc).trans (hother _ hy_top)⟩
  · have hstored : Stored T₁.mem T.nil (up T.nil ctx) t := by
      by_cases hleaf : t = .leaf
      · rw [hleaf]; trivial
      · have hadopt := (stored_join.mp ht.here).2.1.adopt ht.into.nodup_here (q := up T.nil ctx)
        rwa [adopt, if_pos fun h => hleaf ((top_eq_nil_iff ht.into.here).mp h), ← hT₁] at hadopt
    rw [hnil₂]
    refine hstored.congr fun q hq => hmem q ?_
    exact ht.disjoint (mem_ptrs_join.mpr (.inr (.inl hq)))
  · have hhang := haround.hang ht.nodup_around (top T.nil t)
    rw [hnil₂, hsplice]
    rwa [hnil₁] at hhang
  · have hsub : t.inorder.Sublist (ColoredTree.join s c y t .leaf).inorder := by
      cases s with
      | left => exact List.sublist_append_left t.inorder _
      | right => exact List.sublist_cons_self y t.inorder
    rw [ptrs, ((inorder_plug_perm ctx t).map _).nodup_iff]
    exact ht.nodup_perm.sublist ((hsub.append_left (items ctx)).map _)
  · rw [hnil₂, hmem_nil, hT₁]
    exact Rbtree.color_setParent.trans hnil
  · rintro rfl
    rw [hnil₂, hmem_nil, hT₁, top, Rbtree.setParent, Rbtree.modify_self]

def Left (ctx : Context Binding) (c : Color) (t : ColoredTree Binding) : Prop :=
  match c with
  | .red => (∃ n, (plug ctx t).Balanced n) ∧ (plug ctx t).color = .black
  | .black => Short ctx t

theorem left_of_balanced (hb : (plug ctx (.join s c y t .leaf)).Balanced n)
    (hroot : (plug ctx (.join s c y t .leaf)).color = .black) : Left ctx c t := by
  obtain ⟨m, hfits, hm, hc⟩ := fits_of_plug hb hroot
  cases c with
  | red =>
    obtain ⟨⟨ht, -⟩, htb, -⟩ := ColoredTree.balanced_join_red.mp hm
    refine ⟨hfits.plug htb (.inl ht), ?_⟩
    cases ctx with
    | nil => exact (nomatch hroot.symm.trans (ColoredTree.color_join ..))
    | cons f ctx => exact hfits.root_black t
  | black =>
    cases m with
    | zero => exact absurd hm ColoredTree.not_balanced_join_black
    | succ m =>
      have htb := (ColoredTree.balanced_join_black.mp hm).1
      refine ⟨m, hfits, ?_⟩
      cases htc : t.color with
      | red => exact .inr ⟨rfl, htb.blacken_red htc⟩
      | black => exact .inl ⟨rfl, htb⟩

theorem deleteEnd_spec (h : Hole T ctx t) (hleft : Left ctx c t) (y : Ptr) :
    ∃ T' t', Returns (fun turns =>
        if c = .black then do
          let T ← rbtreeDeleteFixup turns T (top T.nil t)
          some (T, y)
        else some (T, y)) (T', y) ∧
      T'.nil = T.nil ∧ RedBlackTree T' t' ∧ t'.inorder = (plug ctx t).inorder := by
  cases c with
  | red =>
    exact ⟨T, plug ctx t, .const fun turns => rfl, rfl,
      ⟨h.at_hole.whole, h.nil_black, hleft.2, hleft.1⟩, rfl⟩
  | black =>
    obtain ⟨T', t', hret, hrest⟩ := rbtreeDeleteFixup_spec h hleft
    exact ⟨T', t', hret.bind (.const fun turns => rfl), hrest⟩

theorem unlink_self (ht : At T ctx (.join s c z t .leaf)) (hnil : (T.mem T.nil).color = .black)
    (hleft : Left ctx c t) :
    ∃ T' t', Returns (unlink · T z.ptr z.ptr) (T', z.ptr) ∧ T'.nil = T.nil ∧
      RedBlackTree T' t' ∧ t'.inorder = (plug ctx t).inorder := by
  obtain ⟨h₁, hnil₁, hmem₁⟩ := spliceOut_spec ht hnil
  obtain ⟨T', t', hret, hnil', ht', horder⟩ := deleteEnd_spec h₁ hleft z.ptr
  refine ⟨T', t', hret.congr fun turns => ?_, hnil'.trans hnil₁, ht', horder⟩
  have hcolor : (spliceOut T z.ptr (top T.nil t)).color z.ptr = c := by
    rw [Rbtree.color, hmem₁, ht.cell, color_cell]
  rw [unlink, onlyChild_eq ht, hnil₁]
  simp only [ne_eq, not_true_eq_false, ↓reduceIte, hcolor]

theorem unlink_below {ctx' : Context Binding} {c' : Color}
    (ht : At T (ctx' ++ ⟨.right, c', z, l⟩ :: ctx) (.join s c y t .leaf))
    (hnil : (T.mem T.nil).color = .black)
    (hleft : Left (ctx' ++ ⟨.right, c', ⟨z.ptr, y.key, y.value⟩, l⟩ :: ctx) c t) :
    ∃ T' t', Returns (unlink · T z.ptr y.ptr) (T', y.ptr) ∧ T'.nil = T.nil ∧
      RedBlackTree T' t' ∧
      t'.inorder = (plug (ctx' ++ ⟨.right, c', ⟨z.ptr, y.key, y.value⟩, l⟩ :: ctx) t).inorder := by
  obtain ⟨h₁, hnil₁, hmem₁⟩ := spliceOut_spec ht hnil
  have hz := (at_append.mp h₁.at_hole).out
  have hcopy : At (copyBinding (spliceOut T y.ptr (top T.nil t)) z.ptr y.ptr) ctx
      (.join .right c' ⟨z.ptr, y.key, y.value⟩ (plug ctx' t) l) := by
    refine hz.modify rfl ?_
    rw [hmem₁, ht.cell, key_cell, value_cell]
    rfl
  have hsame : SameNil (spliceOut T y.ptr (top T.nil t))
      (copyBinding (spliceOut T y.ptr (top T.nil t)) z.ptr y.ptr) := sameNil_modify hz.ne_nil
  have hne : y.ptr ≠ z.ptr := fun heq =>
    ht.notMem.1 (heq ▸ mem_ptrs_items_append.mpr (.inr (mem_ptrs_items_cons.mpr (.inl rfl))))
  have h₂ : Hole (copyBinding (spliceOut T y.ptr (top T.nil t)) z.ptr y.ptr)
      (ctx' ++ ⟨.right, c', ⟨z.ptr, y.key, y.value⟩, l⟩ :: ctx) t := by
    refine ⟨at_append.mpr hcopy.into, hsame.black h₁.nil_black, fun hleaf => ?_⟩
    rw [hsame.nil, hsame.mem, h₁.nil_parent hleaf]
    cases ctx' <;> rfl
  obtain ⟨T', t', hret, hnil', ht', horder⟩ := deleteEnd_spec h₂ hleft y.ptr
  refine ⟨T', t', hret.congr fun turns => ?_, (hnil'.trans hsame.nil).trans hnil₁, ht', horder⟩
  have hcolor : (copyBinding (spliceOut T y.ptr (top T.nil t)) z.ptr y.ptr).color y.ptr = c := by
    rw [Rbtree.color, copyBinding, Rbtree.modify_ne hne, hmem₁, ht.cell, color_cell]
  rw [unlink, onlyChild_eq ht, if_pos hne, hsame.nil, hnil₁]
  simp only [hcolor]

/-- The bindings left of `l` when the binding of `z` is removed and the node `y` unlinked. -/
inductive Removed (z : Binding) : List Binding → Ptr → List Binding → Prop
  | self (pre suf : List Binding) : Removed z (pre ++ z :: suf) z.ptr (pre ++ suf)
  | next (pre suf : List Binding) (b : Binding) :
    Removed z (pre ++ z :: b :: suf) b.ptr (pre ++ ⟨z.ptr, b.key, b.value⟩ :: suf)

theorem rbtreeDelete_spec (ht : RedBlackTree T t) (hz : z ∈ t.inorder) :
    ∃ T' t' y, Returns (rbtreeDelete · T z.ptr) (T', y) ∧ T'.nil = T.nil ∧ RedBlackTree T' t' ∧
      Removed z t.inorder y t'.inorder := by
  obtain ⟨ctx, c, l, r, rfl⟩ := exists_plug hz
  obtain ⟨n, hb⟩ := ht.balanced
  have hstored : At T ctx (.join .left c z l r) := ht.stored.focus
  have hleft : T.child .left z.ptr = top T.nil l := by
    rw [Rbtree.child, hstored.cell, child_cell]
  have hright : T.child .right z.ptr = top T.nil r := by
    rw [Rbtree.child, hstored.cell]
    exact child_flip_cell
  have hlnil : top T.nil l = T.nil ↔ l = .leaf := top_eq_nil_iff hstored.into.here
  have hrnil : top T.nil r = T.nil ↔ r = .leaf := top_eq_nil_iff hstored.into_flip.here
  by_cases hchild : l = .leaf ∨ r = .leaf
  · obtain ⟨s, u, hnode, horder⟩ : ∃ s u, ColoredTree.node c z l r = .join s c z u .leaf ∧
        l.inorder ++ r.inorder = u.inorder := by
      obtain rfl | rfl := hchild
      · exact ⟨.right, r, rfl, rfl⟩
      · exact ⟨.left, l, rfl, List.append_nil _⟩
    have hroot := ht.root_black
    rw [hnode] at hb hroot
    obtain ⟨T', t', hret, hnil', ht', horder'⟩ :=
      unlink_self (hnode ▸ ht.stored.focus) ht.nil_black (left_of_balanced hb hroot)
    have hchoose : Returns (nodeToUnlink · T z.ptr) z.ptr := .const fun turns => by
      rw [nodeToUnlink, hleft, hright, if_pos (hchild.imp hlnil.mpr hrnil.mpr)]
    refine ⟨T', t', z.ptr, hchoose.bind hret, hnil', ht', ?_⟩
    · have hremoved := Removed.self (z := z) (before ctx ++ l.inorder) (r.inorder ++ after ctx)
      rw [horder', inorder_plug, inorder_plug, ← horder]
      simpa [ColoredTree.inorder] using hremoved
  · have hnot : ¬(T.child .left z.ptr = T.nil ∨ T.child .right z.ptr = T.nil) := by
      rw [hleft, hright]
      exact fun h => hchild (h.imp hlnil.mp hrnil.mp)
    have hrne : r ≠ .leaf := fun h => hchild (.inr h)
    obtain ⟨ctx', c', b, u, rfl, hside, hmini⟩ :=
      outermost_spec (s := .left) hstored.into_flip hrne
    have hb' : (plug (ctx' ++ ⟨.right, c, ⟨z.ptr, b.key, b.value⟩, l⟩ :: ctx)
        (.join .right c' b u .leaf)).Balanced n := by
      rw [plug_append, plug_cons]
      refine balanced_plug_congr (fun m hm => ?_) ?_ hb
      · exact ColoredTree.Balanced.item (s := .left) hm
      · rfl
    have hroot' : (plug (ctx' ++ ⟨.right, c, ⟨z.ptr, b.key, b.value⟩, l⟩ :: ctx)
        (.join .right c' b u .leaf)).color = .black := by
      rw [plug_append, plug_cons, ← ht.root_black]
      exact color_plug_congr rfl
    have hbelow : At T (ctx' ++ ⟨.right, c, z, l⟩ :: ctx) (.join .right c' b u .leaf) :=
      at_append.mpr hstored.into_flip
    obtain ⟨T', t', hret, hnil', ht', horder'⟩ :=
      unlink_below hbelow ht.nil_black (left_of_balanced hb' hroot')
    have hchoose : Returns (nodeToUnlink · T z.ptr) b.ptr := hmini.congr fun turns => by
      rw [nodeToUnlink, if_neg hnot, rbtreeSuccessor, hright, if_pos fun h => hrne (hrnil.mp h)]
      rfl
    refine ⟨T', t', b.ptr, hchoose.bind hret, hnil', ht', ?_⟩
    · have hremoved := Removed.next (z := z) (before ctx ++ l.inorder)
        (u.inorder ++ (after ctx' ++ after ctx)) b
      rw [horder', inorder_plug, inorder_plug, before_append_right, after_append_right,
        ColoredTree.inorder, inorder_plug, before_of_left hside]
      simpa [ColoredTree.join, ColoredTree.inorder] using hremoved

end LearningCode.RbTree
