import LearningCode.Lib.Fuel
import LearningCode.RbTree.Rotate

/-!
# The delete fixup

The loop carries a subtree upwards that is one black node short; all else is in
order. The subtree may be a leaf, which finds its parent through the sentinel.
-/

namespace LearningCode.RbTree

open RedBlack RedBlack.Context

variable {T T' : Rbtree} {s : Side} {c : Color} {p x : Binding} {t u a b w : ColoredTree Binding}
  {ctx : Context Binding} {f : Frame Binding} {n : Nat}

/-- `t` sits in the hole of `ctx` and finds its parent, also if it is a leaf. -/
structure Hole (T : Rbtree) (ctx : Context Binding) (t : ColoredTree Binding) : Prop where
  at_hole : At T ctx t
  nil_black : (T.mem T.nil).color = .black
  nil_parent : t = .leaf → (T.mem T.nil).parent = up T.nil ctx

theorem Hole.parent (h : Hole T (f :: ctx) t) : T.parent (top T.nil t) = f.item.ptr :=
  h.at_hole.parent_top h.nil_parent

theorem Hole.moves {l : List Binding} {g : Frame Binding} {ctx' : Context Binding}
    (h : Hole T (f :: ctx) t) (hm : Moves T l T' (g :: ctx') t) (hg : g.item.ptr = f.item.ptr) :
    Hole T' (g :: ctx') t := by
  refine ⟨hm.at_hole, hm.same.black h.nil_black, fun ht => ?_⟩
  rw [hm.same.nil, hm.same.mem, h.nil_parent ht]
  exact hg.symm

theorem deleteCase1_spec (h : Hole T (⟨s, c, p, w⟩ :: ctx) t)
    (hfits : Fits (⟨s, c, p, w⟩ :: ctx) (n + 1)) :
    ∃ T' c' w' ctx', deleteCase1 s T (top T.nil t) (top T.nil w) = (T', top T'.nil w') ∧
      Moves T (plug (⟨s, c, p, w⟩ :: ctx) t).inorder T' (⟨s, c', p, w'⟩ :: ctx') t ∧
      w'.color = .black ∧ Fits (⟨s, c', p, w'⟩ :: ctx') (n + 1) ∧ (c' = .red ∨ ctx' = ctx) := by
  have hcolor := h.at_hole.sibling.color_top h.nil_black
  cases hw : w.color with
  | black =>
    refine ⟨T, c, w, ctx, ?_, ⟨.refl T, h.at_hole, rfl⟩, hw, hfits, .inr rfl⟩
    rw [deleteCase1, if_neg]
    rw [hcolor, hw]
    exact fun h => (nomatch h)
  | red =>
    cases c with
    | red => exact (nomatch hw.symm.trans hfits.1.1)
    | black =>
      obtain ⟨z, w₁, w₂, rfl⟩ := ColoredTree.exists_join_red s hw
      obtain ⟨hwb, hctx⟩ := hfits
      obtain ⟨⟨hw₁, hw₂⟩, hb₁, hb₂⟩ := ColoredTree.balanced_join_red.mp hwb
      have hz := h.at_hole.sibling
      have hp := (At.setColor hz .black).out_flip
      obtain ⟨h₃, hsame₃⟩ := At.rotate (At.setColor hp .red)
      have hsame := ((At.sameNil_setColor hz .black).trans (At.sameNil_setColor hp .red)).trans hsame₃
      have hmoves : Moves T (plug (⟨s, .black, p, .join s .red z w₁ w₂⟩ :: ctx) t).inorder
          (rotate s ((T.setColor z.ptr .black).setColor p.ptr .red) p.ptr)
          (⟨s, .red, p, w₁⟩ :: ⟨s, .black, z, w₂⟩ :: ctx) t := by
        refine ⟨hsame, h₃.into.into, ?_⟩
        simp only [plug_cons]
        refine inorder_plug_congr ?_
        cases s <;> simp [Frame.fill, ColoredTree.join, ColoredTree.inorder]
      have h' := h.moves hmoves rfl
      refine ⟨_, .red, w₁, ⟨s, .black, z, w₂⟩ :: ctx, ?_, hmoves, hw₁,
        ⟨⟨hw₁, rfl⟩, hb₁, hb₂, hctx⟩, .inl rfl⟩
      have hpar : (T.setColor z.ptr .black).parent (top T.nil t) = p.ptr := by simp [h.parent]
      have hpar' := h'.parent
      rw [hsame.nil] at hpar'
      rw [deleteCase1, if_pos (hcolor.trans hw), top_join]
      have hpar₂ : ((T.setColor z.ptr .black).setColor p.ptr .red).parent (top T.nil t) = p.ptr := by
        simp [h.parent]
      simp only [hpar, hpar₂, hpar']
      exact congrArg (Prod.mk _) h'.at_hole.child_flip_frame

/-- Case 3 leaves a sibling whose outer child is red. -/
theorem deleteCase3_spec (h : Hole T (⟨s, c, p, .join s .black x a b⟩ :: ctx) t)
    (ha : a.Balanced n) (hb : b.Balanced n) (hred : ¬(a.color = .black ∧ b.color = .black)) :
    ∃ T' x' a' b', deleteCase3 s T (top T.nil t) x.ptr = (T', x'.ptr) ∧
      Moves T (plug (⟨s, c, p, .join s .black x a b⟩ :: ctx) t).inorder T'
        (⟨s, c, p, .join s .black x' a' b'⟩ :: ctx) t ∧
      a'.Balanced n ∧ b'.Balanced n ∧ b'.color = .red := by
  have hx : At T (⟨s.flip, c, p, t⟩ :: ctx) (.join s .black x a b) := h.at_hole.sibling
  have hinner : T.child s x.ptr = top T.nil a := by rw [Rbtree.child, hx.cell, child_cell]
  have houter : T.child s.flip x.ptr = top T.nil b := by
    rw [Rbtree.child, hx.cell, child_flip_cell]
  have hcolor := hx.into_flip.color_top h.nil_black
  cases hbc : b.color with
  | red =>
    refine ⟨T, x, a, b, ?_, ⟨.refl T, h.at_hole, rfl⟩, ha, hb, hbc⟩
    rw [deleteCase3, if_neg]
    rw [houter, hcolor, hbc]
    decide
  | black =>
    have hac : a.color = .red := by
      cases hac : a.color with
      | red => rfl
      | black => exact absurd ⟨hac, hbc⟩ hred
    obtain ⟨z, u, v, rfl⟩ := ColoredTree.exists_join_red s hac
    obtain ⟨⟨hu, hv⟩, hub, hvb⟩ := ColoredTree.balanced_join_red.mp ha
    have hz := hx.into
    have h₁ := (At.setColor hz .black).out
    have h₂ := At.setColor h₁ .red
    rw [← ColoredTree.join_flip s .red, ← ColoredTree.join_flip s .black z] at h₂
    obtain ⟨h₃, hsame₃⟩ := At.rotate h₂
    rw [ColoredTree.join_flip, ColoredTree.join_flip] at h₃
    have h₄ := h₃.sibling
    rw [Side.flip_flip] at h₄
    have hsame := ((At.sameNil_setColor hz .black).trans (At.sameNil_setColor h₁ .red)).trans hsame₃
    have hmoves : Moves T (plug (⟨s, c, p, .join s .black x (.join s .red z u v) b⟩ :: ctx) t).inorder
        (rotate s.flip ((T.setColor z.ptr .black).setColor x.ptr .red) x.ptr)
        (⟨s, c, p, .join s .black z u (.join s .red x v b)⟩ :: ctx) t := by
      refine ⟨hsame, h₄, ?_⟩
      simp only [plug_cons]
      refine inorder_plug_congr ?_
      cases s <;> simp [Frame.fill, ColoredTree.join, ColoredTree.inorder]
    have h' := h.moves hmoves rfl
    have hpar' := h'.parent
    rw [hsame.nil] at hpar'
    refine ⟨_, z, u, _, ?_, hmoves, hub, ColoredTree.balanced_join_red.mpr ⟨⟨hv, hbc⟩, hvb, hb⟩,
      ColoredTree.color_join ..⟩
    rw [top_join] at hinner
    rw [deleteCase3, if_pos (by rw [houter, hcolor, hbc])]
    simp only [hinner, hpar']
    exact congrArg (Prod.mk _) (h'.at_hole.child_flip_frame.trans top_join)

/-- Case 4 makes up for the missing black node, and is the end. -/
theorem deleteCase4_spec (h : Hole T (⟨s, c, p, .join s .black x a b⟩ :: ctx) t)
    (ht : t.Balanced n) (ha : a.Balanced n) (hb : b.Balanced n) (hred : b.color = .red)
    (hfits : Fits (⟨s, c, p, .join s .black x a b⟩ :: ctx) (n + 1)) :
    ∃ T' t' m, deleteCase4 s T (top T.nil t) x.ptr = (T', top T'.nil t') ∧
      Moves T (plug (⟨s, c, p, .join s .black x a b⟩ :: ctx) t).inorder T' [] t' ∧
      t'.Balanced m := by
  obtain ⟨z, u, v, rfl⟩ := ColoredTree.exists_join_red s hred
  have hx : At T (⟨s.flip, c, p, t⟩ :: ctx) (.join s .black x a (.join s .red z u v)) :=
    h.at_hole.sibling
  have hp := (At.setColor hx c).out_flip
  have h₂ := At.setColor hp .black
  have hz := h₂.into_flip.into_flip
  have h₃ := (At.setColor hz .black).out_flip.out_flip
  obtain ⟨h₄, hsame₄⟩ := At.rotate h₃
  have hsame := (((At.sameNil_setColor hx c).trans (At.sameNil_setColor hp .black)).trans
    (At.sameNil_setColor hz .black)).trans hsame₄
  have hbal := ColoredTree.balanced_join_red.mp hb
  have houter : ((T.setColor x.ptr c).setColor p.ptr .black).child s.flip x.ptr = z.ptr := by
    rw [Rbtree.child, h₂.into_flip.cell, child_flip_cell, top_join]
  have hwhole := h₄.whole
  obtain ⟨m, hm⟩ : ∃ m, (plug ctx
      (.join s c x (.join s .black p t a) (.join s .black z u v))).Balanced m := by
    cases c with
    | red =>
      obtain ⟨⟨-, hc⟩, -, hctx⟩ := hfits
      refine hctx.plug (ColoredTree.balanced_join_red.mpr
        ⟨⟨ColoredTree.color_join .., ColoredTree.color_join ..⟩,
          ColoredTree.balanced_join_black.mpr ⟨ht, ha⟩,
          ColoredTree.balanced_join_black.mpr hbal.2⟩) (.inr ?_)
      exact fun h => absurd (hc.symm.trans h) (by decide)
    | black =>
      exact hfits.2.plug (ColoredTree.balanced_join_black.mpr ⟨ColoredTree.balanced_join_black.mpr ⟨ht, ha⟩,
        ColoredTree.balanced_join_black.mpr hbal.2⟩) (.inl (ColoredTree.color_join ..))
  refine ⟨_, _, m, ?_, ⟨hsame, hwhole, ?_⟩, hm⟩
  · have hpar := h.parent
    have hcolor : T.color p.ptr = c := h.at_hole.color_frame
    simp only [deleteCase4, Rbtree.parent_setColor, hpar, hcolor, houter]
    rw [← hwhole.root_eq]
  · simp only [plug_cons, plug_nil]
    refine inorder_plug_congr ?_
    cases s <;> simp [Frame.fill, ColoredTree.join, ColoredTree.inorder]

/-- `t` is one black node short of what `ctx` asks for, unless its red root makes up for it. -/
def Short (ctx : Context Binding) (t : ColoredTree Binding) : Prop :=
  ∃ n, Fits ctx (n + 1) ∧
    ((t.color = .black ∧ t.Balanced n) ∨ (t.color = .red ∧ t.blacken.Balanced (n + 1)))

/-- One turn: the tree is whole again, or the shortage is one node further up,
or it sits on a red node. -/
theorem deleteCase_spec (h : Hole T (f :: ctx) t) (ht : t.color = .black)
    (hshort : Short (f :: ctx) t) :
    ∃ T' ctx' t', deleteCase f.side T (top T.nil t) = (T', top T'.nil t') ∧
      Moves T (plug (f :: ctx) t).inorder T' ctx' t' ∧
      ((ctx' = [] ∧ ∃ n, t'.Balanced n) ∨
        (Short ctx' t' ∧ t' ≠ .leaf ∧ (t'.color = .red ∨ ctx' = ctx))) := by
  obtain ⟨s, c, p, w⟩ := f
  obtain ⟨n, hfits, ⟨-, hb⟩ | ⟨hred, -⟩⟩ := hshort
  · obtain ⟨T₁, c₁, w₁, ctx₁, hcase₁, hm₁, hw₁, hfits₁, hctx₁⟩ := deleteCase1_spec h hfits
    have h₁ := h.moves hm₁ rfl
    have hwb : w₁.Balanced (n + 1) := by
      cases c₁ with
      | red => exact hfits₁.2.1
      | black => exact hfits₁.1
    obtain ⟨x, a, b, rfl, ha, hbb⟩ := hwb.exists_join hw₁ s
    have hx := h₁.at_hole.sibling
    have hinner : T₁.color (T₁.child s x.ptr) = a.color := by
      rw [Rbtree.child, hx.cell, child_cell]
      exact hx.into.color_top h₁.nil_black
    have houter : T₁.color (T₁.child s.flip x.ptr) = b.color := by
      rw [Rbtree.child, hx.cell, child_flip_cell]
      exact hx.into_flip.color_top h₁.nil_black
    have hwread : T.child s.flip (T.parent (top T.nil t)) = top T.nil w := by
      rw [h.parent]
      exact h.at_hole.child_flip_frame
    have hpar₁ := h₁.parent
    rw [hm₁.same.nil] at hpar₁
    by_cases htwo : a.color = .black ∧ b.color = .black
    · -- Case 2: the sibling loses its black too, and the parent is one short.
      have hp := (At.setColor hx .red).out_flip
      have hred : (ColoredTree.join s .red x a b).Balanced n :=
        ColoredTree.balanced_join_red.mpr ⟨htwo, ha, hbb⟩
      refine ⟨T₁.setColor x.ptr .red, ctx₁, .join s c₁ p t (.join s .red x a b), ?_,
        ⟨hm₁.same.trans (At.sameNil_setColor hx .red), hp, ?_⟩, .inr ⟨?_, ColoredTree.join_ne_leaf, ?_⟩⟩
      · rw [deleteCase, hwread, hcase₁]
        simp only [top_join, hinner, houter, if_pos htwo, Rbtree.parent_setColor, hpar₁]
      · rw [← hm₁.order, plug_cons]
        refine inorder_plug_congr ?_
        cases s <;> simp [Frame.fill, ColoredTree.join, ColoredTree.inorder]
      · cases c₁ with
        | red =>
          refine ⟨n, hfits₁.2.2, .inr ⟨ColoredTree.color_join .., ?_⟩⟩
          rw [ColoredTree.blacken_join]
          exact ColoredTree.balanced_join_black.mpr ⟨hb, hred⟩
        | black =>
          exact ⟨n + 1, hfits₁.2,
            .inl ⟨ColoredTree.color_join .., ColoredTree.balanced_join_black.mpr ⟨hb, hred⟩⟩⟩
      · exact hctx₁.imp_left fun hc => (ColoredTree.color_join ..).trans hc
    · obtain ⟨T₂, x', a', b', hcase₃, hm₂, ha', hb', hred⟩ := deleteCase3_spec h₁ ha hbb htwo
      have hfits₂ : Fits (⟨s, c₁, p, .join s .black x' a' b'⟩ :: ctx₁) (n + 1) := by
        have hsib := ColoredTree.balanced_join_black (s := s) (a := x') |>.mpr ⟨ha', hb'⟩
        cases c₁ with
        | red => exact ⟨⟨ColoredTree.color_join .., hfits₁.1.2⟩, hsib, hfits₁.2.2⟩
        | black => exact ⟨hsib, hfits₁.2⟩
      obtain ⟨T₃, t₃, m, hcase₄, hm₃, hb₃⟩ :=
        deleteCase4_spec (h₁.moves hm₂ rfl) hb ha' hb' hred hfits₂
      refine ⟨T₃, [], t₃, ?_, ⟨(hm₁.same.trans hm₂.same).trans hm₃.same, hm₃.at_hole,
        hm₃.order.trans (hm₂.order.trans hm₁.order)⟩, .inl ⟨rfl, m, hb₃⟩⟩
      rw [hm₂.same.nil, hm₁.same.nil] at hcase₄
      rw [hm₁.same.nil] at hcase₃
      rw [deleteCase, hwread, hcase₁]
      simp only [top_join, hinner, houter, if_neg htwo, hcase₃, hcase₄]
  · exact absurd (ht.symm.trans hred) (by decide)

theorem deleteFixupLoop_stop (h : At T ctx t) (hnil : (T.mem T.nil).color = .black)
    (hstop : ctx = [] ∨ t.color = .red) :
    Returns (deleteFixupLoop · T (top T.nil t)) (T, top T.nil t) := by
  refine .last fun turns => ?_
  rw [deleteFixupLoop, if_neg]
  rintro ⟨hroot, hblack⟩
  rw [h.color_top hnil] at hblack
  obtain hctx | hred := hstop
  · exact hroot (h.top_eq_root_iff.mpr hctx)
  · exact (nomatch hblack.symm.trans hred)

theorem Short.blacken (h : Short ctx t) (hstop : ctx = [] ∨ t.color = .red) :
    (∃ n, (plug ctx t.blacken).Balanced n) ∧ (plug ctx t.blacken).color = .black := by
  obtain ⟨n, hfits, ⟨hblack, hb⟩ | ⟨-, hb⟩⟩ := h
  · cases hstop.resolve_right fun hred => (nomatch hblack.symm.trans hred)
    exact ⟨hb.blacken, ColoredTree.color_blacken t⟩
  · refine ⟨hfits.plug hb (.inl (ColoredTree.color_blacken t)), ?_⟩
    cases ctx with
    | nil => exact ColoredTree.color_blacken t
    | cons f ctx => exact hfits.root_black _

theorem deleteFixupLoop_spec (h : Hole T ctx t) (hshort : Short ctx t) :
    ∃ T' ctx' t', Returns (deleteFixupLoop · T (top T.nil t)) (T', top T'.nil t') ∧
      Moves T (plug ctx t).inorder T' ctx' t' ∧ (∃ n, (plug ctx' t'.blacken).Balanced n) ∧
      (plug ctx' t'.blacken).color = .black := by
  obtain ⟨k, hk⟩ : ∃ k, k = ctx.length := ⟨_, rfl⟩
  induction k using Nat.strongRecOn generalizing T ctx t with
  | ind k ih =>
    by_cases hstop : ctx = [] ∨ t.color = .red
    · exact ⟨T, ctx, t, deleteFixupLoop_stop h.at_hole h.nil_black hstop, ⟨.refl T, h.at_hole, rfl⟩,
        hshort.blacken hstop⟩
    · obtain ⟨hctx, hred⟩ := not_or.mp hstop
      have hblack : t.color = .black := by
        cases hc : t.color with
        | red => exact absurd hc hred
        | black => rfl
      cases ctx with
      | nil => exact absurd rfl hctx
      | cons f ctx =>
        have hsib : f.sibling ≠ .leaf := by
          obtain ⟨s, c, b, w⟩ := f
          obtain ⟨n, hfits, -⟩ := hshort
          rintro rfl
          cases c with
          | red => exact (nomatch hfits.2.1)
          | black => exact (nomatch hfits.1)
        have hturn : ∀ turns T' x', deleteCase f.side T (top T.nil t) = (T', x') →
            deleteFixupLoop (turns + 1) T (top T.nil t) = deleteFixupLoop turns T' x' := by
          intro turns T' x' hcase
          have hcolor := h.at_hole.color_top h.nil_black
          rw [deleteFixupLoop, if_pos, h.at_hole.sideOf_eq (.inr hsib) h.nil_parent, hcase]
          exact ⟨fun heq => hctx (h.at_hole.top_eq_root_iff.mp heq), hcolor.trans hblack⟩
        obtain ⟨T₁, ctx₁, t₁, hcase, hm, ⟨rfl, n, hb⟩ | ⟨hshort₁, hne, hor⟩⟩ :=
          deleteCase_spec h hblack hshort
        · have hloop := deleteFixupLoop_stop hm.at_hole (hm.same.black h.nil_black) (.inl rfl)
          exact ⟨T₁, [], t₁, hloop.turn fun turns => hturn turns _ _ hcase, hm, hb.blacken,
            ColoredTree.color_blacken t₁⟩
        · have hloop : ∃ T' ctx' t', Returns (deleteFixupLoop · T₁ (top T₁.nil t₁))
              (T', top T'.nil t') ∧ Moves T₁ (plug ctx₁ t₁).inorder T' ctx' t' ∧
              (∃ n, (plug ctx' t'.blacken).Balanced n) ∧
              (plug ctx' t'.blacken).color = .black := by
            obtain hred₁ | rfl := hor
            · exact ⟨T₁, ctx₁, t₁, deleteFixupLoop_stop hm.at_hole (hm.same.black h.nil_black)
                (.inr hred₁), ⟨.refl T₁, hm.at_hole, rfl⟩, hshort₁.blacken (.inr hred₁)⟩
            · exact ih ctx₁.length (by rw [hk]; exact Nat.lt_succ_self _)
                ⟨hm.at_hole, hm.same.black h.nil_black, fun h => absurd h hne⟩ hshort₁ rfl
          obtain ⟨T', ctx', t', hret, hm', hwhole⟩ := hloop
          exact ⟨T', ctx', t', hret.turn fun turns => hturn turns _ _ hcase,
            ⟨hm.same.trans hm'.same, hm'.at_hole, hm'.order.trans hm.order⟩, hwhole⟩

theorem rbtreeDeleteFixup_spec (h : Hole T ctx t) (hshort : Short ctx t) :
    ∃ T' t', Returns (rbtreeDeleteFixup · T (top T.nil t)) T' ∧ T'.nil = T.nil ∧
      RedBlackTree T' t' ∧ t'.inorder = (plug ctx t).inorder := by
  obtain ⟨T₁, ctx₁, t₁, hloop, hm, hb, hroot⟩ := deleteFixupLoop_spec h hshort
  obtain ⟨h₂, hsame₂⟩ := hm.at_hole.blacken (hm.same.black h.nil_black)
  have hblack := hsame₂.black (hm.same.black h.nil_black)
  refine ⟨_, _, hloop.bind (.const fun turns => rfl), (hm.same.trans hsame₂).nil,
    ⟨h₂.whole, hblack, hroot, hb⟩, ?_⟩
  rw [inorder_plug_congr (ColoredTree.inorder_blacken t₁), hm.order]

end LearningCode.RbTree
