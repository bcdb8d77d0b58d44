import LearningCode.Lib.Fuel
import LearningCode.RbTree.Rotate

/-!
# The insert fixup

The loop carries a red node upwards; the only wrong thing in the whole tree is
that the node above it may be red as well.
-/

namespace LearningCode.RbTree

open RedBlack RedBlack.Context

variable {T : Rbtree} {s s' : Side} {c : Color} {x y z : Binding} {t u v v' w : ColoredTree Binding}
  {ctx : Context Binding} {f g : Frame Binding} {n : Nat}

theorem At.relatives (ht : At T (⟨s, .red, x, u⟩ :: ⟨s', c, y, w⟩ :: ctx) t) (hne : t ≠ .leaf)
    (hnil : (T.mem T.nil).color = .black) :
    T.parent (top T.nil t) = x.ptr ∧ T.parent x.ptr = y.ptr ∧
      T.child s'.flip y.ptr = top T.nil w ∧ T.color (top T.nil w) = w.color := by
  have hx := at_cons.mp ht
  exact ⟨ht.parent_eq hne, ht.parent_frame, hx.child_flip_frame, hx.sibling.color_top hnil⟩

theorem insertCase_red (ht : At T (⟨s, .red, x, u⟩ :: ⟨s', c, y, w⟩ :: ctx) t) (hne : t ≠ .leaf)
    (hw : w.color = .red) (hnil : (T.mem T.nil).color = .black) :
    ∃ T', insertCase s' T (top T.nil t) = (T', y.ptr) ∧ SameNil T T' ∧
      At T' ctx (.join s' .red y (.join s .black x t u) w.blacken) := by
  have hx := at_cons.mp ht
  have h₁ : At (T.setColor x.ptr .black) (⟨s', c, y, w⟩ :: ctx) (.join s .black x t u) :=
    At.setColor hx .black
  have hsame₁ := At.sameNil_setColor hx .black
  obtain ⟨h₂, hsame₂⟩ := h₁.sibling.blacken (hsame₁.mem ▸ hnil)
  have h₂ := h₂.sibling
  rw [Side.flip_flip] at h₂
  have hy := at_cons.mp h₂
  have h₃ := At.setColor hy .red
  refine ⟨_, ?_, (hsame₁.trans hsame₂).trans (At.sameNil_setColor hy .red), h₃⟩
  obtain ⟨htop, hxy, huncle, hcolor⟩ := ht.relatives hne hnil
  have hred : T.color (top T.nil w) = .red := hcolor.trans hw
  simp [insertCase, htop, hxy, huncle, hred]
  rfl

theorem raiseParent_spec (ht : At T (⟨s, .red, x, u⟩ :: ⟨s, c, y, w⟩ :: ctx) t)
    (hne : t ≠ .leaf) :
    SameNil T (raiseParent s T (top T.nil t)) ∧
      At (raiseParent s T (top T.nil t)) (⟨s, .black, x, .join s .red y u w⟩ :: ctx) t := by
  have hx := at_cons.mp ht
  have h₁ : At (T.setColor x.ptr .black) (⟨s, c, y, w⟩ :: ctx) (.join s .black x t u) :=
    At.setColor hx .black
  have hy := at_cons.mp h₁
  have h₂ := At.setColor hy .red
  rw [← ColoredTree.join_flip, ← ColoredTree.join_flip s .black] at h₂
  obtain ⟨h₃, hsame⟩ := h₂.rotate
  rw [ColoredTree.join_flip, ColoredTree.join_flip] at h₃
  have htop : T.parent (top T.nil t) = x.ptr := ht.parent_eq hne
  have hxy : T.parent x.ptr = y.ptr := ht.parent_frame
  have heq : raiseParent s T (top T.nil t) =
      rotate s.flip ((T.setColor x.ptr .black).setColor y.ptr .red) y.ptr := by
    simp [raiseParent, htop, hxy]
  rw [heq]
  exact ⟨((At.sameNil_setColor hx .black).trans (At.sameNil_setColor hy .red)).trans hsame,
    at_cons.mpr h₃⟩

theorem insertCase_outer (ht : At T (⟨s, .red, x, u⟩ :: ⟨s, c, y, w⟩ :: ctx) t)
    (hne : t ≠ .leaf) (hw : w.color = .black) (hnil : (T.mem T.nil).color = .black) :
    insertCase s T (top T.nil t) = (raiseParent s T (top T.nil t), top T.nil t) := by
  obtain ⟨htop, hxy, huncle, hcolor⟩ := ht.relatives hne hnil
  have hblack : T.color (top T.nil w) = .black := hcolor.trans hw
  have hinner : T.child s.flip x.ptr = top T.nil u := ht.child_flip_frame
  have houter : top T.nil t ≠ top T.nil u := ht.top_ne_sibling (.inl hne)
  simp [insertCase, raiseParent, htop, hxy, huncle, hblack, hinner, houter]

theorem insertCase_inner (ht : At T (⟨s.flip, .red, x, u⟩ :: ⟨s, c, y, w⟩ :: ctx) t)
    (hne : t ≠ .leaf) (hw : w.color = .black) (hnil : (T.mem T.nil).color = .black) :
    insertCase s T (top T.nil t) = (raiseParent s (rotate s T x.ptr) x.ptr, x.ptr) := by
  obtain ⟨htop, hxy, huncle, hcolor⟩ := ht.relatives hne hnil
  have hblack : T.color (top T.nil w) = .black := hcolor.trans hw
  have hinner : T.child s.flip x.ptr = top T.nil t := ht.child_frame
  simp [insertCase, raiseParent, htop, hxy, huncle, hblack, hinner]

/-- Under a red parent the case moves the red node up, or puts the parent right. -/
theorem insertCase_spec
    (ht : At T (⟨s, .red, x, u⟩ :: ⟨s', .black, y, w⟩ :: ctx) t) (hred : t.color = .red)
    (hb : t.Balanced n) (hfits : Fits (⟨s, .red, x, u⟩ :: ⟨s', .black, y, w⟩ :: ctx) n)
    (hnil : (T.mem T.nil).color = .black) :
    ∃ T' ctx' t' m, insertCase s' T (top T.nil t) = (T', top T'.nil t') ∧
      Moves T (plug (⟨s, .red, x, u⟩ :: ⟨s', .black, y, w⟩ :: ctx) t).inorder T' ctx' t' ∧
      ctx'.length ≤ ctx.length + 1 ∧ t'.color = .red ∧ t'.Balanced m ∧ Fits ctx' m := by
  have hne : t ≠ .leaf := by rintro rfl; cases hred
  obtain ⟨⟨hu, -⟩, hub, hwb, hctx⟩ := hfits
  cases hw : w.color with
  | red =>
    obtain ⟨T', hcase, hsame, h'⟩ := insertCase_red ht hne hw hnil
    obtain ⟨b, w₁, w₂, rfl⟩ := ColoredTree.exists_join_red s' hw
    have hbal := ColoredTree.balanced_join_red.mp hwb
    refine ⟨T', ctx, _, n + 1, ?_, ⟨hsame, h', ?_⟩, Nat.le_succ _, ColoredTree.color_join .., ?_, hctx⟩
    · rw [hcase, top_join]
    · refine inorder_plug_congr ?_
      cases s <;> cases s' <;> simp [Frame.fill, ColoredTree.join, ColoredTree.inorder]
    · rw [ColoredTree.balanced_join_red, ColoredTree.blacken_join, ColoredTree.balanced_join_black,
        ColoredTree.balanced_join_black]
      exact ⟨⟨ColoredTree.color_join .., ColoredTree.color_join ..⟩, ⟨hb, hub⟩, hbal.2⟩
  | black =>
    obtain hside | hside := Side.eq_or_eq_flip s' s
    · subst hside
      have hcase := insertCase_outer ht hne hw hnil
      obtain ⟨hsame, h'⟩ := raiseParent_spec ht hne
      refine ⟨_, _, t, n, ?_, ⟨hsame, h', ?_⟩, Nat.le_refl _, hred, hb, ?_, hctx⟩
      · rw [hcase, hsame.nil]
      · simp only [plug_cons]
        refine inorder_plug_congr ?_
        cases s <;> simp [Frame.fill, ColoredTree.join, ColoredTree.inorder]
      · exact ColoredTree.balanced_join_red.mpr ⟨⟨hu, hw⟩, hub, hwb⟩
    · subst hside
      have hcase := insertCase_inner ht hne hw hnil
      obtain ⟨z, v, v', rfl⟩ := ColoredTree.exists_join_red s' hred
      obtain ⟨⟨hv, hv'⟩, hvb, hvb'⟩ := ColoredTree.balanced_join_red.mp hb
      have hx := at_cons.mp ht
      rw [Frame.fill, ColoredTree.join_flip] at hx
      obtain ⟨h₁, hsame₁⟩ := At.rotate hx
      have hz : At (rotate s' T x.ptr) (⟨s', .red, z, v'⟩ :: ⟨s', .black, y, w⟩ :: ctx)
          (.join s' .red x u v) := at_cons.mpr h₁
      obtain ⟨hsame₂, h₂⟩ := raiseParent_spec hz ColoredTree.join_ne_leaf
      rw [top_join] at hsame₂ h₂
      refine ⟨_, _, _, n, ?_, ⟨hsame₁.trans hsame₂, h₂, ?_⟩, Nat.le_refl _, ColoredTree.color_join ..,
        ColoredTree.balanced_join_red.mpr ⟨⟨hu, hv⟩, hub, hvb⟩, ?_, hctx⟩
      · rw [hcase, top_join]
      · simp only [plug_cons]
        refine inorder_plug_congr ?_
        cases s' <;> simp [Frame.fill, ColoredTree.join, ColoredTree.inorder, Side.flip]
      · exact ColoredTree.balanced_join_red.mpr ⟨⟨hv', hw⟩, hvb', hwb⟩

theorem insertFixupLoop_spec (ht : At T ctx t) (hred : t.color = .red) (hb : t.Balanced n)
    (hfits : Fits ctx n) (hnil : (T.mem T.nil).color = .black) :
    ∃ T', Returns (insertFixupLoop · T (top T.nil t)) T' ∧ Fixed T (plug ctx t).inorder T' := by
  obtain ⟨k, hk⟩ : ∃ k, k = ctx.length := ⟨_, rfl⟩
  induction k using Nat.strongRecOn generalizing T ctx t n with
  | ind k ih =>
    have hne : t ≠ .leaf := by rintro rfl; cases hred
    have hpar : T.color (T.parent (top T.nil t)) = (Context.color ctx).getD .black := by
      rw [ht.parent_top fun h => absurd h hne, ht.color_up hnil]
    by_cases hup : Context.color ctx = some .red
    · obtain ⟨s, x, u, s', y, w, ctx, rfl⟩ : ∃ s x u s' y w ctx',
          ctx = ⟨s, .red, x, u⟩ :: ⟨s', .black, y, w⟩ :: ctx' := by
        cases ctx with
        | nil => cases hup
        | cons f ctx =>
          obtain ⟨s, c, x, u⟩ := f
          cases hup
          cases ctx with
          | nil => cases hfits.1.2
          | cons g ctx =>
            obtain ⟨s', c, y, w⟩ := g
            cases hfits.1.2
            exact ⟨s, x, u, s', y, w, ctx, rfl⟩
      obtain ⟨T₁, ctx₁, t₁, m, hcase, hmoves, hlen, hred₁, hb₁, hfits₁⟩ :=
        insertCase_spec ht hred hb hfits hnil
      have hnil₁ := hmoves.same.black hnil
      obtain ⟨T', hloop, t', m', hmoves', hb'⟩ :=
        ih ctx₁.length (by simp only [hk, List.length_cons]; omega) hmoves.at_hole hred₁ hb₁ hfits₁
          hnil₁ rfl
      have hside : sideOf T (T.parent (top T.nil t)) = s' := by
        rw [ht.parent_eq hne]
        have hx := at_cons.mp ht
        have hside := hx.sideOf_eq (.inl ColoredTree.join_ne_leaf)
          fun h => absurd h ColoredTree.join_ne_leaf
        rwa [Frame.fill, top_join] at hside
      refine ⟨T', hloop.turn fun turns => ?_, t', m', ⟨hmoves.same.trans hmoves'.same,
        hmoves'.at_hole, hmoves'.order.trans hmoves.order⟩, hb'⟩
      rw [insertFixupLoop, hpar, hup, hside, hcase]
      rfl
    · have hstop : T.color (T.parent (top T.nil t)) ≠ .red := by
        rw [hpar]
        cases hc : Context.color ctx with
        | none => decide
        | some c => exact fun h => hup (hc.trans (congrArg some h))
      obtain ⟨m, hm⟩ := hfits.plug hb (.inr hup)
      refine ⟨T, .last fun turns => ?_, _, m, ⟨.refl T, ht.whole, rfl⟩, hm⟩
      rw [insertFixupLoop, if_neg hstop]

theorem rbtreeInsertFixup_spec (ht : At T ctx t) (hred : t.color = .red) (hb : t.Balanced n)
    (hfits : Fits ctx n) (hnil : (T.mem T.nil).color = .black) :
    ∃ T' t', Returns (rbtreeInsertFixup · T (top T.nil t)) T' ∧ T'.nil = T.nil ∧
      RedBlackTree T' t' ∧ t'.inorder = (plug ctx t).inorder := by
  obtain ⟨T₁, hloop, t₁, m, ⟨hsame, h₁, horder⟩, hb₁⟩ :=
    insertFixupLoop_spec ht hred hb hfits hnil
  have hnil₁ := hsame.black hnil
  obtain ⟨h₂, hsame₂⟩ := h₁.blacken hnil₁
  refine ⟨_, t₁.blacken, hloop.bind (.const fun turns => rfl), (hsame.trans hsame₂).nil,
    ⟨?_, ?_, ColoredTree.color_blacken _, hb₁.blacken⟩, ?_⟩
  · rwa [h₁.root_eq]
  · rw [h₁.root_eq]
    exact hsame₂.black hnil₁
  · exact (ColoredTree.inorder_blacken t₁).trans horder

end LearningCode.RbTree
