import LearningCode.Nginx.View
import LearningCode.RbTree.InsertFixup
import LearningCode.RbTree.DeleteFixup

/-!
# The two loops

The loops of `ngx_rbtree_insert` and of `ngx_rbtree_delete` go through the trees that
those of `rbtree_insert_fixup` and of `rbtree_delete_fixup` go through.
-/

namespace LearningCode.Nginx

open RedBlack RedBlack.Context
open RbTree (Rbtree Binding At top up cell ptrs Moves Fixed RedBlackTree SameNil)

variable {T T' : NgxRbtree} {s s' : Side} {c : Color} {p node : Ptr} {x y : Binding}
  {t u v w : ColoredTree Binding} {ctx : Context Binding} {f g : Frame Binding} {n : Nat}

-- ---------------------------------------------------------------------------
-- What the code reads
-- ---------------------------------------------------------------------------

theorem top_ne_root (ht : At (view T) (f :: ctx) t) : top T.sentinel t ≠ T.root :=
  fun h => absurd (ht.top_eq_root_iff.mp h) (List.cons_ne_nil _ _)

theorem parent_top (ht : At (view T) (f :: ctx) t) (hne : t ≠ .leaf) :
    T.parent (top T.sentinel t) = f.item.ptr :=
  (parent_view (top_ne_root ht)).symm.trans (ht.parent_eq hne)

theorem item_ne_root (ht : At (view T) (f :: g :: ctx) t) : f.item.ptr ≠ T.root := by
  have hroot := top_ne_root (RbTree.at_cons.mp ht)
  rwa [Frame.fill, RbTree.top_join] at hroot

theorem parent_item (ht : At (view T) (f :: g :: ctx) t) : T.parent f.item.ptr = g.item.ptr :=
  (parent_view (item_ne_root ht)).symm.trans ht.parent_frame

theorem view_sideOf (h : p ≠ T.root) : sideOf T p = RbTree.sideOf (view T) p := by
  rw [sideOf, RbTree.sideOf, parent_view h, child_view]

-- ---------------------------------------------------------------------------
-- The loop
-- ---------------------------------------------------------------------------

theorem view_raiseParent (ht : At (view T) (⟨s, .red, x, u⟩ :: ⟨s, c, y, w⟩ :: ctx) t)
    (hne : t ≠ .leaf) :
    view (raiseParent s T (top T.sentinel t)) =
      RbTree.raiseParent s (view T) (top T.sentinel t) := by
  have hx := RbTree.at_cons.mp ht
  have h₁ : At ((view T).setColor x.ptr .black) (⟨s, c, y, w⟩ :: ctx) (.join s .black x t u) :=
    At.setColor hx .black
  have h₂ := At.setColor (RbTree.at_cons.mp h₁) .red
  rw [← ColoredTree.join_flip, ← ColoredTree.join_flip s .black] at h₂
  have htop := parent_top ht hne
  have hxy := parent_item ht
  have htop' : (view T).parent (top T.sentinel t) = x.ptr := ht.parent_eq hne
  have hxy' : (view T).parent x.ptr = y.ptr := ht.parent_frame
  have hrotate := view_rotate (T := (T.setColor x.ptr .black).setColor y.ptr .red)
    (by rw [view_setColor, view_setColor]; exact h₂)
  simp only [view_setColor] at hrotate
  simpa [raiseParent, RbTree.raiseParent, htop, hxy, htop', hxy'] using hrotate

theorem view_insertCase (ht : At (view T) (⟨s, .red, x, u⟩ :: ⟨s', .black, y, w⟩ :: ctx) t)
    (hred : t.color = .red) :
    (view (insertCase s' T (top T.sentinel t)).1, (insertCase s' T (top T.sentinel t)).2) =
      RbTree.insertCase s' (view T) (top T.sentinel t) := by
  have hne : t ≠ .leaf := by rintro rfl; cases hred
  have htop := parent_top ht hne
  have hxy := parent_item ht
  have htop' : (view T).parent (top T.sentinel t) = x.ptr := ht.parent_eq hne
  have hxy' : (view T).parent x.ptr = y.ptr := ht.parent_frame
  by_cases huncle : T.color (T.child s'.flip y.ptr) = .red
  · simp [insertCase, RbTree.insertCase, htop, hxy, htop', hxy', huncle]
  · obtain hside | hside := Side.eq_or_eq_flip s' s
    · subst hside
      have hinner : (view T).child s.flip x.ptr = top T.sentinel u := ht.child_flip_frame
      have houter : top T.sentinel t ≠ top T.sentinel u := ht.top_ne_sibling (.inl hne)
      rw [child_view] at hinner
      simp [insertCase, RbTree.insertCase, htop, hxy, htop', hxy', huncle, hinner, houter,
        view_raiseParent ht hne]
    · subst hside
      obtain ⟨z, v, v', rfl⟩ := ColoredTree.exists_join_red s' hred
      have hinner : (view T).child s'.flip x.ptr = z.ptr := by
        have hchild := ht.child_frame
        rwa [RbTree.top_join] at hchild
      rw [child_view] at hinner
      have hx := RbTree.at_cons.mp ht
      rw [Frame.fill, ColoredTree.join_flip] at hx
      have hrotate := view_rotate hx
      have hz := (At.rotate hx).1
      rw [← hrotate] at hz
      have hraise := view_raiseParent (RbTree.at_cons.mpr hz) ColoredTree.join_ne_leaf
      rw [RbTree.top_join, hrotate] at hraise
      simp only [RbTree.top_join] at htop htop'
      simp [insertCase, RbTree.insertCase, htop, hxy, htop', hxy', huncle, hinner, hraise]

@[simp] theorem raiseParent_insert : (raiseParent s T node).insert = T.insert := rotate_insert

@[simp] theorem insertCase_insert : (insertCase s T node).1.insert = T.insert := by
  unfold insertCase
  dsimp only
  split
  · rfl
  · split
    · exact raiseParent_insert.trans rotate_insert
    · exact raiseParent_insert

/-- The two loops turn at the same nodes. -/
theorem turns_iff (hblack : T.color T.sentinel = .black) :
    (node ≠ T.root ∧ T.color (T.parent node) = .red) ↔
      (view T).color ((view T).parent node) = .red := by
  by_cases h : node = T.root
  · subst h
    rw [parent_view_root, color_view, hblack]
    simp
  · rw [parent_view h, color_view, and_iff_right h]

/-- Where the loop is: at the new node, or at one the red has moved up to. -/
structure Climbing (T : NgxRbtree) (node : Ptr) : Prop where
  black : T.color T.sentinel = .black
  climbs : ∃ ctx t n, At (view T) ctx t ∧ node = top T.sentinel t ∧ t.color = .red ∧
    t.Balanced n ∧ Fits ctx n

theorem view_insertLoop {V : Rbtree} {turns : Nat} (h : Climbing T node)
    (hrun : RbTree.insertFixupLoop turns (view T) node = some V) :
    ∃ T', Returns (insertLoop · T node) T' ∧ view T' = V ∧ T'.insert = T.insert := by
  induction turns generalizing T node with
  | zero => cases hrun
  | succ turns ih =>
    obtain ⟨hblack, ctx, t, n, hat, rfl, hred, hb, hfits⟩ := h
    have hne : t ≠ .leaf := by rintro rfl; cases hred
    rw [RbTree.insertFixupLoop] at hrun
    split at hrun
    next hturn =>
      have hup : Context.color ctx = some .red := by
        have hpar := hat.parent_top fun h => absurd h hne
        rw [view_nil] at hpar
        have hcolor := hat.color_up hblack
        rw [hpar] at hturn
        rw [view_nil, hturn] at hcolor
        cases hc : Context.color ctx with
        | none => rw [hc] at hcolor; cases hcolor
        | some c => rw [hc] at hcolor; exact congrArg some hcolor.symm
      obtain ⟨s, x, u, s', y, w, ctx, rfl⟩ := hfits.exists_frames hup
      obtain ⟨V₁, ctx₁, t₁, m, hcase, hmoves, -, hred₁, hb₁, hfits₁⟩ :=
        RbTree.insertCase_spec hat hred hb hfits hblack
      have hview := view_insertCase hat hred
      have hside : RbTree.sideOf (view T) ((view T).parent (top T.sentinel t)) = s' := by
        have hpar : (view T).parent (top T.sentinel t) = x.ptr := hat.parent_eq hne
        have hx := (RbTree.at_cons.mp hat).sideOf_eq (.inl ColoredTree.join_ne_leaf)
          fun h => absurd h ColoredTree.join_ne_leaf
        rw [Frame.fill, RbTree.top_join] at hx
        rwa [hpar]
      have hturn' : ∀ turns, insertLoop (turns + 1) T (top T.sentinel t) =
          insertLoop turns (insertCase s' T (top T.sentinel t)).1
            (insertCase s' T (top T.sentinel t)).2 := fun turns => by
        have hpar := parent_top hat hne
        rw [insertLoop, if_pos ((turns_iff hblack).mpr hturn), hpar, view_sideOf (item_ne_root hat)]
        have hpar' : (view T).parent (top T.sentinel t) = x.ptr := hat.parent_eq hne
        rw [hpar'] at hside
        simp only [hside]
      rw [hside] at hrun
      rw [view_nil] at hcase
      rw [← hview] at hrun hcase
      obtain ⟨hV, hnode⟩ := Prod.mk.inj hcase
      subst hV
      have hclimb : Climbing (insertCase s' T (top T.sentinel t)).1
          (insertCase s' T (top T.sentinel t)).2 :=
        ⟨hmoves.same.black hblack, ctx₁, t₁, m, hmoves.at_hole, hnode, hred₁, hb₁, hfits₁⟩
      obtain ⟨T', hret, hview', hinsert⟩ := ih hclimb hrun
      exact ⟨T', hret.turn hturn', hview', hinsert.trans insertCase_insert⟩
    next hstop =>
      refine ⟨T, .last fun turns => ?_, Option.some.inj hrun, rfl⟩
      rw [insertLoop, if_neg (mt (turns_iff hblack).mp hstop)]

end LearningCode.Nginx

/-! ## The loop of the deletion -/

namespace LearningCode.Nginx

open RedBlack RedBlack.Context
open RbTree (Rbtree Binding At Hole Short top up cell ptrs Moves RedBlackTree)

variable {T T' : NgxRbtree} {s : Side} {c : Color} {temp : Ptr} {p x : Binding}
  {t u w a b : ColoredTree Binding} {ctx : Context Binding} {f : Frame Binding} {n : Nat}

theorem hole_parent (h : Hole (view T) (f :: ctx) t) : T.parent (top T.sentinel t) = f.item.ptr :=
  (parent_view (top_ne_root h.at_hole)).symm.trans h.parent

theorem view_deleteCase1 (h : Hole (view T) (⟨s, c, p, w⟩ :: ctx) t)
    (hfits : Fits (⟨s, c, p, w⟩ :: ctx) (n + 1)) :
    (view (deleteCase1 s T (top T.sentinel t) (top T.sentinel w)).1,
      (deleteCase1 s T (top T.sentinel t) (top T.sentinel w)).2) =
      RbTree.deleteCase1 s (view T) (top T.sentinel t) (top T.sentinel w) := by
  have hpar := hole_parent h
  have hpar' : (view T).parent (top T.sentinel t) = p.ptr := h.parent
  have hcolor : T.color (top T.sentinel w) = w.color := h.at_hole.sibling.color_top h.nil_black
  cases hw : w.color with
  | black => simp [deleteCase1, RbTree.deleteCase1, hcolor, hw]
  | red =>
    obtain ⟨z, w₁, w₂, rfl⟩ := ColoredTree.exists_join_red s hw
    have hz := h.at_hole.sibling
    have hp := (At.setColor hz .black).out_flip
    have h₂ := At.setColor hp .red
    have hrotate := view_rotate (T := (T.setColor z.ptr .black).setColor p.ptr .red)
      (by rw [view_setColor, view_setColor]; exact h₂)
    simp only [view_setColor] at hrotate
    have h₃ := (At.rotate h₂).1
    rw [← hrotate] at h₃
    have hread := parent_view (top_ne_root h₃.into.into)
    have hred : T.color z.ptr = .red := by rwa [RbTree.top_join, hw] at hcolor
    have hred' : (view T).color z.ptr = .red := hred
    simp only [rotate_sentinel, NgxRbtree.setColor_sentinel] at hread
    simp only [deleteCase1, RbTree.deleteCase1, RbTree.top_join, if_pos hred, if_pos hred',
      NgxRbtree.parent_setColor, Rbtree.parent_setColor, hpar, hpar', ← hrotate, child_view]
    rw [← hread]

theorem view_deleteCase3 (h : Hole (view T) (⟨s, c, p, .join s .black x a b⟩ :: ctx) t)
    (hred : ¬(a.color = .black ∧ b.color = .black)) :
    (view (deleteCase3 s T (top T.sentinel t) x.ptr).1,
      (deleteCase3 s T (top T.sentinel t) x.ptr).2) =
      RbTree.deleteCase3 s (view T) (top T.sentinel t) x.ptr := by
  have hx : At (view T) (⟨s.flip, c, p, t⟩ :: ctx) (.join s .black x a b) := h.at_hole.sibling
  have hinner : (view T).child s x.ptr = top T.sentinel a := by
    rw [Rbtree.child, hx.cell, RbTree.child_cell]
    rfl
  have houter : (view T).child s.flip x.ptr = top T.sentinel b := by
    rw [Rbtree.child, hx.cell, RbTree.child_flip_cell]
    rfl
  have hcolor : T.color (top T.sentinel b) = b.color := hx.into_flip.color_top h.nil_black
  rw [child_view] at hinner houter
  cases hbc : b.color with
  | red => simp [deleteCase3, RbTree.deleteCase3, houter, hcolor, hbc]
  | black =>
    have hac : a.color = .red := by
      cases hac : a.color with
      | red => rfl
      | black => exact absurd ⟨hac, hbc⟩ hred
    obtain ⟨z, u, v, rfl⟩ := ColoredTree.exists_join_red s hac
    have h₁ := (At.setColor hx.into .black).out
    have h₂ := At.setColor h₁ .red
    rw [← ColoredTree.join_flip s .red, ← ColoredTree.join_flip s .black z] at h₂
    have hrotate := view_rotate (T := (T.setColor z.ptr .black).setColor x.ptr .red)
      (by rw [view_setColor, view_setColor]; exact h₂)
    simp only [view_setColor] at hrotate
    have h₃ := (At.rotate h₂).1
    rw [← hrotate, ColoredTree.join_flip, ColoredTree.join_flip] at h₃
    have h₄ := h₃.sibling
    rw [Side.flip_flip] at h₄
    have hread := parent_view (top_ne_root h₄)
    have hblack : T.color (T.child s.flip x.ptr) = .black := by rw [houter, hcolor, hbc]
    have hblack' : (view T).color (T.child s.flip x.ptr) = .black := hblack
    simp only [rotate_sentinel, NgxRbtree.setColor_sentinel] at hread
    simp only [deleteCase3, RbTree.deleteCase3, if_pos hblack, if_pos hblack', child_view, hinner,
      RbTree.top_join, ← hrotate]
    rw [← hread]

theorem view_deleteCase4 (h : Hole (view T) (⟨s, c, p, .join s .black x a b⟩ :: ctx) t)
    (hred : b.color = .red) :
    (view (deleteCase4 s T (top T.sentinel t) x.ptr).1,
      (deleteCase4 s T (top T.sentinel t) x.ptr).2) =
      RbTree.deleteCase4 s (view T) (top T.sentinel t) x.ptr := by
  obtain ⟨z, u, v, rfl⟩ := ColoredTree.exists_join_red s hred
  have hx : At (view T) (⟨s.flip, c, p, t⟩ :: ctx)
      (.join s .black x a (.join s .red z u v)) := h.at_hole.sibling
  have hp := (At.setColor hx c).out_flip
  have h₂ := At.setColor hp .black
  have h₃ := (At.setColor h₂.into_flip.into_flip .black).out_flip.out_flip
  have hrotate := view_rotate
    (T := ((T.setColor x.ptr c).setColor p.ptr .black).setColor z.ptr .black)
    (by rw [view_setColor, view_setColor, view_setColor]; exact h₃)
  simp only [view_setColor] at hrotate
  have hpar := hole_parent h
  have hpar' : (view T).parent (top T.sentinel t) = p.ptr := h.parent
  have hcolor : T.color p.ptr = c := h.at_hole.color_frame
  have houter : (view T).child s.flip x.ptr = z.ptr := by
    rw [Rbtree.child, hx.cell, RbTree.child_flip_cell, RbTree.top_join]
  have houter' := houter
  rw [child_view] at houter'
  simp only [deleteCase4, RbTree.deleteCase4, NgxRbtree.parent_setColor, Rbtree.parent_setColor, hpar,
    hpar', color_view, hcolor, NgxRbtree.child_setColor, Rbtree.child_setColor, houter, houter',
    ← hrotate, view_root]

theorem exists_of_view {r : NgxRbtree × Ptr} {V : Rbtree} {q : Ptr} (h : (view r.1, r.2) = (V, q)) :
    ∃ T', r = (T', q) ∧ view T' = V := by
  obtain ⟨T', q'⟩ := r
  cases h
  exact ⟨T', rfl, rfl⟩

theorem view_deleteCase (h : Hole (view T) (f :: ctx) t) (ht : t.color = .black)
    (hshort : Short (f :: ctx) t) :
    (view (deleteCase f.side T (top T.sentinel t)).1, (deleteCase f.side T (top T.sentinel t)).2) =
      RbTree.deleteCase f.side (view T) (top T.sentinel t) := by
  obtain ⟨s, c, p, w⟩ := f
  obtain ⟨n, hfits, ⟨-, hb⟩ | ⟨hred, -⟩⟩ := hshort
  · have hw : T.child s.flip (T.parent (top T.sentinel t)) = top T.sentinel w := by
      rw [hole_parent h, ← child_view]
      exact h.at_hole.child_flip_frame
    have hpar' : (view T).parent (top T.sentinel t) = p.ptr := h.parent
    have hw' : (view T).child s.flip ((view T).parent (top T.sentinel t)) = top T.sentinel w := by
      rw [hpar']
      exact h.at_hole.child_flip_frame
    have hview₁ := view_deleteCase1 h hfits
    obtain ⟨V₁, c₁, w₁, ctx₁, hcase₁, hm₁, hw₁, hfits₁, -⟩ := RbTree.deleteCase1_spec h hfits
    have h₁ := h.moves hm₁ rfl
    obtain ⟨T₁, hrun₁, rfl⟩ := exists_of_view (hview₁.trans hcase₁)
    have hnil₁ : T₁.sentinel = T.sentinel := hm₁.same.nil
    have hwb : w₁.Balanced (n + 1) := by
      cases c₁ with
      | red => exact hfits₁.2.1
      | black => exact hfits₁.1
    obtain ⟨x, a, b, rfl, ha, hbb⟩ := hwb.exists_join hw₁ s
    rw [RbTree.top_join] at hrun₁ hcase₁
    have hx := h₁.at_hole.sibling
    have hinner : T₁.color (T₁.child s x.ptr) = a.color := by
      have hchild : (view T₁).child s x.ptr = top T₁.sentinel a := by
        rw [Rbtree.child, hx.cell, RbTree.child_cell]
        rfl
      rw [child_view] at hchild
      rw [hchild]
      exact hx.into.color_top h₁.nil_black
    have houter : T₁.color (T₁.child s.flip x.ptr) = b.color := by
      have hchild : (view T₁).child s.flip x.ptr = top T₁.sentinel b := by
        rw [Rbtree.child, hx.cell, RbTree.child_flip_cell]
        rfl
      rw [child_view] at hchild
      rw [hchild]
      exact hx.into_flip.color_top h₁.nil_black
    rw [deleteCase, hw, hrun₁, RbTree.deleteCase, hw']
    have hcase₁ : RbTree.deleteCase1 s (view T) (top T.sentinel t) (top T.sentinel w) =
        (view T₁, x.ptr) := hcase₁
    rw [hcase₁]
    by_cases htwo : a.color = .black ∧ b.color = .black
    · have hread := parent_view (top_ne_root h₁.at_hole)
      rw [hnil₁] at hread
      simp only [color_view, child_view, hinner, houter, if_pos htwo, view_setColor,
        NgxRbtree.parent_setColor, Rbtree.parent_setColor, hread]
    · have hview₃ := view_deleteCase3 h₁ htwo
      obtain ⟨V₂, x', a', b', hcase₃, hm₂, -, -, hred⟩ :=
        RbTree.deleteCase3_spec h₁ ha hbb htwo
      have h₂ := h₁.moves hm₂ rfl
      obtain ⟨T₂, hrun₃, rfl⟩ := exists_of_view (hview₃.trans hcase₃)
      have hnil₂ : T₂.sentinel = T₁.sentinel := hm₂.same.nil
      have hview₄ := view_deleteCase4 h₂ hred
      rw [hnil₂, hnil₁] at hview₄
      rw [view_nil, hnil₁] at hcase₃
      rw [hnil₁] at hrun₃
      simp only [color_view, child_view, hinner, houter, if_neg htwo, hrun₃, hcase₃]
      exact hview₄
  · exact absurd (ht.symm.trans hred) (by decide)

theorem deleteCase1_insert {w : Ptr} : (deleteCase1 s T temp w).1.insert = T.insert := by
  unfold deleteCase1
  split
  · exact rotate_insert
  · rfl

theorem deleteCase3_insert {w : Ptr} : (deleteCase3 s T temp w).1.insert = T.insert := by
  unfold deleteCase3
  split
  · exact rotate_insert
  · rfl

theorem deleteCase4_insert {w : Ptr} : (deleteCase4 s T temp w).1.insert = T.insert :=
  rotate_insert

variable (temp) in
@[simp] theorem deleteCase_insert : (deleteCase s T temp).1.insert = T.insert := by
  unfold deleteCase
  dsimp only
  split
  · exact deleteCase1_insert
  · exact deleteCase4_insert.trans (deleteCase3_insert.trans deleteCase1_insert)

theorem sibling_ne_leaf (hshort : Short (f :: ctx) t) : f.sibling ≠ .leaf := by
  obtain ⟨s, c, p, w⟩ := f
  obtain ⟨n, hfits, -⟩ := hshort
  rintro rfl
  cases c with
  | red => cases hfits.2.1
  | black => cases hfits.1

/-- Where the loop is: at the root, or at a subtree that is one black node short. -/
structure Falling (T : NgxRbtree) (temp : Ptr) : Prop where
  black : T.color T.sentinel = .black
  falls : ∃ ctx t, At (view T) ctx t ∧ temp = top T.sentinel t ∧
    (ctx = [] ∨ Hole (view T) ctx t ∧ Short ctx t)

theorem view_deleteLoop {V : Rbtree} {q : Ptr} {turns : Nat} (h : Falling T temp)
    (hrun : RbTree.deleteFixupLoop turns (view T) temp = some (V, q)) :
    ∃ T', Returns (deleteLoop · T temp) (T', q) ∧ view T' = V ∧ T'.insert = T.insert := by
  induction turns generalizing T temp with
  | zero => cases hrun
  | succ turns ih =>
    obtain ⟨hblack, ctx, t, hat, rfl, hor⟩ := h
    rw [RbTree.deleteFixupLoop] at hrun
    split at hrun
    next hturn =>
      have hctx : ctx ≠ [] := fun h => hturn.1 (hat.top_eq_root_iff.mpr h)
      obtain ⟨h, hshort⟩ := hor.resolve_left hctx
      obtain ⟨f, ctx, rfl⟩ := List.exists_cons_of_ne_nil hctx
      have ht : t.color = .black := (hat.color_top hblack).symm.trans hturn.2
      have hside : RbTree.sideOf (view T) (top T.sentinel t) = f.side :=
        hat.sideOf_eq (.inr (sibling_ne_leaf hshort)) h.nil_parent
      obtain ⟨V₁, ctx₁, t₁, hcase, hm, hnext⟩ := RbTree.deleteCase_spec h ht hshort
      have hview := view_deleteCase h ht hshort
      obtain ⟨T₁, hrun₁, rfl⟩ := exists_of_view (hview.trans hcase)
      have hturn' : ∀ turns, deleteLoop (turns + 1) T (top T.sentinel t) =
          deleteLoop turns T₁ (top T₁.sentinel t₁) := fun turns => by
        have hturn : top T.sentinel t ≠ T.root ∧ T.color (top T.sentinel t) = .black := hturn
        rw [deleteLoop, if_pos hturn, view_sideOf hturn.1, hside, hrun₁]
        rfl
      have hcase : RbTree.deleteCase f.side (view T) (top T.sentinel t) =
          (view T₁, top T₁.sentinel t₁) := hcase
      rw [hside, hcase] at hrun
      have hblack₁ := hm.same.black hblack
      have hfall : Falling T₁ (top T₁.sentinel t₁) := by
        refine ⟨hblack₁, ctx₁, t₁, hm.at_hole, rfl, ?_⟩
        refine hnext.imp And.left ?_
        rintro ⟨hshort₁, hne, -⟩
        exact ⟨⟨hm.at_hole, hblack₁, fun h => absurd h hne⟩, hshort₁⟩
      obtain ⟨T', hret, hview', hinsert⟩ := ih hfall hrun
      have hins : T₁.insert = T.insert := by
        have := deleteCase_insert (top T.sentinel t) (s := f.side) (T := T)
        rwa [hrun₁] at this
      exact ⟨T', hret.turn hturn', hview', hinsert.trans hins⟩
    next hstop =>
      cases hrun
      have hstop : ¬(top T.sentinel t ≠ T.root ∧ T.color (top T.sentinel t) = .black) := hstop
      refine ⟨T, .last fun turns => ?_, rfl, rfl⟩
      rw [deleteLoop, if_neg hstop]

theorem deleteLoop_spec (h : Hole (view T) ctx t) (hshort : Short ctx t) :
    ∃ T' q t', Returns (deleteLoop · T (top T.sentinel t)) (T', q) ∧ T'.sentinel = T.sentinel ∧
      T'.insert = T.insert ∧ RedBlackTree (view (T'.setColor q .black)) t' ∧
      t'.inorder = (plug ctx t).inorder := by
  obtain ⟨V, t', ⟨enough, hfix⟩, hnil, htree, horder⟩ := RbTree.rbtreeDeleteFixup_spec h hshort
  obtain ⟨⟨V₁, q⟩, hloop, hV⟩ := Option.bind_eq_some_iff.mp (hfix enough (Nat.le_refl _))
  cases hV
  obtain ⟨T', hret, hview, hinsert⟩ :=
    view_deleteLoop ⟨h.nil_black, ctx, t, h.at_hole, rfl, .inr ⟨h, hshort⟩⟩ hloop
  subst hview
  refine ⟨T', q, t', hret, hnil, hinsert, ?_, horder⟩
  rw [view_setColor]
  exact htree

end LearningCode.Nginx
