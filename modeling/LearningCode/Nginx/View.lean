import LearningCode.Nginx.Model
import LearningCode.RbTree.Rotate

/-!
# The tree of nginx seen as the other red-black tree

`rbtree.c` and `main.cpp` rebalance in the same way, up to what they take the
parent of the root to be: here it means nothing, there it is the sentinel. With
the parent of the root hidden every write of `rbtree.c` is one of `main.cpp`.
-/

namespace LearningCode.Nginx

open RedBlack RedBlack.Context
open RbTree (Rbtree RbtreeNode Binding At top up cell ptrs)

variable {T T' : NgxRbtree} {s s' : Side} {c c' cx cy : Color} {p q node : Ptr}
  {x y : Binding} {t u v : ColoredTree Binding} {ctx : Context Binding} {f : Frame Binding}

def shown (n : NgxRbtreeNode) (par : Ptr) : RbtreeNode :=
  ⟨n.color, n.left, n.right, par, n.key.toNat, 0⟩

def view (T : NgxRbtree) : Rbtree :=
  ⟨fun p => shown (T.mem p) (if p = T.root then T.sentinel else T.parent p), T.root, T.sentinel⟩

@[simp] theorem view_root : (view T).root = T.root := rfl

@[simp] theorem view_nil : (view T).nil = T.sentinel := rfl

@[simp] theorem child_view : (view T).child s p = T.child s p := by cases s <;> rfl

@[simp] theorem color_view : (view T).color p = T.color p := rfl

theorem key_view : ((view T).mem p).key = (T.mem p).key.toNat := rfl

theorem parent_view (h : p ≠ T.root) : (view T).parent p = T.parent p := if_neg h

theorem parent_view_root : (view T).parent T.root = T.sentinel := if_pos rfl

-- ---------------------------------------------------------------------------
-- Writes
-- ---------------------------------------------------------------------------

namespace NgxRbtree

variable {g : NgxRbtreeNode → NgxRbtreeNode}

@[simp] theorem modify_root : (T.modify p g).root = T.root := rfl

@[simp] theorem modify_sentinel : (T.modify p g).sentinel = T.sentinel := rfl

@[simp] theorem modify_insert : (T.modify p g).insert = T.insert := rfl

@[simp] theorem modify_self : (T.modify p g).mem p = g (T.mem p) := Function.update_self ..

@[simp] theorem modify_ne (h : q ≠ p) : (T.modify p g).mem q = T.mem q :=
  Function.update_of_ne h ..

@[simp] theorem setColor_root : (T.setColor p c).root = T.root := rfl

@[simp] theorem setColor_sentinel : (T.setColor p c).sentinel = T.sentinel := rfl

@[simp] theorem parent_setColor : (T.setColor p c).parent q = T.parent q := by
  by_cases h : q = p
  · rw [h, parent, setColor, modify_self, parent]
  · rw [parent, setColor, modify_ne h, parent]

@[simp] theorem child_setColor : (T.setColor p c).child s q = T.child s q := by
  by_cases h : q = p
  · rw [h, child, setColor, modify_self]
    cases s <;> rfl
  · rw [child, setColor, modify_ne h, child]

@[simp] theorem parent_setChild {r : Ptr} : (T.setChild s p r).parent q = T.parent q := by
  by_cases h : q = p
  · rw [h, parent, setChild, modify_self]
    cases s <;> rfl
  · rw [parent, setChild, modify_ne h, parent]

theorem parent_setParent_ne {r : Ptr} (h : q ≠ p) : (T.setParent p r).parent q = T.parent q := by
  rw [parent, setParent, modify_ne h, parent]

@[simp] theorem child_setParent {r : Ptr} : (T.setParent p r).child s q = T.child s q := by
  by_cases h : q = p
  · rw [h, child, setParent, modify_self]
    cases s <;> rfl
  · rw [child, setParent, modify_ne h, child]

end NgxRbtree

theorem view_modify {g : NgxRbtreeNode → NgxRbtreeNode} {g' : RbtreeNode → RbtreeNode}
    (h : shown (g (T.mem p)) (if p = T.root then T.sentinel else (g (T.mem p)).parent) =
      g' ((view T).mem p)) :
    view (T.modify p g) = (view T).modify p g' := by
  have hmem : (view (T.modify p g)).mem = ((view T).modify p g').mem := by
    funext q
    by_cases hq : q = p
    · rw [hq, Rbtree.modify_self, ← h]
      simp [view, NgxRbtree.parent]
    · rw [Rbtree.modify_ne hq]
      simp [view, NgxRbtree.parent, NgxRbtree.modify_ne hq]
  show Rbtree.mk (view (T.modify p g)).mem T.root T.sentinel = _
  rw [hmem]
  rfl

@[simp] theorem view_setColor : view (T.setColor p c) = (view T).setColor p c := view_modify rfl

@[simp] theorem view_setChild : view (T.setChild s p q) = (view T).setChild s p q := by
  refine view_modify ?_
  cases s <;> rfl

theorem view_setParent (h : p ≠ T.root) : view (T.setParent p q) = (view T).setParent p q := by
  refine view_modify ?_
  rw [if_neg h]
  rfl

-- ---------------------------------------------------------------------------
-- Rotation
-- ---------------------------------------------------------------------------

/-- Under a parent that is not the sentinel, the link from above is the same write. -/
theorem view_relink (h : node ≠ T.root) (hpar : T.parent node ≠ T.sentinel) :
    view (relink s T node p) = RbTree.relink s (view T) node p := by
  have hnil : T.parent node ≠ (view T).nil := hpar
  rw [relink, if_neg h, RbTree.relink, parent_view h, if_neg hnil, child_view]
  split
  · exact view_setChild
  · exact view_setChild

theorem relink_root (h : node ≠ T.root) : (relink s T node p).root = T.root := by
  rw [relink, if_neg h]
  split <;> rfl

@[simp] theorem relink_insert : (relink s T node p).insert = T.insert := by
  unfold relink
  split
  · rfl
  · split <;> rfl

@[simp] theorem rotate_insert : (rotate s T node).insert = T.insert := by
  unfold rotate
  dsimp only
  split
  · exact relink_insert
  · exact relink_insert

@[simp] theorem relink_sentinel : (relink s T node p).sentinel = T.sentinel := by
  unfold relink
  split
  · rfl
  · split <;> rfl

@[simp] theorem rotate_sentinel : (rotate s T node).sentinel = T.sentinel := by
  unfold rotate
  dsimp only
  split
  · exact relink_sentinel
  · exact relink_sentinel

theorem view_adopt (h : p ≠ T.root) :
    view (if p ≠ T.sentinel then T.setParent p q else T) = RbTree.adopt (view T) p q := by
  rw [RbTree.adopt, view_nil]
  split
  · exact view_setParent h
  · rfl

theorem adopt_root (T : NgxRbtree) (p q : Ptr) :
    (if p ≠ T.sentinel then T.setParent p q else T).root = T.root := by
  split <;> rfl

def handOver (s : Side) (T : NgxRbtree) (x y u : Ptr) : NgxRbtree :=
  let T := T.setChild s.flip x u
  let T := if u ≠ T.sentinel then T.setParent u x else T
  T.setParent y (T.parent x)

theorem handOver_root {u : Ptr} : (handOver s T p q u).root = T.root := by
  unfold handOver
  dsimp only
  split <;> rfl

theorem handOver_sentinel {u : Ptr} : (handOver s T p q u).sentinel = T.sentinel := by
  unfold handOver
  dsimp only
  split <;> rfl

theorem handOver_parent {u : Ptr} (hq : p ≠ q) (hu : p ≠ u) :
    (handOver s T p q u).parent p = T.parent p := by
  unfold handOver
  dsimp only
  rw [NgxRbtree.parent_setParent_ne hq]
  split
  · rw [NgxRbtree.parent_setParent_ne hu, NgxRbtree.parent_setChild]
  · exact NgxRbtree.parent_setChild

theorem rotate_eq (hxy : p ≠ T.child s.flip p) : rotate s T p =
    ((relink s (handOver s T p (T.child s.flip p) (T.child s (T.child s.flip p))) p
      (T.child s.flip p)).setChild s (T.child s.flip p) p).setParent p (T.child s.flip p) := by
  have hinner : (T.setChild s.flip p (T.child s (T.child s.flip p))).child s (T.child s.flip p) =
      T.child s (T.child s.flip p) := by
    rw [NgxRbtree.child, NgxRbtree.setChild, NgxRbtree.modify_ne hxy.symm]
    rfl
  simp only [rotate, handOver, hinner]

theorem view_handOver {u : Ptr} (hy : q ≠ T.root) (hu : u ≠ T.root) (hxy : p ≠ q) (hxu : p ≠ u) :
    view (handOver s T p q u) =
      (RbTree.adopt ((view T).setChild s.flip p u) u p).setParent q (T.parent p) := by
  have hpar := handOver_parent (s := s) (T := T) hxy hxu
  have hadopt := view_adopt (T := T.setChild s.flip p u) (q := p) hu
  rw [view_setChild] at hadopt
  unfold handOver at hpar ⊢
  dsimp only at hpar ⊢
  rw [NgxRbtree.parent_setParent_ne hxy] at hpar
  rw [hpar]
  refine (view_setParent ?_).trans (congrArg (·.setParent q (T.parent p)) hadopt)
  exact fun h => hy (h.trans (adopt_root (T.setChild s.flip p u) u p))

/-- The last two writes of a rotation hide what the parent of `p` was. -/
theorem setParent_congr {A B : Rbtree} (hroot : A.root = B.root) (hnil : A.nil = B.nil)
    (hmem : ∀ r, r ≠ p → A.mem r = B.mem r)
    (hp : { A.mem p with parent := q } = { B.mem p with parent := q }) (hpq : p ≠ q) :
    (A.setChild s q p).setParent p q = (B.setChild s q p).setParent p q := by
  have hsame : ((A.setChild s q p).setParent p q).mem = ((B.setChild s q p).setParent p q).mem := by
    funext r
    by_cases hr : r = p
    · rw [hr, Rbtree.setParent, Rbtree.setParent, Rbtree.modify_self, Rbtree.modify_self,
        Rbtree.setChild_ne hpq, Rbtree.setChild_ne hpq, hp]
    · rw [Rbtree.setParent_ne hr, Rbtree.setParent_ne hr]
      by_cases hrq : r = q
      · rw [hrq, Rbtree.setChild, Rbtree.setChild, Rbtree.modify_self, Rbtree.modify_self,
          hmem q hpq.symm]
      · rw [Rbtree.setChild_ne hrq, Rbtree.setChild_ne hrq, hmem r hr]
  show Rbtree.mk ((A.setChild s q p).setParent p q).mem A.root A.nil =
    Rbtree.mk ((B.setChild s q p).setParent p q).mem B.root B.nil
  rw [hsame, hroot, hnil]

theorem view_newRoot {W : Rbtree} {par : Ptr} (hview : view T = W.setParent q par)
    (hq : q ≠ T.root) :
    ((view { T with root := q }).setChild s q T.root).setParent T.root q =
      (({ W.setParent q T.sentinel with root := q } : Rbtree).setChild s q T.root).setParent
        T.root q := by
  have hmem : ∀ r, (view T).mem r = (W.setParent q par).mem r := fun r => by rw [hview]
  refine setParent_congr rfl ?_ (fun r hr => ?_) ?_ hq.symm
  · show T.sentinel = W.nil
    exact congrArg Rbtree.nil hview
  · by_cases hrq : r = q
    · have hold := hmem q
      rw [Rbtree.setParent, Rbtree.modify_self] at hold
      subst hrq
      show _ = (W.setParent r T.sentinel).mem r
      rw [Rbtree.setParent, Rbtree.modify_self]
      have hnew := congrArg (fun n : RbtreeNode => { n with parent := T.sentinel }) hold
      simpa [view, shown] using hnew
    · have hold := hmem r
      rw [Rbtree.setParent_ne hrq] at hold
      show _ = (W.setParent q T.sentinel).mem r
      rw [Rbtree.setParent_ne hrq, ← hold]
      simp [view, NgxRbtree.parent, hr, hrq]
  · have hold := hmem T.root
    rw [Rbtree.setParent_ne hq.symm] at hold
    show _ = { (W.setParent q T.sentinel).mem T.root with parent := q }
    rw [Rbtree.setParent_ne hq.symm, ← hold]
    rfl

theorem view_rotate (ht : At (view T) ctx (.join s cx x t (.join s cy y u v))) :
    view (rotate s T x.ptr) = RbTree.rotate s (view T) x.ptr := by
  have hapart := ht.apart
  have hy : T.child s.flip x.ptr = y.ptr := by
    rw [← child_view, Rbtree.child, ht.cell_x, RbTree.child_flip_cell]
  have hu : T.child s y.ptr = top T.sentinel u := by
    rw [← child_view, Rbtree.child, ht.child.cell, RbTree.child_cell]
    rfl
  have hyroot : y.ptr ≠ T.root := by
    have hroot := ht.child.top_eq_root_iff
    rw [RbTree.top_join] at hroot
    exact fun h => absurd (hroot.mp h) (List.cons_ne_nil _ _)
  have huroot : top T.sentinel u ≠ T.root := fun h =>
    absurd (ht.child.into.top_eq_root_iff.mp h) (List.cons_ne_nil _ _)
  have hhand := view_handOver (s := s) hyroot huroot hapart.xy hapart.xtop
  have hpar := handOver_parent (s := s) (T := T) hapart.xy hapart.xtop
  have hroot : (handOver s T x.ptr y.ptr (top T.sentinel u)).root = T.root := handOver_root
  have hnil : (handOver s T x.ptr y.ptr (top T.sentinel u)).sentinel = T.sentinel :=
    handOver_sentinel
  have hxroot := ht.top_eq_root_iff
  rw [RbTree.top_join, view_root] at hxroot
  rw [ht.rotate_eq, RbTree.rotated, rotate_eq (by rw [hy]; exact hapart.xy), hy, hu]
  simp only [view_nil] at hpar
  generalize handOver s T x.ptr y.ptr (top T.sentinel u) = H at *
  cases ctx with
  | nil =>
    have hx : x.ptr = H.root := (hxroot.mpr rfl).trans hroot.symm
    have hnew := view_newRoot (s := s) hhand (by rwa [hroot])
    rw [← hx] at hnew
    rw [relink, if_pos hx, view_setParent (by exact hapart.xy), view_setChild, hnew, hnil]
    rfl
  | cons f ctx =>
    have hx : x.ptr ≠ T.root := fun h => List.cons_ne_nil _ _ (hxroot.mp h)
    have hup : T.parent x.ptr = f.item.ptr := by
      rw [← parent_view hx, Rbtree.parent, ht.cell, RbTree.parent_cell]
      rfl
    have htake : view H = RbTree.takeOver (view T) s x y u (f :: ctx) := by
      rw [hhand, hup]
      rfl
    have hhang : RbTree.relink s (RbTree.takeOver (view T) s x y u (f :: ctx)) x.ptr y.ptr =
        RbTree.hang (RbTree.takeOver (view T) s x y u (f :: ctx)) y.ptr (f :: ctx) := by
      refine RbTree.relink_eq (by simpa using ht.takeOver_around) ?_ (by simpa using ht.ne_nil)
        hapart.xc s y.ptr
      rw [Rbtree.parent, ht.takeOver_x, RbTree.parent_cell, RbTree.takeOver_nil]
    have hxH : x.ptr ≠ H.root := by rwa [hroot]
    have hne : H.parent x.ptr ≠ H.sentinel := by
      rw [hpar, hup, hnil]
      exact ht.around.1.1
    rw [view_setParent, view_setChild, view_relink hxH hne, htake, hhang]
    show x.ptr ≠ (relink s H x.ptr y.ptr).root
    rwa [relink_root hxH]

end LearningCode.Nginx
