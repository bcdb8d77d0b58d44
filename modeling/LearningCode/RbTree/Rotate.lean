import LearningCode.RbTree.Shape

/-!
# Writes to a tree in memory

The writes the code makes, by what they do to the stored tree: a node is
changed in place, a subtree is hung in a hole, a node is rotated down.
-/

namespace LearningCode.RbTree

open RedBlack RedBlack.Context

variable {T T' : Rbtree} {mem mem' : Ptr → RbtreeNode} {nil root par par' h h' p q : Ptr}
  {s s' : Side} {c c' cx cy : Color} {b b' x y : Binding} {t u v : ColoredTree Binding}
  {ctx : Context Binding} {f : Frame Binding} {g : RbtreeNode → RbtreeNode}

namespace Rbtree

@[simp] theorem modify_root : (T.modify p g).root = T.root := rfl

@[simp] theorem modify_nil : (T.modify p g).nil = T.nil := rfl

@[simp] theorem modify_self : (T.modify p g).mem p = g (T.mem p) := Function.update_self ..

@[simp] theorem modify_ne (h : q ≠ p) : (T.modify p g).mem q = T.mem q :=
  Function.update_of_ne h ..

theorem setChild_ne (h : q ≠ p) : (T.setChild s p h').mem q = T.mem q := modify_ne h

@[simp] theorem parent_setColor : (T.setColor p c).parent q = T.parent q := by
  by_cases h : q = p
  · rw [h, parent, setColor, modify_self, parent]
  · rw [parent, setColor, modify_ne h, parent]

@[simp] theorem child_setColor : (T.setColor p c).child s q = T.child s q := by
  by_cases h : q = p
  · rw [h, child, setColor, modify_self]
    cases s <;> rfl
  · rw [child, setColor, modify_ne h, child]

@[simp] theorem color_setParent : (T.setParent p q).color h = T.color h := by
  by_cases hp : h = p
  · rw [hp, color, setParent, modify_self, color]
  · rw [color, setParent, modify_ne hp, color]

@[simp] theorem setColor_root : (T.setColor p c).root = T.root := rfl

theorem setParent_ne (h : q ≠ p) : (T.setParent p h').mem q = T.mem q := modify_ne h

end Rbtree

/-- What the writes keep: the sentinel and what it holds. -/
structure SameNil (T T' : Rbtree) : Prop where
  nil : T'.nil = T.nil
  mem : T'.mem T.nil = T.mem T.nil

theorem SameNil.refl (T : Rbtree) : SameNil T T := ⟨rfl, rfl⟩

theorem SameNil.trans {T'' : Rbtree} (h : SameNil T T') (h' : SameNil T' T'') : SameNil T T'' :=
  ⟨h'.nil.trans h.nil, (h.nil ▸ h'.mem).trans h.mem⟩

theorem SameNil.black (h : SameNil T T') (hnil : (T.mem T.nil).color = .black) :
    (T'.mem T'.nil).color = .black := by rw [h.nil, h.mem, hnil]

theorem sameNil_modify (h : p ≠ T.nil) : SameNil T (T.modify p g) :=
  ⟨rfl, Rbtree.modify_ne h.symm⟩

-- ---------------------------------------------------------------------------
-- One node
-- ---------------------------------------------------------------------------

theorem At.modify (ht : At T ctx (.join s c b t u)) (hptr : b'.ptr = b.ptr)
    (hg : g (RbTree.cell b c s (top T.nil t) (top T.nil u) (up T.nil ctx)) =
      RbTree.cell b' c' s (top T.nil t) (top T.nil u) (up T.nil ctx)) :
    At (T.modify b.ptr g) ctx (.join s c' b' t u) := by
  obtain ⟨hbc, hbt, hbu⟩ := ht.notMem
  obtain ⟨hb, ht', hu⟩ := stored_join.mp ht.here
  have hcell : (T.modify b.ptr g).mem b'.ptr =
      RbTree.cell b' c' s (top T.nil t) (top T.nil u) (up T.nil ctx) := by
    rw [hptr, Rbtree.modify_self, hb.2, hg]
  refine ⟨stored_join.mpr ⟨⟨hptr ▸ hb.1, hcell⟩, ?_, ?_⟩, ?_, ?_⟩
  · rw [hptr]
    exact ht'.congr fun q hq => Rbtree.modify_ne (ne_of_mem_of_not_mem hq hbt)
  · rw [hptr]
    exact hu.congr fun q hq => Rbtree.modify_ne (ne_of_mem_of_not_mem hq hbu)
  · have haround := ht.around
    rw [top_join] at haround ⊢
    rw [hptr]
    exact haround.congr fun q hq => Rbtree.modify_ne (ne_of_mem_of_not_mem hq hbc)
  · have hperm : (plug ctx (.join s c' b' t u)).inorder.map Binding.ptr =
        (plug ctx (.join s c b t u)).inorder.map Binding.ptr := by
      rw [inorder_plug, inorder_plug]
      cases s <;> simp [ColoredTree.join, ColoredTree.inorder, hptr]
    rw [ptrs, hperm]
    exact ht.nodup

theorem At.setColor (ht : At T ctx (.join s c b t u)) (c' : Color) :
    At (T.setColor b.ptr c') ctx (.join s c' b t u) := ht.modify rfl setColor_cell

theorem At.sameNil_setColor (ht : At T ctx (.join s c b t u)) (c' : Color) :
    SameNil T (T.setColor b.ptr c') := sameNil_modify ht.ne_nil

theorem At.blacken (ht : At T ctx t) (hnil : (T.mem T.nil).color = .black) :
    At (T.setColor (top T.nil t) .black) ctx t.blacken ∧
      SameNil T (T.setColor (top T.nil t) .black) := by
  cases t with
  | node c b l r =>
    have ht : At T ctx (.join .left c b l r) := ht
    exact ⟨ht.setColor .black, ht.sameNil_setColor .black⟩
  | leaf =>
    have hsame : T.setColor T.nil .black = T := by
      have hmem : Function.update T.mem T.nil { T.mem T.nil with color := .black } = T.mem := by
        rw [← hnil]
        exact Function.update_eq_self ..
      rw [Rbtree.setColor, Rbtree.modify, hmem]
    rw [top, hsame]
    exact ⟨ht, .refl T⟩

-- ---------------------------------------------------------------------------
-- The link from above
-- ---------------------------------------------------------------------------

def hang (T : Rbtree) (p : Ptr) : Context Binding → Rbtree
  | [] => { T with root := p }
  | f :: _ => T.setChild f.side f.item.ptr p

@[simp] theorem hang_nil : (hang T p ctx).nil = T.nil := by cases ctx <;> rfl

theorem hang_mem (hq : q ∉ ptrs (items ctx)) : (hang T p ctx).mem q = T.mem q := by
  cases ctx with
  | nil => rfl
  | cons f ctx =>
    refine Rbtree.setChild_ne ?_
    rintro rfl
    exact hq (mem_ptrs_items_cons.mpr (.inl rfl))

theorem Around.hang (ha : Around T.mem T.nil T.root ctx h) (hnodup : (ptrs (items ctx)).Nodup)
    (p : Ptr) :
    Around (RbTree.hang T p ctx).mem T.nil (RbTree.hang T p ctx).root ctx p := by
  cases ctx with
  | nil => rfl
  | cons f ctx =>
    obtain ⟨⟨hf, hcell⟩, hs, hctx⟩ := ha
    rw [ptrs, ((items_cons_perm f ctx).map _).nodup_iff, List.map_cons, List.nodup_cons] at hnodup
    have hout : ∀ q ∈ ptrs (f.sibling.inorder ++ items ctx), q ≠ f.item.ptr := by
      rintro q hq rfl
      exact hnodup.1 hq
    simp only [ptrs, List.map_append, List.mem_append] at hout
    refine ⟨⟨hf, ?_⟩, ?_, ?_⟩
    · show (T.setChild f.side f.item.ptr p).mem f.item.ptr = _
      rw [Rbtree.setChild, Rbtree.modify_self, hcell, setChild_cell]
    · exact hs.congr fun q hq => Rbtree.setChild_ne (hout q (.inl hq))
    · exact hctx.congr fun q hq => Rbtree.setChild_ne (hout q (.inr hq))

theorem relink_eq (ha : Around T.mem T.nil T.root ctx h) (hpar : T.parent h = up T.nil ctx)
    (hne : h ≠ T.nil) (hout : h ∉ ptrs (items ctx)) (s : Side) (p : Ptr) :
    relink s T h p = hang T p ctx := by
  cases ctx with
  | nil => exact if_pos hpar
  | cons f ctx =>
    obtain ⟨⟨hf, hcell⟩, hs, hctx⟩ := ha
    have hsib : h ≠ top T.nil f.sibling := by
      rintro rfl
      refine hout (mem_ptrs_items_cons.mpr (.inr (.inl (top_mem fun hsib => hne ?_))))
      rw [hsib]
      rfl
    have hpar : T.parent h = f.item.ptr := hpar
    rw [relink, hpar, if_neg hf, Rbtree.child, hcell]
    obtain hside | hside := Side.eq_or_eq_flip s f.side
    · rw [hside, child_cell, if_pos rfl, ← hside]
      rfl
    · have hs : f.side.flip = s := by rw [hside, Side.flip_flip]
      rw [← hs, child_flip_cell, if_neg hsib, Side.flip_flip]
      rfl

-- ---------------------------------------------------------------------------
-- Rotation
-- ---------------------------------------------------------------------------

def adopt (T : Rbtree) (p q : Ptr) : Rbtree := if p ≠ T.nil then T.setParent p q else T

@[simp] theorem adopt_nil : (adopt T p q).nil = T.nil := by
  unfold adopt
  split <;> rfl

@[simp] theorem adopt_root : (adopt T p q).root = T.root := by
  unfold adopt
  split <;> rfl

theorem adopt_mem {r : Ptr} (hr : r ≠ p) : (adopt T p q).mem r = T.mem r := by
  unfold adopt
  split
  · exact Rbtree.modify_ne hr
  · rfl

theorem adopt_mem_nil : (adopt T p q).mem T.nil = T.mem T.nil := by
  unfold adopt
  split
  · exact Rbtree.setParent_ne (Ne.symm ‹_›)
  · rfl

theorem Stored.adopt (ht : Stored T.mem T.nil par t) (hnodup : (ptrs t.inorder).Nodup) :
    Stored (adopt T (top T.nil t) q).mem T.nil q t := by
  cases t with
  | leaf => trivial
  | node c b l r =>
    obtain ⟨⟨hb, hcell⟩, hl, hr⟩ := ht
    have hadopt : RbTree.adopt T (top T.nil (.node c b l r)) q = T.setParent b.ptr q := if_pos hb
    rw [ColoredTree.inorder, ptrs, (List.perm_middle.map _).nodup_iff, List.map_cons,
      List.nodup_cons] at hnodup
    have hout : ∀ p ∈ ptrs (l.inorder ++ r.inorder), p ≠ b.ptr := by
      rintro p hp rfl
      exact hnodup.1 hp
    simp only [ptrs, List.map_append, List.mem_append] at hout
    rw [hadopt]
    refine ⟨⟨hb, ?_⟩, ?_, ?_⟩
    · rw [Rbtree.setParent, Rbtree.modify_self, hcell, setParent_cell]
    · exact hl.congr fun p hp => Rbtree.setParent_ne (hout p (.inl hp))
    · exact hr.congr fun p hp => Rbtree.setParent_ne (hout p (.inr hp))

theorem top_ne_of_notMem (hp : p ∉ ptrs t.inorder) (hne : p ≠ nil) : p ≠ top nil t := by
  rintro rfl
  refine hp (top_mem fun ht => hne ?_)
  rw [ht]
  rfl

section rotate

variable (T) (s) (x y : Binding) (u : ColoredTree Binding) (ctx : Context Binding)

/-- `rotate` before the link from above is changed: `x` takes over the inner
subtree and `y` the parent of `x`. -/
def takeOver : Rbtree :=
  (adopt (T.setChild s.flip x.ptr (top T.nil u)) (top T.nil u) x.ptr).setParent y.ptr (up T.nil ctx)

def rotated : Rbtree :=
  ((hang (takeOver T s x y u ctx) y.ptr ctx).setChild s y.ptr x.ptr).setParent x.ptr y.ptr

end rotate

@[simp] theorem takeOver_nil : (takeOver T s x y u ctx).nil = T.nil := adopt_nil

@[simp] theorem takeOver_root : (takeOver T s x y u ctx).root = T.root := adopt_root

@[simp] theorem rotated_nil : (rotated T s x y u ctx).nil = T.nil := hang_nil.trans takeOver_nil

theorem takeOver_mem (hx : q ≠ x.ptr) (hy : q ≠ y.ptr) (hu : q ≠ top T.nil u) :
    (takeOver T s x y u ctx).mem q = T.mem q :=
  (Rbtree.setParent_ne hy).trans ((adopt_mem hu).trans (Rbtree.setChild_ne hx))

theorem rotated_mem (hx : q ≠ x.ptr) (hy : q ≠ y.ptr) (hq : q ∉ ptrs (items ctx)) :
    (rotated T s x y u ctx).mem q = (takeOver T s x y u ctx).mem q :=
  (Rbtree.setParent_ne hx).trans ((Rbtree.setChild_ne hy).trans (hang_mem hq))

/-- The places a rotation at `x` writes, and those of the three subtrees and of what is around. -/
structure Apart (T : Rbtree) (x y : Binding) (t u v : ColoredTree Binding)
    (ctx : Context Binding) : Prop where
  xy : x.ptr ≠ y.ptr
  xt : x.ptr ∉ ptrs t.inorder
  xu : x.ptr ∉ ptrs u.inorder
  xv : x.ptr ∉ ptrs v.inorder
  xc : x.ptr ∉ ptrs (items ctx)
  yt : y.ptr ∉ ptrs t.inorder
  yu : y.ptr ∉ ptrs u.inorder
  yv : y.ptr ∉ ptrs v.inorder
  yc : y.ptr ∉ ptrs (items ctx)
  xtop : x.ptr ≠ top T.nil u
  ytop : y.ptr ≠ top T.nil u
  outT : ∀ q ∈ ptrs t.inorder, q ≠ top T.nil u ∧ q ∉ ptrs (items ctx)
  outU : ∀ q ∈ ptrs u.inorder, q ∉ ptrs (items ctx)
  outV : ∀ q ∈ ptrs v.inorder, q ≠ top T.nil u ∧ q ∉ ptrs (items ctx)
  outC : ∀ q ∈ ptrs (items ctx), q ≠ top T.nil u

theorem At.child (ht : At T ctx (.join s cx x t (.join s cy y u v))) :
    At T (⟨s.flip, cx, x, t⟩ :: ctx) (.join s cy y u v) :=
  at_cons.mpr (by rwa [Frame.fill, ColoredTree.join_flip])

theorem At.apart (ht : At T ctx (.join s cx x t (.join s cy y u v))) : Apart T x y t u v ctx := by
  have hy := ht.child
  have hu : At T (⟨s, cy, y, v⟩ :: ⟨s.flip, cx, x, t⟩ :: ctx) u := at_cons.mpr hy
  obtain ⟨hxc, hxt, hxyuv⟩ := ht.notMem
  obtain ⟨hyxtc, hyu, hyv⟩ := hy.notMem
  simp only [mem_ptrs_items_cons, not_or] at hyxtc
  rw [mem_ptrs_join, not_or, not_or] at hxyuv
  obtain ⟨-, hyt, hyc⟩ := hyxtc
  obtain ⟨hxy, hxu, hxv⟩ := hxyuv
  have hutop : ∀ q, q ≠ T.nil → q ∈ ptrs (items (⟨s, cy, y, v⟩ :: ⟨s.flip, cx, x, t⟩ :: ctx)) →
      q ≠ top T.nil u :=
    fun q hq hmem => top_ne_of_notMem (fun hqu => hu.disjoint hqu hmem) hq
  simp only [mem_ptrs_items_cons] at hutop
  refine ⟨hxy, hxt, hxu, hxv, hxc, hyt, hyu, hyv, hyc, top_ne_of_notMem hxu ht.ne_nil,
    top_ne_of_notMem hyu hy.ne_nil, fun q hq => ⟨?_, ?_⟩, fun q hq hmem => ?_,
    fun q hq => ⟨?_, ?_⟩, fun q hq => ?_⟩
  · exact hutop q (ne_of_mem_of_not_mem hq (stored_join.mp ht.here).2.1.ne_nil)
      (.inr (.inr (.inr (.inl hq))))
  · exact ht.disjoint (mem_ptrs_join.mpr (.inr (.inl hq)))
  · exact hu.disjoint hq (by simp only [mem_ptrs_items_cons]; exact .inr (.inr (.inr (.inr hmem))))
  · exact hutop q (ne_of_mem_of_not_mem hq (stored_join.mp hy.here).2.2.ne_nil) (.inr (.inl hq))
  · exact ht.disjoint (mem_ptrs_join.mpr (.inr (.inr (mem_ptrs_join.mpr (.inr (.inr hq))))))
  · exact hutop q (ne_of_mem_of_not_mem hq ht.around.ne_nil) (.inr (.inr (.inr (.inr hq))))

theorem At.cell_x (ht : At T ctx (.join s cx x t (.join s cy y u v))) :
    T.mem x.ptr = RbTree.cell x cx s (top T.nil t) y.ptr (up T.nil ctx) := by
  have hcell := ht.cell
  rwa [top_join] at hcell

theorem At.takeOver_x (ht : At T ctx (.join s cx x t (.join s cy y u v))) :
    (takeOver T s x y u ctx).mem x.ptr =
      RbTree.cell x cx s (top T.nil t) (top T.nil u) (up T.nil ctx) := by
  rw [takeOver, Rbtree.setParent_ne ht.apart.xy, adopt_mem ht.apart.xtop, Rbtree.setChild,
    Rbtree.modify_self, ht.cell_x, setChild_flip_cell]

theorem At.takeOver_y (ht : At T ctx (.join s cx x t (.join s cy y u v))) :
    (takeOver T s x y u ctx).mem y.ptr =
      RbTree.cell y cy s (top T.nil u) (top T.nil v) (up T.nil ctx) := by
  rw [takeOver, Rbtree.setParent, Rbtree.modify_self, adopt_mem ht.apart.ytop,
    Rbtree.setChild_ne ht.apart.xy.symm, ht.child.cell, setParent_cell]

theorem At.rotated_x (ht : At T ctx (.join s cx x t (.join s cy y u v))) :
    (rotated T s x y u ctx).mem x.ptr =
      RbTree.cell x cx s (top T.nil t) (top T.nil u) y.ptr := by
  rw [rotated, Rbtree.setParent, Rbtree.modify_self, Rbtree.setChild_ne ht.apart.xy,
    hang_mem ht.apart.xc, ht.takeOver_x, setParent_cell]

theorem At.rotated_y (ht : At T ctx (.join s cx x t (.join s cy y u v))) :
    (rotated T s x y u ctx).mem y.ptr =
      RbTree.cell y cy s x.ptr (top T.nil v) (up T.nil ctx) := by
  rw [rotated, Rbtree.setParent_ne ht.apart.xy.symm, Rbtree.setChild, Rbtree.modify_self,
    hang_mem ht.apart.yc, ht.takeOver_y, setChild_cell]

theorem At.takeOver_around (ht : At T ctx (.join s cx x t (.join s cy y u v))) :
    Around (takeOver T s x y u ctx).mem T.nil T.root ctx x.ptr := by
  have haround := ht.around
  rw [top_join] at haround
  exact haround.congr fun q hq => takeOver_mem (ne_of_mem_of_not_mem hq ht.apart.xc)
    (ne_of_mem_of_not_mem hq ht.apart.yc) (ht.apart.outC q hq)

theorem At.rotate_eq (ht : At T ctx (.join s cx x t (.join s cy y u v))) :
    RbTree.rotate s T x.ptr = rotated T s x y u ctx := by
  have hchild : T.child s.flip x.ptr = y.ptr := by
    rw [Rbtree.child, ht.cell_x, child_flip_cell]
  have hinner : T.child s y.ptr = top T.nil u := by
    rw [Rbtree.child, ht.child.cell, child_cell]
  have hinner' : (T.setChild s.flip x.ptr (top T.nil u)).child s y.ptr = top T.nil u := by
    rw [Rbtree.child, Rbtree.setChild_ne ht.apart.xy.symm, ht.child.cell, child_cell]
  have hpar : (adopt (T.setChild s.flip x.ptr (top T.nil u)) (top T.nil u) x.ptr).parent x.ptr =
      up T.nil ctx := by
    rw [Rbtree.parent, adopt_mem ht.apart.xtop, Rbtree.setChild, Rbtree.modify_self, ht.cell_x,
      setChild_flip_cell, parent_cell]
  have hrelink : relink s (takeOver T s x y u ctx) x.ptr y.ptr =
      hang (takeOver T s x y u ctx) y.ptr ctx := by
    refine relink_eq (by simpa using ht.takeOver_around) ?_ (by simpa using ht.ne_nil) ht.apart.xc
      s y.ptr
    rw [Rbtree.parent, ht.takeOver_x, parent_cell, takeOver_nil]
  simp only [RbTree.rotate, hchild, hinner, hinner']
  rw [rotated, ← hrelink, takeOver, ← hpar]
  rfl

theorem rotated_mem_of_ne (hx : q ≠ x.ptr) (hy : q ≠ y.ptr) (hu : q ≠ top T.nil u)
    (hq : q ∉ ptrs (items ctx)) : (rotated T s x y u ctx).mem q = T.mem q :=
  (rotated_mem hx hy hq).trans (takeOver_mem hx hy hu)

theorem At.rotated_t (ht : At T ctx (.join s cx x t (.join s cy y u v))) :
    Stored (rotated T s x y u ctx).mem T.nil x.ptr t := by
  refine (stored_join.mp ht.here).2.1.congr fun q hq => ?_
  obtain ⟨htop, hout⟩ := ht.apart.outT q hq
  exact rotated_mem_of_ne (ne_of_mem_of_not_mem hq ht.apart.xt)
    (ne_of_mem_of_not_mem hq ht.apart.yt) htop hout

theorem At.rotated_v (ht : At T ctx (.join s cx x t (.join s cy y u v))) :
    Stored (rotated T s x y u ctx).mem T.nil y.ptr v := by
  refine (stored_join.mp ht.child.here).2.2.congr fun q hq => ?_
  obtain ⟨htop, hout⟩ := ht.apart.outV q hq
  exact rotated_mem_of_ne (ne_of_mem_of_not_mem hq ht.apart.xv)
    (ne_of_mem_of_not_mem hq ht.apart.yv) htop hout

theorem At.rotated_u (ht : At T ctx (.join s cx x t (.join s cy y u v))) :
    Stored (rotated T s x y u ctx).mem T.nil x.ptr u := by
  have hu : At T (⟨s, cy, y, v⟩ :: ⟨s.flip, cx, x, t⟩ :: ctx) u := at_cons.mpr ht.child
  have hadopt : Stored (T.setChild s.flip x.ptr (top T.nil u)).mem T.nil y.ptr u :=
    hu.here.congr fun q hq => Rbtree.setChild_ne (ne_of_mem_of_not_mem hq ht.apart.xu)
  refine (Stored.adopt (T := T.setChild s.flip x.ptr (top T.nil u)) hadopt hu.nodup_here).congr
    fun q hq => ?_
  have hqy : q ≠ y.ptr := ne_of_mem_of_not_mem hq ht.apart.yu
  rw [rotated_mem (ne_of_mem_of_not_mem hq ht.apart.xu) hqy (ht.apart.outU q hq), takeOver,
    Rbtree.setParent_ne hqy]
  rfl

/-- `x` goes down on the side `s` and keeps what is below it, its child comes up. -/
theorem At.rotate (ht : At T ctx (.join s cx x t (.join s cy y u v))) :
    At (RbTree.rotate s T x.ptr) ctx (.join s cy y (.join s cx x t u) v) ∧
      SameNil T (RbTree.rotate s T x.ptr) := by
  have hy := ht.child
  rw [ht.rotate_eq]
  refine ⟨⟨?_, ?_, ?_⟩, rotated_nil, ?_⟩
  · rw [rotated_nil, stored_join, stored_join, top_join]
    exact ⟨⟨hy.ne_nil, ht.rotated_y⟩, ⟨⟨ht.ne_nil, ht.rotated_x⟩, ht.rotated_t, ht.rotated_u⟩,
      ht.rotated_v⟩
  · rw [rotated_nil, top_join]
    have hhang : Around (hang (takeOver T s x y u ctx) y.ptr ctx).mem T.nil
        (hang (takeOver T s x y u ctx) y.ptr ctx).root ctx y.ptr := by
      have hhang := Around.hang (T := takeOver T s x y u ctx) (h := x.ptr)
        (by simpa using ht.takeOver_around) ht.nodup_around y.ptr
      rwa [takeOver_nil] at hhang
    refine hhang.congr fun q hq => ?_
    rw [rotated, Rbtree.setParent_ne (ne_of_mem_of_not_mem hq ht.apart.xc),
      Rbtree.setChild_ne (ne_of_mem_of_not_mem hq ht.apart.yc)]
  · have hnodup := ht.nodup
    have hrotate := ColoredTree.inorder_rotate s cx cx cy cy x y t u v
    rw [ColoredTree.join_flip, ColoredTree.join_flip] at hrotate
    rwa [← inorder_plug_congr hrotate] at hnodup
  · rw [rotated_mem ht.ne_nil.symm hy.ne_nil.symm ht.around.ne_nil, takeOver,
      Rbtree.setParent_ne hy.ne_nil.symm]
    exact adopt_mem_nil.trans (Rbtree.setChild_ne ht.ne_nil.symm)

-- ---------------------------------------------------------------------------
-- Steps that keep the order
-- ---------------------------------------------------------------------------

structure Moves (T : Rbtree) (l : List Binding) (T' : Rbtree) (ctx : Context Binding)
    (t : ColoredTree Binding) : Prop where
  same : SameNil T T'
  at_hole : At T' ctx t
  order : (plug ctx t).inorder = l

/-- What a fixup is to bring about: the tree as a whole, balanced, in the old order. -/
def Fixed (T : Rbtree) (l : List Binding) (T' : Rbtree) : Prop :=
  ∃ t n, Moves T l T' [] t ∧ t.Balanced n

/-- The tree is stored in full, with a black root over a balanced tree. -/
structure RedBlackTree (T : Rbtree) (t : ColoredTree Binding) : Prop where
  stored : At T [] t
  nil_black : (T.mem T.nil).color = .black
  root_black : t.color = .black
  balanced : ∃ n, t.Balanced n

end LearningCode.RbTree
