import LearningCode.Nginx.Timer
import LearningCode.WrapTimer.Wrap

/-!
# The tree of nginx as one of the balanced trees

What holds of the timers however the tree is rebalanced holds of `rbtree.c`: its
insertion and its deletion keep the order that the walk gives, and the loop of
`expire_timer` over the pointers fires what the loop over the shape fires.
-/

namespace LearningCode.WrapTimer.Rbt

open Clock
open Nginx (NgxRbtree Kept keyOf nodeOf item timerLess Walked NULL)
open MinHeap (Ptr)
open RbTree (Binding At)
open RedBlack RedBlack.Context

variable {B : Balancing} {T T' : NgxRbtree} {t t' : ColoredTree Binding} {u u' : Ngx}
  {ctx : Context Binding} {node : Node} {b : Binding} {te : Ptr} {msec cur k : BitVec 32}
  {now : Nat} {due : Ptr → Nat} {fired : List Ptr}

-- --------------------------------------------------------------------------
-- The shape
-- --------------------------------------------------------------------------

def shownNode (b : Binding) : Node := ⟨b.ptr, keyOf b⟩

def shape : ColoredTree Binding → Ngx
  | .leaf => .sentinel
  | .node _ b l r => .node (shape l) (shownNode b) (shape r)

theorem inorder_shape (t : ColoredTree Binding) : (shape t).inorder = t.inorder.map shownNode := by
  induction t with
  | leaf => rfl
  | node c b l r ihl ihr => simp [shape, Ngx.inorder, ColoredTree.inorder, ihl, ihr]

theorem ptrs_shape (t : ColoredTree Binding) : ptrs (shape t) = RbTree.ptrs t.inorder := by
  rw [ptrs, inorder_shape, List.map_map]
  rfl

theorem walk_frames (hw : Walked timerLess node.key ctx) (t : ColoredTree Binding) :
    (insertTimerValue (shape (plug ctx t)) node).inorder =
      (before ctx).map shownNode ++ (insertTimerValue (shape t) node).inorder ++
        (after ctx).map shownNode := by
  induction ctx generalizing t with
  | nil => simp [before, after]
  | cons f ctx ih =>
    obtain ⟨s, c, a, v⟩ := f
    have hs : s = .left ↔ (node.key - keyOf a).toInt < 0 := by
      simpa [timerLess] using hw _ List.mem_cons_self
    rw [plug_cons, ih fun g hg => hw g (List.mem_cons_of_mem _ hg)]
    cases s with
    | left =>
      have hless : (node.key - keyOf a).toInt < 0 := hs.mp rfl
      simp [-BitVec.toInt_sub, Frame.fill, ColoredTree.join, shape, insertTimerValue, shownNode,
        hless, Ngx.inorder, inorder_shape, before, after]
    | right =>
      have hless : ¬(node.key - keyOf a).toInt < 0 := fun h => absurd (hs.mpr h) (by decide)
      simp [-BitVec.toInt_sub, Frame.fill, ColoredTree.join, shape, insertTimerValue, shownNode,
        hless, Ngx.inorder, inorder_shape, before, after]

-- --------------------------------------------------------------------------
-- The calls
-- --------------------------------------------------------------------------

theorem mem_shape {p : Ptr} (ht : Kept timerLess T t) : p ∈ ptrs (shape t) ↔ Nginx.Linked T p := by
  rw [ptrs_shape]
  exact (Nginx.linked_iff ht.tree.stored).symm

variable (B) in
theorem add_shape (ht : Kept timerLess T t) (hsent : te ≠ T.sentinel) (hnull : te ≠ NULL)
    (hnew : te ∉ ptrs (shape t)) :
    ∃ T' t', Returns (Nginx.addTimer · T te msec cur) T' ∧ T'.sentinel = T.sentinel ∧
      Kept timerLess T' t' ∧ (shape t').inorder = (addTimer B (shape t) te msec cur).inorder := by
  rw [ptrs_shape] at hnew
  have hwrite := ht.write hsent hnew ⟨msec + cur, NULL, NULL, NULL, .black⟩
  have hkey : ((T.modify te fun _ => ⟨msec + cur, NULL, NULL, NULL, .black⟩).mem te).key =
      msec + cur := by rw [Nginx.NgxRbtree.modify_self]
  obtain ⟨T', t', hret, hsent', hins, htree, ctx, hplug, hwalked, horder⟩ :=
    Nginx.ngxRbtreeInsert_spec hwrite.compares hwrite.tree hsent hnew
  have hinserted : Nginx.Inserted timerLess _ te t.inorder t'.inorder :=
    ⟨ctx, congrArg _ hplug, hwalked, horder⟩
  refine ⟨T', t', hret, hsent', ⟨htree, hins.trans hwrite.compares, fun h => ?_⟩, ?_⟩
  · exact (hinserted.mem_ptrs.mp h).elim (fun heq => hnull heq.symm) ht.no_null
  · have hwalk := @walk_frames _ ⟨te, msec + cur⟩ (hkey ▸ hwalked) .leaf
    rw [hplug] at hwalk
    have hnode : shownNode (item
        (T.modify te fun _ => ⟨msec + cur, NULL, NULL, NULL, .black⟩).mem te) =
        ⟨te, msec + cur⟩ := by
      rw [shownNode, Nginx.keyOf_item, hkey]
      rfl
    rw [addTimer, inorder_ngxRbtreeInsert, hwalk, inorder_shape, horder, List.map_append,
      List.map_cons, hnode]
    simp [shape, insertTimerValue, Ngx.inorder]

theorem first_node {bs : List Binding} (ht : Kept timerLess T t) (hl : t.inorder = b :: bs) :
    T.root ≠ T.sentinel ∧ Returns (Nginx.ngxRbtreeMin T · T.root) b.ptr ∧
      (T.mem b.ptr).key = keyOf b := by
  have hroot : T.root = RbTree.top T.sentinel t := ht.tree.stored.root_eq
  refine ⟨?_, ?_, Nginx.keyOf_mem ht.tree.stored (hl ▸ List.mem_cons_self)⟩
  · rw [hroot]
    refine mt (RbTree.top_eq_nil_iff ht.tree.stored.here).mp ?_
    rintro rfl
    cases hl
  · have henum := (Nginx.enumerates_of_at ht.tree.stored).min
    rw [hl] at henum
    exact henum (List.cons_ne_nil _ _)

theorem root_of_nil (ht : Kept timerLess T t) (hl : t.inorder = []) : T.root = T.sentinel := by
  cases t with
  | leaf => exact ht.tree.stored.root_eq
  | node => simp [ColoredTree.inorder] at hl

theorem delete_first {bs : List Binding} (ht : Kept timerLess T t) (hl : t.inorder = b :: bs) :
    ∃ T' t', Returns (Nginx.touchTimer · T b.ptr []) T' ∧ T'.sentinel = T.sentinel ∧
      Kept timerLess T' t' ∧ t'.inorder = bs := by
  have hb : b ∈ t.inorder := hl ▸ List.mem_cons_self
  have hlegal : Nginx.Legal T (.delete b.ptr) :=
    (Nginx.linked_iff ht.tree.stored).mpr (List.mem_map_of_mem hb)
  obtain ⟨T', t', hdelete, hsent, ht', b', hptr, pre, suf, hsplit, horder⟩ := ht.call hlegal
  refine ⟨T', t', hdelete, hsent, ht', ?_⟩
  have hnodup : (RbTree.ptrs t.inorder).Nodup := ht.tree.stored.nodup
  rw [hl] at hsplit hnodup
  cases pre with
  | nil => exact horder.trans (List.cons.inj hsplit).2.symm
  | cons a pre =>
    have hlater : b' ∈ bs := by
      rw [(List.cons.inj hsplit).2]
      exact List.mem_append_right _ List.mem_cons_self
    exact absurd (hptr ▸ List.mem_map_of_mem hlater) (List.nodup_cons.mp hnodup).1

theorem expire_shape (cur : BitVec 32) (ht : Kept timerLess T t) :
    ∃ T' t', Returns (Nginx.expireTimer · T cur [])
        (T', ((shape t).inorder.takeWhile fun n => n.key ≤ cur).map Node.ptr) ∧
      T'.sentinel = T.sentinel ∧ Kept timerLess T' t' ∧
      (shape t').inorder = (shape t).inorder.dropWhile fun n => n.key ≤ cur := by
  rw [inorder_shape]
  induction hl : t.inorder generalizing T t with
  | nil =>
    refine ⟨T, t, .last fun turns => ?_, rfl, ht, by rw [inorder_shape, hl]; rfl⟩
    rw [Nginx.expireTimer]
    exact if_pos (root_of_nil ht hl)
  | cons b bs ih =>
    obtain ⟨hne, hmin, hkey⟩ := first_node ht hl
    -- what the loop does once it has the first node
    let rest (turns : Nat) (node : Nginx.Ptr) : Option (NgxRbtree × List Nginx.Ptr) :=
      if (T.mem node).key > cur then some (T, [])
      else Nginx.touchTimer turns T node [] >>= fun T =>
        Nginx.expireTimer turns T cur [] >>= fun r => some (r.1, node :: r.2)
    have hloop {r : NgxRbtree × List Nginx.Ptr} (hrest : Returns (rest · b.ptr) r) :
        Returns (Nginx.expireTimer · T cur []) r :=
      (hmin.bind (k := rest) hrest).turn fun turns => by
        rw [Nginx.expireTimer, if_neg hne]
        rfl
    by_cases hlate : keyOf b > cur
    · have hstop : ¬(shownNode b).key ≤ cur := BitVec.not_le.mpr hlate
      refine ⟨T, t, ?_, rfl, ht, ?_⟩
      · rw [List.map_cons, List.takeWhile_cons_of_neg (by simpa using hstop)]
        exact hloop (.const fun turns => if_pos (hkey ▸ hlate))
      · rw [inorder_shape, hl, List.map_cons, List.dropWhile_cons_of_neg (by simpa using hstop)]
    · have hgo : (shownNode b).key ≤ cur := BitVec.not_lt.mp hlate
      obtain ⟨T₁, t₁, hdelete, hsent, ht₁, hbs⟩ := delete_first ht hl
      obtain ⟨T', t', hrun, hsent', ht', hleft⟩ := ih ht₁ hbs
      refine ⟨T', t', ?_, hsent'.trans hsent, ht', ?_⟩
      · rw [List.map_cons, List.takeWhile_cons_of_pos (by simpa using hgo), List.map_cons]
        refine hloop (.congr ?_ fun turns => if_neg (hkey ▸ hlate))
        refine Returns.bind (k := fun turns T => Nginx.expireTimer turns T cur [] >>= fun r =>
          some (r.1, b.ptr :: r.2)) hdelete ?_
        exact hrun.bind (k := fun _ r => some (r.1, b.ptr :: r.2)) (.const fun turns => rfl)
      · rw [hleft, List.map_cons, List.dropWhile_cons_of_pos (by simpa using hgo)]

theorem nearest_shape (cur : BitVec 32) (ht : Kept timerLess T t) :
    Returns (Nginx.findNearestExpireTimer · T cur) (findNearestExpireTimer (shape t) cur) := by
  cases hl : t.inorder with
  | nil =>
    have hempty : shape t = .sentinel := by
      cases t with
      | leaf => rfl
      | node => simp [ColoredTree.inorder] at hl
    rw [hempty]
    exact .const fun turns => if_pos (root_of_nil ht hl)
  | cons b bs =>
    obtain ⟨hne, hmin, hkey⟩ := first_node ht hl
    have hfirst := inorder_shape t
    rw [hl] at hfirst
    cases hshape : shape t with
    | sentinel =>
      rw [hshape] at hfirst
      cases hfirst
    | node l n r =>
      obtain ⟨ns, hns⟩ := inorder_min (l := l) (n := n) (r := r)
      rw [hshape, hns] at hfirst
      have hnode : ngxRbtreeMin l n r = shownNode b := (List.cons.inj hfirst).1
      refine (hmin.bind (k := fun _ node => some (if ((T.mem node).key - cur).toInt > 0 then
        ((T.mem node).key - cur).toInt else 0)) (.const fun _ => ?_)).congr fun turns => if_neg hne
      rw [hkey, findNearestExpireTimer, hnode]
      rfl

-- --------------------------------------------------------------------------
-- The timers over the pointers
-- --------------------------------------------------------------------------

/-- The tree of nginx serves its pending timers right exactly when they are in line. -/
theorem nginx_right_iff (ht : Kept timerLess T t) (h : Timed (shape t) now due) :
    ∃ T' fired nearest, Returns (Nginx.expireTimer · T (reading 32 now) []) (T', fired) ∧
      Returns (Nginx.findNearestExpireTimer · T (reading 32 now)) nearest ∧
      (Right now due (Nginx.Linked T) fired nearest ↔
        ∃ front later, ptrs (shape t) = front ++ later ∧ InLine now due front later) := by
  obtain ⟨T', t', hrun, -⟩ := expire_shape (reading 32 now) ht
  obtain ⟨u, fired, hrun', hright⟩ := right_iff (B := branching) h
  obtain ⟨u', hspec⟩ := expireTimer_spec (B := branching) (reading 32 now) (shape t)
  obtain rfl := congrArg Prod.snd (hrun'.unique hspec)
  have hlinked : (· ∈ ptrs (shape t)) = Nginx.Linked T := funext fun p => propext (mem_shape ht)
  rw [hlinked] at hright
  exact ⟨T', _, _, hrun, nearest_shape _ ht, hright⟩

/-- The trees of `init_timer`, `add_timer`, `del_timer` and `expire_timer`, while every
new deadline is less than half a turn away from the pending ones. -/
inductive Grown : (due : Ptr → Nat) → NgxRbtree → Prop
  | init (due : Ptr → Nat) (mem : Nginx.Mem) (sentinel : Ptr) :
    Grown due (Nginx.initTimer mem sentinel)
  | add {due : Ptr → Nat} {T T' : NgxRbtree} {te : Ptr} {msec : BitVec 32} {now : Nat}
      (h : Grown due T) (hsent : te ≠ T.sentinel) (hnull : te ≠ NULL) (hfresh : ¬Nginx.Linked T te)
      (hnear : ∀ x, Nginx.Linked T x → Near 32 (now + msec.toNat) (due x))
      (hret : Returns (Nginx.addTimer · T te msec (reading 32 now)) T') :
    Grown (Function.update due te (now + msec.toNat)) T'
  | del {due : Ptr → Nat} {T T' : NgxRbtree} {te : Ptr} (h : Grown due T) (hte : Nginx.Linked T te)
      (hret : Returns (Nginx.delTimer · T te) T') : Grown due T'
  | expire {due : Ptr → Nat} {T T' : NgxRbtree} {cur : BitVec 32} {fired : List Ptr} (h : Grown due T)
      (hret : Returns (Nginx.expireTimer · T cur []) (T', fired)) : Grown due T'

theorem Grown.ordered (h : Grown due T) : ∃ t, Kept timerLess T t ∧ Ordered due (shape t) := by
  induction h with
  | init due mem sentinel =>
    refine ⟨.leaf, Nginx.init_kept ⟨mem, sentinel, rfl⟩, ?_, List.Pairwise.nil⟩
    simp [shape, Ngx.inorder]
  | @add due T T' te msec now _ hsent hnull hfresh hnear hret ih =>
    obtain ⟨t, ht, hordered⟩ := ih
    have hnew : te ∉ ptrs (shape t) := mt (mem_shape ht).mp hfresh
    obtain ⟨T₁, t', hcall, -, ht', horder⟩ := add_shape branching ht hsent hnull hnew
    obtain rfl := Returns.unique hret hcall
    refine ⟨t', ht', (hordered.add branching hnew fun x hx => hnear x ((mem_shape ht).mp hx)).sublist ?_⟩
    exact horder ▸ List.Sublist.refl _
  | del _ hte hret ih =>
    obtain ⟨t, ht, hordered⟩ := ih
    have hlegal : Nginx.Legal _ (.delete _) := hte
    obtain ⟨T₁, t', hcall, -, ht', b, -, pre, suf, hsplit, horder⟩ := ht.call hlegal
    obtain rfl := Returns.unique hret hcall
    refine ⟨t', ht', hordered.sublist ?_⟩
    rw [inorder_shape, inorder_shape, hsplit, horder]
    exact ((List.sublist_cons_self b suf).append_left pre).map _
  | expire _ hret ih =>
    obtain ⟨t, ht, hordered⟩ := ih
    obtain ⟨T₁, t', hcall, -, ht', hleft⟩ := expire_shape _ ht
    obtain rfl := congrArg Prod.fst (hret.unique hcall)
    exact ⟨t', ht', hordered.sublist (hleft ▸ List.dropWhile_sublist _)⟩

/-- And with its deadlines in order it is a matter of turns, as for any balanced tree. -/
theorem nginx_grown_right_iff (hgrown : Grown due T)
    (hnear : ∀ x, Nginx.Linked T x → Near 32 (due x) now) :
    ∃ T' fired nearest, Returns (Nginx.expireTimer · T (reading 32 now) []) (T', fired) ∧
      Returns (Nginx.findNearestExpireTimer · T (reading 32 now)) nearest ∧
      (Right now due (Nginx.Linked T) fired nearest ↔
        ∀ e, Nginx.Linked T e → (∀ x, Nginx.Linked T x → now < due x → due e ≤ due x) →
          turn 32 (due e) = turn 32 now) := by
  obtain ⟨t, ht, hordered⟩ := hgrown.ordered
  have htimed : Timed (shape t) now due := by
    refine ⟨hordered.key, fun n hn => hnear _ ((mem_shape ht).mp (List.mem_map_of_mem hn)), ?_⟩
    rw [ptrs_shape]
    exact ht.tree.stored.nodup
  obtain ⟨T', fired, nearest, hrun, hnearest, hright⟩ := nginx_right_iff ht htimed
  refine ⟨T', fired, nearest, hrun, hnearest, hright.trans ?_⟩
  have hsorted : (ptrs (shape t)).Pairwise fun e x => due e ≤ due x :=
    List.pairwise_map.mpr hordered.sorted
  rw [inLine_iff_of_sorted hsorted]
  simp only [mem_shape ht]

end LearningCode.WrapTimer.Rbt
