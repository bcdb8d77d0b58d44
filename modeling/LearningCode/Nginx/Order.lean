import Mathlib.Data.List.Basic
import LearningCode.Nginx.Runs
import LearningCode.RbTree.Successor

/-!
# The order of the nodes

A new node comes behind those that compare as equal, a deletion takes out its node
and leaves the others where they are. Timer keys are compared by the sign of their
difference, which orders keys that lie within half a turn of the 32-bit clock.
-/

namespace LearningCode.Nginx

open RedBlack RedBlack.Context
open RbTree (Rbtree RbtreeNode Binding At top up ptrs)

variable {T T' : NgxRbtree} {s : Side} {c : Color} {p z : Ptr} {b : Binding}
  {t u : ColoredTree Binding} {ctx : Context Binding} {l : List Node}
  {less : BitVec 32 → BitVec 32 → Bool} {k : BitVec 32} {op : Op} {rank : BitVec 32 → Nat}

structure Node where
  ptr : Ptr
  key : BitVec 32
deriving DecidableEq, Repr

def nodeOf (b : Binding) : Node := ⟨b.ptr, keyOf b⟩

def Holds (T : NgxRbtree) (l : List Node) : Prop :=
  ∃ t, At (view T) [] t ∧ l = t.inorder.map nodeOf

/-- No node compares as less than one in front of it. -/
def InOrder (less : BitVec 32 → BitVec 32 → Bool) (l : List Node) : Prop :=
  l.Pairwise fun a b => less b.key a.key = false

def Changed (less : BitVec 32 → BitVec 32 → Bool) (T : NgxRbtree) : Op → List Node → List Node → Prop
  | .write _ _, l, l' => l' = l
  | .insert node, l, l' => ∃ pre suf, l = pre ++ suf ∧ l' = pre ++ ⟨node, (T.mem node).key⟩ :: suf ∧
      (∀ a ∈ pre, less (T.mem node).key a.key = false) ∧
      ∀ a ∈ suf, less (T.mem node).key a.key = true
  | .delete node, l, l' => ∃ pre suf a, a.ptr = node ∧ l = pre ++ a :: suf ∧ l' = pre ++ suf

def Agrees (less : BitVec 32 → BitVec 32 → Bool) (rank : BitVec 32 → Nat) (K : BitVec 32 → Prop) :
    Prop :=
  ∀ k k', K k → K k' → (less k k' = true ↔ rank k < rank k')

def Comparable (less : BitVec 32 → BitVec 32 → Bool) (T : NgxRbtree) : Op → Prop
  | .insert node => ∃ rank, Agrees less rank fun k =>
      ∃ p, (Linked T p ∨ p = node) ∧ (T.mem p).key = k
  | _ => True

-- ---------------------------------------------------------------------------
-- The comparisons of the two insertion functions
-- ---------------------------------------------------------------------------

theorem valueLess_comparable (T : NgxRbtree) (op : Op) : Comparable valueLess T op := by
  cases op with
  | insert node =>
    refine ⟨BitVec.toNat, fun k k' _ _ => ?_⟩
    rw [valueLess, decide_eq_true_iff, BitVec.lt_def]
  | write p n => trivial
  | delete node => trivial

/-- The sign of the difference, for keys less than half a turn behind `base`. -/
theorem timerLess_iff {base k' : BitVec 32} (hk : (k - base).toNat < 2 ^ 31)
    (hk' : (k' - base).toNat < 2 ^ 31) :
    timerLess k k' = true ↔ (k - base).toNat < (k' - base).toNat := by
  have hsub : k - k' = (k - base) - (k' - base) := by bv_omega
  rw [timerLess, decide_eq_true_iff, hsub]
  generalize k - base = a at *
  generalize k' - base = b at *
  rw [BitVec.toInt_sub, BitVec.toInt_eq_toNat_of_lt (by omega), BitVec.toInt_eq_toNat_of_lt (by omega)]
  rw [Int.bmod_eq_of_le (by omega) (by omega)]
  omega

theorem timerLess_comparable (base : BitVec 32) {node : Ptr}
    (h : ∀ p, Linked T p ∨ p = node → ((T.mem p).key - base).toNat < 2 ^ 31) :
    Comparable timerLess T (.insert node) := by
  refine ⟨fun k => (k - base).toNat, ?_⟩
  rintro k k' ⟨p, hp, rfl⟩ ⟨p', hp', rfl⟩
  exact timerLess_iff (h p hp) (h p' hp')

-- ---------------------------------------------------------------------------
-- The place of the new node
-- ---------------------------------------------------------------------------

theorem walked_between {K : BitVec 32 → Prop} (ha : Agrees less rank K) (hk : K k)
    (hw : Walked less k ctx) (hK : ∀ b ∈ items ctx, K (keyOf b))
    (hsorted : (items ctx).Pairwise fun a b => rank (keyOf a) ≤ rank (keyOf b)) :
    (∀ b ∈ before ctx, rank (keyOf b) ≤ rank k) ∧ ∀ b ∈ after ctx, rank k < rank (keyOf b) := by
  induction ctx with
  | nil => exact ⟨fun _ h => absurd h List.not_mem_nil, fun _ h => absurd h List.not_mem_nil⟩
  | cons f ctx ih =>
    obtain ⟨s, c, a, u⟩ := f
    have hsub : (items ctx).Sublist (items (⟨s, c, a, u⟩ :: ctx)) := by
      cases s with
      | left =>
        refine .append_left (.cons a ?_) _
        exact List.sublist_append_right _ _
      | right =>
        refine .append_right ?_ _
        exact List.sublist_append_left _ _
    have hside := hw _ List.mem_cons_self
    obtain ⟨hbefore, hafter⟩ := ih (fun f hf => hw f (List.mem_cons_of_mem _ hf))
      (fun b hb => hK b (hsub.subset hb)) (hsorted.sublist hsub)
    have hKa : K (keyOf a) := hK a ((items_cons_perm ⟨s, c, a, u⟩ ctx).mem_iff.mpr List.mem_cons_self)
    have hless := ha k (keyOf a) hk hKa
    cases s with
    | left =>
      have hlt : rank k < rank (keyOf a) := hless.mp (hside.mp rfl)
      refine ⟨hbefore, fun b hb => ?_⟩
      obtain ⟨hau, -⟩ := List.pairwise_cons.mp (List.pairwise_append.mp hsorted).2.1
      obtain rfl | hb := List.mem_cons.mp hb
      · exact hlt
      · exact Nat.lt_of_lt_of_le hlt (hau b hb)
    | right =>
      have hle : rank (keyOf a) ≤ rank k := by
        refine Nat.le_of_not_lt fun hlt => ?_
        cases hside.mpr (hless.mpr hlt)
      refine ⟨fun b hb => ?_, hafter⟩
      have hu := (List.pairwise_append.mp (List.pairwise_append.mp hsorted).1).2.1
      obtain hb | hb := List.mem_append.mp hb
      · exact hbefore b hb
      · obtain hb | hb := List.mem_append.mp hb
        · exact Nat.le_trans ((List.pairwise_append.mp hu).2.2 b hb a List.mem_cons_self) hle
        · obtain rfl := List.mem_singleton.mp hb
          exact hle

theorem keyOf_mem (ht : At (view T) [] t) (hb : b ∈ t.inorder) : (T.mem b.ptr).key = keyOf b := by
  obtain ⟨ctx, c, l, r, rfl⟩ := exists_plug hb
  exact keyOf_stored (s := .left) (u := l) (v := r) ht.focus

theorem pairwise_iff {K : BitVec 32 → Prop} (ha : Agrees less rank K) {bs : List Binding}
    (hK : ∀ b ∈ bs, K (keyOf b)) : InOrder less (bs.map nodeOf) ↔
      bs.Pairwise fun a b => rank (keyOf a) ≤ rank (keyOf b) := by
  rw [InOrder, List.pairwise_map]
  refine List.Pairwise.iff_of_mem fun {a b} hmema hmemb => ?_
  have hless := ha (keyOf b) (keyOf a) (hK b hmemb) (hK a hmema)
  show less (keyOf b) (keyOf a) = false ↔ _
  rw [← Bool.not_eq_true, hless, Nat.not_lt]

theorem Kept.changed (ht : Kept less T t) (ho : InOrder less (t.inorder.map nodeOf))
    (hcmp : Comparable less T op) {bs : List Binding} (heff : Effect less T op t.inorder bs) :
    Changed less T op (t.inorder.map nodeOf) (bs.map nodeOf) ∧ InOrder less (bs.map nodeOf) := by
  cases op with
  | write p n =>
    obtain rfl : bs = t.inorder := heff
    exact ⟨rfl, ho⟩
  | delete node =>
    obtain ⟨b, rfl, pre, suf, heq, rfl⟩ := heff
    rw [heq] at ho ⊢
    have hsub : ((pre ++ suf).map nodeOf).Sublist ((pre ++ b :: suf).map nodeOf) :=
      ((List.sublist_cons_self b suf).append_left pre).map nodeOf
    exact ⟨⟨pre.map nodeOf, suf.map nodeOf, nodeOf b, rfl, by simp, by simp⟩, ho.sublist hsub⟩
  | insert node =>
    obtain ⟨ctx, heq, hw, rfl⟩ := heff
    obtain ⟨rank, ha⟩ := hcmp
    have hitems : items ctx = t.inorder := by
      rw [← heq, inorder_plug, ColoredTree.inorder, List.append_nil]
      rfl
    have hK : ∀ b ∈ items ctx, ∃ p, (Linked T p ∨ p = node) ∧ (T.mem p).key = keyOf b := by
      intro b hb
      rw [hitems] at hb
      refine ⟨b.ptr, .inl ?_, keyOf_mem ht.tree.stored hb⟩
      exact (linked_iff ht.tree.stored).mpr (List.mem_map_of_mem hb)
    have hk : ∃ p, (Linked T p ∨ p = node) ∧ (T.mem p).key = (T.mem node).key :=
      ⟨node, .inr rfl, rfl⟩
    rw [← hitems] at ho ⊢
    have hsorted := (pairwise_iff ha hK).mp ho
    obtain ⟨hbefore, hafter⟩ := walked_between ha hk hw hK hsorted
    have hpre : ∀ b ∈ before ctx, less (T.mem node).key (keyOf b) = false := by
      intro b hb
      rw [← Bool.not_eq_true, ha _ _ hk (hK b (List.mem_append_left _ hb)), Nat.not_lt]
      exact hbefore b hb
    have hsuf : ∀ b ∈ after ctx, less (T.mem node).key (keyOf b) = true := by
      intro b hb
      rw [ha _ _ hk (hK b (List.mem_append_right _ hb))]
      exact hafter b hb
    refine ⟨⟨(before ctx).map nodeOf, (after ctx).map nodeOf, by simp [items], ?_, ?_, ?_⟩, ?_⟩
    · simp [nodeOf, item, keyOf]
    · intro a hmem
      obtain ⟨b, hb, rfl⟩ := List.mem_map.mp hmem
      exact hpre b hb
    · intro a hmem
      obtain ⟨b, hb, rfl⟩ := List.mem_map.mp hmem
      exact hsuf b hb
    · have hK' : ∀ b ∈ before ctx ++ item T.mem node :: after ctx,
          ∃ p, (Linked T p ∨ p = node) ∧ (T.mem p).key = keyOf b := by
        intro b hb
        obtain rfl | hb := List.mem_cons.mp (List.perm_middle.mem_iff.mp hb)
        · exact ⟨node, .inr rfl, (keyOf_item T.mem node).symm⟩
        · exact hK b hb
      rw [pairwise_iff ha hK', List.pairwise_append, List.pairwise_cons, keyOf_item]
      obtain ⟨hpair, hpair', hacross⟩ := List.pairwise_append.mp hsorted
      refine ⟨hpair, ⟨fun b hb => Nat.le_of_lt (hafter b hb), hpair'⟩, fun a hmem b hb => ?_⟩
      obtain rfl | hb := List.mem_cons.mp hb
      · rw [keyOf_item]
        exact hbefore a hmem
      · exact hacross a hmem b hb

theorem Kept.holds (h : Kept less T t) : Holds T (t.inorder.map nodeOf) := ⟨t, h.tree.stored, rfl⟩

/-- In every run whose insertions compare comparable keys the nodes are in order, and each
call changes the order by its node alone. -/
theorem reach_order (h : (calls less).Reach (Comparable less) T) :
    ∃ l, Holds T l ∧ InOrder less l ∧ ∀ op, Legal T op → Comparable less T op →
      ∃ T' l', Call T op T' ∧ Holds T' l' ∧ InOrder less l' ∧ Changed less T op l l' := by
  obtain ⟨t, ht, ho⟩ : ∃ t, Kept less T t ∧ InOrder less (t.inorder.map nodeOf) := by
    refine h.invariant (P := fun T => ∃ t, Kept less T t ∧ InOrder less (t.inorder.map nodeOf)) ?_ ?_
    · exact fun T hinit => ⟨.leaf, init_kept hinit, List.Pairwise.nil⟩
    · rintro T op T' ⟨t, ht, ho⟩ hcmp ⟨hlegal, hcall⟩
      obtain ⟨T'', t', hcall', -, ht', heff⟩ := ht.call hlegal
      cases hcall.unique hcall'
      exact ⟨t', ht', (ht.changed ho hcmp heff).2⟩
  refine ⟨_, ht.holds, ho, fun op hl hcmp => ?_⟩
  obtain ⟨T', t', hcall, -, ht', heff⟩ := ht.call hl
  obtain ⟨hchanged, ho'⟩ := ht.changed ho hcmp heff
  exact ⟨T', _, hcall, ht'.holds, ho', hchanged⟩

theorem reach_order_two : ∃ T, T.root = 1 ∧ T.child .right 1 = 2 ∧ ∃ l, Holds T l ∧
    InOrder valueLess l ∧ ∀ op, Legal T op → Comparable valueLess T op →
      ∃ T' l', Call T op T' ∧ Holds T' l' ∧ InOrder valueLess l' ∧ Changed valueLess T op l l' := by
  obtain ⟨T, hrun, hroot, hchild, -⟩ := reach_two fun T p => valueLess_comparable T (.insert p)
  exact ⟨T, hroot, hchild, reach_order hrun⟩

end LearningCode.Nginx

/-!
## Iteration

From `ngx_rbtree_min` of the root on, `ngx_rbtree_next` comes to the nodes in their
order and then to `NULL`. The climb stops at the root before it takes the root for
a child of its parent, which may have been freed.
-/

namespace LearningCode.Nginx

open RedBlack RedBlack.Context
open RbTree (Rbtree Binding At top up ptrs)

variable {T : NgxRbtree} {s : Side} {c : Color} {b : Binding} {t l r : ColoredTree Binding}
  {ctx : Context Binding} {less : BitVec 32 → BitVec 32 → Bool} {guard : NgxRbtree → Op → Prop}

def firstPtr : List Node → Ptr
  | [] => NULL
  | n :: _ => n.ptr

theorem firstPtr_nodeOf (bs : List Binding) : firstPtr (bs.map nodeOf) = RbTree.first NULL bs := by
  cases bs <;> rfl

/-- Frame by frame: below a node's right the climb goes on, below its left it ends. -/
theorem nextAbove_spec (ht : At (view T) ctx t) (hne : t ≠ .leaf) :
    Returns (nextAbove T · (top T.sentinel t)) (RbTree.first NULL (after ctx)) := by
  induction ctx generalizing t with
  | nil =>
    refine .last fun turns => ?_
    rw [nextAbove]
    exact if_pos ht.root_eq.symm
  | cons f ctx ih =>
    obtain ⟨s, c, a, u⟩ := f
    have hroot := top_ne_root ht
    have hpar : T.parent (top T.sentinel t) = a.ptr := parent_top ht hne
    cases s with
    | left =>
      have hleft : T.child .left a.ptr = top T.sentinel t := by
        rw [← child_view]
        exact ht.child_frame
      refine .last fun turns => ?_
      simp only [nextAbove, hpar, if_neg hroot, hleft, if_true]
      rfl
    | right =>
      have hleft : T.child .left a.ptr = top T.sentinel u := by
        rw [← child_view]
        exact ht.child_flip_frame
      have hother : top T.sentinel t ≠ top T.sentinel u := ht.top_ne_sibling (.inl hne)
      have hrest := ih ht.out ColoredTree.join_ne_leaf
      rw [RbTree.top_join] at hrest
      refine hrest.turn fun turns => ?_
      simp only [nextAbove, hpar, if_neg hroot, hleft, if_neg hother]

theorem ngxRbtreeNext_spec (ht : At (view T) ctx (.join .right c b r l)) :
    Returns (ngxRbtreeNext · T b.ptr) (RbTree.first NULL (r.inorder ++ after ctx)) := by
  have hright : T.child .right b.ptr = top T.sentinel r := by
    rw [← child_view, Rbtree.child, ht.cell, RbTree.child_cell]
    rfl
  by_cases hr : r = .leaf
  · subst hr
    have habove := nextAbove_spec ht ColoredTree.join_ne_leaf
    rw [RbTree.top_join] at habove
    refine habove.congr fun turns => ?_
    rw [ngxRbtreeNext, hright]
    exact if_neg fun h => h rfl
  · have hne : top T.sentinel r ≠ T.sentinel := mt (RbTree.top_eq_nil_iff ht.into.here).mp hr
    obtain ⟨ctx', c', b', u, rfl, hside, hmin⟩ := RbTree.outermost_spec (s := .left) ht.into hr
    have hfirst : RbTree.first NULL ((plug ctx' (.join .left c' b' .leaf u)).inorder ++ after ctx) =
        b'.ptr := by
      rw [inorder_plug, before_of_left hside]
      rfl
    rw [hfirst]
    refine hmin.congr fun turns => ?_
    rw [ngxRbtreeNext, hright, if_pos hne, ngxRbtreeMin_eq]
    rfl

theorem ngxRbtreeMin_spec (ht : At (view T) [] t) (hne : t ≠ .leaf) :
    Returns (ngxRbtreeMin T · T.root) (RbTree.first NULL t.inorder) := by
  obtain ⟨ctx', c, b, u, rfl, hside, hmin⟩ := RbTree.outermost_spec (s := .left) ht hne
  have hfirst : RbTree.first NULL (plug ctx' (.join .left c b .leaf u)).inorder = b.ptr := by
    rw [inorder_plug, before_of_left hside]
    rfl
  have hroot : T.root = top T.sentinel (plug ctx' (.join .left c b .leaf u)) := ht.root_eq
  rw [hfirst]
  exact hmin.congr fun turns => by rw [hroot, ngxRbtreeMin_eq]; rfl

structure Enumerates (T : NgxRbtree) (l : List Node) : Prop where
  min : l ≠ [] → Returns (ngxRbtreeMin T · T.root) (firstPtr l)
  next : ∀ pre n suf, l = pre ++ n :: suf → Returns (ngxRbtreeNext · T n.ptr) (firstPtr suf)

theorem enumerates_of_at (ht : At (view T) [] t) : Enumerates T (t.inorder.map nodeOf) := by
  refine ⟨fun hne => ?_, fun pre n suf heq => ?_⟩
  · rw [firstPtr_nodeOf]
    refine ngxRbtreeMin_spec ht ?_
    rintro rfl
    exact hne rfl
  · obtain ⟨pre', rest, horder, rfl, hrest⟩ := List.map_eq_append_iff.mp heq
    obtain ⟨b, suf', rfl, rfl, rfl⟩ := List.map_eq_cons_iff.mp hrest
    have hb : b ∈ t.inorder := by simp [horder]
    obtain ⟨ctx, c, l, r, rfl⟩ := exists_plug hb
    have hsplit : before ctx ++ l.inorder ++ b :: (r.inorder ++ after ctx) = pre' ++ b :: suf' := by
      rw [← horder, inorder_plug]
      simp [ColoredTree.inorder]
    have hnodup : (before ctx ++ l.inorder ++ b :: (r.inorder ++ after ctx)).Nodup := by
      rw [hsplit, ← horder]
      exact ht.nodup.of_map Binding.ptr
    obtain ⟨-, hcons, hapart⟩ := List.nodup_append.mp hnodup
    have hpre : b ∉ before ctx ++ l.inorder := fun h => hapart b h b List.mem_cons_self rfl
    obtain ⟨-, -, hsuf⟩ := (List.append_cons_inj_of_notMem hpre
      (List.nodup_cons.mp hcons).1).mp hsplit
    rw [firstPtr_nodeOf, ← hsuf]
    exact ngxRbtreeNext_spec (l := l) ht.focus

/-- After any calls the tree is gone through from left to right. -/
theorem timers_next (h : (calls less).Reach guard T) : ∃ l, Holds T l ∧ Enumerates T l := by
  obtain ⟨t, ht⟩ := reach_kept h
  exact ⟨_, ht.holds, enumerates_of_at ht.tree.stored⟩

theorem timers_next_two : ∃ T, T.root = 1 ∧ T.child .right 1 = 2 ∧
    ∃ l, Holds T l ∧ Enumerates T l := by
  obtain ⟨T, hrun, hroot, hchild, -⟩ := reach_two fun T p => valueLess_comparable T (.insert p)
  exact ⟨T, hroot, hchild, timers_next hrun⟩

end LearningCode.Nginx
