import LearningCode.Nginx.Fixup
import LearningCode.RbTree.Runs

/-!
# Insertion

A walk by the keys that the caller's function compares finds the place of the new
node, where it is hung in red; the loop puts the colours right.
-/

namespace LearningCode.Nginx

open RedBlack RedBlack.Context
open RbTree (Rbtree Binding At top up cell ptrs RedBlackTree)

variable {T T' : NgxRbtree} {s : Side} {c : Color} {p node : Ptr} {b : Binding}
  {t u v : ColoredTree Binding} {ctx : Context Binding} {f : Frame Binding}
  {less : BitVec 32 → BitVec 32 → Bool} {k : BitVec 32}

-- ---------------------------------------------------------------------------
-- The walk
-- ---------------------------------------------------------------------------

def keyOf (b : Binding) : BitVec 32 := BitVec.ofNat 32 b.key.toNat

theorem keyOf_stored (ht : At (view T) ctx (.join s c b u v)) : (T.mem b.ptr).key = keyOf b := by
  have hkey : ((view T).mem b.ptr).key = b.key := by rw [ht.cell, RbTree.key_cell]
  rw [key_view] at hkey
  simp [keyOf, ← hkey]

def Walked (less : BitVec 32 → BitVec 32 → Bool) (k : BitVec 32) (ctx : Context Binding) : Prop :=
  ∀ f ∈ ctx, f.side = .left ↔ less k (keyOf f.item) = true

theorem walked_nil : Walked less k [] := fun _ hf => absurd hf List.not_mem_nil

theorem Walked.cons (h : Walked less k ctx) (hs : s = .left ↔ less k (keyOf b) = true) :
    Walked less k (⟨s, c, b, u⟩ :: ctx) := by
  intro f hf
  obtain rfl | hf := List.mem_cons.mp hf
  · exact hs
  · exact h f hf

def Ends (less : BitVec 32 → BitVec 32 → Bool) (T : NgxRbtree) (node : Ptr) (ctx : Context Binding)
    (t : ColoredTree Binding) : Prop :=
  ∃ f ctx', plug (f :: ctx') .leaf = plug ctx t ∧ Walked less (T.mem node).key (f :: ctx') ∧
    Returns (fun turns => insertWalk less T.mem node T.sentinel turns (top T.sentinel t))
      (f.item.ptr, f.side)

theorem ends_join (ht : At (view T) ctx (.join s c b u v)) (hw : Walked less (T.mem node).key ctx)
    (hs : s = .left ↔ less (T.mem node).key (keyOf b) = true)
    (ih : u ≠ .leaf → Ends less T node (⟨s, c, b, v⟩ :: ctx) u) :
    Ends less T node ctx (.join s c b u v) := by
  have hside : (if less (T.mem node).key (T.mem b.ptr).key then .left else .right) = s := by
    rw [keyOf_stored ht]
    cases s with
    | left => exact if_pos (hs.mp rfl)
    | right => exact if_neg fun h => absurd (hs.mpr h) (by decide)
  have hchild : (T.mem b.ptr).child s = top T.sentinel u := by
    have hchild : (view T).child s b.ptr = top T.sentinel u := by
      rw [Rbtree.child, ht.cell, RbTree.child_cell]
      rfl
    rwa [child_view] at hchild
  by_cases hu : u = .leaf
  · subst hu
    refine ⟨⟨s, c, b, v⟩, ctx, rfl, hw.cons hs, .last fun turns => ?_⟩
    simp only [RbTree.top_join, insertWalk, hside, hchild]
    exact if_pos rfl
  · obtain ⟨f, ctx', hplug, hw', hret⟩ := ih hu
    refine ⟨f, ctx', hplug, hw', hret.turn fun turns => ?_⟩
    have hne : top T.sentinel u ≠ T.sentinel := mt (RbTree.top_eq_nil_iff ht.into.here).mp hu
    simp only [RbTree.top_join, insertWalk, hside, hchild, if_neg hne]

variable (node less) in
theorem insertWalk_spec (ht : At (view T) ctx t) (hne : t ≠ .leaf)
    (hw : Walked less (T.mem node).key ctx) : Ends less T node ctx t := by
  induction t generalizing ctx with
  | leaf => exact absurd rfl hne
  | node c b l r ihl ihr =>
    have hleft : At (view T) ctx (.join .left c b l r) := ht
    have hright : At (view T) ctx (.join .right c b r l) := ht
    cases hless : less (T.mem node).key (keyOf b) with
    | true =>
      have hs : Side.left = .left ↔ less (T.mem node).key (keyOf b) = true := by simp [hless]
      exact ends_join hleft hw hs fun hl => ihl hleft.into hl (hw.cons hs)
    | false =>
      have hs : Side.right = .left ↔ less (T.mem node).key (keyOf b) = true := by simp [hless]
      exact ends_join hright hw hs fun hr => ihr hright.into hr (hw.cons hs)

-- ---------------------------------------------------------------------------
-- The new node
-- ---------------------------------------------------------------------------

def item (mem : Mem) (p : Ptr) : Binding := ⟨p, (mem p).key.toNat, 0⟩

@[simp] theorem keyOf_item (mem : Mem) (p : Ptr) : keyOf (item mem p) = (mem p).key := by
  simp [keyOf, item]

theorem hangNew_spec (ht : At (view T) (f :: ctx) .leaf) (hnode : node ≠ T.sentinel)
    (hout : node ∉ ptrs (items (f :: ctx))) :
    At (view { T with mem := hangNew T.mem f.item.ptr node T.sentinel f.side }) (f :: ctx)
      (.node .red (item T.mem node) .leaf .leaf) := by
  have hroot : node ≠ T.root := fun h => hout (h ▸ ht.around.root_mem)
  have heq : ({ T with mem := hangNew T.mem f.item.ptr node T.sentinel f.side } : NgxRbtree) =
      (T.setChild f.side f.item.ptr node).modify node fun n =>
        { n with left := T.sentinel, right := T.sentinel, parent := f.item.ptr, color := .red } :=
    rfl
  have hchild : view (T.setChild f.side f.item.ptr node) =
      RbTree.hang (view T) node (f :: ctx) := view_setChild
  have hview : view { T with mem := hangNew T.mem f.item.ptr node T.sentinel f.side } =
      (RbTree.hang (view T) node (f :: ctx)).modify node fun n =>
        { n with left := T.sentinel, right := T.sentinel, parent := f.item.ptr, color := .red } := by
    rw [heq, ← hchild]
    refine view_modify ?_
    rw [if_neg (by exact hroot)]
    rfl
  have hcell : (RbTree.hang (view T) node (f :: ctx)).mem node = (view T).mem node :=
    RbTree.hang_mem hout
  have hhang := ht.around.hang ht.nodup_around node
  have hnil : (RbTree.hang (view T) node (f :: ctx)).nil = T.sentinel := RbTree.hang_nil
  rw [hview]
  generalize RbTree.hang (view T) node (f :: ctx) = V at *
  refine ⟨⟨⟨?_, ?_⟩, trivial, trivial⟩, ?_, ?_⟩
  · rw [Rbtree.modify_nil, hnil]
    exact hnode
  · show (V.modify node _).mem node = _
    rw [Rbtree.modify_self, hcell, Rbtree.modify_nil, hnil]
    rfl
  · rw [Rbtree.modify_nil, Rbtree.modify_root, hnil]
    exact hhang.congr fun q hq => Rbtree.modify_ne (ne_of_mem_of_not_mem hq hout)
  · have hperm := (inorder_plug_perm (f :: ctx)
      (.node .red (item T.mem node) .leaf .leaf)).map Binding.ptr
    rw [ptrs, hperm.nodup_iff, ColoredTree.inorder, ColoredTree.inorder, List.nil_append,
      (List.perm_append_singleton _ _ |>.map _).nodup_iff, List.map_cons, List.nodup_cons]
    exact ⟨hout, ht.nodup_around⟩

-- ---------------------------------------------------------------------------
-- The whole insertion
-- ---------------------------------------------------------------------------

theorem insertLoop_spec {n : Nat} (ht : At (view T) ctx t) (hred : t.color = .red)
    (hb : t.Balanced n) (hfits : Fits ctx n) (hblack : T.color T.sentinel = .black) :
    ∃ T' t', Returns (insertLoop · T (top T.sentinel t)) T' ∧ T'.sentinel = T.sentinel ∧
      T'.insert = T.insert ∧ RedBlackTree (view (T'.setColor T'.root .black)) t' ∧
      t'.inorder = (plug ctx t).inorder := by
  obtain ⟨V, t', ⟨enough, hfix⟩, hnil, htree, horder⟩ :=
    RbTree.rbtreeInsertFixup_spec ht hred hb hfits hblack
  obtain ⟨V₁, hloop, hV⟩ := Option.bind_eq_some_iff.mp (hfix enough (Nat.le_refl _))
  cases hV
  obtain ⟨T', hret, hview, hinsert⟩ := view_insertLoop ⟨hblack, ctx, t, n, ht, rfl, hred, hb, hfits⟩
    hloop
  subst hview
  refine ⟨T', t', hret, hnil, hinsert, ?_, horder⟩
  rw [view_setColor]
  exact htree

theorem ngxRbtreeInsert_empty (ht : RedBlackTree (view T) .leaf) (hnode : node ≠ T.sentinel) :
    ∃ T', (∀ turns, ngxRbtreeInsert turns T node = some T') ∧ T'.sentinel = T.sentinel ∧
      T'.insert = T.insert ∧
      RedBlackTree (view T') (.node .black (item T.mem node) .leaf .leaf) := by
  have hempty : T.root = T.sentinel := ht.stored.root_eq
  refine ⟨_, fun turns => if_pos hempty, rfl, rfl, ⟨⟨⟨⟨hnode, ?_⟩, trivial, trivial⟩, rfl, ?_⟩,
    ?_, rfl, 1, rfl, rfl⟩⟩
  · simp [view, shown, item, RbTree.cell, top, up]
  · simp [ColoredTree.inorder]
  · show (Function.update T.mem node _ T.sentinel).color = .black
    rw [Function.update_of_ne hnode.symm]
    exact ht.nil_black

structure Inserted (less : BitVec 32 → BitVec 32 → Bool) (mem : Mem) (node : Ptr)
    (l l' : List Binding) : Prop where
  hole : ∃ ctx : Context Binding, (plug ctx .leaf).inorder = l ∧ Walked less (mem node).key ctx ∧
    l' = before ctx ++ item mem node :: after ctx

theorem ngxRbtreeInsert_spec (hinsert : T.insert = insertBy less) (ht : RedBlackTree (view T) t)
    (hnode : node ≠ T.sentinel) (hout : node ∉ ptrs t.inorder) :
    ∃ T' t', Returns (ngxRbtreeInsert · T node) T' ∧ T'.sentinel = T.sentinel ∧
      T'.insert = T.insert ∧ RedBlackTree (view T') t' ∧
      ∃ ctx : Context Binding, plug ctx .leaf = t ∧ Walked less (T.mem node).key ctx ∧
        t'.inorder = before ctx ++ item T.mem node :: after ctx := by
  by_cases hempty : t = .leaf
  · subst hempty
    obtain ⟨T', hret, hrest⟩ := ngxRbtreeInsert_empty ht hnode
    exact ⟨T', _, .const hret, hrest.1, hrest.2.1, hrest.2.2, [], rfl, walked_nil, rfl⟩
  · have hroot : T.root = top T.sentinel t := ht.stored.root_eq
    have hne : T.root ≠ T.sentinel := by
      rw [hroot]
      exact mt (RbTree.top_eq_nil_iff ht.stored.here).mp hempty
    obtain ⟨f, ctx, hplug, hwalked, hwalk⟩ :=
      insertWalk_spec node less ht.stored hempty walked_nil
    have hplug : plug (f :: ctx) .leaf = t := hplug
    obtain ⟨n, hb⟩ := ht.balanced
    have hblack := ht.root_black
    have hstored := ht.stored
    rw [← hplug] at hb hblack hstored
    obtain ⟨m, hfits, hm, -⟩ := fits_of_plug hb hblack
    have hitems : node ∉ ptrs (items (f :: ctx)) := by
      rw [← hplug, inorder_plug, ColoredTree.inorder, List.append_nil] at hout
      exact hout
    have hnew := hangNew_spec hstored.focus hnode hitems
    have hnil : (hangNew T.mem f.item.ptr node T.sentinel f.side T.sentinel).color = .black := by
      have hitem : f.item.ptr ≠ T.sentinel := hstored.focus.around.1.1
      rw [hangNew, Function.update_of_ne hnode.symm, Function.update_of_ne hitem.symm]
      exact ht.nil_black
    obtain ⟨T₁, t', hloop, hsent, hins, htree, horder⟩ :=
      insertLoop_spec hnew rfl ⟨⟨rfl, rfl⟩, hm, hm⟩ hfits hnil
    refine ⟨T₁.setColor T₁.root .black, t', ?_, hsent, hins, htree, f :: ctx, hplug, hwalked, ?_⟩
    · have hrun : Returns (fun turns => T.insert turns T.mem T.root node T.sentinel)
          (hangNew T.mem f.item.ptr node T.sentinel f.side) := by
        rw [hinsert, hroot]
        exact hwalk.map fun p => hangNew T.mem p.1 node T.sentinel p.2
      have hrest := hloop.bind (k := fun _ T => some (T.setColor T.root .black))
        (.const fun turns => rfl)
      refine (hrun.bind (k := fun turns mem => insertLoop turns { T with mem := mem } node >>=
        fun T => some (T.setColor T.root .black)) hrest).congr fun turns => ?_
      rw [ngxRbtreeInsert, if_neg hne]
    · rw [horder, inorder_plug]
      simp [ColoredTree.inorder]

end LearningCode.Nginx
