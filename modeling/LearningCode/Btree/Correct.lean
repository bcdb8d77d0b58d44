import LearningCode.Btree.Contents

/-!
# When a deletion is right

The heap has at most one tree at the root, so what a deletion leaves has its keys
in order exactly if the way down meets no check that fails.
-/

namespace LearningCode.Btree

open Multiway

/-- No check fails on the way down to the leaf. -/
inductive Clear (P : Check) (t : Nat) : (h : Nat) → Int → Sub Ptr Int (h + 1) → Prop
  | leaf {k c} : Clear P t 0 k c
  | down {h k turn f x f' x' k'} : Descends t k turn f x f' x' k' →
      P turn f.keys.length (inorder (h + 1) x') k' → Clear P t h k' x' →
      Clear P t (h + 1) k (f.fill x)

variable {t h : Nat} {k : Int} {heap : Heap} {T T' : Btree} {P : Check} {ks ks' : List Int}
  {ps ps' : List Ptr} {c c' : Sub Ptr Int (h + 1)}

-- ---------------------------------------------------------------------------
-- One tree
-- ---------------------------------------------------------------------------

theorem Holds.keys_unique {n : BtreeNode} {leaf leaf' : Bool} (hn : Holds t n leaf ks ps)
    (hn' : Holds t n leaf' ks' ps') : ks = ks' := by
  obtain ⟨rest, hkeys, -⟩ := hn.keys
  obtain ⟨rest', hkeys', -⟩ := hn'.keys
  have hlen : ks.length = ks'.length := hn.num.symm.trans hn'.num
  exact (List.append_inj (hkeys.symm.trans hkeys') hlen).1

theorem Holds.children_unique {n : BtreeNode} {leaf leaf' : Bool} (hn : Holds t n leaf ks ps)
    (hn' : Holds t n leaf' ks' ps') (hlen : ps.length = ps'.length) : ps = ps' := by
  obtain ⟨rest, hchildren, -⟩ := hn.children
  obtain ⟨rest', hchildren', -⟩ := hn'.children
  have hmap := (List.append_inj (hchildren.symm.trans hchildren') (by simpa using hlen)).1
  exact List.map_injective_iff.mpr (fun _ _ => Option.some.inj) hmap

theorem map_congr_of_map_eq {α β γ δ : Type} {l : List α} {m : List β} {p : α → γ} {q : β → γ}
    {f : α → δ} {g : β → δ} (h : l.map p = m.map q)
    (hfg : ∀ a ∈ l, ∀ b ∈ m, p a = q b → f a = g b) : l.map f = m.map g := by
  induction l generalizing m with
  | nil =>
    obtain rfl : m = [] := List.map_eq_nil_iff.mp h.symm
    rfl
  | cons a l ih =>
    cases m with
    | nil => cases h
    | cons b m =>
      simp only [List.map_cons, List.cons.injEq] at h ⊢
      refine ⟨hfg a List.mem_cons_self b List.mem_cons_self h.1, ih h.2 fun a ha b hb => ?_⟩
      exact hfg a (List.mem_cons_of_mem _ ha) b (List.mem_cons_of_mem _ hb)

theorem Stored.unique {lo hi h' : Nat} {c' : Sub Ptr Int (h' + 1)} (hst : Stored t heap (h + 1) c)
    (hst' : Stored t heap (h' + 1) c') (hc : Shaped lo hi (h + 1) c)
    (hc' : Shaped lo hi (h' + 1) c') (hname : c.name = c'.name) :
    inorder (h + 1) c = inorder (h' + 1) c' := by
  induction h generalizing h' with
  | zero =>
    obtain ⟨⟨n, hn, hholds⟩, -⟩ := stored_succ.mp hst
    obtain ⟨⟨n', hn', hholds'⟩, -⟩ := stored_succ.mp hst'
    rw [hname, hn'] at hn
    cases hn
    cases h' with
    | zero => rw [inorder_leaf, inorder_leaf, hholds.keys_unique hholds']
    | succ h' => cases hholds.isLeaf.symm.trans hholds'.isLeaf
  | succ h ih =>
    obtain ⟨⟨n, hn, hholds⟩, hchildren⟩ := stored_succ.mp hst
    obtain ⟨⟨n', hn', hholds'⟩, hchildren'⟩ := stored_succ.mp hst'
    rw [hname, hn'] at hn
    cases hn
    cases h' with
    | zero => cases hholds.isLeaf.symm.trans hholds'.isLeaf
    | succ h' =>
      have hkeys := hholds.keys_unique hholds'
      have hlen := hc.2.1 (Nat.succ_pos h)
      have hlen' := hc'.2.1 (Nat.succ_pos h')
      have htops := hholds.children_unique hholds' (by simp [hlen, hlen', hkeys])
      rw [inorder, inorder, hkeys]
      refine congrArg (weave · _) (map_congr_of_map_eq htops fun x hx x' hx' heq => ?_)
      exact ih (hchildren x hx) (hchildren' x' hx') (hc.2.2 x hx).2 (hc'.2.2 x' hx').2 heq

theorem Leaves.unique (hl : Leaves T ks) (hl' : Leaves T ks') : ks = ks' := by
  rcases hl with ⟨hroot, rfl⟩ | ⟨h, c, hc, rfl⟩ <;> rcases hl' with ⟨hroot', rfl⟩ | ⟨h', c', hc', rfl⟩
  · rfl
  · cases hroot.symm.trans hc'.root
  · cases hroot'.symm.trans hc.root
  · have hname := Option.some.inj (hc.root.symm.trans hc'.root)
    exact hc.stored.unique hc'.stored hc.shaped hc'.shaped hname

-- ---------------------------------------------------------------------------
-- The way down
-- ---------------------------------------------------------------------------

theorem Clear.deleted (hc : Clear P t h k c) : ∃ c', Deleted P t h k c c' := by
  induction hc with
  | @leaf k c => exact exists_deleted_leaf P t k c
  | down hd hcheck _ ih =>
    obtain ⟨c', hrest⟩ := ih
    exact ⟨_, .down hd hcheck hrest⟩

theorem Deleted.clear (hd : Deleted P t h k c c') : Clear P t h k c := by
  induction hd with
  | hit => exact .leaf
  | miss => exact .leaf
  | down hd hcheck _ ih => exact .down hd hcheck ih

/-- The call returns, and the tree is a valid one with one `k` less. -/
def DeletesRight (T : Btree) (k : Int) (ks : List Int) : Prop :=
  ∃ turns T' r ks', btreeDelete turns T k = some (T', r) ∧ T'.t = T.t ∧ Leaves T' ks' ∧
    Ordered ks' ∧ ks'.Perm (ks.erase k)

-- ---------------------------------------------------------------------------
-- Trees to start from
-- ---------------------------------------------------------------------------

def filled (t : Nat) (leaf : Bool) (ks : List Int) (ps : List Ptr) : BtreeNode where
  children := ps.map some ++ List.replicate (2 * t - ps.length) none
  keys := ks ++ List.replicate (2 * t - 1 - ks.length) 0
  num := ks.length
  leaf := leaf

def laid (t : Nat) : (h : Nat) → Sub Ptr Int h → Ptr → Option BtreeNode
  | 0, _, _ => none
  | h + 1, c, p =>
    if p = c.name then some (filled t (h == 0) c.keys (c.children.map (top h)))
    else c.children.findSome? fun x => laid t h x p

theorem filled_holds {leaf : Bool} (hks : ks.length ≤ 2 * t - 1) (hps : ps.length ≤ 2 * t) :
    Holds t (filled t leaf ks ps) leaf ks ps := by
  refine ⟨rfl, rfl, ⟨_, rfl, ?_⟩, ⟨_, rfl, ?_, fun _ c hc => List.eq_of_mem_replicate hc⟩⟩
  · rw [List.length_replicate]
    omega
  · rw [List.length_replicate]
    omega

theorem laid_eq_none {x : Sub Ptr Int h} {p : Ptr} (hp : p ∉ names h x) : laid t h x p = none := by
  induction h with
  | zero => rfl
  | succ h ih =>
    obtain ⟨hname, hchildren⟩ := not_or.mp (mt List.mem_cons.mpr hp)
    rw [laid, if_neg hname, List.findSome?_eq_none_iff]
    exact fun y hy => ih fun hmem => hchildren (List.mem_flatMap.mpr ⟨y, hy, hmem⟩)

theorem findSome?_laid {l : List (Sub Ptr Int h)} {x : Sub Ptr Int h} {p : Ptr} (hx : x ∈ l)
    (hnd : (l.flatMap (names h)).Nodup) (hp : p ∈ names h x) :
    (l.findSome? fun y => laid t h y p) = laid t h x p := by
  induction l with
  | nil => cases hx
  | cons y l ih =>
    rw [List.flatMap_cons] at hnd
    obtain ⟨-, hnd', hdisjoint⟩ := List.nodup_append.mp hnd
    rw [List.findSome?_cons]
    rcases List.mem_cons.mp hx with rfl | hx
    · have hrest : (l.findSome? fun y => laid t h y p) = none := by
        rw [List.findSome?_eq_none_iff]
        intro z hz
        exact laid_eq_none fun hmem => hdisjoint p hp p (List.mem_flatMap.mpr ⟨z, hz, hmem⟩) rfl
      rw [hrest]
      cases laid t h x p <;> rfl
    · have hy : laid t h y p = none :=
        laid_eq_none fun hmem => hdisjoint p hmem p (List.mem_flatMap.mpr ⟨x, hx, hp⟩) rfl
      rw [hy]
      exact ih hx hnd'

theorem laid_stored {lo : Nat} (ht : 0 < t) (hc : Shaped lo (2 * t - 1) (h + 1) c)
    (hnd : (names (h + 1) c).Nodup) : Stored t (laid t (h + 1) c) (h + 1) c := by
  induction h with
  | zero =>
    refine ⟨⟨_, if_pos rfl, filled_holds hc.1 ?_⟩, fun x _ => nomatch x⟩
    rw [Sub.eq_nil c.children]
    exact Nat.zero_le _
  | succ h ih =>
    obtain ⟨hname, hnd'⟩ := List.nodup_cons.mp hnd
    obtain ⟨hfull, hlen, hchildren⟩ := hc
    have hlen := hlen (Nat.succ_pos h)
    refine ⟨⟨_, if_pos rfl, filled_holds hfull ?_⟩, fun x hx => ?_⟩
    · rw [List.length_map]
      omega
    · have hx' : (names (h + 1) x).Nodup := (List.pairwise_flatMap.mp hnd').1 x hx
      refine (ih (hchildren x hx).2 hx').frame fun p hp => ?_
      have hmem := List.mem_flatMap.mpr ⟨x, hx, hp⟩
      have hne : p ≠ c.name := fun heq => hname (heq ▸ hmem)
      rw [laid, if_neg hne]
      exact findSome?_laid hx hnd' hp

theorem tree_laid (ht : 0 < t) (hc : Shaped (t - 1) (2 * t - 1) (h + 1) c)
    (hnd : (names (h + 1) c).Nodup) (hpos : 0 < h → 0 < c.keys.length) :
    Tree ⟨laid t (h + 1) c, some c.name, t⟩ h c where
  root := rfl
  stored := laid_stored ht hc hnd
  names := hnd
  shaped := hc
  keys := hpos

theorem btreeDeleteKey_mono {turns more : Nat} {node : Option Ptr}
    (hcall : btreeDeleteKey turns T node k = some T') (hle : turns ≤ more) :
    btreeDeleteKey more T node k = some T' := by
  induction turns generalizing T node k more with
  | zero => cases hcall
  | succ turns ih =>
    obtain ⟨more, rfl⟩ : ∃ m, more = m + 1 := ⟨more - 1, by omega⟩
    cases node with
    | none => exact hcall
    | some node =>
      cases hstep : deleteStep T node k with
      | none => simp [btreeDeleteKey, hstep] at hcall
      | some done =>
        obtain ⟨T₁, next⟩ := done
        cases next with
        | none => simpa [btreeDeleteKey, hstep] using hcall
        | some next =>
          simp only [btreeDeleteKey, hstep, Option.bind_eq_bind, Option.bind_some] at hcall ⊢
          exact ih hcall (Nat.le_of_succ_le_succ hle)

theorem btreeDelete_unique {turns turns' : Nat} {r r' : Int} {T'' : Btree}
    (hcall : btreeDelete turns T k = some (T', r)) (hcall' : btreeDelete turns' T k = some (T'', r')) :
    T' = T'' := by
  cases hroot : T.root with
  | none =>
    simp only [btreeDelete, hroot, Option.some.injEq, Prod.mk.injEq] at hcall hcall'
    exact hcall.1.symm.trans hcall'.1
  | some root =>
    simp only [btreeDelete, hroot, Option.map_eq_some_iff, Prod.mk.injEq] at hcall hcall'
    obtain ⟨_, hcall, rfl, -⟩ := hcall
    obtain ⟨_, hcall', rfl, -⟩ := hcall'
    have hmax := btreeDeleteKey_mono hcall (Nat.le_max_left turns turns')
    have hmax' := btreeDeleteKey_mono hcall' (Nat.le_max_right turns turns')
    exact Option.some.inj (hmax.symm.trans hmax')

-- ---------------------------------------------------------------------------
-- Two trees
-- ---------------------------------------------------------------------------

def low : Sub Ptr Int 2 := ⟨0, [4], [⟨1, [2, 3], []⟩, ⟨2, [5], []⟩]⟩

def high : Sub Ptr Int 3 := ⟨0, [6], [⟨1, [2, 4], [⟨3, [1], []⟩, ⟨4, [3], []⟩, ⟨5, [5], []⟩]⟩,
  ⟨2, [8], [⟨6, [7], []⟩, ⟨7, [9], []⟩]⟩]⟩

theorem tree_low : Tree ⟨laid 2 2 low, some 0, 2⟩ 1 low := by
  refine tree_laid (by decide) ?_ (by decide) (by decide)
  simp [Shaped, size, low]

end LearningCode.Btree
