import Mathlib.Data.Nat.Find
import LearningCode.Btree.Correct
import LearningCode.Btree.Sorted
import LearningCode.Lib.Transition

/-!
# Runs of insertions and deletions

Every call that returns leaves a valid tree, or the empty one. Which calls
return can be told from the tree before them.
-/

namespace LearningCode.Btree

open Blocks Multiway Transition

variable {t h turns more : Nat} {k : Int} {heap : Heap} {malloc : Malloc} {T T' : Btree}
  {c c' : Sub Ptr Int (h + 1)}

-- ---------------------------------------------------------------------------
-- btree_insert on a valid tree
-- ---------------------------------------------------------------------------

theorem Tree.of_grown (htree : Tree T h c) (hg : Grown T T' c c') (hi : Inserted T.t h k c c')
    (ht : 2 ≤ T.t) (hlen : c.keys.length < 2 * T.t - 1) : Tree T' h c' := by
  obtain ⟨hc', hle⟩ := hi.shaped ht htree.shaped hlen
  refine ⟨?_, hg.degree ▸ hg.stored, hg.nodup, hg.degree ▸ hc', fun hpos => ?_⟩
  · rw [hg.root, hg.name]
    exact htree.root
  · exact Nat.lt_of_lt_of_le (htree.keys hpos) hle

theorem Tree.insert_full (htree : Tree T h c) (ht : 2 ≤ T.t) (hmalloc : Fresh malloc)
    (hb : Bounded T.heap) (hfull : c.keys.length = 2 * T.t - 1) (hturns : h < turns) :
    ∃ (T' : Btree) (c' : Sub Ptr Int (h + 2)), btreeInsert malloc turns T k = some T' ∧
      T'.t = T.t ∧ Bounded T'.heap ∧ Tree T' (h + 1) c' ∧
        Takes k (inorder (h + 1) c) (inorder (h + 2) c') := by
  obtain ⟨⟨n, hn, hholds⟩, -⟩ := stored_succ.mp htree.stored
  have hz := hmalloc _ hb
  have hwrite : write (btreeCreateNode T.t false).children 0 (some c.name) =
      some (some c.name :: List.replicate (2 * T.t - 1) none) := by
    obtain ⟨m, hm⟩ : ∃ m, 2 * T.t = m + 1 := ⟨2 * T.t - 1, by omega⟩
    simp [btreeCreateNode, hm, write, List.replicate_succ]
  rw [btreeInsert, bind_eq_of htree.root, bind_eq_of hn, hholds.num, if_pos hfull, bind_eq_of hwrite]
  have hst := root_stored ht htree.stored hz
  have hnd := root_nodup htree.stored htree.names hz
  have hb' : Bounded (Function.update T.heap (malloc T.heap) (some { btreeCreateNode T.t false with
      children := some c.name :: List.replicate (2 * T.t - 1) none })) := by
    refine hb.of_same (l := [malloc T.heap]) fun p hp => ?_
    exact Function.update_of_ne (mt List.mem_singleton.mpr hp) _ _
  have hroom : (Frame.keys (⟨malloc T.heap, [], []⟩ : Opened h)).length < 2 * T.t - 1 := by
    simp
    omega
  obtain ⟨T', f, x', hcall, hgrown, hinserted, hpos⟩ := split_grown
    (T := { heap := _, root := some (malloc T.heap), t := T.t }) (k := k)
    (btreeInsertNonfull_grows hmalloc hturns) hmalloc ht hst hnd hroom htree.shaped hfull hb'
    (by simp [Behind]) (List.forall_mem_nil _)
  have hrim : Rim T.t (⟨malloc T.heap, [], []⟩ : Opened h) := ⟨Nat.le_of_lt hroom, List.forall_mem_nil _⟩
  have hc : Shaped (T.t - 1) (2 * T.t - 1) (h + 2) (Frame.fill ⟨malloc T.heap, [], []⟩ c) :=
    shaped_fill_iff.mpr ⟨hrim, by omega, htree.shaped⟩
  obtain ⟨hc', -⟩ := hinserted.shaped ht hc hroom
  have htakes := hinserted.takes ht hc
  rw [inorder_fill, Frame.lead, List.flatMap_nil, Frame.trail, List.flatMap_nil, List.append_nil,
    List.nil_append] at htakes
  refine ⟨T', f.fill x', hcall, hgrown.degree, hgrown.bounded, ⟨?_, ?_, hgrown.nodup, ?_, ?_⟩, htakes⟩
  · rw [hgrown.root, hgrown.name]
    rfl
  · rw [hgrown.degree]
    exact hgrown.stored
  · rw [hgrown.degree]
    exact hc'
  · exact fun _ => hpos

/-- Insertion returns, and leaves a valid tree with one key more. -/
theorem Tree.insert_runs (htree : Tree T h c) (ht : 2 ≤ T.t) (hmalloc : Fresh malloc)
    (hb : Bounded T.heap) (k : Int) (hturns : h < turns) :
    ∃ T' h' c', btreeInsert malloc turns T k = some T' ∧ T'.t = T.t ∧ Bounded T'.heap ∧
      Tree T' h' c' ∧ Takes k (inorder (h + 1) c) (inorder (h' + 1) c') := by
  by_cases hfull : c.keys.length = 2 * T.t - 1
  · obtain ⟨T', c', hins⟩ := htree.insert_full ht hmalloc hb hfull hturns
    exact ⟨T', h + 1, c', hins⟩
  · obtain ⟨⟨n, hn, hholds⟩, -⟩ := stored_succ.mp htree.stored
    have hlen : c.keys.length < 2 * T.t - 1 := Nat.lt_of_le_of_ne htree.shaped.1 hfull
    obtain ⟨T', c', hcall, hgrown, hinserted⟩ := btreeInsertNonfull_grows hmalloc hturns T c ht
      htree.stored htree.names htree.shaped hlen hb
    refine ⟨T', h, c', ?_, hgrown.degree, hgrown.bounded, htree.of_grown hgrown hinserted ht hlen,
      hinserted.takes ht htree.shaped⟩
    rw [btreeInsert, bind_eq_of htree.root, bind_eq_of hn, hholds.num, if_neg hfull]
    exact hcall

open Classical in
noncomputable def firstFree : Malloc := fun heap =>
  if hfree : ∃ p, heap p = none then Nat.find hfree else 0

theorem firstFree_fresh : Fresh firstFree := by
  rintro heap ⟨bound, hbound⟩
  have hfree : ∃ p, heap p = none := ⟨bound, hbound bound (Nat.le_refl bound)⟩
  rw [firstFree, dif_pos hfree]
  exact Nat.find_spec hfree

-- ---------------------------------------------------------------------------
-- Calls
-- ---------------------------------------------------------------------------

inductive Op
  | insert (key : Int)
  | delete (key : Int)

def Op.run (malloc : Malloc) (turns : Nat) (T : Btree) : Op → Option Btree
  | .insert key => btreeInsert malloc turns T key
  | .delete key => (btreeDelete turns T key).map Prod.fst

/-- The calls that return, one after the other, on what `btree_create` makes. -/
def btree (malloc : Malloc) (t : Nat) : Transition Btree Op where
  init T := ∃ heap, Bounded heap ∧ T = btreeCreate malloc heap t
  step T op T' := ∃ turns, op.run malloc turns T = some T'

/-- There is a root to insert below. A deletion meets no merge on its way down
that overruns the node or frees a node still in use. -/
def Safe (T : Btree) : Op → Prop
  | .insert _ => T.root ≠ none
  | .delete key => ∀ h c, Tree T h c → Clear (Room T.t) T.t h key c

structure Sane (t : Nat) (T : Btree) : Prop where
  degree : T.t = t
  bounded : Bounded T.heap
  tree : T.root = none ∨ ∃ h c, Tree T h c

theorem btreeInsertNonfull_mono {x : Ptr} (hcall : btreeInsertNonfull malloc turns T x k = some T')
    (hle : turns ≤ more) : btreeInsertNonfull malloc more T x k = some T' := by
  induction turns generalizing T x more with
  | zero => cases hcall
  | succ turns ih =>
    obtain ⟨more, rfl⟩ : ∃ m, more = m + 1 := ⟨more - 1, by omega⟩
    have hle := Nat.le_of_succ_le_succ hle
    simp only [btreeInsertNonfull, Option.bind_eq_bind, Option.bind_eq_some_iff] at hcall ⊢
    obtain ⟨nx, hx, hcall⟩ := hcall
    refine ⟨nx, hx, ?_⟩
    split at hcall
    · next hleaf => rwa [if_pos hleaf]
    · next hleaf =>
      rw [if_neg hleaf]
      simp only [Option.bind_eq_some_iff] at hcall ⊢
      obtain ⟨i, hi, c, hc, _, hread, nc, hnc, hcall⟩ := hcall
      refine ⟨i, hi, c, hc, _, hread, nc, hnc, ?_⟩
      split at hcall
      · next hfull =>
        rw [if_pos hfull]
        simp only [Option.bind_eq_some_iff] at hcall ⊢
        obtain ⟨T₁, hsplit, nx₁, hx₁, m, hm, c₁, hc₁, _, hread₁, hcall⟩ := hcall
        exact ⟨T₁, hsplit, nx₁, hx₁, m, hm, c₁, hc₁, _, hread₁, ih hcall hle⟩
      · next hfull =>
        rw [if_neg hfull]
        exact ih hcall hle

theorem btreeInsert_mono (hcall : btreeInsert malloc turns T k = some T') (hle : turns ≤ more) :
    btreeInsert malloc more T k = some T' := by
  simp only [btreeInsert, Option.bind_eq_bind, Option.bind_eq_some_iff] at hcall ⊢
  obtain ⟨root, hroot, n, hn, hcall⟩ := hcall
  refine ⟨root, hroot, n, hn, ?_⟩
  split at hcall
  · next hfull =>
    rw [if_pos hfull]
    simp only [Option.bind_eq_some_iff] at hcall ⊢
    obtain ⟨children, hwrite, T₁, hsplit, nn, hnn, m, hm, c, hc, _, hread, hcall⟩ := hcall
    exact ⟨children, hwrite, T₁, hsplit, nn, hnn, m, hm, c, hc, _, hread,
      btreeInsertNonfull_mono hcall hle⟩
  · next hfull =>
    rw [if_neg hfull]
    exact btreeInsertNonfull_mono hcall hle

theorem tree_create : Tree (btreeCreate malloc heap t) 0 ⟨malloc heap, [], []⟩ := by
  refine ⟨rfl, stored_leaf (Function.update_self ..) ?_, ?_, ⟨?_, nofun, nofun⟩, nofun⟩
  · refine ⟨rfl, rfl, ⟨_, rfl, Nat.zero_add _ |>.trans List.length_replicate⟩,
      ⟨_, rfl, Nat.zero_add _ |>.trans List.length_replicate, fun _ c hc => ?_⟩⟩
    exact List.eq_of_mem_replicate hc
  · simp [names]
  · simp

theorem sane_create (hb : Bounded heap) : Sane t (btreeCreate malloc heap t) := by
  refine ⟨rfl, hb.of_same (l := [malloc heap]) fun p hp => ?_, .inr ⟨0, _, tree_create⟩⟩
  exact Function.update_of_ne (mt List.mem_singleton.mpr hp) _ _

/-- A safe call returns, and what it leaves is sane. -/
theorem Sane.safe_runs {op : Op} (hsane : Sane t T) (ht : 2 ≤ t) (hmalloc : Fresh malloc)
    (hsafe : Safe T op) : ∃ turns T', op.run malloc turns T = some T' ∧ Sane t T' := by
  obtain ⟨rfl, hb, htree⟩ := hsane
  cases op with
  | insert k =>
    rcases htree with hnone | ⟨h, c, htree⟩
    · exact absurd hnone hsafe
    · obtain ⟨T', h', c', hcall, hdegree, hb', htree', -⟩ :=
        htree.insert_runs ht hmalloc hb k (Nat.lt_succ_self h)
      exact ⟨h + 1, T', hcall, hdegree, hb', .inr ⟨h', c', htree'⟩⟩
  | delete k =>
    rcases htree with hnone | ⟨h, c, htree⟩
    · refine ⟨0, T, ?_, rfl, hb, .inl hnone⟩
      simp [Op.run, btreeDelete, hnone]
    · obtain ⟨c', hd⟩ := (hsafe h c htree).deleted
      obtain ⟨T', hcall, hdegree, hsame, hleaves⟩ := htree.delete_runs ht hd (Nat.lt_succ_self h)
      refine ⟨h + 1, T', ?_, hdegree, hb.of_same hsame, ?_⟩
      · rw [Op.run, hcall, Option.map_some]
      · rcases hleaves with ⟨hroot, -⟩ | ⟨h', c', htree', -⟩
        · exact .inl hroot
        · exact .inr ⟨h', c', htree'⟩

/-- A call that returns was safe. -/
theorem Sane.safe_of_call {op : Op} (hsane : Sane t T) (ht : 2 ≤ t)
    (hcall : op.run malloc turns T = some T') : Safe T op := by
  obtain ⟨rfl, hb, -⟩ := hsane
  cases op with
  | insert k =>
    intro hnone
    simp [Op.run, btreeInsert, hnone] at hcall
  | delete k =>
    intro h c htree
    obtain ⟨⟨T₁, r⟩, hdelete, -⟩ := Option.map_eq_some_iff.mp hcall
    obtain ⟨c', hd, -⟩ := htree.deleted_of_call ht hdelete
    exact hd.clear

theorem run_unique {op : Op} {T'' : Btree} (hcall : op.run malloc turns T = some T')
    (hcall' : op.run malloc more T = some T'') : T' = T'' := by
  cases op with
  | insert k =>
    have hmax := btreeInsert_mono hcall (Nat.le_max_left turns more)
    have hmax' := btreeInsert_mono hcall' (Nat.le_max_right turns more)
    exact Option.some.inj (hmax.symm.trans hmax')
  | delete k =>
    obtain ⟨⟨_, r⟩, hdelete, rfl⟩ := Option.map_eq_some_iff.mp hcall
    obtain ⟨⟨_, r'⟩, hdelete', rfl⟩ := Option.map_eq_some_iff.mp hcall'
    exact btreeDelete_unique hdelete hdelete'

theorem sane_of_reach (hmalloc : Fresh malloc) (ht : 2 ≤ t)
    (hr : Reach (btree malloc t) free T) : Sane t T := by
  refine hr.invariant ?_ ?_
  · rintro _ ⟨heap, hb, rfl⟩
    exact sane_create hb
  · rintro T op T' hsane - ⟨turns, hcall⟩
    obtain ⟨more, T'', hcall', hsane'⟩ :=
      hsane.safe_runs ht hmalloc (hsane.safe_of_call ht hcall)
    rwa [run_unique hcall hcall']

/-- `firstFree` spelled out on the first addresses, so that runs on them evaluate. -/
noncomputable def lowFree : Malloc := fun heap =>
  if heap 0 = none then 0 else if heap 1 = none then 1 else
  if heap 2 = none then 2 else firstFree heap

theorem lowFree_fresh : Fresh lowFree := by
  intro heap hb
  unfold lowFree
  split_ifs with h₀ h₁ h₂
  · exact h₀
  · exact h₁
  · exact h₂
  · exact firstFree_fresh heap hb

-- ---------------------------------------------------------------------------
-- A tree emptied and used again
-- ---------------------------------------------------------------------------

theorem Tree.emptied {x : Ptr} (htree : Tree T 0 ⟨x, [] ++ [], []⟩) (ht : 2 ≤ T.t)
    (hb : Bounded T.heap) (k : Int) : ∃ T₁ T₂, Op.run malloc 1 T (.insert k) = some T₁ ∧
      Op.run malloc 1 T₁ (.delete k) = some T₂ ∧ T₂.root = none := by
  obtain ⟨⟨n, hn, hholds⟩, -⟩ := stored_succ.mp htree.stored
  have hlen : (⟨x, [] ++ [], []⟩ : Sub Ptr Int 1).keys.length < 2 * T.t - 1 := by
    rw [List.append_nil, List.length_nil]
    omega
  obtain ⟨T₁, hinsert, hgrown⟩ : ∃ T', btreeInsertNonfull malloc 1 T x k = some T' ∧
      Grown (h := 0) T T' ⟨x, [] ++ [], []⟩ ⟨x, [] ++ k :: [], []⟩ :=
    insertNonfull_leaf htree.stored hlen nofun nofun hb
  have htree₁ := htree.of_grown hgrown (.leaf nofun nofun) ht hlen
  obtain ⟨T₂, hstep, -, -, hroot⟩ := deleteStep_hit htree₁.stored nofun
  refine ⟨T₁, T₂, ?_, ?_, hroot⟩
  · have hroom : n.num ≠ 2 * T.t - 1 := hholds.num ▸ Nat.ne_of_lt hlen
    rw [Op.run, btreeInsert, bind_eq_of htree.root, bind_eq_of hn, if_neg hroom]
    exact hinsert
  · have hcall : btreeDeleteKey 1 T₁ (some x) k = some T₂ := btreeDeleteKey_done hstep
    have hdelete : btreeDelete 1 T₁ k = some (T₂, 0) := by
      simp only [btreeDelete, htree₁.root]
      rw [hcall, Option.map_some]
    rw [Op.run, hdelete, Option.map_some]

end LearningCode.Btree
