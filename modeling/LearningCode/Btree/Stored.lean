import LearningCode.Btree.Model
import LearningCode.Lib.Multiway

/-!
# Trees in the heap

A node holds keys and children when its arrays begin with them. A tree is stored
when every cell is, and what is changed outside its names leaves it stored.
-/

namespace LearningCode.Btree

open Blocks Multiway

variable {t h : Nat} {n : BtreeNode} {leaf : Bool} {ks : List Int} {ps : List Ptr} {p q : Ptr}
  {heap heap' : Heap} {k : Int}

/-- The children in front; a leaf has none. -/
def Kids (t : Nat) (leaf : Bool) (children : List (Option Ptr)) (ps : List Ptr) : Prop :=
  ∃ rest, children = ps.map some ++ rest ∧ ps.length + rest.length = 2 * t ∧
    (leaf = true → ∀ c ∈ rest, c = none)

/-- The arrays of the node, with `ks` and `ps` in front. -/
structure Holds (t : Nat) (n : BtreeNode) (leaf : Bool) (ks : List Int) (ps : List Ptr) : Prop where
  num : n.num = ks.length
  isLeaf : n.leaf = leaf
  keys : ∃ rest, n.keys = ks ++ rest ∧ ks.length + rest.length = 2 * t - 1
  children : Kids t leaf n.children ps

def Node (heap : Heap) (t : Nat) (leaf : Bool) (p : Ptr) (ks : List Int) (ps : List Ptr) : Prop :=
  ∃ n, heap p = some n ∧ Holds t n leaf ks ps

def top : (h : Nat) → Sub Ptr Int h → Ptr
  | 0, x => nomatch x
  | _ + 1, c => c.name

@[simp] theorem top_succ (c : MultiTree Ptr Int h) : top (h + 1) c = c.name := rfl

@[simp] theorem store_heap (T : Btree) (n : BtreeNode) :
    (T.store p n).heap q = if q = p then some n else T.heap q := by
  by_cases hq : q = p
  · simp [Btree.store, hq]
  · simp [Btree.store, hq]

@[simp] theorem free_heap (T : Btree) :
    (T.free p).heap q = if q = p then none else T.heap q := by
  by_cases hq : q = p
  · simp [Btree.free, hq]
  · simp [Btree.free, hq]

theorem store_three {T : Btree} {q₁ q₂ q₃ : Ptr} {n₁ n₂ n₃ : BtreeNode} {leaf₁ leaf₂ leaf₃ : Bool}
    {ks₁ ks₂ ks₃ : List Int} {ps₁ ps₂ ps₃ : List Ptr} (h₁₂ : q₁ ≠ q₂) (h₁₃ : q₁ ≠ q₃) (h₂₃ : q₂ ≠ q₃)
    (h₁ : Holds t n₁ leaf₁ ks₁ ps₁) (h₂ : Holds t n₂ leaf₂ ks₂ ps₂) (h₃ : Holds t n₃ leaf₃ ks₃ ps₃) :
    (∀ p, p ≠ q₁ → p ≠ q₂ → p ≠ q₃ →
      (((T.store q₁ n₁).store q₂ n₂).store q₃ n₃).heap p = T.heap p) ∧
    Node (((T.store q₁ n₁).store q₂ n₂).store q₃ n₃).heap t leaf₁ q₁ ks₁ ps₁ ∧
    Node (((T.store q₁ n₁).store q₂ n₂).store q₃ n₃).heap t leaf₂ q₂ ks₂ ps₂ ∧
    Node (((T.store q₁ n₁).store q₂ n₂).store q₃ n₃).heap t leaf₃ q₃ ks₃ ps₃ := by
  refine ⟨fun p hp₁ hp₂ hp₃ => ?_, ⟨n₁, ?_, h₁⟩, ⟨n₂, ?_, h₂⟩, ⟨n₃, ?_, h₃⟩⟩
  · simp [hp₁, hp₂, hp₃]
  · simp [h₁₂, h₁₃]
  · simp [h₂₃]
  · simp

/-- Level by level; the lowest cells are leaves. -/
def Stored (t : Nat) (heap : Heap) : (h : Nat) → Sub Ptr Int h → Prop
  | 0, _ => True
  | h + 1, c => Node heap t (h == 0) c.name c.keys (c.children.map (top h)) ∧
    ∀ x ∈ c.children, Stored t heap h x

theorem Stored.frame {h : Nat} {x : Sub Ptr Int h} (hx : Stored t heap h x)
    (hsame : ∀ p ∈ names h x, heap' p = heap p) : Stored t heap' h x := by
  induction h with
  | zero => cases x
  | succ h ih =>
    obtain ⟨⟨n, hn, hholds⟩, hchildren⟩ := hx
    refine ⟨⟨n, (hsame _ List.mem_cons_self).trans hn, hholds⟩, fun y hy => ?_⟩
    refine ih (hchildren y hy) fun p hp => hsame p (List.mem_cons_of_mem _ ?_)
    exact List.mem_flatMap.mpr ⟨y, hy, hp⟩

-- ---------------------------------------------------------------------------
-- Reading a node
-- ---------------------------------------------------------------------------

theorem Holds.num_le (hn : Holds t n leaf ks ps) : ks.length ≤ 2 * t - 1 := by
  obtain ⟨rest, -, hlen⟩ := hn.keys
  omega

theorem Holds.key {a b : List Int} (hn : Holds t n leaf (a ++ k :: b) ps) {i : Nat}
    (hi : i = a.length) : n.keys[i]? = some k := by
  obtain ⟨rest, hkeys, -⟩ := hn.keys
  rw [hkeys, List.append_assoc]
  exact read_split hi

theorem Holds.child {a b : List Ptr} (hn : Holds t n leaf ks (a ++ p :: b)) {i : Nat}
    (hi : i = a.length) : n.children[i]? = some (some p) := by
  obtain ⟨rest, hchildren, -⟩ := hn.children
  rw [hchildren, List.map_append, List.map_cons, List.append_assoc, List.cons_append]
  exact read_split (by simp [hi])

theorem Holds.noChild (hn : Holds t n true ks []) {i : Nat} (hi : i < 2 * t) :
    n.children[i]? = some none := by
  obtain ⟨rest, hchildren, hlen, hnone⟩ := hn.children
  rw [hchildren, List.map_nil, List.nil_append] at *
  have hi' : i < rest.length := by
    simp only [List.length_nil, Nat.zero_add] at hlen
    rwa [hlen]
  rw [List.getElem?_eq_getElem hi', hnone rfl _ (List.getElem_mem hi')]

-- ---------------------------------------------------------------------------
-- Other keys and children
-- ---------------------------------------------------------------------------

theorem Holds.setKey {a b : List Int} (k' : Int) (hn : Holds t n leaf (a ++ k :: b) ps) {i : Nat}
    (hi : i = a.length) : ∃ keys, write n.keys i k' = some keys ∧
      Holds t { n with keys := keys } leaf (a ++ k' :: b) ps := by
  obtain ⟨rest, hkeys, hlen⟩ := hn.keys
  refine ⟨a ++ k' :: (b ++ rest), ?_, ?_⟩
  · rw [hkeys, List.append_assoc]
    exact write_split hi
  · exact ⟨by simpa using hn.num, hn.isLeaf, ⟨rest, by simp, by simpa using hlen⟩, hn.children⟩

theorem Holds.remove {a b : List Int} (hn : Holds t n leaf (a ++ k :: b) ps) {i : Nat}
    (hi : i = a.length) : ∃ keys keys', shiftDown (n.num - 1 - i) i n.keys = some keys ∧
      write keys (n.num - 1) 0 = some keys' ∧
      Holds t { n with keys := keys', num := n.num - 1 } leaf (a ++ b) ps := by
  obtain ⟨rest, hkeys, hlen⟩ := hn.keys
  have hnum := hn.num
  simp only [List.length_append, List.length_cons] at hnum hlen
  obtain ⟨y, -, hshift⟩ := shiftDown_split (r := rest) (x := k) (by omega : n.num - 1 - i = b.length) hi
  refine ⟨a ++ (b ++ y :: rest), a ++ b ++ 0 :: rest, ?_, ?_, ?_⟩
  · rw [hkeys, List.append_assoc]
    exact hshift
  · rw [← List.append_assoc]
    exact write_split (by simp; omega)
  · refine ⟨?_, hn.isLeaf, ⟨0 :: rest, rfl, ?_⟩, hn.children⟩
    · simp only [List.length_append]
      omega
    · simp only [List.length_append, List.length_cons]
      omega

-- ---------------------------------------------------------------------------
-- btree_merge
-- ---------------------------------------------------------------------------

def Width (leaf : Bool) (ps : List Ptr) (n : Nat) : Prop :=
  if leaf then ps = [] else ps.length = n + 1

variable {nn nl nr : BtreeNode} {a b lk rk : List Int} {pa pb lp rp : List Ptr} {l r node : Ptr}
  {T T' : Btree}

theorem merge_keys (hl : Holds t nl leaf lk lp) (hr : Holds t nr leaf rk rp) (ht : 2 ≤ t)
    (hlk : lk.length = t - 1) (hrk : rk.length = t - 1) : ∃ keys,
      write nl.keys (t - 1) k = some keys ∧
      copy nr.keys (t - 1) t 0 keys = some (lk ++ k :: rk) := by
  obtain ⟨lrest, hlkeys, hlen⟩ := hl.keys
  obtain ⟨rrest, hrkeys, -⟩ := hr.keys
  cases lrest with
  | nil => simp only [List.length_nil] at hlen; omega
  | cons y lrest =>
    simp only [List.length_cons] at hlen
    refine ⟨lk ++ k :: lrest, ?_, ?_⟩
    · rw [hlkeys]
      exact write_split hlk.symm
    · have hcopy := copy_split (p := []) (q := rrest) (a := lk ++ [k]) (r := []) hrk.symm
        (by omega : lrest.length = rk.length)
      have hd : (lk ++ [k]).length = t := by
        simp only [List.length_append, List.length_singleton]
        omega
      rw [hd] at hcopy
      rw [hrkeys]
      simpa using hcopy

theorem merge_children (hl : Holds t nl leaf lk lp) (hr : Holds t nr leaf rk rp) (ht : 2 ≤ t)
    (hlp : Width leaf lp (t - 1)) (hrp : Width leaf rp (t - 1)) : ∃ children,
      copyChildren nl.leaf nr.children t t 0 nl.children = some children ∧
      Kids t leaf children (lp ++ rp) := by
  obtain ⟨lrest, hlchildren, hlen, hnone⟩ := hl.children
  obtain ⟨rrest, hrchildren, -⟩ := hr.children
  rw [hl.isLeaf]
  cases leaf with
  | true =>
    obtain rfl : lp = [] := hlp
    obtain rfl : rp = [] := hrp
    exact ⟨nl.children, rfl, lrest, by simpa using hlchildren, by simpa using hlen, hnone⟩
  | false =>
    have hlp : lp.length = t - 1 + 1 := hlp
    have hrp : rp.length = t - 1 + 1 := hrp
    refine ⟨lp.map some ++ rp.map some, ?_, [], by simp, ?_, nofun⟩
    · have hcopy := copy_split (p := []) (q := rrest) (a := lp.map some) (m := rp.map some)
        (r := []) (n := t) (by simp; omega) (by simp; omega : lrest.length = _)
      have hd : (lp.map some).length = t := by
        rw [List.length_map]
        omega
      rw [hd] at hcopy
      rw [hlchildren, hrchildren]
      simpa [copyChildren] using hcopy
    · simp only [List.length_append, List.length_nil]
      omega

theorem merge_node (hn : Holds t nn false (a ++ k :: b) (pa ++ l :: r :: pb))
    (hpa : pa.length = a.length) (hpb : pb.length = b.length) : ∃ keys children,
      shiftDown (nn.num - (a.length + 1)) a.length nn.keys = some keys ∧
      shiftDown (nn.num - (a.length + 1)) (a.length + 1) nn.children = some children ∧
      if (a ++ k :: b).length = 2 * t - 1 then
        write children (max (a.length + 1) nn.num + 1) none = none
      else ∃ children', write children (max (a.length + 1) nn.num + 1) none = some children' ∧
        Holds t { nn with keys := keys, children := children', num := nn.num - 1 } false (a ++ b)
          (pa ++ l :: pb) := by
  obtain ⟨rest, hkeys, hlen⟩ := hn.keys
  obtain ⟨crest, hchildren, hclen, -⟩ := hn.children
  have hnum := hn.num
  simp only [List.length_append, List.length_cons] at hnum hlen hclen
  have hcount : nn.num - (a.length + 1) = b.length := by omega
  obtain ⟨y, -, hshift⟩ := shiftDown_split (r := rest) (x := k) hcount (rfl : a.length = _)
  obtain ⟨z, -, hcshift⟩ := shiftDown_split (x := some r) (q := pb.map some) (r := crest)
    (p := pa.map some ++ [some l]) (hcount.trans (by simp [hpb]))
    (by simp [hpa] : a.length + 1 = _)
  have hmax : max (a.length + 1) nn.num + 1 = nn.num + 1 := by omega
  refine ⟨a ++ (b ++ y :: rest), pa.map some ++ [some l] ++ (pb.map some ++ z :: crest), ?_, ?_, ?_⟩
  · rw [hkeys, List.append_assoc]
    exact hshift
  · rw [hchildren]
    simpa using hcshift
  · rw [hmax]
    split
    · next hfull =>
      simp only [List.length_append, List.length_cons] at hfull
      refine write_eq_none ?_
      simp only [List.length_append, List.length_cons, List.length_map, List.length_nil]
      omega
    · next hfree =>
      simp only [List.length_append, List.length_cons] at hfree
      cases crest with
      | nil =>
        simp only [List.length_nil] at hclen
        omega
      | cons w crest =>
        simp only [List.length_cons] at hclen
        refine ⟨pa.map some ++ [some l] ++ (pb.map some ++ [z]) ++ none :: crest, ?_, ?_⟩
        · have hwrite := write_split (p := pa.map some ++ [some l] ++ (pb.map some ++ [z])) (x := w)
            (q := crest) (v := none) (i := nn.num + 1) (by simp; omega)
          simpa using hwrite
        · refine ⟨?_, hn.isLeaf, ⟨y :: rest, by simp, ?_⟩, ⟨z :: none :: crest, by simp, ?_, nofun⟩⟩
          · simp only [List.length_append]
            omega
          · simp only [List.length_append, List.length_cons]
            omega
          · simp only [List.length_append, List.length_cons]
            omega

/-- The last key gone, the node is freed and the root is what is left. -/
def Collapses (T T' : Btree) (node l : Ptr) (ks : List Int) (ps : List Ptr) : Prop :=
  if ks = [] then T'.root = some l ∧ T'.heap node = none
  else T'.root = T.root ∧ Node T'.heap T.t false node ks ps

theorem bind_eq_of {α β : Type} {x : Option α} {y : α} {f : α → Option β} (h : x = some y) :
    x >>= f = f y := by
  rw [h]
  rfl

theorem btreeMerge_spec (ht : 2 ≤ T.t) (hnl : node ≠ l) (hlr : l ≠ r)
    (hn : Node T.heap T.t false node (a ++ k :: b) (pa ++ l :: r :: pb))
    (hl : Node T.heap T.t leaf l lk lp) (hr : Node T.heap T.t leaf r rk rp)
    (hpa : pa.length = a.length) (hpb : pb.length = b.length) (hlk : lk.length = T.t - 1)
    (hrk : rk.length = T.t - 1) (hlp : Width leaf lp (T.t - 1)) (hrp : Width leaf rp (T.t - 1)) :
    if (a ++ k :: b).length = 2 * T.t - 1 then btreeMerge T node a.length = none
    else ∃ T', btreeMerge T node a.length = some T' ∧ T'.t = T.t ∧
      (∀ p, p ≠ node → p ≠ l → p ≠ r → T'.heap p = T.heap p) ∧
      Node T'.heap T.t leaf l (lk ++ k :: rk) (lp ++ rp) ∧
      Collapses T T' node l (a ++ b) (pa ++ l :: pb) := by
  obtain ⟨nn, hnode, hn⟩ := hn
  obtain ⟨nl, hleft, hl⟩ := hl
  obtain ⟨nr, hright, hr⟩ := hr
  have hlchild : nn.children[a.length]? = some (some l) := hn.child hpa.symm
  have hrchild : nn.children[a.length + 1]? = some (some r) := by
    have hn' : Holds T.t nn false (a ++ k :: b) ((pa ++ [l]) ++ r :: pb) := by simpa using hn
    exact hn'.child (by simp [hpa])
  obtain ⟨lkeys, hwrite, hcopy⟩ := merge_keys hl hr ht hlk hrk (k := k)
  obtain ⟨lchildren, hccopy, hkids⟩ := merge_children hl hr ht hlp hrp
  obtain ⟨keys, children, hshift, hcshift, hlast⟩ := merge_node hn hpa hpb
  rw [btreeMerge, bind_eq_of hnode, bind_eq_of hlchild, bind_eq_of rfl, bind_eq_of hrchild,
    bind_eq_of rfl, bind_eq_of hleft, bind_eq_of hright, bind_eq_of (hn.key rfl), bind_eq_of hwrite,
    bind_eq_of hcopy, bind_eq_of hccopy, bind_eq_of hshift, bind_eq_of hcshift]
  split at hlast
  · next hfull => simp only [hlast, Option.bind_eq_bind, Option.bind_none, if_pos hfull]
  · next hfree =>
    obtain ⟨children', hcwrite, hholds⟩ := hlast
    have hnum : nn.num - 1 = (a ++ b).length := hholds.num
    have hmerged : Holds T.t { nl with
        keys := lk ++ k :: rk
        children := lchildren
        num := nl.num + T.t } leaf (lk ++ k :: rk) (lp ++ rp) := by
      refine ⟨?_, hl.isLeaf, ⟨[], by simp, ?_⟩, hkids⟩
      · simp only [List.length_append, List.length_cons, hl.num]
        omega
      · simp only [List.length_append, List.length_cons, List.length_nil]
        omega
    rw [if_neg hfree]
    rw [bind_eq_of hcwrite]
    by_cases hnil : a ++ b = []
    · rw [hnil, List.length_nil] at hnum
      refine ⟨_, if_pos hnum, rfl, ?_, ⟨_, ?_, hmerged⟩, ?_⟩
      · intro p hpn hpl hpr
        simp [hpn, hpl, hpr]
      · simp [hnl.symm, hlr]
      · rw [Collapses, if_pos hnil]
        exact ⟨rfl, by simp⟩
    · have hne : nn.num - 1 ≠ 0 := by
        rw [hnum]
        simpa [List.length_eq_zero_iff] using hnil
      refine ⟨_, if_neg hne, rfl, ?_, ⟨_, ?_, hmerged⟩, ?_⟩
      · intro p hpn hpl hpr
        simp [hpn, hpl, hpr]
      · simp [hnl.symm, hlr]
      · rw [Collapses, if_neg hnil]
        exact ⟨rfl, _, by simp, hholds⟩

end LearningCode.Btree
