import LearningCode.Btree.Level

/-!
# A full child split

The upper half of a full child goes to a new node behind it, and its middle key
up between the two.
-/

namespace LearningCode.Btree

open Blocks Multiway

variable {t h : Nat} {m : Int} {heap : Heap} {malloc : Malloc} {leaf : Bool} {nn ny : BtreeNode}
  {ka kb lk rk : List Int} {pa pb lp rp : List Ptr} {node y z : Ptr} {T T' : Btree}

theorem split_keys (hy : Holds t ny leaf (lk ++ m :: rk) (lp ++ rp)) (ht : 2 ≤ t)
    (hlk : lk.length = t - 1) (hrk : rk.length = t - 1) :
    ny.keys[t - 1]? = some m ∧ ∃ rest, rk.length + rest.length = 2 * t - 1 ∧
      copy ny.keys (t - 1) 0 t (btreeCreateNode t leaf).keys = some (rk ++ rest) := by
  obtain ⟨rest, hkeys, hlen⟩ := hy.keys
  simp only [List.length_append, List.length_cons] at hlen
  obtain rfl : rest = [] := List.eq_nil_of_length_eq_zero (by omega)
  refine ⟨hy.key hlk.symm, List.replicate t 0, by simp; omega, ?_⟩
  have hcopy := copy_split (p := lk ++ [m]) (m := rk) (q := []) (a := [])
    (o := List.replicate (t - 1) 0) (r := List.replicate t 0) hrk.symm (by simp [hrk])
  have hs : (lk ++ [m]).length = t := by
    simp only [List.length_append, List.length_singleton]
    omega
  have hnew : (btreeCreateNode t leaf).keys = List.replicate (t - 1) 0 ++ List.replicate t 0 := by
    rw [List.replicate_append_replicate]
    exact congrArg (List.replicate · 0) (by omega : 2 * t - 1 = t - 1 + t)
  rw [hs] at hcopy
  rw [hkeys, hnew]
  simpa using hcopy

theorem split_children (hy : Holds t ny leaf (lk ++ m :: rk) (lp ++ rp)) (ht : 2 ≤ t)
    (hlp : Width leaf lp (t - 1)) (hrp : Width leaf rp (t - 1)) : Kids t leaf ny.children lp ∧
      ∃ children, Kids t leaf children rp ∧
        copyChildren ny.leaf ny.children t 0 t (btreeCreateNode t leaf).children =
          some children := by
  obtain ⟨rest, hchildren, hlen, hnone⟩ := hy.children
  rw [hy.isLeaf]
  cases leaf with
  | true =>
    obtain rfl : lp = [] := hlp
    obtain rfl : rp = [] := hrp
    refine ⟨⟨rest, hchildren, hlen, hnone⟩, List.replicate (2 * t) none, ?_, rfl⟩
    exact ⟨_, rfl, by simp, fun _ c hc => List.eq_of_mem_replicate hc⟩
  | false =>
    have hlp : lp.length = t - 1 + 1 := hlp
    have hrp : rp.length = t - 1 + 1 := hrp
    simp only [List.length_append] at hlen
    obtain rfl : rest = [] := List.eq_nil_of_length_eq_zero (by omega)
    refine ⟨⟨rp.map some, by simp [hchildren], by simp; omega, nofun⟩,
      rp.map some ++ List.replicate t none, ⟨_, rfl, by simp; omega, nofun⟩, ?_⟩
    have hcopy := copy_split (p := lp.map some) (m := rp.map some) (q := []) (a := [])
      (o := List.replicate t none) (r := List.replicate t none) (n := t) (by simp; omega)
      (by simp; omega)
    have hs : (lp.map some).length = t := by
      rw [List.length_map]
      omega
    have hnew : (btreeCreateNode t false).children =
        List.replicate t none ++ List.replicate t none := by
      rw [List.replicate_append_replicate]
      exact congrArg (List.replicate · none) (by omega : 2 * t = t + t)
    rw [hs] at hcopy
    rw [hchildren, hnew]
    simpa [copyChildren] using hcopy

theorem split_node (hn : Holds t nn false (ka ++ kb) (pa ++ y :: pb)) (hpa : pa.length = ka.length)
    (hpb : pb.length = kb.length) (hfree : (ka ++ kb).length < 2 * t - 1) (z : Ptr) (m : Int) :
    ∃ children children' keys keys',
      shiftUp (nn.num - ka.length) (ka.length + 1) nn.children = some children ∧
      write children (ka.length + 1) (some z) = some children' ∧
      shiftUp (nn.num - ka.length) ka.length nn.keys = some keys ∧
      write keys ka.length m = some keys' ∧
      Holds t { nn with keys := keys', children := children', num := nn.num + 1 } false
        (ka ++ m :: kb) (pa ++ y :: z :: pb) := by
  obtain ⟨rest, hkeys, hlen⟩ := hn.keys
  obtain ⟨crest, hchildren, hclen, -⟩ := hn.children
  have hnum := hn.num
  simp only [List.length_append, List.length_cons] at hnum hlen hclen hfree
  have hcount : nn.num - ka.length = kb.length := by omega
  obtain ⟨w, rest, rfl⟩ := List.exists_cons_of_length_pos (by omega : 0 < rest.length)
  obtain ⟨v, crest, rfl⟩ := List.exists_cons_of_length_pos (by omega : 0 < crest.length)
  simp only [List.length_cons] at hlen hclen
  obtain ⟨w', -, hshift⟩ := shiftUp_split (x := w) (r := rest) hcount (rfl : ka.length = _)
  obtain ⟨v', -, hcshift⟩ := shiftUp_split (x := v) (q := pb.map some) (r := crest)
    (p := pa.map some ++ [some y]) (hcount.trans (by simp [hpb]))
    (by simp [hpa] : ka.length + 1 = _)
  refine ⟨pa.map some ++ [some y] ++ v' :: (pb.map some ++ crest),
    pa.map some ++ [some y] ++ some z :: (pb.map some ++ crest), ka ++ w' :: (kb ++ rest),
    ka ++ m :: (kb ++ rest), ?_, write_split (by simp [hpa]), ?_, write_split rfl, ?_⟩
  · rw [hchildren]
    simpa using hcshift
  · rw [hkeys, List.append_assoc]
    exact hshift
  · refine ⟨?_, hn.isLeaf, ⟨rest, by simp, ?_⟩, ⟨crest, by simp, ?_, nofun⟩⟩
    · simp only [List.length_append, List.length_cons]
      omega
    · simp only [List.length_append, List.length_cons]
      omega
    · simp only [List.length_append, List.length_cons]
      omega

theorem btreeSplitChild_spec (ht : 2 ≤ T.t) (hz : malloc T.heap = z) (hny : node ≠ y)
    (hnz : node ≠ z) (hyz : y ≠ z) (hn : Node T.heap T.t false node (ka ++ kb) (pa ++ y :: pb))
    (hy : Node T.heap T.t leaf y (lk ++ m :: rk) (lp ++ rp)) (hpa : pa.length = ka.length)
    (hpb : pb.length = kb.length) (hfree : (ka ++ kb).length < 2 * T.t - 1)
    (hlk : lk.length = T.t - 1) (hrk : rk.length = T.t - 1) (hlp : Width leaf lp (T.t - 1))
    (hrp : Width leaf rp (T.t - 1)) : ∃ T', btreeSplitChild malloc T node ka.length = some T' ∧
      T'.t = T.t ∧ T'.root = T.root ∧
      (∀ p, p ≠ node → p ≠ y → p ≠ z → T'.heap p = T.heap p) ∧
      Node T'.heap T.t false node (ka ++ m :: kb) (pa ++ y :: z :: pb) ∧
      Node T'.heap T.t leaf y lk lp ∧ Node T'.heap T.t leaf z rk rp := by
  obtain ⟨nn, hnode, hn⟩ := hn
  obtain ⟨ny, hynode, hy⟩ := hy
  have hchild : nn.children[ka.length]? = some (some y) := hn.child hpa.symm
  obtain ⟨hmiddle, rest, hlen, hcopy⟩ := split_keys hy ht hlk hrk
  obtain ⟨hlkids, children, hrkids, hccopy⟩ := split_children hy ht hlp hrp
  obtain ⟨_, children', _, keys', hcshift, hcwrite, hshift, hwrite, hholds⟩ :=
    split_node hn hpa hpb hfree z m
  rw [← hy.isLeaf] at hcopy hccopy
  rw [btreeSplitChild, bind_eq_of hnode, bind_eq_of hchild, bind_eq_of rfl, bind_eq_of hynode,
    bind_eq_of hcopy, bind_eq_of hccopy, bind_eq_of hcshift, hz, bind_eq_of hcwrite,
    bind_eq_of hshift, bind_eq_of hmiddle, bind_eq_of hwrite]
  have hleft : Holds T.t { ny with num := T.t - 1 } leaf lk lp := by
    obtain ⟨rest, hkeys, hlen⟩ := hy.keys
    refine ⟨hlk.symm, hy.isLeaf, ⟨m :: rk ++ rest, by simp [hkeys], ?_⟩, hlkids⟩
    simp only [List.length_append, List.length_cons] at hlen ⊢
    omega
  have hright : Holds T.t { btreeCreateNode T.t ny.leaf with
      keys := rk ++ rest, children := children, num := T.t - 1 } leaf rk rp :=
    ⟨hrk.symm, hy.isLeaf, ⟨rest, rfl, hlen⟩, hrkids⟩
  obtain ⟨hframe, hz', hy', hn'⟩ := store_three hyz.symm hnz.symm hny.symm hright hleft hholds
  exact ⟨_, rfl, rfl, rfl, fun p hpn hpy hpz => hframe p hpz hpy hpn, hn', hy', hz'⟩

-- ---------------------------------------------------------------------------
-- Trees that grow
-- ---------------------------------------------------------------------------

def Bounded (heap : Heap) : Prop := ∃ bound, ∀ p, bound ≤ p → heap p = none

def Fresh (malloc : Malloc) : Prop := ∀ heap, Bounded heap → heap (malloc heap) = none

theorem Bounded.of_same {heap' : Heap} {l : List Ptr} (hb : Bounded heap)
    (hsame : ∀ p, p ∉ l → heap' p = heap p) : Bounded heap' := by
  obtain ⟨bound, hbound⟩ := hb
  have habove (l : List Ptr) : ∃ top, ∀ p ∈ l, p < top := by
    induction l with
    | nil => exact ⟨0, nofun⟩
    | cons q l ih =>
      obtain ⟨top, htop⟩ := ih
      refine ⟨max top (q + 1), List.forall_mem_cons.mpr ⟨?_, fun p hp => ?_⟩⟩
      · exact Nat.lt_of_lt_of_le (Nat.lt_succ_self q) (Nat.le_max_right _ _)
      · exact Nat.lt_of_lt_of_le (htop p hp) (Nat.le_max_left _ _)
  obtain ⟨top, htop⟩ := habove l
  refine ⟨max bound top, fun p hp => ?_⟩
  have hfar : p ∉ l := fun hmem => Nat.not_le.mpr (htop p hmem) (Nat.le_trans (Nat.le_max_right _ _) hp)
  exact (hsame p hfar).trans (hbound p (Nat.le_trans (Nat.le_max_left _ _) hp))

/-- The heap holds one tree in place of another, under the same name, with new
nodes where nothing was. -/
structure Grown (T T' : Btree) {h : Nat} (c c' : Sub Ptr Int (h + 1)) : Prop where
  degree : T'.t = T.t
  root : T'.root = T.root
  name : c'.name = c.name
  same : ∀ p, T.heap p ≠ none → p ∉ names (h + 1) c → T'.heap p = T.heap p
  stored : Stored T.t T'.heap (h + 1) c'
  nodup : (names (h + 1) c').Nodup
  fresh : ∀ p ∈ names (h + 1) c', p ∈ names (h + 1) c ∨ T.heap p = none
  bounded : Bounded T'.heap

theorem Stored.ne_none {c : Sub Ptr Int h} (hst : Stored t heap h c) {p : Ptr}
    (hp : p ∈ names h c) : heap p ≠ none := by
  induction h with
  | zero => cases c
  | succ h ih =>
    obtain ⟨⟨n, hn, -⟩, hchildren⟩ := stored_succ.mp hst
    rcases List.mem_cons.mp hp with rfl | hp
    · simp [hn]
    · obtain ⟨x, hx, hp⟩ := List.mem_flatMap.mp hp
      exact ih (hchildren x hx) hp

theorem Grown.trans {T₁ : Btree} {c c₁ c' : Sub Ptr Int (h + 1)} (hg : Grown T T₁ c c₁)
    (hg' : Grown T₁ T' c₁ c') : Grown T T' c c' where
  degree := hg'.degree.trans hg.degree
  root := hg'.root.trans hg.root
  name := hg'.name.trans hg.name
  same p hp hout := by
    have hsame := hg.same p hp hout
    have hout₁ : p ∉ names (h + 1) c₁ := fun hmem => (hg.fresh p hmem).elim hout hp
    exact (hg'.same p (hsame ▸ hp) hout₁).trans hsame
  stored := hg.degree ▸ hg'.stored
  nodup := hg'.nodup
  fresh p hp := by
    rcases hg'.fresh p hp with hmem | hnone
    · exact hg.fresh p hmem
    · by_cases hmem : p ∈ names (h + 1) c
      · exact .inl hmem
      · refine .inr (Decidable.byContradiction fun hsome => hsome ?_)
        exact (hg.same p hsome hmem).symm.trans hnone
  bounded := hg'.bounded

theorem Grown.fill {f : Opened h} {x x' : Sub Ptr Int (h + 1)} (hg : Grown T T' x x')
    (hst : Stored T.t T.heap (h + 2) (f.fill x)) (hnd : (names (h + 2) (f.fill x)).Nodup) :
    Grown T T' (f.fill x) (f.fill x') := by
  have hperm := names_fill_perm f x
  have hmem {p : Ptr} (hp : p ∈ f.name :: (names (h + 1) x ++ f.siblings.flatMap (names (h + 1)))) :
      T.heap p ≠ none := hst.ne_none (hperm.mem_iff.mpr hp)
  obtain ⟨hn, hrest⟩ := List.nodup_cons.mp (hperm.nodup_iff.mp hnd)
  obtain ⟨-, hsiblings, hdisjoint⟩ := List.nodup_append.mp hrest
  obtain ⟨⟨node, hnode, hholds⟩, hchildren⟩ := stored_succ.mp hst
  refine ⟨hg.degree, hg.root, rfl, ?_, ?_, ?_, ?_, hg.bounded⟩
  · intro p hp hout
    exact hg.same p hp fun hx => hout (hperm.mem_iff.mpr (.tail _ (List.mem_append_left _ hx)))
  · refine ⟨⟨node, ?_, ?_⟩, fun y hy => ?_⟩
    · have hsame := hg.same f.name (hmem List.mem_cons_self) fun hx => hn (List.mem_append_left _ hx)
      exact hsame.trans hnode
    · simpa [hg.name] using hholds
    · rcases Frame.mem_children.mp hy with rfl | hy
      · exact hg.stored
      · refine (hchildren y (Frame.mem_children.mpr (.inr hy))).frame fun p hp => ?_
        have hside : p ∈ f.siblings.flatMap (names (h + 1)) := List.mem_flatMap.mpr ⟨y, hy, hp⟩
        exact hg.same p (hmem (.tail _ (List.mem_append_right _ hside)))
          fun hx => hdisjoint p hx p hside rfl
  · have hout {p : Ptr} (hp : p ∈ names (h + 1) x') (hmem' : T.heap p ≠ none) :
        p ∈ names (h + 1) x := (hg.fresh p hp).resolve_right hmem'
    refine (names_fill_perm f x').nodup_iff.mpr (List.nodup_cons.mpr ⟨?_, ?_⟩)
    · rw [List.mem_append]
      rintro (hp | hp)
      · exact hn (List.mem_append_left _ (hout hp (hmem List.mem_cons_self)))
      · exact hn (List.mem_append_right _ hp)
    · refine List.nodup_append.mpr ⟨hg.nodup, hsiblings, ?_⟩
      rintro p hp _ hp' rfl
      exact hdisjoint p (hout hp (hmem (.tail _ (List.mem_append_right _ hp')))) p hp' rfl
  · intro p hp
    rcases List.mem_cons.mp ((names_fill_perm f x').mem_iff.mp hp) with rfl | hp
    · exact .inl (hperm.mem_iff.mpr List.mem_cons_self)
    · rcases List.mem_append.mp hp with hp | hp
      · refine (hg.fresh p hp).imp_left fun hx => hperm.mem_iff.mpr (.tail _ ?_)
        exact List.mem_append_left _ hx
      · exact .inl (hperm.mem_iff.mpr (.tail _ (List.mem_append_right _ hp)))

variable {n : Ptr} {b : List (Sub Ptr Int (h + 1) × Int)} {a : List (Int × Sub Ptr Int (h + 1))}
  {x : Sub Ptr Int (h + 1)}

theorem width_cut {lo : Nat} (ht : 2 ≤ t) (hx : Shaped lo (2 * t - 1) (h + 1) x)
    (hlen : x.keys.length = 2 * t - 1) :
    Width (h == 0) ((x.children.take t).map (top h)) (t - 1) ∧
      Width (h == 0) ((x.children.drop t).map (top h)) (t - 1) := by
  cases h with
  | zero => simp [Width, Sub.eq_nil x.children]
  | succ h =>
    have hcount := hx.2.1 (Nat.succ_pos h)
    simp only [Width, Nat.succ_ne_zero, beq_iff_eq, if_false, List.length_map, List.length_take,
      List.length_drop]
    omega

theorem names_cut_perm (n : Ptr) (b : List (Sub Ptr Int (h + 1) × Int))
    (a : List (Int × Sub Ptr Int (h + 1))) (x : Sub Ptr Int (h + 1)) (lk rk : List Int) (m : Int)
    (z : Ptr) (i : Nat) :
    (names (h + 2) (Frame.fill ⟨n, b, (m, ⟨z, rk, x.children.drop i⟩) :: a⟩
      (⟨x.name, lk, x.children.take i⟩ : Sub Ptr Int (h + 1)))).Perm
      (z :: names (h + 2) (Frame.fill ⟨n, b, a⟩ x)) := by
  have hnew := names_pair_perm n b a ⟨x.name, lk, x.children.take i⟩
    (⟨z, rk, x.children.drop i⟩ : Sub Ptr Int (h + 1)) m
  rw [List.take_append_drop] at hnew
  refine hnew.trans (.trans ?_ ((names_fill_perm ⟨n, b, a⟩ x).symm.cons z))
  exact ((List.Perm.swap z x.name _).cons n).trans (.swap z n _)

theorem btreeSplitChild_grown (ht : 2 ≤ T.t)
    (hst : Stored T.t T.heap (h + 2) (Frame.fill ⟨n, b, a⟩ x))
    (hnd : (names (h + 2) (Frame.fill ⟨n, b, a⟩ x)).Nodup)
    (hfree : (Frame.keys ⟨n, b, a⟩).length < 2 * T.t - 1)
    (hx : Shaped (T.t - 1) (2 * T.t - 1) (h + 1) x) (hks : x.keys = lk ++ m :: rk)
    (hlk : lk.length = T.t - 1) (hrk : rk.length = T.t - 1) (hz : malloc T.heap = z)
    (hfresh : T.heap z = none) (hb : Bounded T.heap) : ∃ T',
      btreeSplitChild malloc T n b.length = some T' ∧ Grown T T' (Frame.fill ⟨n, b, a⟩ x)
        (Frame.fill ⟨n, b, (m, ⟨z, rk, x.children.drop T.t⟩) :: a⟩
          (⟨x.name, lk, x.children.take T.t⟩ : Sub Ptr Int (h + 1))) := by
  have hperm := names_cut_perm n b a x lk rk m z T.t
  have hout : ∀ p ∈ names (h + 2) (Frame.fill ⟨n, b, a⟩ x), p ≠ z :=
    fun p hp heq => hst.ne_none hp (heq ▸ hfresh)
  obtain ⟨hn, hold⟩ := List.nodup_cons.mp ((names_fill_perm ⟨n, b, a⟩ x).nodup_iff.mp hnd)
  have hxname := (List.nodup_cons.mp hold).1
  obtain ⟨⟨nn, hnode, hholds⟩, hchildren⟩ := stored_succ.mp hst
  have hkids : (Frame.fill ⟨n, b, a⟩ x).children.map (top (h + 1)) =
      b.map (fun p => p.1.name) ++ x.name :: a.map fun p => p.2.name := by
    simp [Function.comp_def]
  rw [hkids] at hholds
  obtain ⟨hxsits, hxchildren⟩ := stored_succ.mp (hchildren x (Frame.mem_children.mpr (.inl rfl)))
  have hcut : x.children.map (top h) =
      (x.children.take T.t).map (top h) ++ (x.children.drop T.t).map (top h) := by
    rw [← List.map_append, List.take_append_drop]
  rw [Sits, hks, hcut] at hxsits
  have hlen : x.keys.length = 2 * T.t - 1 := by
    rw [hks, List.length_append, List.length_cons]
    omega
  have hxmem : x.name ∈ names (h + 2) (Frame.fill ⟨n, b, a⟩ x) :=
    (names_fill_perm ⟨n, b, a⟩ x).mem_iff.mpr (.tail _ (.head _))
  have hnx : n ≠ x.name := fun heq => hn (heq ▸ List.mem_cons_self)
  obtain ⟨hlp, hrp⟩ := width_cut ht hx hlen
  obtain ⟨T', hcall, hdegree, hroot, hsame, hn', hl', hr'⟩ :=
    btreeSplitChild_spec ht hz hnx (hout n List.mem_cons_self) (hout x.name hxmem)
      ⟨nn, hnode, hholds⟩ hxsits (by simp) (by simp) (by simpa [Frame.keys] using hfree) hlk hrk
      hlp hrp
  rw [List.length_map] at hcall
  -- what is in neither of the three cells
  have hrest : ∀ p ∈ x.children.flatMap (names h) ++
      (Frame.siblings ⟨n, b, a⟩).flatMap (names (h + 1)), T'.heap p = T.heap p := by
    intro p hp
    have hmem : p ∈ names (h + 2) (Frame.fill ⟨n, b, a⟩ x) :=
      (names_fill_perm ⟨n, b, a⟩ x).mem_iff.mpr (.tail _ (.tail _ hp))
    refine hsame p ?_ ?_ (hout p hmem)
    · rintro rfl
      exact hn (.tail _ hp)
    · rintro rfl
      exact hxname hp
  refine ⟨T', hcall, hdegree, hroot, rfl, ?_, ?_, ?_, ?_, ?_⟩
  · intro p hp hnames
    refine hsame p ?_ ?_ fun heq => hp (heq ▸ hfresh)
    · rintro rfl
      exact hnames List.mem_cons_self
    · rintro rfl
      exact hnames hxmem
  · refine stored_pair.mpr ⟨hn', ⟨hl', hr'⟩, fun y hy => ?_, fun y hy => ?_⟩
    · simp only [List.take_append_drop] at hy
      refine (hxchildren y hy).frame fun p hp => hrest p (List.mem_append_left _ ?_)
      exact List.mem_flatMap.mpr ⟨y, hy, hp⟩
    · refine (hchildren y (Frame.mem_children.mpr (.inr hy))).frame fun p hp => hrest p ?_
      exact List.mem_append_right _ (List.mem_flatMap.mpr ⟨y, hy, hp⟩)
  · refine hperm.nodup_iff.mpr (List.nodup_cons.mpr ⟨fun hmem => hout z hmem rfl, hnd⟩)
  · intro p hp
    rcases List.mem_cons.mp (hperm.mem_iff.mp hp) with rfl | hp
    · exact .inr hfresh
    · exact .inl hp
  · refine hb.of_same (l := [n, x.name, z]) fun p hp => ?_
    simp only [List.mem_cons, List.not_mem_nil, or_false, not_or] at hp
    exact hsame p hp.1 hp.2.1 hp.2.2

end LearningCode.Btree
