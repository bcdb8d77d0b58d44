import LearningCode.Btree.Split

/-!
# Insertion

Going down, a full child is cut in two before it is entered, so that every node
on the way has room for a key. `Inserted` says this of the tree, and the call
makes it so in the heap.
-/

namespace LearningCode.Btree

open Blocks Multiway

def Behind (k : Int) (l : List Int) : Prop := ∀ j ∈ l.getLast?, j ≤ k

inductive Inserted (t : Nat) :
    (h : Nat) → Int → Sub Ptr Int (h + 1) → Sub Ptr Int (h + 1) → Prop
  | leaf {k n pre suf cs} : Behind k pre → (∀ j ∈ suf, k < j) →
      Inserted t 0 k ⟨n, pre ++ suf, cs⟩ ⟨n, pre ++ k :: suf, cs⟩
  | down {h k n b a} {x x' : Sub Ptr Int (h + 1)} : Behind k (b.map Prod.snd) →
      (∀ j ∈ a.map Prod.fst, k < j) → x.keys.length < 2 * t - 1 → Inserted t h k x x' →
      Inserted t (h + 1) k (Frame.fill ⟨n, b, a⟩ x) (Frame.fill ⟨n, b, a⟩ x')
  | lower {h k n b a m lk rk z} {x x' : Sub Ptr Int (h + 1)} : Behind k (b.map Prod.snd) →
      (∀ j ∈ a.map Prod.fst, k < j) → x.keys = lk ++ m :: rk → lk.length = t - 1 →
      rk.length = t - 1 → k ≤ m → Inserted t h k ⟨x.name, lk, x.children.take t⟩ x' →
      Inserted t (h + 1) k (Frame.fill ⟨n, b, a⟩ x)
        (Frame.fill ⟨n, b, (m, ⟨z, rk, x.children.drop t⟩) :: a⟩ x')
  | upper {h k n b a m lk rk z} {x x' : Sub Ptr Int (h + 1)} : Behind k (b.map Prod.snd) →
      (∀ j ∈ a.map Prod.fst, k < j) → x.keys = lk ++ m :: rk → lk.length = t - 1 →
      rk.length = t - 1 → m < k → Inserted t h k ⟨z, rk, x.children.drop t⟩ x' →
      Inserted t (h + 1) k (Frame.fill ⟨n, b, a⟩ x)
        (Frame.fill ⟨n, b ++ [(⟨x.name, lk, x.children.take t⟩, m)], a⟩ x')

variable {t h turns : Nat} {k m : Int} {heap : Heap} {malloc : Malloc} {T T' : Btree}
  {pre suf : List Int} {c c' : Sub Ptr Int (h + 1)}

-- ---------------------------------------------------------------------------
-- The place of the key in a node
-- ---------------------------------------------------------------------------

theorem exists_scan (k : Int) (ks : List Int) :
    ∃ pre suf, ks = pre ++ suf ∧ Behind k pre ∧ ∀ j ∈ suf, k < j := by
  induction ks using List.reverseRecOn with
  | nil => exact ⟨[], [], rfl, nofun, nofun⟩
  | append_singleton ks j ih =>
    by_cases hj : k < j
    · obtain ⟨pre, suf, rfl, hpre, hsuf⟩ := ih
      refine ⟨pre, suf ++ [j], List.append_assoc _ _ _, hpre, ?_⟩
      rw [List.forall_mem_append]
      exact ⟨hsuf, by simpa using hj⟩
    · refine ⟨ks ++ [j], [], (List.append_nil _).symm, ?_, nofun⟩
      intro i hi
      rw [List.getLast?_concat, Option.mem_some_iff] at hi
      omega

theorem scan_eq (hpre : Behind k pre) (hsuf : ∀ j ∈ suf, k < j) (rest : List Int) :
    scan (pre ++ suf ++ rest) k (pre.length + suf.length) = some pre.length := by
  induction suf using List.reverseRecOn generalizing rest with
  | nil =>
    rcases List.eq_nil_or_concat' pre with rfl | ⟨ks, j, rfl⟩
    · rfl
    · have hj : ¬ j > k := Int.not_lt.mpr (hpre j (by simp))
      simp [scan, hj]
  | append_singleton suf j ih =>
    rw [List.forall_mem_append] at hsuf
    have hj : j > k := hsuf.2 j (List.mem_singleton_self j)
    have hread : (pre ++ (suf ++ [j]) ++ rest)[pre.length + suf.length]? = some j := by simp
    have hrest := ih hsuf.1 (j :: rest)
    rw [List.length_append, List.length_singleton, ← Nat.add_assoc, scan, bind_eq_of hread,
      if_pos hj]
    simpa using hrest

theorem insertKey_eq (hpre : Behind k pre) (hsuf : ∀ j ∈ suf, k < j) (w : Int) (rest : List Int) :
    insertKey k (pre.length + suf.length) (pre ++ suf ++ w :: rest) =
      some (pre ++ k :: (suf ++ rest)) := by
  induction suf using List.reverseRecOn generalizing w rest with
  | nil =>
    rcases List.eq_nil_or_concat' pre with rfl | ⟨ks, j, rfl⟩
    · simp [insertKey, write]
    · have hj : ¬ j > k := Int.not_lt.mpr (hpre j (by simp))
      have hwrite := write_split (p := ks ++ [j]) (x := w) (q := rest) (v := k) rfl
      simpa [insertKey, hj] using hwrite
  | append_singleton suf j ih =>
    rw [List.forall_mem_append] at hsuf
    have hj : j > k := hsuf.2 j (List.mem_singleton_self j)
    have hread : (pre ++ (suf ++ [j]) ++ w :: rest)[pre.length + suf.length]? = some j := by simp
    have hwrite := write_split (p := pre ++ (suf ++ [j])) (x := w) (q := rest) (v := j)
      (i := pre.length + suf.length + 1) (by simp; omega)
    have hrest := ih hsuf.1 j (j :: rest)
    rw [List.length_append, List.length_singleton, ← Nat.add_assoc, insertKey, bind_eq_of hread,
      if_pos hj, hwrite]
    simpa using hrest

-- ---------------------------------------------------------------------------
-- btree_insert_nonfull
-- ---------------------------------------------------------------------------

theorem insertNonfull_leaf {n : Ptr} {cs : List (Sub Ptr Int 0)}
    (hst : Stored T.t T.heap 1 ⟨n, pre ++ suf, cs⟩) (hlen : (pre ++ suf).length < 2 * T.t - 1)
    (hpre : Behind k pre) (hsuf : ∀ j ∈ suf, k < j) (hb : Bounded T.heap) : ∃ T',
      btreeInsertNonfull malloc (turns + 1) T n k = some T' ∧
      Grown (h := 0) T T' ⟨n, pre ++ suf, cs⟩ ⟨n, pre ++ k :: suf, cs⟩ := by
  obtain ⟨nn, hnode, hn⟩ := hst.leaf
  obtain ⟨rest, hkeys, hcount⟩ := hn.keys
  simp only [List.length_append] at hlen hcount
  obtain ⟨w, rest, rfl⟩ := List.exists_cons_of_length_pos (by omega : 0 < rest.length)
  have hcall : insertKey k nn.num nn.keys = some (pre ++ k :: (suf ++ rest)) := by
    rw [hn.num, hkeys, List.length_append]
    exact insertKey_eq hpre hsuf w rest
  have hholds : Holds T.t { nn with keys := pre ++ k :: (suf ++ rest), num := nn.num + 1 } true
      (pre ++ k :: suf) [] := by
    refine ⟨?_, hn.isLeaf, ⟨rest, by simp, ?_⟩, hn.children⟩
    · simp only [hn.num, List.length_append, List.length_cons]
      omega
    · simp only [List.length_append, List.length_cons] at hcount ⊢
      omega
  simp only at hnode
  refine ⟨T.store n { nn with keys := pre ++ k :: (suf ++ rest), num := nn.num + 1 }, ?_, rfl, rfl,
    rfl, ?_, stored_leaf (by simp) hholds, ?_, ?_, ?_⟩
  · rw [btreeInsertNonfull, bind_eq_of hnode, if_pos hn.isLeaf, bind_eq_of hcall]
  · intro p _ hp
    have hpn : p ≠ n := fun heq => hp (heq ▸ List.mem_cons_self)
    simp [hpn]
  · rw [names, Sub.eq_nil cs]
    simp
  · exact fun p hp => .inl hp
  · refine hb.of_same (l := [n]) fun p hp => ?_
    simp only [List.mem_singleton] at hp
    simp [hp]

theorem insertNonfull_child {n : Ptr} {b : List (Sub Ptr Int (h + 1) × Int)}
    {a : List (Int × Sub Ptr Int (h + 1))} {x : Sub Ptr Int (h + 1)}
    (hst : Stored T.t T.heap (h + 2) (Frame.fill ⟨n, b, a⟩ x)) (hpre : Behind k (b.map Prod.snd))
    (hsuf : ∀ j ∈ a.map Prod.fst, k < j) :
    btreeInsertNonfull malloc (turns + 1) T n k =
      if x.keys.length = 2 * T.t - 1 then do
        let T ← btreeSplitChild malloc T n b.length
        let nx ← T.heap n
        let m ← nx.keys[b.length]?
        let c ← (← nx.children[if k > m then b.length + 1 else b.length]?)
        btreeInsertNonfull malloc turns T c k
      else btreeInsertNonfull malloc turns T x.name k := by
  obtain ⟨⟨nn, hnode, hn⟩, hchildren⟩ := stored_succ.mp hst
  obtain ⟨rest, hkeys, -⟩ := hn.keys
  have hscan : scan nn.keys k nn.num = some b.length := by
    have hscan := scan_eq hpre hsuf rest
    rw [List.length_map] at hscan
    rw [hkeys, hn.num]
    simpa [Frame.keys] using hscan
  have hread := hst.readChild (b.map Prod.fst) (a.map Prod.snd) hnode rfl (by simp : b.length = _)
  obtain ⟨⟨nx, hx, hxholds⟩, -⟩ := stored_succ.mp (hchildren x (Frame.mem_children.mpr (.inl rfl)))
  have hinner : nn.leaf = false := hn.isLeaf
  rw [Frame.fill_name] at hnode
  rw [btreeInsertNonfull, bind_eq_of hnode, hinner, if_neg Bool.false_ne_true, bind_eq_of hscan,
    bind_eq_of hread, bind_eq_of rfl, bind_eq_of hx, hxholds.num]

theorem shaped_cut {x : Sub Ptr Int (h + 1)} {lk rk : List Int} (ht : 2 ≤ t)
    (hx : Shaped (t - 1) (2 * t - 1) (h + 1) x) (hks : x.keys = lk ++ m :: rk)
    (hlk : lk.length = t - 1) (hrk : rk.length = t - 1) (z : Ptr) :
    Shaped (t - 1) (2 * t - 1) (h + 1) (⟨x.name, lk, x.children.take t⟩ : Sub Ptr Int (h + 1)) ∧
      Shaped (t - 1) (2 * t - 1) (h + 1) (⟨z, rk, x.children.drop t⟩ : Sub Ptr Int (h + 1)) := by
  obtain ⟨-, hcount, hchildren⟩ := hx
  rw [hks, List.length_append, List.length_cons] at hcount
  refine ⟨⟨?_, fun hpos => ?_, fun y hy => hchildren y (List.mem_of_mem_take hy)⟩,
    ⟨?_, fun hpos => ?_, fun y hy => hchildren y (List.mem_of_mem_drop hy)⟩⟩
  · simp only [hlk]
    omega
  · have hlen := hcount hpos
    simp only [List.length_take, hlk]
    omega
  · simp only [hrk]
    omega
  · have hlen := hcount hpos
    simp only [List.length_drop, hrk]
    omega

theorem split_read {n : Ptr} {b : List (Sub Ptr Int (h + 1) × Int)}
    {a : List (Int × Sub Ptr Int (h + 1))} {l r : Sub Ptr Int (h + 1)}
    (hst : Stored t heap (h + 2) (Frame.fill ⟨n, b, (m, r) :: a⟩ l)) : ∃ nx,
      heap n = some nx ∧ nx.keys[b.length]? = some m ∧
        nx.children[if k > m then b.length + 1 else b.length]? =
          some (some (if k > m then r.name else l.name)) := by
  obtain ⟨⟨nx, hnode, hn⟩, -⟩ := stored_succ.mp hst
  refine ⟨nx, hnode, hn.key (by simp), ?_⟩
  split
  · exact hst.readChild (b.map Prod.fst ++ [l]) (a.map Prod.snd) hnode (by simp) (by simp)
  · exact hst.readChild (b.map Prod.fst) (r :: a.map Prod.snd) hnode rfl (by simp)

theorem Grown.descend {T₁ : Btree} {f : Opened h} {y y' : Sub Ptr Int (h + 1)}
    {c : Sub Ptr Int (h + 2)} (hg : Grown T T₁ c (f.fill y)) (hbelow : Grown T₁ T' y y') :
    Grown T T' c (f.fill y') := hg.trans (hbelow.fill (hg.degree ▸ hg.stored) hg.nodup)

theorem nodup_child {f : Opened h} {y : Sub Ptr Int (h + 1)}
    (hnd : (names (h + 2) (f.fill y)).Nodup) : (names (h + 1) y).Nodup :=
  (List.nodup_append.mp (List.nodup_cons.mp ((names_fill_perm f y).nodup_iff.mp hnd)).2).1

theorem exists_middle {ks : List Int} (ht : 2 ≤ t) (hlen : ks.length = 2 * t - 1) :
    ∃ lk m rk, ks = lk ++ m :: rk ∧ lk.length = t - 1 ∧ rk.length = t - 1 := by
  obtain ⟨m, rk, hdrop⟩ := List.exists_cons_of_length_pos
    (by rw [List.length_drop]; omega : 0 < (ks.drop (t - 1)).length)
  refine ⟨ks.take (t - 1), m, rk, ?_, ?_, ?_⟩
  · rw [← hdrop, List.take_append_drop]
  · rw [List.length_take]
    omega
  · have hcount := congrArg List.length hdrop
    rw [List.length_drop, List.length_cons] at hcount
    omega

/-- A node with room takes the key, and new nodes come in where nothing was. -/
def Grows (malloc : Malloc) (turns : Nat) (k : Int) (h : Nat) : Prop :=
  ∀ (T : Btree) (c : Sub Ptr Int (h + 1)), 2 ≤ T.t → Stored T.t T.heap (h + 1) c →
    (names (h + 1) c).Nodup → Shaped (T.t - 1) (2 * T.t - 1) (h + 1) c →
    c.keys.length < 2 * T.t - 1 → Bounded T.heap →
    ∃ T' c', btreeInsertNonfull malloc turns T c.name k = some T' ∧ Grown T T' c c' ∧
      Inserted T.t h k c c'

theorem split_grown {n : Ptr} {b : List (Sub Ptr Int (h + 1) × Int)}
    {a : List (Int × Sub Ptr Int (h + 1))} {x : Sub Ptr Int (h + 1)}
    (hgrows : Grows malloc turns k h) (hmalloc : Fresh malloc) (ht : 2 ≤ T.t)
    (hst : Stored T.t T.heap (h + 2) (Frame.fill ⟨n, b, a⟩ x))
    (hnd : (names (h + 2) (Frame.fill ⟨n, b, a⟩ x)).Nodup)
    (hroom : (Frame.keys ⟨n, b, a⟩).length < 2 * T.t - 1)
    (hx : Shaped (T.t - 1) (2 * T.t - 1) (h + 1) x) (hfull : x.keys.length = 2 * T.t - 1)
    (hb : Bounded T.heap) (hpre : Behind k (b.map Prod.snd)) (hsuf : ∀ j ∈ a.map Prod.fst, k < j) :
    ∃ (T' : Btree) (f : Opened h) (x' : Sub Ptr Int (h + 1)), (do
        let T ← btreeSplitChild malloc T n b.length
        let nx ← T.heap n
        let m ← nx.keys[b.length]?
        let c ← (← nx.children[if k > m then b.length + 1 else b.length]?)
        btreeInsertNonfull malloc turns T c k) = some T' ∧
      Grown T T' (Frame.fill ⟨n, b, a⟩ x) (f.fill x') ∧
      Inserted T.t (h + 1) k (Frame.fill ⟨n, b, a⟩ x) (f.fill x') ∧ 0 < f.keys.length := by
  obtain ⟨lk, m, rk, hks, hlk, hrk⟩ := exists_middle ht hfull
  obtain ⟨T₁, hcall₁, hcut⟩ := btreeSplitChild_grown (z := malloc T.heap) ht hst hnd hroom hx hks
    hlk hrk rfl (hmalloc _ hb) hb
  obtain ⟨nx, hnode, hmiddle, hnext⟩ := split_read (k := k) hcut.stored
  obtain ⟨hlshape, hrshape⟩ := shaped_cut ht hx hks hlk hrk (malloc T.heap)
  rw [bind_eq_of hcall₁, bind_eq_of hnode, bind_eq_of hmiddle, bind_eq_of hnext, bind_eq_of rfl]
  have hhalf {ks : List Int} (hks : ks.length = T.t - 1) : ks.length < 2 * T₁.t - 1 := by
    rw [hcut.degree]
    omega
  have hstored := hcut.stored
  have hnodup := hcut.nodup
  have hdegree := hcut.degree
  by_cases hk : k > m
  · rw [if_pos hk]
    rw [← fill_swap] at hcut hstored hnodup
    obtain ⟨T', x', hcall, hgrown, hinserted⟩ := hgrows T₁ _ (hdegree ▸ ht)
      (hdegree ▸ hstored.child) (nodup_child hnodup) (hdegree ▸ hrshape) (hhalf hrk) hcut.bounded
    rw [hdegree] at hinserted
    refine ⟨T', _, x', hcall, hcut.descend hgrown, .upper hpre hsuf hks hlk hrk hk hinserted, ?_⟩
    rw [Frame.keys_length, List.length_append, List.length_singleton]
    omega
  · rw [if_neg hk]
    obtain ⟨T', x', hcall, hgrown, hinserted⟩ := hgrows T₁ _ (hdegree ▸ ht)
      (hdegree ▸ hstored.child) (nodup_child hnodup) (hdegree ▸ hlshape) (hhalf hlk) hcut.bounded
    rw [hdegree] at hinserted
    refine ⟨T', _, x', hcall, hcut.descend hgrown,
      .lower hpre hsuf hks hlk hrk (Int.not_lt.mp hk) hinserted, ?_⟩
    rw [Frame.keys_length, List.length_cons]
    omega

theorem btreeInsertNonfull_grows (hmalloc : Fresh malloc) (hturns : h < turns) :
    Grows malloc turns k h := by
  obtain ⟨turns, rfl⟩ : ∃ m, turns = m + 1 := ⟨turns - 1, by omega⟩
  intro T c ht hst hnd hc hlen hb
  induction h generalizing T turns with
  | zero =>
    obtain ⟨n, ks, cs⟩ := c
    obtain ⟨pre, suf, rfl, hpre, hsuf⟩ := exists_scan k ks
    obtain ⟨T', hcall, hgrown⟩ := insertNonfull_leaf hst hlen hpre hsuf hb
    exact ⟨T', _, hcall, hgrown, .leaf hpre hsuf⟩
  | succ h ih =>
    obtain ⟨turns, rfl⟩ : ∃ m, turns = m + 1 := ⟨turns - 1, by omega⟩
    obtain ⟨pre, suf, hsplit, hpre, hsuf⟩ := exists_scan k c.keys
    obtain ⟨⟨n, b, a⟩, x, rfl, rfl, rfl⟩ := exists_fill (hc.2.1 (Nat.succ_pos h)) hsplit
    obtain ⟨-, hlow, hx⟩ := shaped_fill_iff.mp hc
    rw [Frame.fill_name, insertNonfull_child hst hpre hsuf]
    have hgrows : Grows malloc (turns + 1) k h :=
      fun T c ht hst hnd hc hlen hb => ih turns (by omega) T c ht hst hnd hc hlen hb
    by_cases hfull : x.keys.length = 2 * T.t - 1
    · rw [if_pos hfull]
      obtain ⟨T', f, x', hcall, hgrown, hinserted, -⟩ :=
        split_grown hgrows hmalloc ht hst hnd hlen hx hfull hb hpre hsuf
      exact ⟨T', _, hcall, hgrown, hinserted⟩
    · rw [if_neg hfull]
      have hroom : x.keys.length < 2 * T.t - 1 := Nat.lt_of_le_of_ne hx.1 hfull
      obtain ⟨T', x', hcall, hgrown, hinserted⟩ :=
        hgrows T x ht hst.child (nodup_child hnd) hx hroom hb
      exact ⟨T', _, hcall, hgrown.fill hst hnd, .down hpre hsuf hroom hinserted⟩

-- ---------------------------------------------------------------------------
-- btree_insert
-- ---------------------------------------------------------------------------

theorem Rim.insert {n : Ptr} {b : List (Sub Ptr Int (h + 1) × Int)}
    {a : List (Int × Sub Ptr Int (h + 1))} {y : Sub Ptr Int (h + 1)} (hrim : Rim t ⟨n, b, a⟩)
    (hroom : (Frame.keys ⟨n, b, a⟩).length < 2 * t - 1) (hlow : t - 1 ≤ y.keys.length)
    (hy : Shaped (t - 1) (2 * t - 1) (h + 1) y) (m : Int) :
    Rim t ⟨n, b ++ [(y, m)], a⟩ ∧ Rim t ⟨n, b, (m, y) :: a⟩ := by
  obtain ⟨-, hsiblings⟩ := hrim
  simp only [Frame.keys_length] at hroom
  refine ⟨⟨?_, fun z hz => ?_⟩, ⟨?_, fun z hz => ?_⟩⟩
  · simp only [Frame.keys_length, List.length_append, List.length_singleton]
    omega
  · rcases mem_siblings.mp hz with hz | hz
    · rw [List.map_append, List.mem_append] at hz
      rcases hz with hz | hz
      · exact hsiblings z (mem_siblings.mpr (.inl hz))
      · cases List.mem_singleton.mp hz
        exact ⟨hlow, hy⟩
    · exact hsiblings z (mem_siblings.mpr (.inr hz))
  · simp only [Frame.keys_length, List.length_cons]
    omega
  · rcases mem_siblings.mp hz with hz | hz
    · exact hsiblings z (mem_siblings.mpr (.inl hz))
    · rcases List.mem_cons.mp hz with rfl | hz
      · exact ⟨hlow, hy⟩
      · exact hsiblings z (mem_siblings.mpr (.inr hz))

theorem Inserted.shaped (hi : Inserted t h k c c') (ht : 2 ≤ t)
    (hc : Shaped (t - 1) (2 * t - 1) (h + 1) c) (hlen : c.keys.length < 2 * t - 1) :
    Shaped (t - 1) (2 * t - 1) (h + 1) c' ∧ c.keys.length ≤ c'.keys.length := by
  induction hi with
  | leaf =>
    simp only [List.length_append] at hlen
    refine ⟨⟨?_, nofun, fun y _ => nomatch y⟩, ?_⟩
    · simp only [List.length_append, List.length_cons]
      omega
    · simp only [List.length_append, List.length_cons]
      omega
  | down _ _ hroom _ ih =>
    obtain ⟨hrim, hlow, hx⟩ := shaped_fill_iff.mp hc
    obtain ⟨hx', hle⟩ := ih hx hroom
    exact ⟨shaped_fill_iff.mpr ⟨hrim, Nat.le_trans hlow hle, hx'⟩, Nat.le_refl _⟩
  | @lower h k n b a m lk rk z x x' _ _ hks hlk hrk _ _ ih =>
    obtain ⟨hrim, -, hx⟩ := shaped_fill_iff.mp hc
    obtain ⟨hl, hr⟩ := shaped_cut ht hx hks hlk hrk z
    obtain ⟨hx', hle⟩ := ih hl (by simp only [hlk]; omega)
    have hle' : t - 1 ≤ x'.keys.length := hlk ▸ hle
    refine ⟨shaped_fill_iff.mpr ⟨(hrim.insert hlen (Nat.le_of_eq hrk.symm) hr m).2, hle', hx'⟩, ?_⟩
    simp only [Frame.fill_keys, Frame.keys_length, List.length_cons]
    omega
  | @upper h k n b a m lk rk z x x' _ _ hks hlk hrk _ _ ih =>
    obtain ⟨hrim, -, hx⟩ := shaped_fill_iff.mp hc
    obtain ⟨hl, hr⟩ := shaped_cut ht hx hks hlk hrk z
    obtain ⟨hx', hle⟩ := ih hr (by simp only [hrk]; omega)
    have hle' : t - 1 ≤ x'.keys.length := hrk ▸ hle
    refine ⟨shaped_fill_iff.mpr ⟨(hrim.insert hlen (Nat.le_of_eq hlk.symm) hl m).1, hle', hx'⟩, ?_⟩
    simp only [Frame.fill_keys, Frame.keys_length, List.length_append, List.length_singleton]
    omega

theorem root_stored {z : Ptr} (ht : 2 ≤ t) (hst : Stored t heap (h + 1) c) (hz : heap z = none) :
    Stored t (Function.update heap z (some { btreeCreateNode t false with
      children := some c.name :: List.replicate (2 * t - 1) none })) (h + 2)
      (Frame.fill ⟨z, [], []⟩ c) := by
  refine ⟨⟨_, Function.update_self .., rfl, rfl, ⟨_, rfl, by simp⟩,
    ⟨List.replicate (2 * t - 1) none, by simp, ?_, nofun⟩⟩, fun y hy => ?_⟩
  · simp only [Frame.fill_children, List.map_nil, List.nil_append, List.map_cons, List.length_cons,
      List.length_nil, List.length_replicate]
    omega
  · rcases Frame.mem_children.mp hy with rfl | hy
    · refine hst.frame fun p hp => Function.update_of_ne ?_ _ _
      rintro rfl
      exact hst.ne_none hp hz
    · cases hy

theorem root_nodup {z : Ptr} (hst : Stored t heap (h + 1) c) (hnd : (names (h + 1) c).Nodup)
    (hz : heap z = none) : (names (h + 2) (Frame.fill ⟨z, [], []⟩ c)).Nodup := by
  have hsiblings : (Frame.siblings (⟨z, [], []⟩ : Opened h)).flatMap (names (h + 1)) = [] := rfl
  have hperm := names_fill_perm ⟨z, [], []⟩ c
  rw [hsiblings, List.append_nil] at hperm
  refine hperm.nodup_iff.mpr (List.nodup_cons.mpr ⟨fun hmem => ?_, hnd⟩)
  exact hst.ne_none hmem hz

end LearningCode.Btree
