import LearningCode.Btree.Level

/-!
# A whole deletion

`Deleted` follows `Descends` down to a leaf. The call makes what it says of the
tree in the heap, or fails where some merge on the way does not fit.
-/

namespace LearningCode.Btree

open Blocks Multiway

variable {t h turns : Nat} {k k' : Int} {heap heap' : Heap} {T T' : Btree}
  {c c' : Sub Ptr Int (h + 1)} {pre suf : List Int}

/-- What may be asked of a turn: of the number of keys in the node, of the keys
below the next child, and of the key that is looked for there. -/
abbrev Check := Turn → (keys : Nat) → List Int → Int → Prop

/-- The tree in which `k` is deleted, and the one that comes out, with a check on
every turn. -/
inductive Deleted (P : Check) (t : Nat) :
    (h : Nat) → Int → Sub Ptr Int (h + 1) → Sub Ptr Int (h + 1) → Prop
  | hit {k n pre suf cs} : (∀ j ∈ pre, j < k) →
      Deleted P t 0 k ⟨n, pre ++ k :: suf, cs⟩ ⟨n, pre ++ suf, cs⟩
  | miss {k n pre suf cs} : (∀ j ∈ pre, j < k) → (∀ j ∈ suf.head?, k < j) →
      Deleted P t 0 k ⟨n, pre ++ suf, cs⟩ ⟨n, pre ++ suf, cs⟩
  | down {h k turn f x f' x' k' x''} : Descends t k turn f x f' x' k' →
      P turn f.keys.length (inorder (h + 1) x') k' → Deleted P t h k' x' x'' →
      Deleted P t (h + 1) k (f.fill x) (f'.fill x'')

def Room (t : Nat) : Check := fun turn keys _ _ => Fits t turn keys

-- ---------------------------------------------------------------------------
-- At a leaf
-- ---------------------------------------------------------------------------

theorem deleteStep_hit {n : Ptr} {cs : List (Sub Ptr Int 0)}
    (hst : Stored T.t T.heap 1 ⟨n, pre ++ k :: suf, cs⟩) (hpre : ∀ j ∈ pre, j < k) : ∃ T',
      deleteStep T n k = some (T', none) ∧ T'.t = T.t ∧ (∀ p, p ≠ n → T'.heap p = T.heap p) ∧
      if pre ++ suf = [] then T'.root = none
      else T'.root = T.root ∧ Stored T.t T'.heap 1 ⟨n, pre ++ suf, cs⟩ := by
  obtain ⟨nn, hnode, hn⟩ := hst.leaf
  have hpos := position_holds hn rfl hpre fun j hj => by simp_all
  have hfound : pre.length < nn.num ∧ nn.keys[pre.length]? = some k := by
    refine ⟨?_, hn.key rfl⟩
    rw [hn.num]
    simp
  obtain ⟨keys, keys', hshift, hwrite, hholds⟩ := hn.remove (rfl : pre.length = _)
  have hnum : nn.num - 1 = (pre ++ suf).length := hholds.num
  simp only at hnode
  simp only [deleteStep, hnode, hpos, Option.bind_eq_bind, Option.bind_some, if_pos hfound,
    hn.isLeaf, if_true, removeFromLeaf, hshift, hwrite]
  by_cases hnil : pre ++ suf = []
  · have hzero : nn.num - 1 = 0 := by rw [hnum, hnil, List.length_nil]
    simp only [if_pos hzero, if_pos hnil]
    refine ⟨_, rfl, rfl, ?_, rfl⟩
    intro p hp
    simp [hp]
  · have hzero : nn.num - 1 ≠ 0 := by
      rw [hnum]
      simpa [List.length_eq_zero_iff] using hnil
    simp only [if_neg hzero, if_neg hnil]
    refine ⟨_, rfl, rfl, ?_, rfl, stored_leaf (by simp) (hn.isLeaf ▸ hholds)⟩
    intro p hp
    simp [hp]

theorem deleteStep_miss {n : Ptr} {cs : List (Sub Ptr Int 0)} (ht : 2 ≤ T.t)
    (hst : Stored T.t T.heap 1 ⟨n, pre ++ suf, cs⟩) (hpre : ∀ j ∈ pre, j < k)
    (hsuf : ∀ j ∈ suf.head?, k < j) : deleteStep T n k = some (T, none) := by
  obtain ⟨nn, hnode, hn⟩ := hst.leaf
  have hpos := position_holds hn rfl hpre fun j hj => Int.le_of_lt (hsuf j hj)
  have hmissed : ¬ (pre.length < nn.num ∧ nn.keys[pre.length]? = some k) := by
    rintro ⟨hlt, hread⟩
    cases suf with
    | nil =>
      rw [hn.num] at hlt
      simp at hlt
    | cons j suf =>
      have hread' : nn.keys[pre.length]? = some j := hn.key rfl
      cases hread.symm.trans hread'
      exact Int.lt_irrefl _ (hsuf _ rfl)
  have hle := hn.num_le
  have hchild : nn.children[pre.length]? = some none := by
    refine hn.noChild ?_
    simp only [List.length_append] at hle
    omega
  simp only at hnode
  simp only [deleteStep, hnode, hpos, hchild, Option.bind_eq_bind, Option.bind_some,
    if_neg hmissed]

-- ---------------------------------------------------------------------------
-- From the root of a subtree down
-- ---------------------------------------------------------------------------

/-- The heap holds one tree in place of another, under the same name. -/
structure Replaced (T T' : Btree) (c c' : Sub Ptr Int (h + 1)) : Prop where
  degree : T'.t = T.t
  root : T'.root = T.root
  same : ∀ p, p ∉ names (h + 1) c → T'.heap p = T.heap p
  name : c'.name = c.name
  stored : Stored T.t T'.heap (h + 1) c'
  names : (names (h + 1) c').Subperm (names (h + 1) c)

theorem nodup_of_subperm {α : Type} {l m : List α} (h : l.Subperm m) (hm : m.Nodup) : l.Nodup := by
  obtain ⟨l', hperm, hsub⟩ := h
  exact hperm.nodup_iff.mp (hm.sublist hsub)

theorem names_fill_mono {f : Opened h} (hc : (names (h + 1) c').Subperm (names (h + 1) c)) :
    (names (h + 2) (f.fill c')).Subperm (names (h + 2) (f.fill c)) := by
  refine (names_fill_perm f c').subperm.trans (List.Subperm.trans ?_ (names_fill_perm f c).symm.subperm)
  exact (List.subperm_cons _).mpr ((List.subperm_append_right _).mpr hc)

theorem Stored.replace {f : Opened h} (hst : Stored t heap (h + 2) (f.fill c))
    (hnd : (names (h + 2) (f.fill c)).Nodup)
    (hsame : ∀ p, p ∉ names (h + 1) c → heap' p = heap p) (hname : c'.name = c.name)
    (hc' : Stored t heap' (h + 1) c') : Stored t heap' (h + 2) (f.fill c') := by
  have hnd := (names_fill_perm f c).nodup_iff.mp hnd
  obtain ⟨hn, hrest⟩ := List.nodup_cons.mp hnd
  have hdisjoint := (List.nodup_append.mp hrest).2.2
  obtain ⟨⟨n, hnode, hholds⟩, hchildren⟩ := stored_succ.mp hst
  refine ⟨⟨n, ?_, ?_⟩, fun y hy => ?_⟩
  · exact (hsame f.name fun hmem => hn (List.mem_append_left _ hmem)).trans hnode
  · simpa [hname] using hholds
  · rcases Frame.mem_children.mp hy with rfl | hy
    · exact hc'
    · refine (hchildren y (Frame.mem_children.mpr (.inr hy))).frame fun p hp => hsame p fun hmem => ?_
      exact hdisjoint p hmem p (List.mem_flatMap.mpr ⟨y, hy, hp⟩) rfl

theorem Lands.same_outside {T₁ : Btree} {f f' : Opened h} {x x' x'' : Sub Ptr Int (h + 1)}
    (hlands : Lands T T₁ f x f' x') (hbelow : Replaced T₁ T' x' x'')
    (hnames : (names (h + 2) (f'.fill x')).Subperm (names (h + 2) (f.fill x))) {p : Ptr}
    (hp : p ∉ names (h + 2) (f.fill x)) : T'.heap p = T.heap p := by
  refine (hbelow.same p fun hmem => hp ?_).trans (hlands.same p hp)
  refine hnames.subset ((names_fill_perm f' x').mem_iff.mpr ?_)
  exact List.mem_cons_of_mem _ (List.mem_append_left _ hmem)

theorem Lands.replaced {T₁ : Btree} {f f' : Opened h} {x x' x'' : Sub Ptr Int (h + 1)}
    (hlands : Lands T T₁ f x f' x') (hbelow : Replaced T₁ T' x' x'') (hname : f'.name = f.name)
    (hnames : (names (h + 2) (f'.fill x')).Subperm (names (h + 2) (f.fill x)))
    (hnd : (names (h + 2) (f.fill x)).Nodup) (hkeys : f'.keys ≠ []) :
    Replaced T T' (f.fill x) (f'.fill x'') := by
  have hnode := hlands.node
  rw [if_neg hkeys] at hnode
  have hnd' := nodup_of_subperm hnames hnd
  refine ⟨hbelow.degree.trans hlands.degree, hbelow.root.trans hnode.1,
    fun p hp => hlands.same_outside hbelow hnames hp, hname, ?_, ?_⟩
  · refine hnode.2.replace hnd' hbelow.same hbelow.name ?_
    rw [← hlands.degree]
    exact hbelow.stored
  · exact (names_fill_mono hbelow.names).trans hnames

theorem Descends.name {turn : Turn} {t : Nat} {f f' : Opened h} {x x' : Sub Ptr Int (h + 1)}
    (hd : Descends t k turn f x f' x' k') : f'.name = f.name := by cases hd <;> rfl

theorem btreeDeleteKey_done {node : Ptr} {T₁ : Btree} (hstep : deleteStep T node k = some (T₁, none)) :
    btreeDeleteKey (turns + 1) T (some node) k = some T₁ := by
  simp only [btreeDeleteKey, hstep, Option.bind_eq_bind, Option.bind_some]

theorem btreeDeleteKey_next {node node' : Ptr} {T₁ : Btree}
    (hstep : deleteStep T node k = some (T₁, some (some node', k'))) :
    btreeDeleteKey (turns + 1) T (some node) k = btreeDeleteKey turns T₁ (some node') k' := by
  simp only [btreeDeleteKey, hstep, Option.bind_eq_bind, Option.bind_some]

theorem replaced_leaf {n : Ptr} {ks ks' : List Int} {cs : List (Sub Ptr Int 0)}
    (hdegree : T'.t = T.t) (hroot : T'.root = T.root) (hsame : ∀ p, p ≠ n → T'.heap p = T.heap p)
    (hst : Stored T.t T'.heap 1 ⟨n, ks', cs⟩) : Replaced (h := 0) T T' ⟨n, ks, cs⟩ ⟨n, ks', cs⟩ :=
  ⟨hdegree, hroot, fun p hp => hsame p fun h => hp (h ▸ List.mem_cons_self), rfl, hst, .refl _⟩

theorem Descends.onward {turn : Turn} {f f' : Opened h} {x x' : Sub Ptr Int (h + 1)} {T₁ : Btree}
    (hd : Descends T.t k turn f x f' x' k') (ht : 2 ≤ T.t)
    (hnd : (names (h + 2) (f.fill x)).Nodup)
    (hc : Shaped (T.t - 1) (2 * T.t - 1) (h + 2) (f.fill x)) (hlands : Lands T T₁ f x f' x') :
    Stored T₁.t T₁.heap (h + 1) x' ∧ (names (h + 1) x').Nodup ∧
      Shaped (T₁.t - 1) (2 * T₁.t - 1) (h + 1) x' ∧ T₁.t ≤ x'.keys.length := by
  obtain ⟨-, hlen, hx'⟩ := hd.shaped ht hc
  rw [hlands.degree]
  refine ⟨hlands.child, ?_, hx', hlen⟩
  have hnd' := (names_fill_perm f' x').nodup_iff.mp (nodup_of_subperm hd.names_subperm hnd)
  exact (List.nodup_append.mp (List.nodup_cons.mp hnd').2).1

theorem Descends.keys_ne_nil {turn : Turn} {t : Nat} {f f' : Opened h} {x x' : Sub Ptr Int (h + 1)}
    (hd : Descends t k turn f x f' x' k') (ht : 2 ≤ t) (hlen : t ≤ f.keys.length) :
    f'.keys ≠ [] := by
  have hlength := hd.keys_length
  refine List.ne_nil_of_length_pos ?_
  split at hlength <;> omega

theorem Deleted.runs (hd : Deleted (Room t) t h k c c') (hT : T.t = t) (ht : 2 ≤ t)
    (hst : Stored t T.heap (h + 1) c) (hnd : (names (h + 1) c).Nodup)
    (hc : Shaped (t - 1) (2 * t - 1) (h + 1) c) (hlen : t ≤ c.keys.length) (hturns : h < turns) :
    ∃ T', btreeDeleteKey turns T (some c.name) k = some T' ∧ Replaced T T' c c' := by
  obtain ⟨turns, rfl⟩ : ∃ m, turns = m + 1 := ⟨turns - 1, by omega⟩
  induction hd generalizing T turns with
  | @hit k n pre suf cs hpre =>
    subst hT
    obtain ⟨T', hstep, hdegree, hsame, hroot⟩ := deleteStep_hit hst hpre
    have hne : pre ++ suf ≠ [] := by
      rintro hnil
      have hzero := congrArg List.length hnil
      simp only [List.length_append, List.length_cons, List.length_nil] at hzero hlen
      omega
    rw [if_neg hne] at hroot
    exact ⟨T', btreeDeleteKey_done hstep, replaced_leaf hdegree hroot.1 hsame hroot.2⟩
  | miss hpre hsuf =>
    subst hT
    exact ⟨T, btreeDeleteKey_done (deleteStep_miss ht hst hpre hsuf),
      replaced_leaf rfl rfl (fun _ _ => rfl) hst⟩
  | @down h k turn f x f' x' k' x'' hd hroom hrest ih =>
    subst hT
    have hstep := deleteStep_spec ht hd hst hnd hc (by simp only [Frame.fill_keys] at hlen; omega)
    have hfits : Fits T.t turn f.keys.length := hroom
    rw [if_pos hfits] at hstep
    obtain ⟨T₁, hstep, hlands⟩ := hstep
    obtain ⟨hst₁, hnd₁, hc₁, hlen₁⟩ := hd.onward ht hnd hc hlands
    obtain ⟨turns, rfl⟩ : ∃ m, turns = m + 1 := ⟨turns - 1, by omega⟩
    rw [hlands.degree] at hst₁ hc₁ hlen₁
    obtain ⟨T', hcall, hbelow⟩ := ih hlands.degree hst₁ hnd₁ hc₁ hlen₁ turns (by omega)
    refine ⟨T', (btreeDeleteKey_next hstep).trans hcall, ?_⟩
    exact hlands.replaced hbelow hd.name hd.names_subperm hnd (hd.keys_ne_nil ht hlen)

theorem exists_deleted_leaf (P : Check) (t : Nat) (k : Int) (c : Sub Ptr Int 1) :
    ∃ c', Deleted P t 0 k c c' := by
  obtain ⟨n, ks, cs⟩ := c
  obtain ⟨pre, suf, rfl, hpre, hsuf⟩ := exists_position k ks
  by_cases hfound : ∃ rest, suf = k :: rest
  · obtain ⟨rest, rfl⟩ := hfound
    exact ⟨_, .hit hpre⟩
  · refine ⟨_, .miss hpre fun j hj => ?_⟩
    obtain ⟨rest, rfl⟩ := List.head?_eq_some_iff.mp hj
    have hne : j ≠ k := by
      rintro rfl
      exact hfound ⟨rest, rfl⟩
    have hle : k ≤ j := hsuf j hj
    omega

theorem descends_of_call {c : Sub Ptr Int (h + 2)} (ht : 2 ≤ T.t)
    (hst : Stored T.t T.heap (h + 2) c) (hnd : (names (h + 2) c).Nodup)
    (hc : Shaped (T.t - 1) (2 * T.t - 1) (h + 2) c) (hpos : 0 < c.keys.length)
    (hcall : btreeDeleteKey (turns + 1) T (some c.name) k = some T') :
    ∃ turn f x f' x' k' T₁, c = Frame.fill f x ∧ Descends T.t k turn f x f' x' k' ∧
      Fits T.t turn f.keys.length ∧ Lands T T₁ f x f' x' ∧
      btreeDeleteKey turns T₁ (some x'.name) k' = some T' := by
  obtain ⟨turn, f, x, f', x', k', rfl, hd⟩ := exists_descends ht hc hpos k
  have hstep := deleteStep_spec ht hd hst hnd hc hpos
  by_cases hfits : Fits T.t turn f.keys.length
  · rw [if_pos hfits] at hstep
    obtain ⟨T₁, hstep, hlands⟩ := hstep
    rw [Frame.fill_name, btreeDeleteKey_next hstep] at hcall
    exact ⟨turn, f, x, f', x', k', T₁, rfl, hd, hfits, hlands, hcall⟩
  · rw [if_neg hfits] at hstep
    simp only [btreeDeleteKey, Frame.fill_name, hstep, Option.bind_eq_bind,
      Option.bind_none] at hcall
    cases hcall

/-- And where it has a result, it went all the way. -/
theorem deleted_of_call (ht : 2 ≤ T.t) (hst : Stored T.t T.heap (h + 1) c)
    (hnd : (names (h + 1) c).Nodup) (hc : Shaped (T.t - 1) (2 * T.t - 1) (h + 1) c)
    (hlen : T.t ≤ c.keys.length) (hcall : btreeDeleteKey turns T (some c.name) k = some T') :
    ∃ c', Deleted (Room T.t) T.t h k c c' ∧ Replaced T T' c c' := by
  induction h generalizing T k turns with
  | zero =>
    obtain ⟨c', hd⟩ := exists_deleted_leaf (Room T.t) T.t k c
    cases turns with
    | zero => cases hcall
    | succ turns =>
      obtain ⟨T'', hcall', hreplaced⟩ := hd.runs rfl ht hst hnd hc hlen (Nat.succ_pos turns)
      cases hcall.symm.trans hcall'
      exact ⟨c', hd, hreplaced⟩
  | succ h ih =>
    have hpos : 0 < c.keys.length := by omega
    cases turns with
    | zero => cases hcall
    | succ turns =>
      obtain ⟨turn, f, x, f', x', k', T₁, rfl, hd, hfits, hlands, hcall⟩ :=
        descends_of_call ht hst hnd hc hpos hcall
      obtain ⟨hst₁, hnd₁, hc₁, hlen₁⟩ := hd.onward ht hnd hc hlands
      obtain ⟨x'', hrest, hbelow⟩ := ih (hlands.degree ▸ ht) hst₁ hnd₁ hc₁ hlen₁ hcall
      rw [hlands.degree] at hrest
      refine ⟨f'.fill x'', .down hd hfits hrest, ?_⟩
      exact hlands.replaced hbelow hd.name hd.names_subperm hnd (hd.keys_ne_nil ht hlen)

-- ---------------------------------------------------------------------------
-- From the root down
-- ---------------------------------------------------------------------------

structure Tree (T : Btree) (h : Nat) (c : Sub Ptr Int (h + 1)) : Prop where
  root : T.root = some c.name
  stored : Stored T.t T.heap (h + 1) c
  names : (names (h + 1) c).Nodup
  shaped : Shaped (T.t - 1) (2 * T.t - 1) (h + 1) c
  keys : 0 < h → 0 < c.keys.length

def Leaves (T : Btree) (ks : List Int) : Prop :=
  (T.root = none ∧ ks = []) ∨ ∃ h c, Tree T h c ∧ inorder (h + 1) c = ks

theorem inorder_leaf (c : Sub Ptr Int 1) : inorder 1 c = c.keys := by
  simp [inorder, Sub.eq_nil c.children, weave]

theorem Deleted.shaped {P : Check} (hd : Deleted P t h k c c') (ht : 2 ≤ t)
    (hc : Shaped (t - 1) (2 * t - 1) (h + 1) c) (hlen : t ≤ c.keys.length) :
    Shaped (t - 1) (2 * t - 1) (h + 1) c' ∧ t - 1 ≤ c'.keys.length := by
  induction hd with
  | hit =>
    obtain ⟨hfull, -, -⟩ := hc
    simp only [List.length_append, List.length_cons] at hfull hlen
    refine ⟨⟨?_, nofun, fun y _ => nomatch y⟩, ?_⟩
    · simp only [List.length_append]
      omega
    · simp only [List.length_append]
      omega
  | miss => exact ⟨hc, by omega⟩
  | @down h k turn f x f' x' k' x'' hd _ _ ih =>
    obtain ⟨hrim, hlen', hx'⟩ := hd.shaped ht hc
    obtain ⟨hx'', hlow⟩ := ih hx' hlen'
    refine ⟨shaped_fill_iff.mpr ⟨hrim, hlow, hx''⟩, ?_⟩
    have hlength := hd.keys_length
    simp only [Frame.fill_keys] at hlen ⊢
    split at hlength <;> omega

/-- What is below the next child is replaced; a root without keys gives way to it. -/
theorem Lands.leaves {T₁ : Btree} {turn : Turn} {f f' : Opened h} {x x' x'' : Sub Ptr Int (h + 1)}
    (ht : 2 ≤ T.t) (htree : Tree T (h + 1) (f.fill x)) (hd : Descends T.t k turn f x f' x' k')
    (hlands : Lands T T₁ f x f' x') (hbelow : Replaced T₁ T' x' x'')
    (hx'' : Shaped (T.t - 1) (2 * T.t - 1) (h + 1) x'' ∧ T.t - 1 ≤ x''.keys.length) :
    Leaves T' (inorder (h + 2) (f'.fill x'')) := by
  have hdegree : T'.t = T.t := hbelow.degree.trans hlands.degree
  obtain ⟨hrim, -, -⟩ := hd.shaped ht htree.shaped
  by_cases hkeys : f'.keys = []
  · have hnode := hlands.node
    rw [if_pos hkeys] at hnode
    obtain ⟨-, hnd₁, -, -⟩ := hd.onward ht htree.names htree.shaped hlands
    refine .inr ⟨h, x'', ⟨?_, ?_, ?_, ?_, ?_⟩, ?_⟩
    · rw [hbelow.root, hnode.1, hbelow.name]
    · rw [hbelow.degree]
      exact hbelow.stored
    · exact nodup_of_subperm hbelow.names hnd₁
    · rw [hdegree]
      exact hx''.1
    · intro _
      omega
    · obtain ⟨n, b, a⟩ := f'
      obtain ⟨hb, ha⟩ := List.append_eq_nil_iff.mp hkeys
      obtain rfl : b = [] := List.map_eq_nil_iff.mp hb
      obtain rfl : a = [] := List.map_eq_nil_iff.mp ha
      rw [inorder_fill]
      simp [Frame.lead, Frame.trail]
  · have hreplaced := hlands.replaced hbelow hd.name hd.names_subperm htree.names hkeys
    refine .inr ⟨h + 1, f'.fill x'', ⟨?_, ?_, ?_, ?_, ?_⟩, rfl⟩
    · rw [hreplaced.root, htree.root, hreplaced.name]
    · rw [hdegree]
      exact hreplaced.stored
    · exact nodup_of_subperm hreplaced.names htree.names
    · rw [hdegree]
      exact shaped_fill_iff.mpr ⟨hrim, hx''.2, hx''.1⟩
    · exact fun _ => List.length_pos_iff.mpr hkeys

theorem Tree.delete_leaf {c c' : Sub Ptr Int 1} (htree : Tree T 0 c) (ht : 2 ≤ T.t)
    (hd : Deleted (Room T.t) T.t 0 k c c') : ∃ T',
      btreeDeleteKey (turns + 1) T (some c.name) k = some T' ∧ T'.t = T.t ∧
        (∀ p, p ∉ Multiway.names 1 c → T'.heap p = T.heap p) ∧ Leaves T' (inorder 1 c') := by
  cases hd with
  | @hit _ n pre suf cs hpre =>
    obtain ⟨T', hstep, hdegree, hsame, hroot⟩ := deleteStep_hit htree.stored hpre
    refine ⟨T', btreeDeleteKey_done hstep, hdegree,
      fun p hp => hsame p fun h => hp (h ▸ List.mem_cons_self), ?_⟩
    by_cases hnil : pre ++ suf = []
    · rw [if_pos hnil] at hroot
      exact .inl ⟨hroot, (inorder_leaf _).trans hnil⟩
    · rw [if_neg hnil] at hroot
      obtain ⟨hfull, -⟩ := htree.shaped
      refine .inr ⟨0, ⟨n, pre ++ suf, cs⟩, ⟨hroot.1.trans htree.root, ?_, ?_, ?_, nofun⟩, rfl⟩
      · rw [hdegree]
        exact hroot.2
      · exact htree.names
      · rw [hdegree]
        refine ⟨?_, nofun, fun y _ => nomatch y⟩
        simp only [List.length_append, List.length_cons] at hfull ⊢
        omega
  | miss hpre hsuf =>
    exact ⟨T, btreeDeleteKey_done (deleteStep_miss ht htree.stored hpre hsuf), rfl,
      fun _ _ => rfl, .inr ⟨0, _, htree, rfl⟩⟩

theorem Tree.delete_runs (htree : Tree T h c) (ht : 2 ≤ T.t)
    (hd : Deleted (Room T.t) T.t h k c c') (hturns : h < turns) : ∃ T',
      btreeDelete turns T k = some (T', 0) ∧ T'.t = T.t ∧
        (∀ p, p ∉ Multiway.names (h + 1) c → T'.heap p = T.heap p) ∧ Leaves T' (inorder (h + 1) c') := by
  suffices hkey : ∃ T', btreeDeleteKey turns T (some c.name) k = some T' ∧ T'.t = T.t ∧
      (∀ p, p ∉ Multiway.names (h + 1) c → T'.heap p = T.heap p) ∧ Leaves T' (inorder (h + 1) c') by
    obtain ⟨T', hcall, hrest⟩ := hkey
    refine ⟨T', ?_, hrest⟩
    simp only [btreeDelete, htree.root, hcall, Option.map_some]
  obtain ⟨turns, rfl⟩ : ∃ m, turns = m + 1 := ⟨turns - 1, by omega⟩
  cases h with
  | zero => exact htree.delete_leaf ht hd
  | succ h =>
    cases hd with
    | @down _ _ turn f x f' x' k' x'' hd hroom hrest =>
      have hfits : Fits T.t turn f.keys.length := hroom
      have hstep := deleteStep_spec ht hd htree.stored htree.names htree.shaped
        (htree.keys (Nat.succ_pos h))
      rw [if_pos hfits] at hstep
      obtain ⟨T₁, hstep, hlands⟩ := hstep
      obtain ⟨hst₁, hnd₁, hc₁, hlen₁⟩ := hd.onward ht htree.names htree.shaped hlands
      rw [hlands.degree] at hst₁ hc₁ hlen₁
      obtain ⟨T', hcall, hbelow⟩ := hrest.runs hlands.degree ht hst₁ hnd₁ hc₁ hlen₁
        (Nat.lt_of_succ_lt_succ hturns)
      exact ⟨T', (btreeDeleteKey_next hstep).trans hcall, hbelow.degree.trans hlands.degree,
        fun p hp => hlands.same_outside hbelow hd.names_subperm hp,
        hlands.leaves ht htree hd hbelow (hrest.shaped ht hc₁ hlen₁)⟩

theorem Tree.deleted_of_call {r : Int} (htree : Tree T h c) (ht : 2 ≤ T.t)
    (hcall : btreeDelete turns T k = some (T', r)) : ∃ c', Deleted (Room T.t) T.t h k c c' ∧
      Leaves T' (inorder (h + 1) c') := by
  simp only [btreeDelete, htree.root, Option.map_eq_some_iff, Prod.mk.injEq] at hcall
  obtain ⟨_, hcall, rfl, -⟩ := hcall
  cases turns with
  | zero => cases hcall
  | succ turns =>
    cases h with
    | zero =>
      obtain ⟨c', hd⟩ := exists_deleted_leaf (Room T.t) T.t k c
      obtain ⟨T'', hcall', -, -, hleaves⟩ := htree.delete_leaf ht hd
      cases hcall.symm.trans hcall'
      exact ⟨c', hd, hleaves⟩
    | succ h =>
      obtain ⟨turn, f, x, f', x', k', T₁, rfl, hd, hfits, hlands, hcall⟩ := descends_of_call ht
        htree.stored htree.names htree.shaped (htree.keys (Nat.succ_pos h)) hcall
      obtain ⟨hst₁, hnd₁, hc₁, hlen₁⟩ := hd.onward ht htree.names htree.shaped hlands
      obtain ⟨x'', hrest, hbelow⟩ :=
        Btree.deleted_of_call (hlands.degree ▸ ht) hst₁ hnd₁ hc₁ hlen₁ hcall
      rw [hlands.degree] at hrest hc₁ hlen₁
      exact ⟨f'.fill x'', .down hd hfits hrest,
        hlands.leaves ht htree hd hbelow (hrest.shaped ht hc₁ hlen₁)⟩

end LearningCode.Btree
