import LearningCode.RbTree.Runs

/-!
# The red-black tree as a finite map

Beside a run goes a record of the calls: the value first inserted for each key
since its last deletion. Searching shows this record, and no node is lost.
-/

namespace LearningCode.RbTree

open RedBlack RedBlack.Context

variable {T T' : Rbtree} {b z : Binding} {t : ColoredTree Binding} {ctx : Context Binding}
  {bs bs' : List Binding} {p y v : Ptr} {k : Int} {op : Op}

abbrev Record := Int → Option Ptr

variable {m : Record}

def record (T : Rbtree) (m : Record) : Op → Record
  | .write _ _ => m
  | .insert z =>
    match m (T.mem z).key with
    | none => Function.update m (T.mem z).key (some (T.mem z).value)
    | some _ => m
  | .delete z => Function.update m (T.mem z).key none

def recorded : Transition (Rbtree × Record) Op where
  init s := calls.init s.1 ∧ s.2 = fun _ => none
  step s op s' := calls.step s.1 op s'.1 ∧ s'.2 = record s.1 s.2 op

def Finds (T : Rbtree) (m : Record) (k : Int) (p : Ptr) : Prop :=
  match m k with
  | none => p = T.nil
  | some v => Linked T p ∧ (T.mem p).key = k ∧ (T.mem p).value = v

def Shows (T : Rbtree) (m : Record) : Prop :=
  ∀ k, ∃ p, Returns (rbtreeSearch · T k) p ∧ Finds T m k p

-- ---------------------------------------------------------------------------
-- Searching
-- ---------------------------------------------------------------------------

theorem searchFrom_spec (ht : At T ctx t) (hs : Sorted t.inorder) (k : Int) :
    ∃ p, Returns (searchFrom T k · (top T.nil t)) p ∧
      ((∃ b ∈ t.inorder, b.key = k ∧ b.ptr = p) ∨ (k ∉ keys t.inorder ∧ p = T.nil)) := by
  induction t generalizing ctx with
  | leaf =>
    refine ⟨T.nil, .last fun turns => ?_, .inr ⟨List.not_mem_nil, rfl⟩⟩
    rw [searchFrom, top, if_neg fun h => h rfl]
  | node c b l r ihl ihr =>
    have ht : At T ctx (.join .left c b l r) := ht
    have hkey : (T.mem b.ptr).key = b.key := by rw [ht.cell, key_cell]
    obtain ⟨hsl, hsr, -⟩ := sorted_node.mp hs
    obtain hlt | rfl | hgt := Int.lt_trichotomy k b.key
    · obtain ⟨p, hret, hp⟩ := ihl ht.into hsl
      refine ⟨p, hret.turn fun turns => ?_, ?_⟩
      · rw [top, searchFrom, if_pos ht.ne_nil, hkey, if_pos hlt, Rbtree.child, ht.cell, child_cell]
      · refine hp.imp ?_ (And.imp_left fun h hk => h ((mem_keys_left hs hlt).mp hk))
        rintro ⟨a, ha, hak⟩
        exact ⟨a, List.mem_append_left _ ha, hak⟩
    · refine ⟨b.ptr, .last fun turns => ?_, .inl ⟨b, by simp [ColoredTree.inorder], rfl, rfl⟩⟩
      rw [top, searchFrom, if_pos ht.ne_nil, hkey, if_neg (Int.lt_irrefl _),
        if_neg (Int.lt_irrefl _)]
    · obtain ⟨p, hret, hp⟩ := ihr ht.into_flip hsr
      refine ⟨p, hret.turn fun turns => ?_, ?_⟩
      · rw [top, searchFrom, if_pos ht.ne_nil, hkey, if_neg (Int.lt_asymm hgt), if_pos hgt,
          Rbtree.child, ht.cell]
        rfl
      · refine hp.imp ?_ (And.imp_left fun h hk => h ((mem_keys_right hs hgt).mp hk))
        rintro ⟨a, ha, hak⟩
        exact ⟨a, List.mem_append_right _ (List.mem_cons_of_mem b ha), hak⟩

-- ---------------------------------------------------------------------------
-- The record and the bindings
-- ---------------------------------------------------------------------------

def Represents (m : Record) (bs : List Binding) : Prop :=
  ∀ k v, m k = some v ↔ ∃ b ∈ bs, b.key = k ∧ b.value = v

theorem Represents.eq_none_iff (hm : Represents m bs) : m k = none ↔ k ∉ keys bs := by
  rw [Option.eq_none_iff_forall_ne_some]
  constructor
  · rintro h hk
    obtain ⟨b, hb, rfl⟩ := List.mem_map.mp hk
    exact h b.value ((hm _ _).mpr ⟨b, hb, rfl, rfl⟩)
  · rintro h v hv
    obtain ⟨b, hb, rfl, -⟩ := (hm _ _).mp hv
    exact h (List.mem_map_of_mem hb)

theorem Represents.insert {pre suf : List Binding} (hm : Represents m (pre ++ suf))
    (hk : b.key ∉ keys (pre ++ suf)) :
    Represents (Function.update m b.key (some b.value)) (pre ++ b :: suf) := by
  intro k v
  by_cases h : k = b.key
  · subst h
    rw [Function.update_self]
    constructor
    · rintro ⟨⟩
      exact ⟨b, by simp, rfl, rfl⟩
    · rintro ⟨a, ha, hak, rfl⟩
      obtain rfl | ha := (List.mem_cons.mp (List.perm_middle.mem_iff.mp ha))
      · rfl
      · exact absurd (hak ▸ List.mem_map_of_mem ha) hk
  · rw [Function.update_of_ne h, hm k v]
    constructor
    · rintro ⟨a, ha, hak⟩
      exact ⟨a, List.perm_middle.mem_iff.mpr (List.mem_cons_of_mem b ha), hak⟩
    · rintro ⟨a, ha, rfl, hav⟩
      obtain rfl | ha := (List.mem_cons.mp (List.perm_middle.mem_iff.mp ha))
      · exact absurd rfl h
      · exact ⟨a, ha, rfl, hav⟩

theorem Removed.mem (h : Removed z bs y bs') : z ∈ bs := by
  cases h <;> simp

theorem Removed.ptrs_perm (h : Removed z bs y bs') : (ptrs bs).Perm (y :: ptrs bs') := by
  cases h with
  | self pre suf =>
    simp only [ptrs, List.map_append, List.map_cons]
    exact List.perm_middle
  | next pre suf b =>
    simp only [ptrs, List.map_append, List.map_cons]
    exact ((List.Perm.swap b.ptr z.ptr _).append_left _).trans List.perm_middle

abbrev pairs (bs : List Binding) : List (Int × Ptr) := bs.map fun b => (b.key, b.value)

theorem Removed.pairs_perm (h : Removed z bs y bs') :
    (pairs bs).Perm ((z.key, z.value) :: pairs bs') := by
  cases h with
  | self pre suf =>
    simp only [pairs, List.map_append, List.map_cons]
    exact List.perm_middle
  | next pre suf b =>
    simp only [pairs, List.map_append, List.map_cons]
    exact List.perm_middle

theorem represents_iff : Represents m bs ↔ ∀ k v, m k = some v ↔ (k, v) ∈ pairs bs := by
  simp only [Represents, pairs, List.mem_map, Prod.mk.injEq]

theorem Represents.remove (hm : Represents m bs) (hs : Sorted bs) (h : Removed z bs y bs') :
    Represents (Function.update m z.key none) bs' := by
  rw [represents_iff] at hm ⊢
  have hnodup : (z.key :: keys bs').Nodup := by
    have hperm : (keys bs).Perm (z.key :: keys bs') := by
      simpa only [pairs, keys, List.map_map, List.map_cons, Function.comp_def] using
        h.pairs_perm.map Prod.fst
    exact hperm.nodup_iff.mp ((sorted_iff.mp hs).imp fun hlt => Int.ne_of_lt hlt)
  have hout : ∀ v, (z.key, v) ∉ pairs bs' := fun v hv => by
    obtain ⟨b, hb, heq⟩ := List.mem_map.mp hv
    exact (List.nodup_cons.mp hnodup).1 ((Prod.mk.inj heq).1 ▸ List.mem_map_of_mem hb)
  intro k v
  by_cases hk : k = z.key
  · subst hk
    rw [Function.update_self]
    exact iff_of_false (fun h => (nomatch h)) (hout v)
  · rw [Function.update_of_ne hk, hm, h.pairs_perm.mem_iff, List.mem_cons, Prod.mk.injEq]
    exact or_iff_right fun h => hk h.1

-- ---------------------------------------------------------------------------
-- Runs
-- ---------------------------------------------------------------------------

structure Agrees (s : Rbtree × Record) (t : ColoredTree Binding) : Prop extends RedBlackTree s.1 t where
  sorted : Sorted t.inorder
  represents : Represents s.2 t.inorder

theorem Effect.represents (h : Effect T op bs bs') (hm : Represents m bs) (hs : Sorted bs)
    (hkey : ∀ b ∈ bs, (T.mem b.ptr).key = b.key) : Represents (record T m op) bs' := by
  cases h with
  | write p n => exact hm
  | present z bs hmem =>
    cases hbound : m (T.mem z).key with
    | none => exact absurd hmem (hm.eq_none_iff.mp hbound)
    | some v => simpa only [record, hbound] using hm
  | absent z pre suf hmem =>
    have hbound := hm.eq_none_iff.mpr hmem
    simpa only [record, hbound] using hm.insert (b := ⟨z, (T.mem z).key, (T.mem z).value⟩) hmem
  | delete b bs bs' y hrem =>
    rw [record, hkey b hrem.mem]
    exact hm.remove hs hrem

theorem reach_agrees {s : Rbtree × Record} (h : recorded.Reach Transition.free s) :
    ∃ t, Agrees s t := by
  refine h.invariant (P := fun s => ∃ t, Agrees s t) ?_ ?_
  · rintro ⟨T, m⟩ ⟨hinit, rfl⟩
    exact ⟨.leaf, init_redBlack hinit, List.Pairwise.nil, fun k v => by simp [ColoredTree.inorder]⟩
  · rintro ⟨T, m⟩ op ⟨T', m'⟩ ⟨t, ht, hs, hm⟩ - ⟨⟨hlegal, hcall⟩, rfl⟩
    obtain ⟨T'', t', hcall', ht', hs', heffect⟩ := ht.call hs hlegal
    cases hcall.unique hcall'
    exact ⟨t', ht', hs', heffect.represents hm hs fun b hb => (ht.stored.here.binding hb).1⟩

theorem Agrees.shows (h : Agrees (T, m) t) : Shows T m := by
  intro k
  have ht := h.stored
  obtain ⟨p, hret, hp⟩ := searchFrom_spec ht h.sorted k
  refine ⟨p, ?_, ?_⟩
  · rw [← ht.root_eq] at hret
    exact hret
  · rw [Finds]
    obtain ⟨b, hb, rfl, rfl⟩ | ⟨hk, rfl⟩ := hp
    · have hbound : m b.key = some b.value := (h.represents _ _).mpr ⟨b, hb, rfl, rfl⟩
      rw [hbound]
      exact ⟨ht.linked_iff.mpr (List.mem_map_of_mem hb), ht.here.binding hb⟩
    · have hbound : m k = none := h.represents.eq_none_iff.mpr hk
      rw [hbound]

theorem Agrees.insert_present (h : Agrees (T, m) t) (hl : Legal T (.insert p))
    (hbound : m (T.mem p).key ≠ none) : Returns (rbtreeInsert · T p) T := by
  have hout : p ∉ ptrs t.inorder := fun hp => hl.2 (h.stored.linked_iff.mpr hp)
  obtain ⟨-, hret⟩ | ⟨hk, -⟩ := rbtreeInsert_spec h.toRedBlackTree h.sorted hl.1 hout
  · exact hret
  · exact absurd (h.represents.eq_none_iff.mpr hk) hbound

structure Deleted (T : Rbtree) (m : Record) (z : Ptr) (T' : Rbtree) (y : Ptr) : Prop where
  bound : m (T.mem z).key = some (T.mem z).value
  shows : Shows T' (Function.update m (T.mem z).key none)
  was_linked : Linked T y
  unlinked : ¬Linked T' y
  kept : ∀ p, Linked T p → p ≠ y → ∃! path, follow T' path T'.root = some p

theorem Agrees.delete (h : Agrees (T, m) t) (hl : Linked T p) :
    ∃ T' y, Returns (rbtreeDelete · T p) (T', y) ∧ Deleted T m p T' y := by
  have ht := h.stored
  obtain ⟨b, hb, rfl⟩ := List.mem_map.mp (ht.linked_iff.mp hl)
  obtain ⟨hkey, hvalue⟩ := ht.here.binding hb
  obtain ⟨T', t', y, hret, -, ht', hrem⟩ := rbtreeDelete_spec h.toRedBlackTree hb
  have hstored := ht'.stored
  have hnodup : (y :: ptrs t'.inorder).Nodup := hrem.ptrs_perm.nodup_iff.mp ht.nodup
  have hmem : ∀ q, Linked T q ↔ q ∈ y :: ptrs t'.inorder := fun q => by
    rw [ht.linked_iff]
    exact hrem.ptrs_perm.mem_iff
  refine ⟨T', y, hret, ?_, ?_, (hmem y).mpr List.mem_cons_self, fun hy => ?_, fun q hq hne => ?_⟩
  · rw [hkey, hvalue]
    exact (h.represents _ _).mpr ⟨b, hb, rfl, rfl⟩
  · have h' : Agrees (T', Function.update m b.key none) t' :=
      ⟨ht', hrem.sorted h.sorted, h.represents.remove h.sorted hrem⟩
    rw [hkey]
    exact h'.shows
  · exact (List.nodup_cons.mp hnodup).1 (hstored.linked_iff.mp hy)
  · rw [hstored.root_eq]
    exact hstored.existsUnique_path ((List.mem_cons.mp ((hmem q).mp hq)).resolve_left hne)

/-- After any calls the tree is the map the calls have made. -/
theorem reach_finite_map {s : Rbtree × Record} (h : recorded.Reach Transition.free s) :
    Shows s.1 s.2 ∧
    (∀ z, Legal s.1 (.insert z) → s.2 (s.1.mem z).key ≠ none →
      Returns (rbtreeInsert · s.1 z) s.1) ∧
    ∀ z, Linked s.1 z → ∃ T' y, Returns (rbtreeDelete · s.1 z) (T', y) ∧
      Deleted s.1 s.2 z T' y := by
  obtain ⟨t, h⟩ := reach_agrees h
  exact ⟨h.shows, fun z hl hbound => h.insert_present hl hbound, fun z hl => h.delete hl⟩

/-- One node in the tree, and another of the same key outside. -/
theorem reach_finite_map_one : ∃ s, recorded.Reach Transition.free s ∧ s.2 1 = some 11 ∧
    Shows s.1 s.2 ∧ Returns (rbtreeInsert · s.1 2) s.1 ∧
    ∃ T' y, Returns (rbtreeDelete · s.1 1) (T', y) ∧ Deleted s.1 s.2 1 T' y := by
  let T₀ : Rbtree := ⟨fun p => ⟨.black, 7, 7, 7, 1, p + 10⟩, 0, 0⟩
  let m₀ : Record := fun _ => none
  obtain ⟨T₁, hone, htree, hnil, hkey, hlinked⟩ : ∃ T₁, (∀ k, rbtreeInsert (k + 8) T₀ 1 = some T₁) ∧
      At T₁ [] (.node .black ⟨1, 1, 11⟩ .leaf .leaf) ∧ T₁.nil = 0 ∧ (T₁.mem 2).key = 1 ∧
      follow T₁ [] T₁.root = some 1 :=
    ⟨_, fun _ => rfl, ⟨⟨⟨Nat.one_ne_zero, rfl⟩, trivial, trivial⟩, rfl, by decide⟩, rfl, rfl, rfl⟩
  have hinit : calls.init T₀ := ⟨rfl, rfl⟩
  have hrun : recorded.Reach Transition.free (T₁, record T₀ m₀ (.insert 1)) :=
    .step (i := .insert 1) (t := (T₀, m₀)) (.init ⟨hinit, rfl⟩) trivial
      ⟨⟨⟨Nat.one_ne_zero, fun h => List.not_mem_nil ((init_redBlack hinit).stored.linked_iff.mp h)⟩,
        .of_add 8 hone⟩, rfl⟩
  obtain ⟨hshows, hinsert, hdelete⟩ := reach_finite_map hrun
  refine ⟨_, hrun, rfl, hshows, hinsert 2 ⟨?_, fun h => ?_⟩ ?_, hdelete 1 ⟨[], hlinked⟩⟩
  · rw [hnil]
    decide
  · exact absurd (htree.linked_iff.mp h) (by decide)
  · rw [hkey]
    exact fun h => (nomatch h)

end LearningCode.RbTree
