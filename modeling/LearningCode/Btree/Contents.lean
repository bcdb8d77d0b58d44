import LearningCode.Btree.Delete

/-!
# The keys a deletion leaves

A turn is read in order: what the keys of the node are, those below the next
child among them, and what they become when these change. A key that is lent by
an internal child is taken from the child itself and not from below it, so it
need not be next to the one it replaces.
-/

namespace LearningCode.Btree

open Multiway Multiway.Frame

abbrev Ordered (l : List Int) : Prop := l.Pairwise (· ≤ ·)

/-- A turn as it looks in order, with `X` below the next child. -/
inductive Moves : Turn → Int → Int → (old X : List Int) → (new : List Int → List Int) → Prop
  | keep {turn k} {L X R : List Int} : (k ∈ L ++ (X ++ R) → k ∈ X) → turn ≠ .lendLeft → turn ≠ .lendRight →
      Moves turn k k (L ++ (X ++ R)) X fun Y => L ++ (Y ++ R)
  | lendLeft {k k'} {L X R : List Int} : k' ∈ X →
      Moves .lendLeft k k' (L ++ (X ++ k :: R)) X fun Y => L ++ (Y ++ k' :: R)
  | lendRight {k k'} {L X R : List Int} : k' ∈ X →
      Moves .lendRight k k' (L ++ k :: (X ++ R)) X fun Y => L ++ k' :: (Y ++ R)

variable {t h : Nat} {k k' : Int} {turn : Turn} {old X Y : List Int}
  {new : List Int → List Int}

/-- The key that is lent is next to the one it replaces. -/
def Lends : Turn → (below : List Int) → Int → Prop
  | .lendLeft, X, k' => X.getLast? = some k'
  | .lendRight, X, k' => X.head? = some k'
  | _, _, _ => True

instance (turn : Turn) (X : List Int) (k' : Int) : Decidable (Lends turn X k') := by
  cases turn <;> unfold Lends <;> infer_instance

theorem erase_perm_of_perm_cons {l m : List Int} (h : l.Perm (k :: m)) : (l.erase k).Perm m := by
  have herase := h.erase k
  rwa [List.erase_cons_head] at herase

theorem perm_cons_of_perm_erase (hmem : k ∈ X) (hY : Y.Perm (X.erase k)) : X.Perm (k :: Y) :=
  (List.perm_cons_erase hmem).trans (hY.symm.cons k)

/-- The last key is the largest one. -/
theorem getLast?_eq_some_iff_max (hX : Ordered X) :
    X.getLast? = some k' ↔ k' ∈ X ∧ ∀ j ∈ X, j ≤ k' := by
  rcases List.eq_nil_or_concat' X with rfl | ⟨Y, m, rfl⟩
  · simp
  · obtain ⟨-, -, hmax⟩ := List.pairwise_append.mp hX
    have hle : ∀ j ∈ Y ++ [m], j ≤ m := by
      intro j hj
      rcases List.mem_append.mp hj with hj | hj
      · exact hmax j hj m (List.mem_singleton_self m)
      · exact Int.le_of_eq (List.mem_singleton.mp hj)
    rw [List.getLast?_concat, Option.some.injEq]
    constructor
    · rintro rfl
      exact ⟨by simp, hle⟩
    · rintro ⟨hmem, hk'⟩
      exact Int.le_antisymm (hk' m (by simp)) (hle k' hmem)

theorem head?_eq_some_iff_min (hX : Ordered X) :
    X.head? = some k' ↔ k' ∈ X ∧ ∀ j ∈ X, k' ≤ j := by
  cases X with
  | nil => simp
  | cons m Y =>
    have hle : ∀ j ∈ m :: Y, m ≤ j := by simpa using (List.pairwise_cons.mp hX).1
    rw [List.head?_cons, Option.some.injEq]
    constructor
    · rintro rfl
      exact ⟨List.mem_cons_self, hle⟩
    · rintro ⟨hmem, hk'⟩
      exact Int.le_antisymm (hle k' hmem) (hk' m List.mem_cons_self)

theorem ordered_ext {l m : List Int} (hl : Ordered l) (hm : Ordered m) (h : l.Perm m) : l = m :=
  h.eq_of_pairwise (fun _ _ _ _ => Int.le_antisymm) hl hm

namespace Moves

theorem below (hm : Moves turn k k' old X new) : X.Sublist old := by
  cases hm with
  | keep => exact (List.sublist_append_left _ _).trans (List.sublist_append_right _ _)
  | lendLeft => exact (List.sublist_append_left _ _).trans (List.sublist_append_right _ _)
  | lendRight =>
    exact ((List.sublist_append_left _ _).cons k).trans (List.sublist_append_right _ _)

theorem perm (hm : Moves turn k k' old X new) (hY : Y.Perm (X.erase k')) :
    (new Y).Perm (old.erase k) := by
  cases hm with
  | @keep _ _ L X R hbelow =>
    by_cases hmem : k ∈ X
    · refine (erase_perm_of_perm_cons ?_).symm
      have hX := perm_cons_of_perm_erase hmem hY
      exact ((hX.append_right R).append_left L).trans List.perm_middle
    · rw [List.erase_of_not_mem (mt hbelow hmem)]
      rw [List.erase_of_not_mem hmem] at hY
      exact (hY.append_right R).append_left L
  | @lendLeft _ _ L X R hmem =>
    refine (erase_perm_of_perm_cons ?_).symm
    have hX := perm_cons_of_perm_erase hmem hY
    have hlent : (X ++ R).Perm (Y ++ k' :: R) := (hX.append_right R).trans List.perm_middle.symm
    have hfound : (L ++ (X ++ k :: R)).Perm (k :: (L ++ (X ++ R))) := by
      simpa using @List.perm_middle Int k (L ++ X) R
    exact hfound.trans ((hlent.append_left L).cons k)
  | @lendRight _ _ L X R hmem =>
    refine (erase_perm_of_perm_cons ?_).symm
    have hX := perm_cons_of_perm_erase hmem hY
    exact List.perm_middle.trans (((hX.append_right R).append_left L).cons k)

theorem sublist (hm : Moves turn k k' old X new) (hlends : Lends turn X k') (hold : Ordered old)
    (hsub : Y.Sublist X) (hY : Y.Perm (X.erase k')) : (new Y).Sublist old := by
  have hX : Ordered X := hold.sublist hm.below
  have hYo : Ordered Y := hX.sublist hsub
  cases hm with
  | @keep _ _ L X R => exact (hsub.append_right R).append_left L
  | @lendLeft _ _ L X R hmem =>
    obtain ⟨-, hmax⟩ := (getLast?_eq_some_iff_max hX).mp hlends
    have hYk : Ordered (Y ++ [k']) := by
      refine List.pairwise_append.mpr ⟨hYo, List.pairwise_singleton _ _, fun j hj i hi => ?_⟩
      rw [List.mem_singleton.mp hi]
      exact hmax j (hsub.subset hj)
    have hYX : Y ++ [k'] = X := by
      refine ordered_ext hYk hX ?_
      exact (List.perm_append_singleton k' Y).trans (perm_cons_of_perm_erase hmem hY).symm
    rw [← hYX]
    simp
  | @lendRight _ _ L X R hmem =>
    obtain ⟨-, hmin⟩ := (head?_eq_some_iff_min hX).mp hlends
    have hYk : Ordered (k' :: Y) :=
      List.pairwise_cons.mpr ⟨fun j hj => hmin j (hsub.subset hj), hYo⟩
    have hYX : k' :: Y = X := ordered_ext hYk hX (perm_cons_of_perm_erase hmem hY).symm
    rw [← hYX]
    simp

/-- And where their order is right, the right keys were lent. -/
theorem lends (hm : Moves turn k k' old X new) (hX : Ordered X) (hY : Y.Perm (X.erase k'))
    (hnew : Ordered (new Y)) : Lends turn X k' ∧ Ordered Y := by
  cases hm with
  | @keep _ _ L X R _ hleft hright =>
    refine ⟨?_, ?_⟩
    · cases turn with
      | lendLeft => exact absurd rfl hleft
      | lendRight => exact absurd rfl hright
      | _ => trivial
    · exact hnew.sublist ((List.sublist_append_left Y R).trans (List.sublist_append_right L _))
  | @lendLeft _ _ L X R hmem =>
    obtain ⟨hYo, -, hmax⟩ := List.pairwise_append.mp (List.pairwise_append.mp hnew).2.1
    have hperm := perm_cons_of_perm_erase hmem hY
    refine ⟨(getLast?_eq_some_iff_max hX).mpr ⟨hmem, fun j hj => ?_⟩, hYo⟩
    rcases List.mem_cons.mp (hperm.subset hj) with rfl | hj
    · exact Int.le_refl j
    · exact hmax j hj k' List.mem_cons_self
  | @lendRight _ _ L X R hmem =>
    obtain ⟨hmin, hYR⟩ := List.pairwise_cons.mp (List.pairwise_append.mp hnew).2.1
    have hperm := perm_cons_of_perm_erase hmem hY
    refine ⟨(head?_eq_some_iff_min hX).mpr ⟨hmem, fun j hj => ?_⟩, (List.pairwise_append.mp hYR).1⟩
    rcases List.mem_cons.mp (hperm.subset hj) with rfl | hj
    · exact Int.le_refl j
    · exact hmin j (List.mem_append_left R hj)

end Moves

-- ---------------------------------------------------------------------------
-- The turns
-- ---------------------------------------------------------------------------

variable {f f' : Opened h} {x x' : Sub Ptr Int (h + 1)}

theorem not_mem_lead {b : List (Sub Ptr Int (h + 1) × Int)} (hb : Below k b)
    (hs : Ordered (lead (inorder (h + 1)) b)) : k ∉ lead (inorder (h + 1)) b := by
  intro hk
  obtain ⟨p, hp, hkp⟩ := List.mem_flatMap.mp hk
  have hlt : p.2 < k := hb p hp
  have hordered := (List.pairwise_flatMap.mp hs).1 p hp
  rcases List.mem_append.mp hkp with hkp | hkp
  · have hle := (List.pairwise_append.mp hordered).2.2 k hkp p.2 (List.mem_singleton_self _)
    omega
  · rw [List.mem_singleton.mp hkp] at hlt
    exact Int.lt_irrefl _ hlt

theorem not_mem_trail {a : List (Int × Sub Ptr Int (h + 1))} (ha : Above k a)
    (hs : Ordered (trail (inorder (h + 1)) a)) : k ∉ trail (inorder (h + 1)) a := by
  intro hk
  cases a with
  | nil => cases hk
  | cons p a =>
    have hlt : k < p.1 := ha p rfl
    rcases List.mem_cons.mp hk with rfl | hk
    · exact Int.lt_irrefl _ hlt
    · have hle := (List.pairwise_cons.mp hs).1 k hk
      omega

theorem mem_below (hb : Below k f.before) (ha : Above k f.after)
    (hs : Ordered (inorder (h + 2) (f.fill x))) (hk : k ∈ inorder (h + 2) (f.fill x)) :
    k ∈ inorder (h + 1) x := by
  rw [inorder_fill] at hs hk
  obtain ⟨hlead, hrest, -⟩ := List.pairwise_append.mp hs
  have htrail := (List.pairwise_append.mp hrest).2.1
  rcases List.mem_append.mp hk with hk | hk
  · exact absurd hk (not_mem_lead hb hlead)
  · rcases List.mem_append.mp hk with hk | hk
    · exact hk
    · exact absurd hk (not_mem_trail ha htrail)

theorem balanced_of_shaped (hx : Shaped (t - 1) (2 * t - 1) (h + 1) x) : Balanced h x := hx.2.1

theorem mem_inorder_of_mem_keys (hx : Balanced h x) (hk : k ∈ x.keys) : k ∈ inorder (h + 1) x := by
  obtain ⟨ls, ks, hkeys⟩ := List.append_of_mem hk
  rw [inorder_cut hx hkeys rfl x.name]
  simp

/-- Unless a key is lent, a turn changes nothing in order, and a key that is there
is below the next child. -/
theorem Descends.keeps (hd : Descends t k turn f x f' x' k')
    (hc : Shaped (t - 1) (2 * t - 1) (h + 2) (f.fill x))
    (hs : Ordered (inorder (h + 2) (f.fill x))) (hleft : turn ≠ .lendLeft)
    (hright : turn ≠ .lendRight) :
    k' = k ∧ inorder (h + 2) (f'.fill x') = inorder (h + 2) (f.fill x) ∧
      (k ∈ inorder (h + 2) (f.fill x) → k ∈ inorder (h + 1) x') := by
  obtain ⟨⟨-, hsiblings⟩, -, hx⟩ := shaped_fill_iff.mp hc
  have hx := balanced_of_shaped hx
  have hbalanced (y : Sub Ptr Int (h + 1)) (hy : y ∈ f.siblings) : Balanced h y :=
    balanced_of_shaped (hsiblings y hy).2
  cases hd with
  | stay hb ha => exact ⟨rfl, rfl, mem_below hb ha hs⟩
  | @borrowRight n b a s s' ks x r hb hlt _ hks =>
    have hr := hbalanced r (by simp [Frame.siblings])
    have hks : r.keys = [] ++ s' :: ks := hks
    have hcut := inorder_cut hr hks rfl r.name
    have hjoin := inorder_join (l := x) (k := s) (r := ⟨r.name, [], r.children.take 1⟩) hx
    refine ⟨rfl, ?_, fun hk => ?_⟩
    · refine (inorder_fill_pair _ _ _ _ _ _).trans (.trans ?_ (inorder_fill_pair _ _ _ _ _ _).symm)
      rw [hcut]
      refine congrArg (lead _ b ++ · ) (congrArg (· ++ trail _ a) ?_)
      exact (congrArg (· ++ _) hjoin).trans (by simp)
    · have hbelow := mem_below hb (above_cons hlt) hs hk
      exact hjoin ▸ List.mem_append_left _ hbelow
  | @borrowLeft n b a s s' ks x l hb ha _ hks =>
    have hl := hbalanced l (by simp [Frame.siblings])
    have hlen : l.keys.length = ks.length + 1 := by rw [hks, List.length_append]; rfl
    have hcut := inorder_cut hl hks hlen x.name
    have hmoved : Balanced h (⟨x.name, [], l.children.drop l.keys.length⟩ : Sub Ptr Int (h + 1)) := by
      intro hpos
      have hchildren := hl hpos
      simp only [List.length_drop, List.length_nil]
      omega
    have hjoin := inorder_join (k := s) (r := x) hmoved
    refine ⟨rfl, ?_, fun hk => ?_⟩
    · rw [fill_swap, fill_swap]
      refine (inorder_fill_pair _ _ _ _ _ _).trans (.trans ?_ (inorder_fill_pair _ _ _ _ _ _).symm)
      rw [hcut]
      refine congrArg (lead _ b ++ · ) (congrArg (· ++ trail _ a) ?_)
      exact (congrArg (fun Y => _ ++ s' :: Y) hjoin).trans (by simp)
    · have hbelow := mem_below hb ha hs hk
      exact hjoin ▸ List.mem_append_right _ (List.mem_cons_of_mem s hbelow)
  | @mergeLeft n b a s x l hb ha =>
    have hl := hbalanced l (by simp [Frame.siblings])
    have hjoin := inorder_join (r := x) (k := s) hl
    refine ⟨rfl, ?_, fun hk => ?_⟩
    · rw [fill_swap, inorder_fill_pair, inorder_fill, hjoin]
    · rw [hjoin]
      exact List.mem_append_right _ (List.mem_cons_of_mem s (mem_below hb ha hs hk))
  | @mergeRight n a s x r hlt =>
    have hjoin := inorder_join (r := r) (k := s) hx
    refine ⟨rfl, ?_, fun hk => ?_⟩
    · rw [inorder_fill_pair, inorder_fill, hjoin]
    · rw [hjoin]
      exact List.mem_append_left _ (mem_below (by simp [Below]) (above_cons hlt) hs hk)
  | lendLeft => exact absurd rfl hleft
  | lendRight => exact absurd rfl hright
  | @mergeFound n b a x r =>
    have hjoin := inorder_join (r := r) (k := k) hx
    refine ⟨rfl, ?_, fun _ => ?_⟩
    · rw [inorder_fill_pair, inorder_fill, hjoin]
    · rw [hjoin]
      simp

theorem Descends.moves (hd : Descends t k turn f x f' x' k')
    (hc : Shaped (t - 1) (2 * t - 1) (h + 2) (f.fill x))
    (hs : Ordered (inorder (h + 2) (f.fill x))) :
    ∃ new, Moves turn k k' (inorder (h + 2) (f.fill x)) (inorder (h + 1) x') new ∧
      ∀ y, inorder (h + 2) (f'.fill y) = new (inorder (h + 1) y) := by
  obtain ⟨⟨-, hsiblings⟩, -, hx⟩ := shaped_fill_iff.mp hc
  by_cases hleft : turn = .lendLeft
  · subst hleft
    cases hd with
    | @lendLeft n b a _ ks x r _ _ hks =>
      rw [inorder_fill]
      exact ⟨_, .lendLeft (mem_inorder_of_mem_keys (balanced_of_shaped hx) (by simp [hks])),
        fun y => inorder_fill _ y⟩
  by_cases hright : turn = .lendRight
  · subst hright
    cases hd with
    | @lendRight n b a _ ks x _ _ _ _ hks =>
      have hr := (hsiblings x' (by simp [Frame.siblings])).2
      have hold (j : Int) (y : Sub Ptr Int (h + 1)) :
          inorder (h + 2) (Frame.fill ⟨n, b, (j, y) :: a⟩ x) =
            lead (inorder (h + 1)) b ++ inorder (h + 1) x ++
              j :: (inorder (h + 1) y ++ trail (inorder (h + 1)) a) := by
        rw [inorder_fill_pair]
        simp
      rw [hold]
      refine ⟨_, .lendRight (mem_inorder_of_mem_keys (balanced_of_shaped hr) (by simp [hks])), ?_⟩
      intro y
      rw [fill_swap, hold]
  obtain ⟨rfl, hsame, hbelow⟩ := hd.keeps hc hs hleft hright
  have hfill := inorder_fill f' x'
  rw [hsame] at hfill
  rw [hfill] at hbelow ⊢
  exact ⟨_, .keep hbelow hleft hright, inorder_fill f'⟩

-- ---------------------------------------------------------------------------
-- The way down
-- ---------------------------------------------------------------------------

/-- The merges that fit, and the keys that are next to those they replace. -/
def Sound (t : Nat) : Check := fun turn keys below k' => Fits t turn keys ∧ Lends turn below k'

variable {P Q : Check} {c c' : Sub Ptr Int (h + 1)}

theorem Deleted.imp (hPQ : ∀ turn keys below k', P turn keys below k' → Q turn keys below k')
    (hd : Deleted P t h k c c') : Deleted Q t h k c c' := by
  induction hd with
  | hit hpre => exact .hit hpre
  | miss hpre hsuf => exact .miss hpre hsuf
  | down hd hcheck _ ih => exact .down hd (hPQ _ _ _ _ hcheck) ih

theorem leaf_erase_hit {pre suf : List Int} (hpre : ∀ j ∈ pre, j < k) :
    (pre ++ k :: suf).erase k = pre ++ suf := by
  have hmem : k ∉ pre := fun h => Int.lt_irrefl k (hpre k h)
  rw [List.erase_append_right _ hmem, List.erase_cons_head]

theorem leaf_erase_miss {pre suf : List Int} (hpre : ∀ j ∈ pre, j < k)
    (hsuf : ∀ j ∈ suf.head?, k < j) (hs : Ordered (pre ++ suf)) : (pre ++ suf).erase k = pre ++ suf := by
  refine List.erase_of_not_mem fun hmem => ?_
  rcases List.mem_append.mp hmem with hmem | hmem
  · exact Int.lt_irrefl k (hpre k hmem)
  · cases suf with
    | nil => cases hmem
    | cons j suf =>
      have hlt : k < j := hsuf j rfl
      rcases List.mem_cons.mp hmem with rfl | hmem
      · exact Int.lt_irrefl k hlt
      · have hle := (List.pairwise_cons.mp (List.pairwise_append.mp hs).2.1).1 k hmem
        omega

theorem Deleted.perm (hd : Deleted P t h k c c') (ht : 2 ≤ t)
    (hc : Shaped (t - 1) (2 * t - 1) (h + 1) c) (hs : Ordered (inorder (h + 1) c)) :
    (inorder (h + 1) c').Perm ((inorder (h + 1) c).erase k) := by
  induction hd with
  | hit hpre =>
    rw [inorder_leaf, inorder_leaf, leaf_erase_hit hpre]
  | miss hpre hsuf =>
    rw [inorder_leaf] at hs ⊢
    rw [leaf_erase_miss hpre hsuf hs]
  | down hd _ _ ih =>
    obtain ⟨new, hmoves, hnew⟩ := hd.moves hc hs
    rw [hnew]
    exact hmoves.perm (ih (hd.shaped ht hc).2.2 (hs.sublist hmoves.below))

theorem Deleted.sublist (hd : Deleted (Sound t) t h k c c') (ht : 2 ≤ t)
    (hc : Shaped (t - 1) (2 * t - 1) (h + 1) c) (hs : Ordered (inorder (h + 1) c)) :
    (inorder (h + 1) c').Sublist (inorder (h + 1) c) := by
  induction hd with
  | hit hpre =>
    rw [inorder_leaf, inorder_leaf]
    exact (List.sublist_cons_self _ _).append_left _
  | miss => exact .refl _
  | down hd hsound hrest ih =>
    obtain ⟨new, hmoves, hnew⟩ := hd.moves hc hs
    have hx' := (hd.shaped ht hc).2.2
    have hbelow := hs.sublist hmoves.below
    rw [hnew]
    exact hmoves.sublist hsound.2 hs (ih hx' hbelow) (hrest.perm ht hx' hbelow)

/-- And where the keys come out in order, the right ones were lent. -/
theorem Deleted.sound (hd : Deleted (Room t) t h k c c') (ht : 2 ≤ t)
    (hc : Shaped (t - 1) (2 * t - 1) (h + 1) c) (hs : Ordered (inorder (h + 1) c))
    (hs' : Ordered (inorder (h + 1) c')) : Deleted (Sound t) t h k c c' := by
  induction hd with
  | hit hpre => exact .hit hpre
  | miss hpre hsuf => exact .miss hpre hsuf
  | down hd hroom hrest ih =>
    obtain ⟨new, hmoves, hnew⟩ := hd.moves hc hs
    have hx' := (hd.shaped ht hc).2.2
    have hbelow := hs.sublist hmoves.below
    rw [hnew] at hs'
    obtain ⟨hlends, hordered⟩ := hmoves.lends hbelow (hrest.perm ht hx' hbelow) hs'
    exact .down hd ⟨hroom, hlends⟩ (ih hx' hbelow hordered)

end LearningCode.Btree
