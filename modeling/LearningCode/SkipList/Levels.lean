import LearningCode.SkipList.Model

/-!
# The loops over the levels

Every loop of the skip list that writes does so on one level at a time, so its
effect is read off level by level: what each forward pointer is afterwards.
Scores, handlers and heights stay as they are.
-/

namespace LearningCode.SkipList

variable {h h' : Heap} {x y q : Ptr} {v f g : Option Ptr} {u : Nat → Ptr} {update : Update}

def shape (h : Heap) (x : Ptr) : Option (Nat × Handler × Nat) :=
  (h x).map fun n => (n.score, n.handler, n.level.length)

def height (h : Heap) (x : Ptr) : Nat := ((shape h x).map (·.2.2)).getD 0

def scoreOf (h : Heap) (x : Ptr) : Nat := ((shape h x).map (·.1)).getD 0

theorem height_eq (hx : h x = some n) : height h x = n.level.length := by simp [height, shape, hx]

theorem scoreOf_eq (hx : h x = some n) : scoreOf h x = n.score := by simp [scoreOf, shape, hx]

theorem node_of_height (hi : i < height h x) :
    ∃ n, h x = some n ∧ i < n.level.length ∧ n.score = scoreOf h x := by
  cases hx : h x with
  | none => simp [height, shape, hx] at hi
  | some n => exact ⟨n, rfl, height_eq hx ▸ hi, (scoreOf_eq hx).symm⟩

def SameNodes (h h' : Heap) : Prop := ∀ q, shape h' q = shape h q

theorem SameNodes.height (hs : SameNodes h h') : height h' q = height h q := by
  rw [SkipList.height, hs q]
  rfl

theorem SameNodes.scoreOf (hs : SameNodes h h') : scoreOf h' q = scoreOf h q := by
  rw [SkipList.scoreOf, hs q]
  rfl

theorem SameNodes.trans {h₁ : Heap} (h₀₁ : SameNodes h h₁) (h₁₂ : SameNodes h₁ h') :
    SameNodes h h' := fun q => (h₁₂ q).trans (h₀₁ q)

theorem SameNodes.isSome (hs : SameNodes h h') : (h' q).isSome = (h q).isSome := by
  have hshape := congrArg Option.isSome (hs q)
  simpa [shape] using hshape

-- ---------------------------------------------------------------------------
-- One read, one write
-- ---------------------------------------------------------------------------

theorem forward_some (hi : i < height h x) : ∃ f, forward h x i = some f := by
  obtain ⟨n, hx, hlen, -⟩ := node_of_height hi
  exact ⟨n.level[i], by simp [forward, hx, hlen]⟩

theorem setForward_spec (hi : i < height h x) (v : Option Ptr) :
    ∃ h', setForward h x i v = some h' ∧ SameNodes h h' ∧
      ∀ q j, forward h' q j = if q = x ∧ j = i then some v else forward h q j := by
  obtain ⟨n, hx, hlen, -⟩ := node_of_height hi
  refine ⟨_, by rw [setForward, hx]; exact if_pos hlen, fun q => ?_, fun q j => ?_⟩
  · cases Decidable.em (q = x) with
    | inl heq => subst heq; simp [shape, hx]
    | inr hne => simp [shape, Function.update_of_ne hne]
  · cases Decidable.em (q = x) with
    | inl heq =>
      subst heq
      rw [forward, Function.update_self, Option.bind_some, List.getElem?_set]
      split
      · next hij => subst hij; simp
      · next hij => simp [forward, hx, Ne.symm hij]
    | inr hne => simp [forward, hne]

-- ---------------------------------------------------------------------------
-- Linking
-- ---------------------------------------------------------------------------

theorem linkLevel_spec (hx : i < height h x) (hu : i < height h u') (hux : u' ≠ x)
    (hupdate : update i = some u') :
    ∃ h', linkLevel x update h i = some h' ∧ SameNodes h h' ∧
      ∀ q j, forward h' q j =
        if j = i ∧ q = x then forward h u' i
        else if j = i ∧ q = u' then some (some x) else forward h q j := by
  obtain ⟨f, hf⟩ := forward_some hu
  obtain ⟨h₁, hset₁, hsame₁, hfwd₁⟩ := setForward_spec hx f
  obtain ⟨h₂, hset₂, hsame₂, hfwd₂⟩ := setForward_spec (hsame₁.height.symm ▸ hu) (some x)
  refine ⟨h₂, ?_, hsame₁.trans hsame₂, fun q j => ?_⟩
  · simp only [linkLevel, hupdate, hf, Option.bind_eq_bind, Option.bind_some, hset₁, hset₂]
  · rw [hfwd₂, hfwd₁, hf]
    grind

theorem link_spec (k : Nat) (hx : k ≤ height h x) (hu : ∀ i < k, i < height h (u i))
    (hux : ∀ i < k, u i ≠ x) (hupdate : ∀ i < k, update i = some (u i)) :
    ∃ h', (List.range k).foldlM (linkLevel x update) h = some h' ∧ SameNodes h h' ∧
      ∀ q j, forward h' q j =
        if j < k ∧ q = x then forward h (u j) j
        else if j < k ∧ q = u j then some (some x) else forward h q j := by
  induction k with
  | zero => exact ⟨h, rfl, fun _ => rfl, fun q j => by simp⟩
  | succ k ih =>
    obtain ⟨h₁, hfold, hsame₁, hfwd₁⟩ := ih (by omega) (fun i hi => hu i (by omega))
      (fun i hi => hux i (by omega)) fun i hi => hupdate i (by omega)
    obtain ⟨h₂, hlink, hsame₂, hfwd₂⟩ := linkLevel_spec (h := h₁) (x := x)
      (hsame₁.height.symm ▸ hx) (hsame₁.height.symm ▸ hu k (by omega)) (hux k (by omega))
      (hupdate k (by omega))
    refine ⟨h₂, ?_, hsame₁.trans hsame₂, fun q j => ?_⟩
    · rw [List.range_succ, List.foldlM_append, hfold]
      simp only [List.foldlM_cons, List.foldlM_nil, Option.bind_eq_bind, Option.bind_some, hlink]
      rfl
    · rw [hfwd₂, hfwd₁, hfwd₁]
      grind

-- ---------------------------------------------------------------------------
-- Unlinking
-- ---------------------------------------------------------------------------

theorem unlinkLevel_spec (hu : i < height h u') (hx : forward h u' i = some (some x) → i < height h x)
    (hupdate : update i = some u') :
    ∃ h', unlinkLevel x update h i = some h' ∧ SameNodes h h' ∧
      ∀ q j, forward h' q j =
        if j = i ∧ q = u' ∧ forward h u' i = some (some x) then forward h x i
        else forward h q j := by
  obtain ⟨f, hf⟩ := forward_some hu
  cases Decidable.em (f = some x) with
  | inl heq =>
    subst heq
    obtain ⟨g, hg⟩ := forward_some (hx hf)
    obtain ⟨h₁, hset, hsame, hfwd⟩ := setForward_spec hu g
    refine ⟨h₁, ?_, hsame, fun q j => ?_⟩
    · simp only [unlinkLevel, hupdate, hf, Option.bind_eq_bind, Option.bind_some, ↓reduceIte, hg, hset]
    · rw [hfwd, hf, hg]
      grind
  | inr hne =>
    refine ⟨h, ?_, fun _ => rfl, fun q j => ?_⟩
    · simp only [unlinkLevel, hupdate, hf, Option.bind_eq_bind, Option.bind_some, if_neg hne]
    · rw [hf, if_neg]
      rintro ⟨-, -, h⟩
      exact hne (Option.some.inj h)

theorem unlink_spec (levels : List Nat) (hnd : levels.Nodup)
    (hu : ∀ i ∈ levels, i < height h (u i))
    (hx : ∀ i ∈ levels, forward h (u i) i = some (some x) → i < height h x)
    (hupdate : ∀ i ∈ levels, update i = some (u i)) :
    ∃ h', levels.foldlM (unlinkLevel x update) h = some h' ∧ SameNodes h h' ∧
      ∀ q j, forward h' q j =
        if j ∈ levels ∧ q = u j ∧ forward h (u j) j = some (some x) then forward h x j
        else forward h q j := by
  induction levels generalizing h with
  | nil => exact ⟨h, rfl, fun _ => rfl, fun q j => by simp⟩
  | cons i levels ih =>
    obtain ⟨hi, hnd⟩ := List.nodup_cons.mp hnd
    obtain ⟨h₁, hone, hsame₁, hfwd₁⟩ := unlinkLevel_spec (hu i List.mem_cons_self)
      (hx i List.mem_cons_self) (hupdate i List.mem_cons_self)
    have hkeep : ∀ q, ∀ j ∈ levels, forward h₁ q j = forward h q j := by
      rintro q j hj
      rw [hfwd₁, if_neg]
      rintro ⟨rfl, -⟩
      exact hi hj
    obtain ⟨h₂, hrest, hsame₂, hfwd₂⟩ := ih (h := h₁) hnd
      (fun j hj => hsame₁.height.symm ▸ hu j (List.mem_cons_of_mem i hj))
      (fun j hj hf => hsame₁.height.symm ▸ hx j (List.mem_cons_of_mem i hj) (hkeep _ j hj ▸ hf))
      fun j hj => hupdate j (List.mem_cons_of_mem i hj)
    refine ⟨h₂, ?_, hsame₁.trans hsame₂, fun q j => ?_⟩
    · rw [List.foldlM_cons, hone]
      exact hrest
    · rw [hfwd₂]
      cases Decidable.em (j ∈ levels) with
      | inl hj =>
        rw [hkeep _ j hj, hkeep _ j hj, hkeep _ j hj]
        simp only [hj, List.mem_cons, or_true]
      | inr hj =>
        rw [if_neg fun hc => hj hc.1, hfwd₁]
        grind

-- ---------------------------------------------------------------------------
-- Lowering
-- ---------------------------------------------------------------------------

/-- The level ends at the topmost one in use, or at 1. -/
theorem lowerLevel_spec (level : Nat) (hpos : 1 ≤ level) (hh : level ≤ height h x) :
    ∃ k, lowerLevel h x level = some k ∧ 1 ≤ k ∧ k ≤ level ∧
      (∀ i, k ≤ i → i < level → forward h x i = some none) ∧
      (k = 1 ∨ ∃ f, forward h x (k - 1) = some (some f)) := by
  induction level with
  | zero => omega
  | succ level ih =>
    cases level with
    | zero => exact ⟨1, rfl, Nat.le_refl _, Nat.le_refl _, fun i h₁ h₂ => by omega, .inl rfl⟩
    | succ level =>
      obtain ⟨f, hf⟩ := forward_some (show level + 1 < height h x by omega)
      cases f with
      | none =>
        obtain ⟨k, hk, hk₁, hle, hempty, htop⟩ := ih (by omega) (by omega)
        refine ⟨k, ?_, hk₁, by omega, fun i h₁ h₂ => ?_, htop⟩
        · rw [lowerLevel, hf]
          exact hk
        · rcases Nat.eq_or_lt_of_le (Nat.le_of_lt_succ h₂) with rfl | hlt
          · exact hf
          · exact hempty i h₁ hlt
      | some f =>
        refine ⟨level + 2, ?_, by omega, Nat.le_refl _, fun i h₁ h₂ => by omega, .inr ⟨f, hf⟩⟩
        rw [lowerLevel, hf]
        rfl

end LearningCode.SkipList
