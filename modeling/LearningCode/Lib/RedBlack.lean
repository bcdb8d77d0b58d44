import Mathlib.Data.List.Basic

/-!
# Red-black trees with a hole

Binary trees whose nodes carry a colour and an item. A context is the path from
a hole up to the root; filling the hole gives the whole tree. `Fits` says what a
context asks of the tree that fills it, so that the two fixups can speak about
the one place where the colours are wrong.
-/

namespace LearningCode.RedBlack

universe u

variable {α : Type u}

inductive Color
  | red
  | black
  deriving DecidableEq, Repr

inductive Side
  | left
  | right
  deriving DecidableEq, Repr

def Side.flip : Side → Side
  | left => right
  | right => left

@[simp] theorem Side.flip_flip (s : Side) : s.flip.flip = s := by cases s <;> rfl

@[simp] theorem Side.flip_ne (s : Side) : s.flip ≠ s := by cases s <;> exact fun h => (nomatch h)

theorem Side.eq_or_eq_flip (s s' : Side) : s' = s ∨ s' = s.flip := by
  cases s <;> cases s'
  · exact .inl rfl
  · exact .inr rfl
  · exact .inr rfl
  · exact .inl rfl

inductive ColoredTree (α : Type u)
  | leaf
  | node (color : Color) (item : α) (left right : ColoredTree α)

namespace ColoredTree

/-- Leaves count as black. -/
def color : ColoredTree α → Color
  | leaf => .black
  | node c _ _ _ => c

def inorder : ColoredTree α → List α
  | leaf => []
  | node _ a l r => l.inorder ++ a :: r.inorder

def join (s : Side) (c : Color) (a : α) (t u : ColoredTree α) : ColoredTree α :=
  match s with
  | .left => node c a t u
  | .right => node c a u t

theorem join_flip (s : Side) (c : Color) (a : α) (t u : ColoredTree α) :
    join s.flip c a t u = join s c a u t := by cases s <;> rfl

@[simp] theorem color_join (s : Side) (c : Color) (a : α) (t u : ColoredTree α) :
    (join s c a t u).color = c := by cases s <;> rfl

@[simp] theorem join_ne_leaf {s : Side} {c : Color} {a : α} {t u : ColoredTree α} :
    join s c a t u ≠ leaf := by cases s <;> exact fun h => (nomatch h)

@[elab_as_elim]
theorem join_induction {motive : ColoredTree α → Prop} (s : Side) (t : ColoredTree α) (leaf : motive leaf)
    (join : ∀ c a u v, motive u → motive v → motive (join s c a u v)) : motive t := by
  induction t with
  | leaf => exact leaf
  | node c a l r ihl ihr =>
    cases s with
    | left => exact join c a l r ihl ihr
    | right => exact join c a r l ihr ihl

theorem exists_join (s : Side) {t : ColoredTree α} (h : t ≠ leaf) :
    ∃ c a u v, t = join s c a u v := by
  cases t with
  | leaf => exact absurd rfl h
  | node c a l r =>
    cases s with
    | left => exact ⟨c, a, l, r, rfl⟩
    | right => exact ⟨c, a, r, l, rfl⟩

theorem exists_join_red (s : Side) {t : ColoredTree α} (h : t.color = .red) :
    ∃ a u v, t = join s .red a u v := by
  obtain ⟨c, a, u, v, rfl⟩ := exists_join s (t := t) (by rintro rfl; cases h)
  cases (color_join s c a u v).symm.trans h
  exact ⟨a, u, v, rfl⟩

theorem inorder_join_perm (s : Side) (c : Color) (a : α) (t u : ColoredTree α) :
    (join s c a t u).inorder.Perm (a :: (t.inorder ++ u.inorder)) := by
  cases s with
  | left => exact List.perm_middle
  | right => exact List.perm_middle.trans (List.perm_append_comm.cons a)

theorem inorder_rotate (s : Side) (cx cx' cy cy' : Color) (x y : α) (t u v : ColoredTree α) :
    (join s cy y (join s cx x t u) v).inorder =
      (join s.flip cx' x (join s.flip cy' y v u) t).inorder := by
  cases s <;> simp [join, inorder, Side.flip]

def blacken : ColoredTree α → ColoredTree α
  | leaf => leaf
  | node _ a l r => node .black a l r

@[simp] theorem inorder_blacken (t : ColoredTree α) : t.blacken.inorder = t.inorder := by
  cases t <;> rfl

@[simp] theorem color_blacken (t : ColoredTree α) : t.blacken.color = .black := by cases t <;> rfl

@[simp] theorem blacken_join (s : Side) (c : Color) (a : α) (t u : ColoredTree α) :
    (join s c a t u).blacken = join s .black a t u := by cases s <;> rfl

/-- No red node has a red child, and every path down has `n` black nodes. -/
def Balanced : ColoredTree α → Nat → Prop
  | leaf, n => n = 0
  | node .red _ l r, n => (l.color = .black ∧ r.color = .black) ∧ l.Balanced n ∧ r.Balanced n
  | node .black _ _ _, 0 => False
  | node .black _ l r, n + 1 => l.Balanced n ∧ r.Balanced n

@[simp] theorem balanced_leaf {n : Nat} : (leaf : ColoredTree α).Balanced n ↔ n = 0 := Iff.rfl

@[simp] theorem balanced_join_red {s : Side} {a : α} {t u : ColoredTree α} {n : Nat} :
    (join s .red a t u).Balanced n ↔
      (t.color = .black ∧ u.color = .black) ∧ t.Balanced n ∧ u.Balanced n := by
  cases s with
  | left => exact Iff.rfl
  | right => exact and_congr And.comm And.comm

@[simp] theorem balanced_join_black {s : Side} {a : α} {t u : ColoredTree α} {n : Nat} :
    (join s .black a t u).Balanced (n + 1) ↔ t.Balanced n ∧ u.Balanced n := by
  cases s with
  | left => exact Iff.rfl
  | right => exact And.comm

@[simp] theorem not_balanced_join_black {s : Side} {a : α} {t u : ColoredTree α} :
    ¬ (join s .black a t u).Balanced 0 := by cases s <;> exact id

theorem Balanced.item {s : Side} {c : Color} {a b : α} {t u : ColoredTree α} {n : Nat}
    (h : (join s c a t u).Balanced n) : (join s c b t u).Balanced n := by
  cases s <;> cases c <;> cases n <;> exact h

theorem Balanced.blacken {t : ColoredTree α} {n : Nat} (h : t.Balanced n) :
    ∃ m, t.blacken.Balanced m := by
  cases t with
  | leaf => exact ⟨0, rfl⟩
  | node c a l r =>
    cases c with
    | black => exact ⟨n, h⟩
    | red => exact ⟨n + 1, h.2⟩

theorem Balanced.blacken_red {t : ColoredTree α} {n : Nat} (h : t.Balanced n) (hc : t.color = .red) :
    t.blacken.Balanced (n + 1) := by
  cases t with
  | leaf => cases hc
  | node c a l r => cases hc; exact h.2

theorem Balanced.exists_join {t : ColoredTree α} {n : Nat} (h : t.Balanced (n + 1))
    (hc : t.color = .black) (s : Side) :
    ∃ a u v, t = join s .black a u v ∧ u.Balanced n ∧ v.Balanced n := by
  obtain ⟨c, a, u, v, rfl⟩ := ColoredTree.exists_join s (t := t) (by rintro rfl; cases h)
  cases (color_join s c a u v).symm.trans hc
  exact ⟨a, u, v, rfl, balanced_join_black.mp h⟩

end ColoredTree

open ColoredTree

/-- A node above the hole: the side the hole is on, and the other subtree. -/
structure Frame (α : Type u) where
  side : Side
  color : Color
  item : α
  sibling : ColoredTree α

def Frame.fill (f : Frame α) (t : ColoredTree α) : ColoredTree α := join f.side f.color f.item t f.sibling

abbrev Context (α : Type u) := List (Frame α)

namespace Context

def plug : Context α → ColoredTree α → ColoredTree α
  | [], t => t
  | f :: ctx, t => plug ctx (f.fill t)

@[simp] theorem plug_nil (t : ColoredTree α) : plug [] t = t := rfl

@[simp] theorem plug_cons (f : Frame α) (ctx : Context α) (t : ColoredTree α) :
    plug (f :: ctx) t = plug ctx (f.fill t) := rfl

theorem plug_append (ctx ctx' : Context α) (t : ColoredTree α) :
    plug (ctx ++ ctx') t = plug ctx' (plug ctx t) := by
  induction ctx generalizing t with
  | nil => rfl
  | cons f ctx ih => exact ih (f.fill t)

def before : Context α → List α
  | [] => []
  | ⟨.left, _, _, _⟩ :: ctx => before ctx
  | ⟨.right, _, a, t⟩ :: ctx => before ctx ++ (t.inorder ++ [a])

def after : Context α → List α
  | [] => []
  | ⟨.left, _, a, t⟩ :: ctx => a :: (t.inorder ++ after ctx)
  | ⟨.right, _, _, _⟩ :: ctx => after ctx

theorem inorder_plug (ctx : Context α) (t : ColoredTree α) :
    (plug ctx t).inorder = before ctx ++ t.inorder ++ after ctx := by
  induction ctx generalizing t with
  | nil => simp [before, after]
  | cons f ctx ih =>
    obtain ⟨s, c, a, u⟩ := f
    rw [plug_cons, ih]
    cases s <;> simp [Frame.fill, join, inorder, before, after]

theorem exists_plug {a : α} {t : ColoredTree α} (h : a ∈ t.inorder) :
    ∃ ctx c l r, t = plug ctx (node c a l r) := by
  induction t with
  | leaf => cases h
  | node c b l r ihl ihr =>
    obtain h | h := List.mem_append.mp h
    · obtain ⟨ctx, c', l', r', rfl⟩ := ihl h
      exact ⟨ctx ++ [⟨.left, c, b, r⟩], c', l', r', by rw [plug_append]; rfl⟩
    · obtain rfl | h := List.mem_cons.mp h
      · exact ⟨[], c, l, r, rfl⟩
      · obtain ⟨ctx, c', l', r', rfl⟩ := ihr h
        exact ⟨ctx ++ [⟨.right, c, b, l⟩], c', l', r', by rw [plug_append]; rfl⟩

theorem before_of_left {ctx : Context α} (h : ∀ f ∈ ctx, f.side = .left) : before ctx = [] := by
  induction ctx with
  | nil => rfl
  | cons f ctx ih =>
    obtain ⟨s, c, a, t⟩ := f
    cases h _ List.mem_cons_self
    exact ih fun g hg => h g (List.mem_cons_of_mem _ hg)

theorem after_of_right {ctx : Context α} (h : ∀ f ∈ ctx, f.side = .right) : after ctx = [] := by
  induction ctx with
  | nil => rfl
  | cons f ctx ih =>
    obtain ⟨s, c, a, t⟩ := f
    cases h _ List.mem_cons_self
    exact ih fun g hg => h g (List.mem_cons_of_mem _ hg)

theorem before_append_right (ctx ctx' : Context α) (c : Color) (a : α) (t : ColoredTree α) :
    before (ctx ++ ⟨.right, c, a, t⟩ :: ctx') = before ctx' ++ (t.inorder ++ a :: before ctx) := by
  induction ctx with
  | nil => rfl
  | cons f ctx ih =>
    obtain ⟨s, c', b, u⟩ := f
    cases s with
    | left => exact ih
    | right => simp only [List.cons_append, before, ih, List.append_assoc]

theorem after_append_right (ctx ctx' : Context α) (c : Color) (a : α) (t : ColoredTree α) :
    after (ctx ++ ⟨.right, c, a, t⟩ :: ctx') = after ctx ++ after ctx' := by
  induction ctx with
  | nil => rfl
  | cons f ctx ih =>
    obtain ⟨s, c', b, u⟩ := f
    cases s with
    | left => simp only [List.cons_append, after, ih, List.append_assoc]
    | right => exact ih

theorem inorder_plug_congr {ctx : Context α} {t u : ColoredTree α} (h : t.inorder = u.inorder) :
    (plug ctx t).inorder = (plug ctx u).inorder := by
  rw [inorder_plug, inorder_plug, h]

def items (ctx : Context α) : List α := before ctx ++ after ctx

@[simp] theorem items_nil : items ([] : Context α) = [] := rfl

theorem items_cons_perm (f : Frame α) (ctx : Context α) :
    (items (f :: ctx)).Perm (f.item :: (f.sibling.inorder ++ items ctx)) := by
  obtain ⟨s, c, a, t⟩ := f
  cases s with
  | left =>
    refine List.perm_middle.trans (.cons a ?_)
    exact List.perm_append_comm_assoc (before ctx) t.inorder (after ctx)
  | right =>
    simp only [items, before, after, List.append_assoc, List.cons_append, List.nil_append]
    refine (List.perm_append_comm_assoc _ _ _).trans (.trans ?_ List.perm_middle)
    exact (List.perm_middle).append_left _

theorem inorder_plug_perm (ctx : Context α) (t : ColoredTree α) :
    (plug ctx t).inorder.Perm (items ctx ++ t.inorder) := by
  rw [inorder_plug, items, List.append_assoc, List.append_assoc]
  exact List.perm_append_comm.append_left _

def color (ctx : Context α) : Option Color := ctx.head?.map Frame.color

/-- A tree of black height `n` keeps the whole balanced, up to two reds at the hole. -/
def Fits : Context α → Nat → Prop
  | [], _ => True
  | ⟨_, .red, _, t⟩ :: ctx, n =>
    (t.color = .black ∧ color ctx = some .black) ∧ t.Balanced n ∧ Fits ctx n
  | ⟨_, .black, _, t⟩ :: ctx, n => t.Balanced n ∧ Fits ctx (n + 1)

@[simp] theorem fits_nil {n : Nat} : Fits ([] : Context α) n := trivial

@[simp] theorem fits_red {s : Side} {a : α} {t : ColoredTree α} {ctx : Context α} {n : Nat} :
    Fits (⟨s, .red, a, t⟩ :: ctx) n ↔
      (t.color = .black ∧ color ctx = some .black) ∧ t.Balanced n ∧ Fits ctx n := Iff.rfl

@[simp] theorem fits_black {s : Side} {a : α} {t : ColoredTree α} {ctx : Context α} {n : Nat} :
    Fits (⟨s, .black, a, t⟩ :: ctx) n ↔ t.Balanced n ∧ Fits ctx (n + 1) := Iff.rfl

theorem Fits.plug {ctx : Context α} {t : ColoredTree α} {n : Nat} (h : Fits ctx n) (ht : t.Balanced n)
    (hc : t.color = .black ∨ color ctx ≠ some .red) : ∃ m, (plug ctx t).Balanced m := by
  induction ctx generalizing t n with
  | nil => exact ⟨n, ht⟩
  | cons f ctx ih =>
    obtain ⟨s, c, a, u⟩ := f
    cases c with
    | red =>
      obtain ⟨⟨hu, hctx⟩, hub, hrest⟩ := h
      have htb : t.color = .black := hc.resolve_right fun h => h rfl
      refine ih hrest (balanced_join_red.mpr ⟨⟨htb, hu⟩, ht, hub⟩) (.inr ?_)
      exact fun h => (nomatch hctx.symm.trans h)
    | black =>
      obtain ⟨hub, hrest⟩ := h
      exact ih hrest (balanced_join_black.mpr ⟨ht, hub⟩) (.inl (color_join ..))

theorem fits_of_plug {ctx : Context α} {t : ColoredTree α} {n : Nat} (h : (plug ctx t).Balanced n)
    (hroot : (plug ctx t).color = .black) :
    ∃ m, Fits ctx m ∧ t.Balanced m ∧ (t.color = .black ∨ color ctx = some .black) := by
  induction ctx generalizing t n with
  | nil => exact ⟨n, trivial, h, .inl hroot⟩
  | cons f ctx ih =>
    obtain ⟨s, c, a, u⟩ := f
    obtain ⟨m, hfits, hb, hc⟩ := ih h hroot
    cases c with
    | red =>
      obtain ⟨⟨ht, hu⟩, htb, hub⟩ := balanced_join_red.mp hb
      have hctx := hc.resolve_left fun h => (nomatch (color_join ..).symm.trans h)
      exact ⟨m, ⟨⟨hu, hctx⟩, hub, hfits⟩, htb, .inl ht⟩
    | black =>
      cases m with
      | zero => exact absurd hb not_balanced_join_black
      | succ m =>
        obtain ⟨htb, hub⟩ := balanced_join_black.mp hb
        exact ⟨m, ⟨hub, hfits⟩, htb, .inr rfl⟩

theorem Fits.root_black {f : Frame α} {ctx : Context α} {n : Nat} (h : Fits (f :: ctx) n)
    (t : ColoredTree α) : (Context.plug (f :: ctx) t).color = .black := by
  induction ctx generalizing f t n with
  | nil =>
    obtain ⟨s, c, a, u⟩ := f
    cases c with
    | red => exact (nomatch h.1.2)
    | black => exact color_join ..
  | cons g ctx ih =>
    obtain ⟨s, c, a, u⟩ := f
    cases c with
    | red => exact ih h.2.2 _
    | black => exact ih h.2 _

theorem Fits.exists_frames {ctx : Context α} {n : Nat} (h : Fits ctx n) (hc : color ctx = some .red) :
    ∃ s a t s' b u ctx', ctx = ⟨s, .red, a, t⟩ :: ⟨s', .black, b, u⟩ :: ctx' := by
  cases ctx with
  | nil => cases hc
  | cons f ctx =>
    obtain ⟨s, c, a, t⟩ := f
    cases hc
    cases ctx with
    | nil => cases h.1.2
    | cons g ctx =>
      obtain ⟨s', c', b, u⟩ := g
      cases h.1.2
      exact ⟨s, a, t, s', b, u, ctx, rfl⟩

theorem color_plug_congr {ctx : Context α} {t u : ColoredTree α} (h : t.color = u.color) :
    (plug ctx t).color = (plug ctx u).color := by
  induction ctx generalizing t u with
  | nil => exact h
  | cons f ctx ih => exact ih ((color_join ..).trans (color_join ..).symm)

theorem balanced_plug_congr {ctx : Context α} {t u : ColoredTree α} {n : Nat}
    (h : ∀ n, t.Balanced n → u.Balanced n) (hc : t.color = u.color)
    (ht : (plug ctx t).Balanced n) : (plug ctx u).Balanced n := by
  induction ctx generalizing t u with
  | nil => exact h n ht
  | cons f ctx ih =>
    obtain ⟨s, c, a, v⟩ := f
    refine ih (fun m hm => ?_) ((color_join ..).trans (color_join ..).symm) ht
    cases c with
    | red =>
      obtain ⟨⟨ht, hv⟩, htb, hvb⟩ := balanced_join_red.mp hm
      exact balanced_join_red.mpr ⟨⟨hc ▸ ht, hv⟩, h m htb, hvb⟩
    | black =>
      cases m with
      | zero => exact absurd hm not_balanced_join_black
      | succ m =>
        obtain ⟨htb, hvb⟩ := balanced_join_black.mp hm
        exact balanced_join_black.mpr ⟨h m htb, hvb⟩

end Context

end LearningCode.RedBlack
