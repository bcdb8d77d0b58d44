import LearningCode.RbTree.InsertFixup

/-!
# Insertion

The search ends at a leaf between the smaller and the larger keys, where the new
node is hung, or at a node that has the key.
-/

namespace LearningCode.RbTree

open RedBlack RedBlack.Context

variable {T : Rbtree} {c : Color} {b : Binding} {t l r : ColoredTree Binding} {ctx : Context Binding}
  {key : Int} {z h : Ptr}

def Sorted (l : List Binding) : Prop := l.Pairwise fun a b => a.key < b.key

theorem sorted_node : Sorted (ColoredTree.node c b l r).inorder ↔ Sorted l.inorder ∧ Sorted r.inorder ∧
    (∀ a ∈ l.inorder, a.key < b.key) ∧ (∀ a ∈ r.inorder, b.key < a.key) ∧
      ∀ a ∈ l.inorder, ∀ a' ∈ r.inorder, a.key < a'.key := by
  simp only [Sorted, ColoredTree.inorder, List.pairwise_append, List.pairwise_cons, List.mem_cons]
  constructor
  · rintro ⟨hl, ⟨hbr, hr⟩, hlbr⟩
    exact ⟨hl, hr, fun a ha => hlbr a ha b (.inl rfl), hbr, fun a ha a' ha' => hlbr a ha a' (.inr ha')⟩
  · rintro ⟨hl, hr, hlb, hbr, hlr⟩
    refine ⟨hl, ⟨hbr, hr⟩, fun a ha a' ha' => ?_⟩
    obtain rfl | ha' := ha'
    · exact hlb a ha
    · exact hlr a ha a' ha'

structure Between (key : Int) (ctx : Context Binding) : Prop where
  before : ∀ b ∈ before ctx, b.key < key
  after : ∀ b ∈ after ctx, key < b.key

theorem Between.left (h : Between key ctx) (hkey : key < b.key)
    (hs : Sorted (ColoredTree.node c b l r).inorder) : Between key (⟨.left, c, b, r⟩ :: ctx) := by
  refine ⟨h.before, fun a ha => ?_⟩
  simp only [Context.after, List.mem_cons, List.mem_append] at ha
  obtain rfl | ha | ha := ha
  · exact hkey
  · exact Int.lt_trans hkey ((sorted_node.mp hs).2.2.2.1 a ha)
  · exact h.after a ha

theorem Between.right (h : Between key ctx) (hkey : b.key < key)
    (hs : Sorted (ColoredTree.node c b l r).inorder) : Between key (⟨.right, c, b, l⟩ :: ctx) := by
  refine ⟨fun a ha => ?_, h.after⟩
  simp only [Context.before, List.mem_append, List.mem_singleton] at ha
  obtain ha | ha | rfl := ha
  · exact h.before a ha
  · exact Int.lt_trans ((sorted_node.mp hs).2.2.1 a ha) hkey
  · exact hkey

theorem keyCompare_neg {a b : Int} : keyCompare a b < 0 ↔ a < b := by
  unfold keyCompare
  split
  · omega
  · split <;> omega

theorem keyCompare_pos {a b : Int} : keyCompare a b > 0 ↔ b < a := by
  unfold keyCompare
  split
  · omega
  · split <;> omega

abbrev keys (l : List Binding) : List Int := l.map Binding.key

theorem mem_keys_node : key ∈ keys (ColoredTree.node c b l r).inorder ↔
    key ∈ keys l.inorder ∨ key = b.key ∨ key ∈ keys r.inorder := by
  simp only [keys, ColoredTree.inorder, List.map_append, List.map_cons, List.mem_append,
    List.mem_cons]

theorem mem_keys_left (hs : Sorted (ColoredTree.node c b l r).inorder) (hkey : key < b.key) :
    key ∈ keys (ColoredTree.node c b l r).inorder ↔ key ∈ keys l.inorder := by
  rw [mem_keys_node, or_iff_left]
  rintro (rfl | hmem)
  · exact Int.lt_irrefl _ hkey
  · obtain ⟨a, ha, rfl⟩ := List.mem_map.mp hmem
    exact Int.lt_asymm hkey ((sorted_node.mp hs).2.2.2.1 a ha)

theorem mem_keys_right (hs : Sorted (ColoredTree.node c b l r).inorder) (hkey : b.key < key) :
    key ∈ keys (ColoredTree.node c b l r).inorder ↔ key ∈ keys r.inorder := by
  rw [mem_keys_node, ← or_assoc, or_iff_right]
  rintro (hmem | rfl)
  · obtain ⟨a, ha, rfl⟩ := List.mem_map.mp hmem
    exact Int.lt_asymm hkey ((sorted_node.mp hs).2.2.1 a ha)
  · exact Int.lt_irrefl _ hkey

def Present (T : Rbtree) (key : Int) (ctx : Context Binding) (t : ColoredTree Binding) : Prop :=
  key ∈ keys t.inorder ∧
    Returns (fun turns => insertSearch T key turns (top T.nil t) (up T.nil ctx)) none

def Absent (T : Rbtree) (key : Int) (ctx : Context Binding) (t : ColoredTree Binding) : Prop :=
  key ∉ keys t.inorder ∧ ∃ ctx', plug ctx' .leaf = plug ctx t ∧ Between key ctx' ∧
    Returns (fun turns => insertSearch T key turns (top T.nil t) (up T.nil ctx))
      (some (up T.nil ctx'))

theorem insertSearch_spec (ht : At T ctx t) (hs : Sorted t.inorder) (hbet : Between key ctx) :
    Present T key ctx t ∨ Absent T key ctx t := by
  induction t generalizing ctx with
  | leaf =>
    refine .inr ⟨List.not_mem_nil, ctx, rfl, hbet, .last fun turns => ?_⟩
    rw [insertSearch, top, if_neg fun h => h rfl]
  | node c b l r ihl ihr =>
    have ht : At T ctx (.join .left c b l r) := ht
    have hcell := ht.cell
    have hkey : (T.mem b.ptr).key = b.key := by rw [hcell, key_cell]
    have hleft : T.child .left b.ptr = top T.nil l := by rw [Rbtree.child, hcell, child_cell]
    have hright : T.child .right b.ptr = top T.nil r := by
      rw [Rbtree.child, hcell]
      exact child_flip_cell
    obtain ⟨hsl, hsr, hlb, hbr, -⟩ := sorted_node.mp hs
    obtain hlt | heq | hgt := Int.lt_trichotomy key b.key
    · have hstep : ∀ turns, insertSearch T key (turns + 1) b.ptr (up T.nil ctx) =
          insertSearch T key turns (top T.nil l) b.ptr := fun turns => by
        rw [insertSearch, if_pos ht.ne_nil, hkey, if_pos (keyCompare_neg.mpr hlt), hleft]
      have hl : At T (⟨.left, c, b, r⟩ :: ctx) l := at_cons.mpr ht
      refine (ihl hl hsl (hbet.left hlt hs)).imp ?_ ?_
      · rintro ⟨hmem, hret⟩
        exact ⟨(mem_keys_left hs hlt).mpr hmem, hret.turn hstep⟩
      · rintro ⟨hmem, ctx', hplug, hbet', hret⟩
        exact ⟨fun h => hmem ((mem_keys_left hs hlt).mp h), ctx', hplug, hbet', hret.turn hstep⟩
    · refine .inl ⟨by simp [keys, ColoredTree.inorder, heq], .last fun turns => ?_⟩
      rw [top, insertSearch, if_pos ht.ne_nil, hkey, if_neg, if_neg]
      · exact fun h => absurd (keyCompare_pos.mp h) (by omega)
      · exact fun h => absurd (keyCompare_neg.mp h) (by omega)
    · have hstep : ∀ turns, insertSearch T key (turns + 1) b.ptr (up T.nil ctx) =
          insertSearch T key turns (top T.nil r) b.ptr := fun turns => by
        rw [insertSearch, if_pos ht.ne_nil, hkey, if_neg, if_pos (keyCompare_pos.mpr hgt), hright]
        exact fun h => absurd (keyCompare_neg.mp h) (by omega)
      have hr : At T (⟨.right, c, b, l⟩ :: ctx) r := at_cons.mpr ht
      refine (ihr hr hsr (hbet.right hgt hs)).imp ?_ ?_
      · rintro ⟨hmem, hret⟩
        exact ⟨(mem_keys_right hs hgt).mpr hmem, hret.turn hstep⟩
      · rintro ⟨hmem, ctx', hplug, hbet', hret⟩
        exact ⟨fun h => hmem ((mem_keys_right hs hgt).mp h), ctx', hplug, hbet', hret.turn hstep⟩

theorem link_eq_hang (ha : Around T.mem T.nil T.root ctx h) (hbet : Between (T.mem z).key ctx) :
    (if up T.nil ctx = T.nil then { T with root := z }
      else if keyCompare (T.mem z).key (T.mem (up T.nil ctx)).key < 0 then
        T.setChild .left (up T.nil ctx) z
      else T.setChild .right (up T.nil ctx) z) = hang T z ctx := by
  cases ctx with
  | nil => exact if_pos rfl
  | cons f ctx =>
    obtain ⟨s, c, b, t⟩ := f
    obtain ⟨⟨hb, hcell⟩, -, -⟩ := ha
    have hkey : (T.mem b.ptr).key = b.key := by rw [hcell, key_cell]
    rw [up, if_neg hb, hkey]
    cases s with
    | left =>
      have hlt := hbet.after b List.mem_cons_self
      exact if_pos (keyCompare_neg.mpr hlt)
    | right =>
      have hlt := hbet.before b (by simp [Context.before])
      exact if_neg fun h => absurd (keyCompare_neg.mp h) (Int.lt_asymm hlt)

theorem linkNew_spec (ht : At T ctx .leaf) (hz : z ≠ T.nil) (hout : z ∉ ptrs (items ctx))
    (hbet : Between (T.mem z).key ctx) :
    SameNil T (linkNew T z (up T.nil ctx)) ∧
      At (linkNew T z (up T.nil ctx)) ctx
        (.node .red ⟨z, (T.mem z).key, (T.mem z).value⟩ .leaf .leaf) := by
  obtain ⟨T₁, hT₁⟩ : ∃ T₁, T₁ = T.setParent z (up T.nil ctx) := ⟨_, rfl⟩
  have hmem₁ : T₁.mem z = { T.mem z with parent := up T.nil ctx } := by
    rw [hT₁, Rbtree.setParent, Rbtree.modify_self]
  have hother₁ : ∀ q, q ≠ z → T₁.mem q = T.mem q := fun q hq => by
    rw [hT₁, Rbtree.setParent_ne hq]
  have hnil₁ : T₁.nil = T.nil := by rw [hT₁]; rfl
  have hroot₁ : T₁.root = T.root := by rw [hT₁]; rfl
  have haround₁ : Around T₁.mem T₁.nil T₁.root ctx T.nil := by
    rw [hnil₁, hroot₁]
    exact ht.around.congr fun q hq => hother₁ q (ne_of_mem_of_not_mem hq hout)
  have hbet₁ : Between (T₁.mem z).key ctx := by rwa [hmem₁]
  have hhang := link_eq_hang haround₁ hbet₁
  rw [hnil₁] at hhang
  have hlink : linkNew T z (up T.nil ctx) =
      (((hang T₁ z ctx).setChild .left z T.nil).setChild .right z T.nil).setColor z .red := by
    have hnil : (hang T₁ z ctx).nil = T.nil := hang_nil.trans hnil₁
    have hraw : linkNew T z (up T.nil ctx) = (((hang T₁ z ctx).setChild .left z
        (hang T₁ z ctx).nil).setChild .right z (hang T₁ z ctx).nil).setColor z .red := by
      rw [← hhang, hT₁]
      rfl
    rw [hraw, hnil]
  have hother : ∀ q, q ≠ z → (linkNew T z (up T.nil ctx)).mem q = (hang T₁ z ctx).mem q :=
    fun q hq => by
      rw [hlink, Rbtree.setColor, Rbtree.modify_ne hq, Rbtree.setChild_ne hq,
        Rbtree.setChild_ne hq]
  have hmem : (linkNew T z (up T.nil ctx)).mem z =
      cell ⟨z, (T.mem z).key, (T.mem z).value⟩ .red .left T.nil T.nil (up T.nil ctx) := by
    rw [hlink, Rbtree.setColor, Rbtree.modify_self, Rbtree.setChild, Rbtree.modify_self,
      Rbtree.setChild, Rbtree.modify_self, hang_mem hout, hmem₁]
    rfl
  have hnil : (linkNew T z (up T.nil ctx)).nil = T.nil := by rw [hlink]; exact hang_nil.trans hnil₁
  have hroot : (linkNew T z (up T.nil ctx)).root = (hang T₁ z ctx).root := by rw [hlink]; rfl
  refine ⟨⟨hnil, ?_⟩, ?_, ?_, ?_⟩
  · rw [hother _ hz.symm, hang_mem ht.around.ne_nil, hother₁ _ hz.symm]
  · rw [hnil]
    exact ⟨⟨hz, hmem⟩, trivial, trivial⟩
  · have haround := haround₁.hang ht.nodup_around z
    rw [hnil₁, ← hroot] at haround
    rw [hnil]
    exact haround.congr fun q hq => hother q (ne_of_mem_of_not_mem hq hout)
  · have hperm := (inorder_plug_perm ctx
      (.node .red ⟨z, (T.mem z).key, (T.mem z).value⟩ .leaf .leaf)).map Binding.ptr
    rw [ptrs, hperm.nodup_iff, ColoredTree.inorder, ColoredTree.inorder, List.nil_append,
      (List.perm_append_singleton _ _ |>.map _).nodup_iff, List.map_cons, List.nodup_cons]
    exact ⟨hout, ht.nodup_around⟩

theorem rbtreeInsert_spec (ht : RedBlackTree T t) (hs : Sorted t.inorder) (hz : z ≠ T.nil)
    (hout : z ∉ ptrs t.inorder) :
    ((T.mem z).key ∈ keys t.inorder ∧ Returns (rbtreeInsert · T z) T) ∨
    ((T.mem z).key ∉ keys t.inorder ∧ ∃ T' t' pre suf,
      Returns (rbtreeInsert · T z) T' ∧ T'.nil = T.nil ∧ RedBlackTree T' t' ∧
      t.inorder = pre ++ suf ∧ t'.inorder = pre ++ ⟨z, (T.mem z).key, (T.mem z).value⟩ :: suf ∧
      Sorted t'.inorder) := by
  have hbet : Between (T.mem z).key [] := ⟨fun _ h => (nomatch h), fun _ h => (nomatch h)⟩
  have hroot : T.root = top T.nil t := ht.stored.root_eq
  obtain ⟨hmem, hret⟩ | ⟨hmem, ctx, hplug, hbet', hret⟩ := insertSearch_spec ht.stored hs hbet
  · refine .inl ⟨hmem, ?_⟩
    rw [← hroot] at hret
    exact Returns.bind hret (.const fun turns => rfl)
  · right
    have hplug : plug ctx .leaf = t := hplug
    obtain ⟨n, hb⟩ := ht.balanced
    have hroot_black := ht.root_black
    have hstored := ht.stored
    rw [← hplug] at hb hroot_black hstored
    obtain ⟨m, hfits, hm, -⟩ := fits_of_plug hb hroot_black
    have horder : t.inorder = before ctx ++ after ctx := by
      rw [← hplug, inorder_plug, ColoredTree.inorder, List.append_nil]
    have hctx : z ∉ ptrs (items ctx) := by rwa [items, ← horder]
    obtain ⟨hsame, hnew⟩ := linkNew_spec hstored.focus hz hctx hbet'
    obtain ⟨T', t', hfix, hnil', ht', horder'⟩ := rbtreeInsertFixup_spec hnew rfl
      ⟨⟨rfl, rfl⟩, hm, hm⟩ hfits (hsame.black ht.nil_black)
    have horder' : t'.inorder =
        before ctx ++ ⟨z, (T.mem z).key, (T.mem z).value⟩ :: after ctx := by
      rw [horder', inorder_plug]
      simp [ColoredTree.inorder]
    refine ⟨hmem, T', t', before ctx, after ctx, ?_, hnil'.trans hsame.nil, ht', horder, horder', ?_⟩
    · rw [← hroot] at hret
      exact Returns.bind hret hfix
    · rw [horder', Sorted, List.pairwise_append, List.pairwise_cons]
      rw [horder, Sorted, List.pairwise_append] at hs
      refine ⟨hs.1, ⟨hbet'.after, hs.2.1⟩, fun a ha a' ha' => ?_⟩
      obtain rfl | ha' := List.mem_cons.mp ha'
      · exact hbet'.before a ha
      · exact hs.2.2 a ha a' ha'

end LearningCode.RbTree
