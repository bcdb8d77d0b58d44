import LearningCode.Btree.Borrow
import LearningCode.Btree.Descend

/-!
# One level of a deletion, in the heap

`btree_delete_key` at an internal node does what `Descends` says, or fails where a
merge does not fit.
-/

namespace LearningCode.Btree

open Blocks Multiway

variable {t h : Nat} {k k' s s' : Int} {heap heap' : Heap} {T T' : Btree} {n : Ptr}
  {b : List (Sub Ptr Int (h + 1) × Int)} {a : List (Int × Sub Ptr Int (h + 1))}
  {x l r l' r' : Sub Ptr Int (h + 1)} {nn : BtreeNode}

def Sits (t : Nat) (heap : Heap) (c : Sub Ptr Int (h + 1)) : Prop :=
  Node heap t (h == 0) c.name c.keys (c.children.map (top h))

theorem stored_succ {c : Sub Ptr Int (h + 1)} :
    Stored t heap (h + 1) c ↔ Sits t heap c ∧ ∀ y ∈ c.children, Stored t heap h y := Iff.rfl

theorem Stored.leaf {c : Sub Ptr Int 1} (hst : Stored t heap 1 c) : ∃ nn, heap c.name = some nn ∧
    Holds t nn true c.keys [] := by
  obtain ⟨⟨n, hn, hholds⟩, -⟩ := stored_succ.mp hst
  rw [Sub.eq_nil c.children] at hholds
  exact ⟨n, hn, hholds⟩

theorem stored_leaf {c : Sub Ptr Int 1} (hn : heap c.name = some nn)
    (hholds : Holds t nn true c.keys []) : Stored t heap 1 c := by
  refine ⟨⟨nn, hn, ?_⟩, fun y _ => nomatch y⟩
  rw [Sub.eq_nil c.children]
  exact hholds

theorem width_children {c : Sub Ptr Int (h + 1)} {lo hi : Nat} (hc : Shaped lo hi (h + 1) c) :
    Width (h == 0) (c.children.map (top h)) c.keys.length := by
  cases h with
  | zero => simp [Width, Sub.eq_nil c.children]
  | succ h => simpa [Width] using hc.2.1 (Nat.succ_pos h)

def Holder (t : Nat) (heap : Heap) (n : Ptr) (b : List (Sub Ptr Int (h + 1) × Int)) (s : Int)
    (a : List (Int × Sub Ptr Int (h + 1))) (l r : Ptr) : Prop :=
  Node heap t false n (b.map Prod.snd ++ s :: a.map Prod.fst)
    (b.map (fun p => p.1.name) ++ l :: r :: a.map fun p => p.2.name)

theorem stored_pair : Stored t heap (h + 2) (Frame.fill ⟨n, b, (s, r) :: a⟩ l) ↔
    Holder t heap n b s a l.name r.name ∧ (Sits t heap l ∧ Sits t heap r) ∧
      (∀ y ∈ l.children ++ r.children, Stored t heap h y) ∧
      ∀ y ∈ Frame.siblings ⟨n, b, a⟩, Stored t heap (h + 1) y := by
  have hnames : (b.map Prod.fst ++ l :: r :: a.map Prod.snd).map (top (h + 1)) =
      b.map (fun p => p.1.name) ++ l.name :: r.name :: a.map fun p => p.2.name := by
    simp [Function.comp_def]
  rw [stored_succ, Sits, Holder]
  simp only [Frame.fill_name, Frame.fill_keys, Frame.fill_children, Frame.keys, List.map_cons,
    hnames, Frame.siblings, List.forall_mem_append, List.forall_mem_cons, stored_succ (c := l),
    stored_succ (c := r)]
  constructor
  · rintro ⟨hn, hb, ⟨hl, hlc⟩, ⟨hr, hrc⟩, ha⟩
    exact ⟨hn, ⟨hl, hr⟩, ⟨hlc, hrc⟩, hb, ha⟩
  · rintro ⟨hn, ⟨hl, hr⟩, ⟨hlc, hrc⟩, hb, ha⟩
    exact ⟨hn, hb, ⟨hl, hlc⟩, ⟨hr, hrc⟩, ha⟩

theorem Stored.beside (hst : Stored t heap (h + 2) (Frame.fill ⟨n, b, (s, r) :: a⟩ l))
    (hnd : (names (h + 2) (Frame.fill ⟨n, b, (s, r) :: a⟩ l)).Nodup)
    (hsame : ∀ p, p ≠ n → p ≠ l.name → p ≠ r.name → heap' p = heap p) :
    (∀ y ∈ l.children ++ r.children, Stored t heap' h y) ∧
      ∀ y ∈ Frame.siblings ⟨n, b, a⟩, Stored t heap' (h + 1) y := by
  obtain ⟨-, -, hc, hs⟩ := stored_pair.mp hst
  have hnd := (names_pair_perm n b a l r s).nodup_iff.mp hnd
  simp only [List.nodup_cons, List.mem_cons, not_or] at hnd
  obtain ⟨⟨-, -, hn⟩, ⟨-, hl⟩, hr, -⟩ := hnd
  have hout : ∀ p ∈ (l.children ++ r.children).flatMap (names h) ++
      (Frame.siblings ⟨n, b, a⟩).flatMap (names (h + 1)), heap' p = heap p := by
    intro p hp
    refine hsame p ?_ ?_ ?_
    · rintro rfl
      exact hn hp
    · rintro rfl
      exact hl hp
    · rintro rfl
      exact hr hp
  constructor
  · intro y hy
    refine (hc y hy).frame fun p hp => hout p (List.mem_append_left _ ?_)
    exact List.mem_flatMap.mpr ⟨y, hy, hp⟩
  · intro y hy
    refine (hs y hy).frame fun p hp => hout p (List.mem_append_right _ ?_)
    exact List.mem_flatMap.mpr ⟨y, hy, hp⟩

theorem pair_names (hnd : (names (h + 2) (Frame.fill ⟨n, b, (s, r) :: a⟩ l)).Nodup) :
    n ≠ l.name ∧ n ≠ r.name ∧ l.name ≠ r.name := by
  have hnd := (names_pair_perm n b a l r s).nodup_iff.mp hnd
  simp only [List.nodup_cons, List.mem_cons, not_or] at hnd
  exact ⟨hnd.1.1, hnd.1.2.1, hnd.2.1.1⟩

theorem pair_outside {p : Ptr} (hp : p ∉ names (h + 2) (Frame.fill ⟨n, b, (s, r) :: a⟩ l)) :
    p ≠ n ∧ p ≠ l.name ∧ p ≠ r.name := by
  rw [(names_pair_perm n b a l r s).mem_iff] at hp
  simp only [List.mem_cons, not_or] at hp
  exact ⟨hp.1, hp.2.1, hp.2.2.1⟩

theorem Stored.rebuild (hst : Stored t heap (h + 2) (Frame.fill ⟨n, b, (s, r) :: a⟩ l))
    (hnd : (names (h + 2) (Frame.fill ⟨n, b, (s, r) :: a⟩ l)).Nodup)
    (hsame : ∀ p, p ≠ n → p ≠ l.name → p ≠ r.name → heap' p = heap p)
    (hn : Holder t heap' n b s' a l'.name r'.name) (hl : Sits t heap' l') (hr : Sits t heap' r')
    (hc : l'.children ++ r'.children = l.children ++ r.children) :
    Stored t heap' (h + 2) (Frame.fill ⟨n, b, (s', r') :: a⟩ l') := by
  obtain ⟨hchildren, hsiblings⟩ := hst.beside hnd hsame
  exact stored_pair.mpr ⟨hn, ⟨hl, hr⟩, hc ▸ hchildren, hsiblings⟩

-- ---------------------------------------------------------------------------
-- The three cells changed
-- ---------------------------------------------------------------------------

/-- The heap holds the new frame around the next child, or the child alone if the
node had its last key taken. -/
structure Lands (T T' : Btree) (f : Opened h) (x : Sub Ptr Int (h + 1)) (f' : Opened h)
    (x' : Sub Ptr Int (h + 1)) : Prop where
  degree : T'.t = T.t
  same : ∀ p, p ∉ names (h + 2) (f.fill x) → T'.heap p = T.heap p
  child : Stored T.t T'.heap (h + 1) x'
  node : if f'.keys = [] then T'.root = some x'.name ∧ T'.heap f.name = none
    else T'.root = T.root ∧ Stored T.t T'.heap (h + 2) (f'.fill x')

theorem Stored.child {f : Opened h} (hst : Stored t heap (h + 2) (f.fill x)) :
    Stored t heap (h + 1) x := hst.2 x (by simp)

theorem Lands.of_stored {f f' : Opened h} {x x' : Sub Ptr Int (h + 1)} (hroot : T'.root = T.root)
    (hdegree : T'.t = T.t) (hsame : ∀ p, p ∉ names (h + 2) (f.fill x) → T'.heap p = T.heap p)
    (hst : Stored T.t T'.heap (h + 2) (f'.fill x')) (hkeys : f'.keys ≠ []) :
    Lands T T' f x f' x' :=
  ⟨hdegree, hsame, hst.child, by rw [if_neg hkeys]; exact ⟨hroot, hst⟩⟩

theorem borrowRight_lands {ks : List Int} {i : Nat} (ht : 2 ≤ T.t)
    (hst : Stored T.t T.heap (h + 2) (Frame.fill ⟨n, b, (s, r) :: a⟩ x))
    (hnd : (names (h + 2) (Frame.fill ⟨n, b, (s, r) :: a⟩ x)).Nodup) (hi : i = b.length)
    (hx : Shaped (T.t - 1) (2 * T.t - 1) (h + 1) x) (hr : Shaped (T.t - 1) (2 * T.t - 1) (h + 1) r)
    (hxlen : x.keys.length = T.t - 1) (hks : r.keys = s' :: ks) : ∃ T',
      borrowRight T n x.name r.name i = some T' ∧
      Lands T T' ⟨n, b, (s, r) :: a⟩ x ⟨n, b, (s', ⟨r.name, ks, r.children.drop 1⟩) :: a⟩
        ⟨x.name, x.keys ++ [s], x.children ++ r.children.take 1⟩ := by
  obtain ⟨hn, ⟨hxsits, hrsits⟩, -⟩ := stored_pair.mp hst
  obtain ⟨hnx, hnr, hxr⟩ := pair_names hnd
  have hrwidth := width_children hr
  rw [Sits, hks] at hrsits
  rw [hks, List.length_cons] at hrwidth
  obtain ⟨T', hcall, hdegree, hroot, hsame, hn', hx', hr'⟩ :=
    borrowRight_spec ht hnx hnr hxr hn hxsits hrsits hxlen (width_children hx) hrwidth
  rw [List.length_map, ← hi] at hcall
  refine ⟨T', hcall, .of_stored hroot hdegree ?_ ?_ (by simp [Frame.keys])⟩
  · intro p hp
    obtain ⟨hpn, hpx, hpr⟩ := pair_outside hp
    exact hsame p hpn hpx hpr
  · refine hst.rebuild hnd hsame hn' ?_ ?_ ?_
    · simpa [Sits, List.map_take] using hx'
    · simpa [Sits, List.map_drop] using hr'
    · simp only [List.append_assoc, List.take_append_drop]

theorem borrowLeft_lands {ks : List Int} {i : Nat} (ht : 2 ≤ T.t)
    (hst : Stored T.t T.heap (h + 2) (Frame.fill ⟨n, b ++ [(l, s)], a⟩ x))
    (hnd : (names (h + 2) (Frame.fill ⟨n, b ++ [(l, s)], a⟩ x)).Nodup) (hi : i = b.length + 1)
    (hx : Shaped (T.t - 1) (2 * T.t - 1) (h + 1) x) (hl : Shaped (T.t - 1) (2 * T.t - 1) (h + 1) l)
    (hxlen : x.keys.length = T.t - 1) (hks : l.keys = ks ++ [s']) : ∃ T',
      borrowLeft T n x.name l.name i = some T' ∧
      Lands T T' ⟨n, b ++ [(l, s)], a⟩ x
        ⟨n, b ++ [(⟨l.name, ks, l.children.take l.keys.length⟩, s')], a⟩
        ⟨x.name, s :: x.keys, l.children.drop l.keys.length ++ x.children⟩ := by
  have hst' := hst
  have hnd' := hnd
  rw [fill_swap] at hst' hnd'
  obtain ⟨hn, ⟨hlsits, hxsits⟩, -⟩ := stored_pair.mp hst'
  obtain ⟨hnl, hnx, hlx⟩ := pair_names hnd'
  have hlwidth := width_children hl
  have hlen : l.keys.length = ks.length + 1 := by rw [hks, List.length_append, List.length_singleton]
  rw [Sits, hks] at hlsits
  rw [hlen] at hlwidth
  obtain ⟨T', hcall, hdegree, hroot, hsame, hn', hx', hl'⟩ :=
    borrowLeft_spec ht hnx hnl hlx.symm hn hxsits hlsits hxlen (width_children hx) hlwidth
  rw [List.length_map, ← hi] at hcall
  have hsame' : ∀ p, p ≠ n → p ≠ l.name → p ≠ x.name → T'.heap p = T.heap p :=
    fun p hpn hpl hpx => hsame p hpn hpx hpl
  refine ⟨T', hcall, .of_stored hroot hdegree ?_ ?_ (by simp [Frame.keys])⟩
  · intro p hp
    rw [fill_swap] at hp
    obtain ⟨hpn, hpl, hpx⟩ := pair_outside hp
    exact hsame p hpn hpx hpl
  · rw [fill_swap]
    refine hst'.rebuild hnd' hsame' hn' ?_ ?_ ?_
    · simpa [Sits, List.map_take, hlen] using hl'
    · simpa [Sits, List.map_drop, hlen] using hx'
    · simp only [← List.append_assoc, List.take_append_drop]

theorem btreeMerge_lands {f : Opened h} {i : Nat} (ht : 2 ≤ T.t)
    (hf : f.fill x = Frame.fill ⟨n, b, (s, r) :: a⟩ l) (hname : f.name = n)
    (hst : Stored T.t T.heap (h + 2) (f.fill x)) (hnd : (names (h + 2) (f.fill x)).Nodup)
    (hi : i = b.length) (hl : Shaped (T.t - 1) (2 * T.t - 1) (h + 1) l)
    (hr : Shaped (T.t - 1) (2 * T.t - 1) (h + 1) r) (hllen : l.keys.length = T.t - 1)
    (hrlen : r.keys.length = T.t - 1) :
    if f.keys.length = 2 * T.t - 1 then btreeMerge T n i = none
    else ∃ T', btreeMerge T n i = some T' ∧ Lands T T' f x ⟨n, b, a⟩ (l.join s r) := by
  have hflen : f.keys.length = (b.map Prod.snd ++ s :: a.map Prod.fst).length := by
    have hkeys := congrArg (fun c => c.keys.length) hf
    simpa [Frame.keys] using hkeys
  rw [hf] at hst hnd
  obtain ⟨hn, ⟨hlsits, hrsits⟩, -⟩ := stored_pair.mp hst
  obtain ⟨hnl, hnr, hlr⟩ := pair_names hnd
  have hspec := btreeMerge_spec ht hnl hlr hn hlsits hrsits (by simp) (by simp) hllen hrlen
    (hllen ▸ width_children hl) (hrlen ▸ width_children hr)
  rw [hflen]
  simp only [List.length_map, ← hi] at hspec ⊢
  split at hspec
  · next hfull => rwa [if_pos hfull]
  · next hfull =>
    rw [if_neg hfull]
    obtain ⟨T', hcall, hdegree, hsame, hjoin, hnode⟩ := hspec
    obtain ⟨hchildren, hsiblings⟩ := hst.beside hnd hsame
    have hchild : Stored T.t T'.heap (h + 1) (l.join s r) := by
      refine ⟨?_, hchildren⟩
      simpa [List.map_append] using hjoin
    refine ⟨T', hcall, hdegree, ?_, hchild, ?_⟩
    · intro p hp
      rw [hf] at hp
      obtain ⟨hpn, hpl, hpr⟩ := pair_outside hp
      exact hsame p hpn hpl hpr
    · have hkeys : Frame.keys ⟨n, b, a⟩ = b.map Prod.snd ++ a.map Prod.fst := rfl
      rw [Collapses] at hnode
      split at hnode
      · next hnil =>
        rw [if_pos (hkeys.trans hnil), hname]
        exact hnode
      · next hnil =>
        rw [if_neg (hkeys ▸ hnil)]
        refine ⟨hnode.1, ⟨?_, ?_⟩⟩
        · have hkids := hnode.2
          simpa [Frame.keys, Function.comp_def] using hkids
        · simp only [Frame.fill_children, List.forall_mem_append, List.forall_mem_cons]
          rw [Frame.siblings, List.forall_mem_append] at hsiblings
          exact ⟨hsiblings.1, hchild, hsiblings.2⟩

-- ---------------------------------------------------------------------------
-- Finding the way
-- ---------------------------------------------------------------------------

theorem position_eq {pre suf : List Int} (front rest : List Int) (hpre : ∀ j ∈ pre, j < k)
    (hsuf : ∀ j ∈ suf.head?, k ≤ j) :
    position (front ++ (pre ++ suf ++ rest)) k (pre.length + suf.length) front.length =
      some (front.length + pre.length) := by
  induction pre generalizing front with
  | nil =>
    cases suf with
    | nil => rfl
    | cons j suf =>
      have hj : ¬ j < k := Int.not_lt.mpr (hsuf j rfl)
      simp [position, hj]
  | cons j pre ih =>
    rw [List.forall_mem_cons] at hpre
    have hrest := ih (front ++ [j]) hpre.2
    simp only [List.length_append, List.length_singleton, List.append_assoc,
      List.singleton_append] at hrest
    have hcount : (j :: pre).length + suf.length = pre.length + suf.length + 1 := by
      simp only [List.length_cons]
      omega
    have hread : (front ++ (j :: pre ++ suf ++ rest))[front.length]? = some j := by simp
    rw [hcount, position, hread]
    simp only [Option.bind_eq_bind, Option.bind_some, if_pos hpre.1, gt_iff_lt]
    simpa [Nat.add_assoc, Nat.add_comm 1] using hrest

theorem position_holds {ks pre suf : List Int} {ps : List Ptr} {leaf : Bool}
    (hn : Holds t nn leaf ks ps) (hks : ks = pre ++ suf) (hpre : ∀ j ∈ pre, j < k)
    (hsuf : ∀ j ∈ suf.head?, k ≤ j) : position nn.keys k nn.num 0 = some pre.length := by
  obtain ⟨rest, hkeys, -⟩ := hn.keys
  subst hks
  rw [hkeys, hn.num, List.length_append]
  simpa using position_eq [] rest hpre hsuf

theorem below_keys (hb : Below k b) : ∀ j ∈ b.map Prod.snd, j < k := by
  intro j hj
  obtain ⟨p, hp, rfl⟩ := List.mem_map.mp hj
  exact hb p hp

theorem deleteStep_found (hb : Below k b)
    (hst : Stored T.t T.heap (h + 2) (Frame.fill ⟨n, b, (k, r) :: a⟩ x)) :
    deleteStep T n k = deleteFound T n b.length k := by
  obtain ⟨⟨nn, hnode, hn⟩, -⟩ := stored_pair.mp hst
  have hpos : position nn.keys k nn.num 0 = some b.length := by
    have hpos := position_holds hn rfl (below_keys hb) (fun j hj => by simp_all)
    rwa [List.length_map] at hpos
  have hfound : b.length < nn.num ∧ nn.keys[b.length]? = some k := by
    refine ⟨?_, hn.key (by simp)⟩
    rw [hn.num]
    simp
  simp only [deleteStep, hnode, hpos, Option.bind_eq_bind, Option.bind_some, if_pos hfound,
    hn.isLeaf, Bool.false_eq_true, if_false]

theorem deleteStep_missed (hb : Below k b) (ha : Above k a)
    (hst : Stored T.t T.heap (h + 2) (Frame.fill ⟨n, b, a⟩ x)) :
    deleteStep T n k = if x.keys.length = T.t - 1 then
      (refill T n x.name b.length).map fun r => (r.1, some (some r.2, k))
      else some (T, some (some x.name, k)) := by
  obtain ⟨⟨nn, hnode, hn⟩, -⟩ := stored_succ.mp hst
  obtain ⟨⟨nc, hchild, hc⟩, -⟩ := stored_succ.mp hst.child
  simp only [Frame.fill_name, Frame.fill_keys, Frame.fill_children, Frame.keys, List.map_append,
    List.map_cons, top_succ] at hnode hn
  have hsuf : ∀ j ∈ (a.map Prod.fst).head?, k < j := by
    intro j hj
    rw [List.head?_map] at hj
    obtain ⟨p, hp, rfl⟩ := Option.map_eq_some_iff.mp hj
    exact ha p hp
  have hpos : position nn.keys k nn.num 0 = some b.length := by
    have hpos := position_holds hn rfl (below_keys hb) fun j hj => Int.le_of_lt (hsuf j hj)
    rwa [List.length_map] at hpos
  have hmissed : ¬ (b.length < nn.num ∧ nn.keys[b.length]? = some k) := by
    rintro ⟨hlt, hread⟩
    cases a with
    | nil =>
      rw [hn.num] at hlt
      simp at hlt
    | cons p a =>
      have hread' : nn.keys[b.length]? = some p.1 := hn.key (by simp)
      cases hread.symm.trans hread'
      exact Int.lt_irrefl _ (ha p rfl)
  have hread : nn.children[b.length]? = some (some x.name) := hn.child (by simp)
  simp only [deleteStep, hnode, hpos, Option.bind_eq_bind, Option.bind_some, if_neg hmissed, hread,
    hchild, hc.num]

-- ---------------------------------------------------------------------------
-- Refilling a child
-- ---------------------------------------------------------------------------

def leftNum (b : List (Sub Ptr Int (h + 1) × Int)) : Option Nat :=
  b.getLast?.map fun p => p.1.keys.length

def rightNum (a : List (Int × Sub Ptr Int (h + 1))) : Option Nat :=
  a.head?.map fun p => p.2.keys.length

theorem siblingNum_eq {c : Sub Ptr Int (h + 1)} (hc : Stored T.t T.heap (h + 1) c) :
    siblingNum T (some c.name) = some (some c.keys.length) := by
  obtain ⟨⟨nc, hnode, hholds⟩, -⟩ := stored_succ.mp hc
  simp [siblingNum, hnode, hholds.num]

theorem Stored.readChild {c : Sub Ptr Int (h + 2)} {i : Nat} (pre suf : List (Sub Ptr Int (h + 1)))
    (hst : Stored t heap (h + 2) c) (hnode : heap c.name = some nn)
    (hc : c.children = pre ++ x :: suf) (hi : i = pre.length) :
    nn.children[i]? = some (some x.name) := by
  obtain ⟨⟨nn', hnode', hn⟩, -⟩ := stored_succ.mp hst
  cases hnode.symm.trans hnode'
  rw [hc, List.map_append, List.map_cons] at hn
  exact hn.child (by simpa using hi)

theorem leftSibling_eq (hst : Stored T.t T.heap (h + 2) (Frame.fill ⟨n, b, a⟩ x))
    (hnode : T.heap n = some nn) :
    leftSibling nn b.length = some (b.getLast?.map fun p => p.1.name) ∧
      siblingNum T (b.getLast?.map fun p => p.1.name) = some (leftNum b) := by
  rcases List.eq_nil_or_concat' b with rfl | ⟨b, ⟨l, s⟩, rfl⟩
  · exact ⟨rfl, rfl⟩
  · have hl : Stored T.t T.heap (h + 1) l := hst.2 l (by simp)
    have hread : nn.children[b.length]? = some (some l.name) :=
      hst.readChild (b.map Prod.fst) (x :: a.map Prod.snd) hnode (by simp) (by simp)
    constructor
    · simpa [leftSibling] using hread
    · simpa [leftNum] using siblingNum_eq hl

theorem rightSibling_eq (hst : Stored T.t T.heap (h + 2) (Frame.fill ⟨n, b, a⟩ x))
    (hnode : T.heap n = some nn) :
    rightSibling nn b.length = some (a.head?.map fun p => p.2.name) ∧
      siblingNum T (a.head?.map fun p => p.2.name) = some (rightNum a) := by
  obtain ⟨⟨nn', hnode', hn⟩, -⟩ := stored_succ.mp hst
  cases hnode.symm.trans hnode'
  have hnum : nn.num = b.length + a.length := by simpa [Frame.keys] using hn.num
  cases a with
  | nil =>
    refine ⟨?_, rfl⟩
    simp only [rightSibling, hnum, List.length_nil]
    rw [if_neg (by omega)]
    rfl
  | cons p a =>
    have hr : Stored T.t T.heap (h + 1) p.2 := hst.2 p.2 (by simp)
    have hread : nn.children[b.length + 1]? = some (some p.2.name) :=
      hst.readChild (b.map Prod.fst ++ [x]) (a.map Prod.snd) hnode (by simp) (by simp)
    constructor
    · simp only [rightSibling, hnum, List.length_cons]
      rw [if_pos (by omega)]
      simpa using hread
    · simpa [rightNum] using siblingNum_eq hr

theorem refill_eq (hst : Stored T.t T.heap (h + 2) (Frame.fill ⟨n, b, a⟩ x)) (c : Ptr) :
    refill T n c b.length =
      if atLeast (leftNum b) T.t || atLeast (rightNum a) T.t then
        if atLeast (rightNum a) T.t && richer (leftNum b) (rightNum a) then do
          let right ← a.head?.map fun p => p.2.name
          let T ← borrowRight T n c right b.length
          some (T, c)
        else do
          let left ← b.getLast?.map fun p => p.1.name
          let T ← borrowLeft T n c left b.length
          some (T, c)
      else if ((leftNum b).isNone || equals (leftNum b) (T.t - 1)) &&
          ((rightNum a).isNone || equals (rightNum a) (T.t - 1)) then
        if equals (leftNum b) (T.t - 1) then do
          let left ← b.getLast?.map fun p => p.1.name
          let T ← btreeMerge T n (b.length - 1)
          some (T, left)
        else if equals (rightNum a) (T.t - 1) then do
          let T ← btreeMerge T n b.length
          some (T, c)
        else some (T, c)
      else some (T, c) := by
  obtain ⟨⟨nn, hnode, -⟩, -⟩ := stored_succ.mp hst
  obtain ⟨hleft, hlnum⟩ := leftSibling_eq hst hnode
  obtain ⟨hright, hrnum⟩ := rightSibling_eq hst hnode
  rw [Frame.fill_name] at hnode
  rw [refill, bind_eq_of hnode, bind_eq_of hleft, bind_eq_of hright, bind_eq_of hlnum,
    bind_eq_of hrnum]

def Fits (t : Nat) : Turn → (keys : Nat) → Prop
  | .merge, keys => keys ≠ 2 * t - 1
  | .mergeFound, keys => keys ≠ 2 * t - 1 ∧ keys ≠ 1
  | _, _ => True

instance (t : Nat) (turn : Turn) (keys : Nat) : Decidable (Fits t turn keys) := by
  cases turn <;> unfold Fits <;> infer_instance

theorem setKey_stored (hst : Stored T.t T.heap (h + 2) (Frame.fill ⟨n, b, (k, r) :: a⟩ x))
    (hnd : (names (h + 2) (Frame.fill ⟨n, b, (k, r) :: a⟩ x)).Nodup) (hnode : T.heap n = some nn)
    (k' : Int) : ∃ keys, write nn.keys b.length k' = some keys ∧
      Stored T.t (T.store n { nn with keys := keys }).heap (h + 2)
        (Frame.fill ⟨n, b, (k', r) :: a⟩ x) := by
  obtain ⟨⟨nn', hnode', hn⟩, ⟨hx, hr⟩, -⟩ := stored_pair.mp hst
  cases hnode.symm.trans hnode'
  obtain ⟨hnx, hnr, -⟩ := pair_names hnd
  obtain ⟨keys, hwrite, hholds⟩ := hn.setKey k' (by simp : b.length = _)
  have hsame : ∀ p, p ≠ n → (T.store n { nn with keys := keys }).heap p = T.heap p :=
    fun p hp => by simp [hp]
  have hsits : ∀ y : Sub Ptr Int (h + 1), n ≠ y.name → Sits T.t T.heap y →
      Sits T.t (T.store n { nn with keys := keys }).heap y := by
    rintro y hy ⟨ny, hny, hholds⟩
    exact ⟨ny, (hsame _ hy.symm).trans hny, hholds⟩
  refine ⟨keys, hwrite, hst.rebuild hnd (fun p hp _ _ => hsame p hp) ?_ (hsits x hnx hx)
    (hsits r hnr hr) rfl⟩
  exact ⟨_, by simp, hholds⟩

theorem found_read (hst : Stored T.t T.heap (h + 2) (Frame.fill ⟨n, b, (k, r) :: a⟩ x))
    (hnode : T.heap n = some nn) : ∃ nl nr, T.heap x.name = some nl ∧ T.heap r.name = some nr ∧
      nn.children[b.length]? = some (some x.name) ∧
      nn.children[b.length + 1]? = some (some r.name) ∧
      Holds T.t nl (h == 0) x.keys (x.children.map (top h)) ∧
      Holds T.t nr (h == 0) r.keys (r.children.map (top h)) := by
  obtain ⟨⟨nn', hnode', hn⟩, ⟨⟨nl, hl, hlh⟩, ⟨nr, hr, hrh⟩⟩, -⟩ := stored_pair.mp hst
  cases hnode.symm.trans hnode'
  refine ⟨nl, nr, hl, hr, ?_, ?_, hlh, hrh⟩
  · exact hst.readChild (b.map Prod.fst) (r :: a.map Prod.snd) hnode (by simp) (by simp)
  · exact hst.readChild (b.map Prod.fst ++ [x]) (a.map Prod.snd) hnode (by simp)
      (by simp)

theorem lendLeft_lands {ks : List Int} (hb : Below k b)
    (hst : Stored T.t T.heap (h + 2) (Frame.fill ⟨n, b, (k, r) :: a⟩ x))
    (hnd : (names (h + 2) (Frame.fill ⟨n, b, (k, r) :: a⟩ x)).Nodup)
    (hx : T.t ≤ x.keys.length) (hks : x.keys = ks ++ [k']) : ∃ T',
      deleteStep T n k = some (T', some (some x.name, k')) ∧
      Lands T T' ⟨n, b, (k, r) :: a⟩ x ⟨n, b, (k', r) :: a⟩ x := by
  obtain ⟨⟨nn, hnode, -⟩, -⟩ := stored_pair.mp hst
  obtain ⟨nl, nr, hleft, -, hread, -, hholds, -⟩ := found_read hst hnode
  obtain ⟨keys, hwrite, hstored⟩ := setKey_stored hst hnd hnode k'
  rw [hks] at hholds
  have hnum : nl.num = ks.length + 1 := by simpa using hholds.num
  have hlast : nl.keys[nl.num - 1]? = some k' := hholds.key (by omega)
  have hge : nl.num ≥ T.t := by
    rw [hks, List.length_append, List.length_singleton] at hx
    omega
  refine ⟨T.store n { nn with keys := keys }, ?_, .of_stored rfl rfl ?_ hstored
    (by simp [Frame.keys])⟩
  · rw [deleteStep_found hb hst]
    simp only [deleteFound, hnode, hread, hleft, hlast, hwrite, if_pos hge, Option.bind_eq_bind,
      Option.bind_some]
  · intro p hp
    simp [(pair_outside hp).1]

theorem lendRight_lands {ks : List Int} (hb : Below k b)
    (hst : Stored T.t T.heap (h + 2) (Frame.fill ⟨n, b, (k, r) :: a⟩ x))
    (hnd : (names (h + 2) (Frame.fill ⟨n, b, (k, r) :: a⟩ x)).Nodup)
    (hx : x.keys.length < T.t) (hr : T.t ≤ r.keys.length) (hks : r.keys = k' :: ks) : ∃ T',
      deleteStep T n k = some (T', some (some r.name, k')) ∧
      Lands T T' ⟨n, b, (k, r) :: a⟩ x ⟨n, b ++ [(x, k')], a⟩ r := by
  obtain ⟨⟨nn, hnode, -⟩, -⟩ := stored_pair.mp hst
  obtain ⟨nl, nr, hleft, hright, hread, hread', hlholds, hholds⟩ := found_read hst hnode
  obtain ⟨keys, hwrite, hstored⟩ := setKey_stored hst hnd hnode k'
  have hlt : ¬ nl.num ≥ T.t := by
    rw [hlholds.num]
    exact Nat.not_le.mpr hx
  have hge : nr.num ≥ T.t := by
    rw [hholds.num]
    exact hr
  rw [hks] at hholds
  have hfirst : nr.keys[0]? = some k' := hholds.key (a := []) rfl
  rw [← fill_swap] at hstored
  refine ⟨T.store n { nn with keys := keys }, ?_, .of_stored rfl rfl ?_ hstored
    (by simp [Frame.keys])⟩
  · rw [deleteStep_found hb hst]
    simp only [deleteFound, hnode, hread, hread', hleft, hright, hfirst, hwrite, if_neg hlt,
      if_pos hge, Option.bind_eq_bind, Option.bind_some]
  · intro p hp
    simp [(pair_outside hp).1]

theorem mergeFound_lands (ht : 2 ≤ T.t) (hb : Below k b)
    (hst : Stored T.t T.heap (h + 2) (Frame.fill ⟨n, b, (k, r) :: a⟩ x))
    (hnd : (names (h + 2) (Frame.fill ⟨n, b, (k, r) :: a⟩ x)).Nodup)
    (hxs : Shaped (T.t - 1) (2 * T.t - 1) (h + 1) x)
    (hrs : Shaped (T.t - 1) (2 * T.t - 1) (h + 1) r)
    (hx : x.keys.length = T.t - 1) (hr : r.keys.length = T.t - 1) :
    if Fits T.t .mergeFound (Frame.keys ⟨n, b, (k, r) :: a⟩).length then
      ∃ T', deleteStep T n k = some (T', some (some x.name, k)) ∧
        Lands T T' ⟨n, b, (k, r) :: a⟩ x ⟨n, b, a⟩ (x.join k r)
    else deleteStep T n k = none := by
  obtain ⟨⟨nn, hnode, -⟩, -⟩ := stored_pair.mp hst
  obtain ⟨nl, nr, hleft, hright, hread, hread', hlholds, hrholds⟩ := found_read hst hnode
  have hlt : ¬ nl.num ≥ T.t := by
    rw [hlholds.num, hx]
    omega
  have hrt : ¬ nr.num ≥ T.t := by
    rw [hrholds.num, hr]
    omega
  have hstep : deleteStep T n k = (btreeMerge T n b.length).bind fun T => (T.heap n).bind fun nn =>
      nn.children[b.length]?.bind fun child => some (T, some (child, k)) := by
    rw [deleteStep_found hb hst]
    simp only [deleteFound, hnode, hread, hread', hleft, hright, if_neg hlt, if_neg hrt,
      Option.bind_eq_bind, Option.bind_some]
  have hmerge := btreeMerge_lands ht rfl rfl hst hnd rfl hxs hrs hx hr
  rw [hstep]
  by_cases hfull : (Frame.keys ⟨n, b, (k, r) :: a⟩).length = 2 * T.t - 1
  · rw [if_pos hfull] at hmerge
    rw [if_neg (fun hfits => hfits.1 hfull), hmerge]
    rfl
  rw [if_neg hfull] at hmerge
  obtain ⟨T', hcall, hlands⟩ := hmerge
  have hnode' := hlands.node
  simp only [hcall, Option.bind_some]
  by_cases hone : Frame.keys ⟨n, b, a⟩ = []
  · -- the node is gone, and read again
    rw [if_pos hone] at hnode'
    have hlen : (Frame.keys ⟨n, b, (k, r) :: a⟩).length = 1 := by
      have hzero := congrArg List.length hone
      simp only [Frame.keys_length, List.length_nil, List.length_cons] at hzero ⊢
      omega
    rw [if_neg (fun hfits => hfits.2 hlen), hnode'.2]
    rfl
  · rw [if_neg hone] at hnode'
    have hlen : (Frame.keys ⟨n, b, (k, r) :: a⟩).length ≠ 1 := by
      intro hlen
      refine hone (List.length_eq_zero_iff.mp ?_)
      simp only [Frame.keys_length, List.length_cons] at hlen ⊢
      omega
    rw [if_pos ⟨hfull, hlen⟩]
    obtain ⟨⟨nn', hnn', -⟩, -⟩ := stored_succ.mp hnode'.2
    have hchild := hnode'.2.readChild (b.map Prod.fst) _ hnn' rfl (by simp : b.length = _)
    refine ⟨T', ?_, hlands⟩
    simp only [Frame.fill_name] at hnn'
    simp only [hnn', hchild, Option.bind_some, join_name]

section
variable {b : List (Sub Ptr Int (h + 1) × Int)} {a : List (Int × Sub Ptr Int (h + 1))} {s : Int}
  {x l r : Sub Ptr Int (h + 1)} (c : Ptr)

theorem refill_borrowRight (hst : Stored T.t T.heap (h + 2) (Frame.fill ⟨n, b, (s, r) :: a⟩ x))
    (hr : T.t ≤ r.keys.length) (hmore : ∀ l ∈ b.getLast?, l.1.keys.length < r.keys.length) :
    refill T n c b.length = (borrowRight T n c r.name b.length).bind fun T => some (T, c) := by
  have hright : atLeast (rightNum ((s, r) :: a)) T.t = true := by
    simpa [atLeast, rightNum] using hr
  have hrich : richer (leftNum b) (rightNum ((s, r) :: a)) = true := by
    cases hlast : b.getLast? with
    | none => simp [leftNum, rightNum, hlast, richer]
    | some l =>
      have hlt := hmore l hlast
      simpa [leftNum, rightNum, hlast, richer] using hlt
  rw [refill_eq hst]
  simp [hright, hrich]

theorem refill_borrowLeft (hst : Stored T.t T.heap (h + 2) (Frame.fill ⟨n, b ++ [(l, s)], a⟩ x))
    (hl : T.t ≤ l.keys.length) (hmore : ∀ r ∈ a.head?, r.2.keys.length ≤ l.keys.length) :
    refill T n c (b ++ [(l, s)]).length =
      (borrowLeft T n c l.name (b.length + 1)).bind fun T => some (T, c) := by
  have hleft : atLeast (leftNum (b ++ [(l, s)])) T.t = true := by
    simpa [atLeast, leftNum] using hl
  have hrich : richer (leftNum (b ++ [(l, s)])) (rightNum a) = false := by
    cases hfirst : a.head? with
    | none => simp [leftNum, rightNum, hfirst, richer]
    | some r =>
      have hle := hmore r hfirst
      simpa [leftNum, rightNum, hfirst, richer] using hle
  rw [refill_eq hst]
  simp [hleft, hrich]

theorem refill_mergeLeft (ht : 2 ≤ T.t)
    (hst : Stored T.t T.heap (h + 2) (Frame.fill ⟨n, b ++ [(l, s)], a⟩ x))
    (hl : l.keys.length = T.t - 1) (hr : ∀ r ∈ a.head?, r.2.keys.length = T.t - 1) :
    refill T n c (b ++ [(l, s)]).length =
      (btreeMerge T n b.length).bind fun T => some (T, l.name) := by
  have hleft : leftNum (b ++ [(l, s)]) = some (T.t - 1) := by simp [leftNum, hl]
  have hright : rightNum a = none ∨ rightNum a = some (T.t - 1) := by
    cases hfirst : a.head? with
    | none => exact .inl (by simp [rightNum, hfirst])
    | some r => exact .inr (by simp [rightNum, hfirst, hr r hfirst])
  have hlow : ¬ T.t ≤ T.t - 1 := by omega
  rw [refill_eq hst]
  rcases hright with hright | hright <;> simp [hleft, hright, atLeast, equals, hlow]

theorem refill_mergeRight (ht : 2 ≤ T.t)
    (hst : Stored T.t T.heap (h + 2) (Frame.fill ⟨n, [], (s, r) :: a⟩ x))
    (hr : r.keys.length = T.t - 1) :
    refill T n c 0 = (btreeMerge T n 0).bind fun T => some (T, c) := by
  have hlow : ¬ T.t ≤ T.t - 1 := by omega
  have hrefill := refill_eq hst c
  rw [List.length_nil] at hrefill
  rw [hrefill]
  simp [leftNum, rightNum, hr, atLeast, equals, hlow]

end

theorem deleteStep_merge {f f' : Opened h} {x x' : Sub Ptr Int (h + 1)} {i : Nat}
    {next : Option (Option Ptr × Int)}
    (hmerge : if f.keys.length = 2 * T.t - 1 then btreeMerge T n i = none
      else ∃ T', btreeMerge T n i = some T' ∧ Lands T T' f x f' x')
    (hstep : deleteStep T n k = (btreeMerge T n i).bind fun T => some (T, next)) :
    if Fits T.t .merge f.keys.length then
      ∃ T', deleteStep T n k = some (T', next) ∧ Lands T T' f x f' x'
    else deleteStep T n k = none := by
  rw [hstep]
  split at hmerge
  · next hfull =>
    rw [if_neg (fun hfits => hfits hfull), hmerge]
    rfl
  · next hfull =>
    obtain ⟨T', hcall, hlands⟩ := hmerge
    exact (if_pos hfull).mpr ⟨T', by rw [hcall]; rfl, hlands⟩

theorem deleteStep_spec {turn : Turn} {f f' : Opened h} {x x' : Sub Ptr Int (h + 1)}
    (ht : 2 ≤ T.t) (hd : Descends T.t k turn f x f' x' k')
    (hst : Stored T.t T.heap (h + 2) (f.fill x)) (hnd : (names (h + 2) (f.fill x)).Nodup)
    (hc : Shaped (T.t - 1) (2 * T.t - 1) (h + 2) (f.fill x)) (hpos : 0 < f.keys.length) :
    if Fits T.t turn f.keys.length then
      ∃ T', deleteStep T f.name k = some (T', some (some x'.name, k')) ∧ Lands T T' f x f' x'
    else deleteStep T f.name k = none := by
  obtain ⟨⟨-, hsiblings⟩, hlow, hx⟩ := shaped_fill_iff.mp hc
  cases hd with
  | stay hb ha hne =>
    refine (if_pos trivial).mpr ⟨T, ?_, ?_⟩
    · rw [deleteStep_missed hb ha hst, if_neg hne]
    · exact .of_stored rfl rfl (fun _ _ => rfl) hst (List.ne_nil_of_length_pos hpos)
  | @borrowRight n b a s s' ks x r hb hs hxlen hks hr hmore =>
    have ha : Above k ((s, r) :: a) := above_cons hs
    obtain ⟨-, hrs⟩ := hsiblings r (by simp [Frame.siblings])
    obtain ⟨T', hcall, hlands⟩ := borrowRight_lands ht hst hnd rfl hx hrs hxlen hks
    refine (if_pos trivial).mpr ⟨T', ?_, hlands⟩
    rw [deleteStep_missed hb ha hst, if_pos hxlen, refill_borrowRight _ hst hr hmore, hcall]
    rfl
  | @borrowLeft n b a s s' ks x l hb ha hxlen hks hl hmore =>
    obtain ⟨-, hls⟩ := hsiblings l (by simp [Frame.siblings])
    obtain ⟨T', hcall, hlands⟩ := borrowLeft_lands ht hst hnd rfl hx hls hxlen hks
    refine (if_pos trivial).mpr ⟨T', ?_, hlands⟩
    rw [deleteStep_missed hb ha hst, if_pos hxlen, refill_borrowLeft _ hst hl hmore, hcall]
    rfl
  | @mergeLeft n b a s x l hb ha hxlen hl hr =>
    obtain ⟨-, hls⟩ := hsiblings l (by simp [Frame.siblings])
    have hmerge := btreeMerge_lands ht (fill_swap n b a l x s) rfl hst hnd rfl hls hx hl hxlen
    refine deleteStep_merge hmerge ?_
    rw [deleteStep_missed hb ha hst, if_pos hxlen, refill_mergeLeft _ ht hst hl hr, Option.map_bind]
    rfl
  | @mergeRight n a s x r hs hxlen hr =>
    obtain ⟨-, hrs⟩ := hsiblings r (by simp [Frame.siblings])
    have hmerge := btreeMerge_lands ht rfl rfl hst hnd rfl hx hrs hxlen hr
    rw [List.length_nil] at hmerge
    refine deleteStep_merge hmerge ?_
    rw [deleteStep_missed (b := []) (List.forall_mem_nil _) (above_cons hs) hst, if_pos hxlen,
      List.length_nil, refill_mergeRight _ ht hst hr, Option.map_bind]
    rfl
  | @lendLeft n b a k' ks x r hb hlen hks =>
    exact (if_pos trivial).mpr (lendLeft_lands hb hst hnd hlen hks)
  | @lendRight n b a k' ks x r hb hlen hr hks =>
    exact (if_pos trivial).mpr (lendRight_lands hb hst hnd hlen hr hks)
  | @mergeFound n b a x r hb hlen hr =>
    obtain ⟨hrlow, hrs⟩ := hsiblings r (by simp [Frame.siblings])
    exact mergeFound_lands ht hb hst hnd hx hrs (by omega) (by omega)

end LearningCode.Btree
