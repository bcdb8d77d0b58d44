import LearningCode.Btree.Contents
import LearningCode.Btree.Insert

/-!
# The place of the new key

Insertion puts the key behind the last one that is not greater, wherever nodes
are cut on the way, so keys in order stay in order.
-/

namespace LearningCode.Btree

open Multiway Multiway.Frame

variable {t h : Nat} {k m : Int} {old new L R X : List Int} {c c' : Sub Ptr Int (h + 1)}

def Takes (k : Int) (old new : List Int) : Prop :=
  ∃ L R, old = L ++ R ∧ new = L ++ k :: R ∧
    (Ordered old → (∀ j ∈ L, j ≤ k) ∧ ∀ j ∈ R, k ≤ j)

theorem Takes.perm (h : Takes k old new) : new.Perm (k :: old) := by
  obtain ⟨L, R, rfl, rfl, -⟩ := h
  exact List.perm_middle

theorem Takes.ordered (h : Takes k old new) (hold : Ordered old) : Ordered new := by
  obtain ⟨L, R, rfl, rfl, hplace⟩ := h
  obtain ⟨hL, hR⟩ := hplace hold
  obtain ⟨hordL, hordR, hLR⟩ := List.pairwise_append.mp hold
  refine List.pairwise_append.mpr ⟨hordL, List.pairwise_cons.mpr ⟨hR, hordR⟩, fun j hj i hi => ?_⟩
  rcases List.mem_cons.mp hi with rfl | hi
  · exact hL j hj
  · exact hLR j hj i hi

theorem Takes.around (h : Takes k old new)
    (hL : Ordered (L ++ (old ++ R)) → ∀ j ∈ L, j ≤ k)
    (hR : Ordered (L ++ (old ++ R)) → ∀ j ∈ R, k ≤ j) :
    Takes k (L ++ (old ++ R)) (L ++ (new ++ R)) := by
  obtain ⟨L', R', rfl, rfl, hplace⟩ := h
  refine ⟨L ++ L', R' ++ R, by simp, by simp, fun hold => ?_⟩
  obtain ⟨hL', hR'⟩ := hplace (hold.sublist
    ((List.sublist_append_left _ R).trans (List.sublist_append_right L _)))
  rw [List.forall_mem_append, List.forall_mem_append]
  exact ⟨⟨hL hold, hL'⟩, hR', hR hold⟩

theorem behind_le {pre : List Int} (hb : Behind k pre) (hs : Ordered pre) : ∀ j ∈ pre, j ≤ k := by
  rcases List.eq_nil_or_concat' pre with rfl | ⟨pre, s, rfl⟩
  · exact nofun
  · have hsk : s ≤ k := hb s (by simp)
    intro j hj
    rcases List.mem_append.mp hj with hj | hj
    · exact Int.le_trans ((List.pairwise_append.mp hs).2.2 j hj s (List.mem_singleton_self s)) hsk
    · rwa [List.mem_singleton.mp hj]

theorem behind_lead {b : List (Sub Ptr Int (h + 1) × Int)} (hb : Behind k (b.map Prod.snd)) :
    Behind k (lead (inorder (h + 1)) b) := by
  rcases List.eq_nil_or_concat' b with rfl | ⟨b, p, rfl⟩
  · exact hb
  · simpa [Behind, lead] using hb

theorem le_trail {a : List (Int × Sub Ptr Int (h + 1))} (ha : ∀ j ∈ a.map Prod.fst, k < j)
    (hs : Ordered (trail (inorder (h + 1)) a)) : ∀ j ∈ trail (inorder (h + 1)) a, k ≤ j := by
  cases a with
  | nil => exact nofun
  | cons p a =>
    have hkp : k ≤ p.1 := Int.le_of_lt (ha p.1 List.mem_cons_self)
    intro j hj
    rcases List.mem_cons.mp hj with rfl | hj
    · exact hkp
    · exact Int.le_trans hkp ((List.pairwise_cons.mp hs).1 j hj)

theorem Takes.fill {b : List (Sub Ptr Int (h + 1) × Int)}
    {a : List (Int × Sub Ptr Int (h + 1))} (htakes : Takes k old new)
    (hb : Behind k (b.map Prod.snd)) (ha : ∀ j ∈ a.map Prod.fst, k < j) :
    Takes k (lead (inorder (h + 1)) b ++ (old ++ trail (inorder (h + 1)) a))
      (lead (inorder (h + 1)) b ++ (new ++ trail (inorder (h + 1)) a)) := by
  refine htakes.around (fun hs => ?_) fun hs => ?_
  · exact behind_le (behind_lead hb) (List.pairwise_append.mp hs).1
  · exact le_trail ha (List.pairwise_append.mp (List.pairwise_append.mp hs).2.1).2.1

theorem Takes.lower (htakes : Takes k L new) (hk : k ≤ m) : Takes k (L ++ m :: R) (new ++ m :: R) := by
  have haround := htakes.around (L := []) (R := m :: R) (fun _ => nofun) fun hs j hj => ?_
  · exact haround
  · rcases List.mem_cons.mp hj with rfl | hj
    · exact hk
    · have hmR := (List.pairwise_append.mp hs).2.1
      exact Int.le_trans hk ((List.pairwise_cons.mp (List.pairwise_append.mp hmR).2.1).1 j hj)

theorem Takes.upper (htakes : Takes k R new) (hk : m ≤ k) :
    Takes k (L ++ m :: R) (L ++ m :: new) := by
  have haround := htakes.around (L := L ++ [m]) (R := []) (fun hs j hj => ?_) fun _ => nofun
  · simpa using haround
  · rcases List.mem_append.mp hj with hj | hj
    · have hLm := (List.pairwise_append.mp (List.pairwise_append.mp hs).1).2.2
      exact Int.le_trans (hLm j hj m (List.mem_singleton_self m)) hk
    · rwa [List.mem_singleton.mp hj]

theorem Inserted.takes (hi : Inserted t h k c c') (ht : 2 ≤ t)
    (hc : Shaped (t - 1) (2 * t - 1) (h + 1) c) :
    Takes k (inorder (h + 1) c) (inorder (h + 1) c') := by
  have hcount {ks : List Int} (hks : ks.length = t - 1) : t = ks.length + 1 := by omega
  induction hi with
  | @leaf k n pre suf cs hpre hsuf =>
    rw [inorder_leaf, inorder_leaf]
    refine ⟨pre, suf, rfl, rfl, fun hs => ⟨?_, fun j hj => Int.le_of_lt (hsuf j hj)⟩⟩
    exact behind_le hpre (List.pairwise_append.mp hs).1
  | down hb ha _ _ ih =>
    obtain ⟨-, -, hx⟩ := shaped_fill_iff.mp hc
    rw [inorder_fill, inorder_fill]
    exact (ih hx).fill hb ha
  | @lower h k n b a m lk rk z x x' hb ha hks hlk hrk hkm _ ih =>
    obtain ⟨-, -, hx⟩ := shaped_fill_iff.mp hc
    obtain ⟨hl, -⟩ := shaped_cut ht hx hks hlk hrk z
    rw [inorder_fill, inorder_cut (balanced_of_shaped hx) hks (hcount hlk) z, inorder_fill_pair]
    exact ((ih hl).lower hkm).fill hb ha
  | @upper h k n b a m lk rk z x x' hb ha hks hlk hrk hmk _ ih =>
    obtain ⟨-, -, hx⟩ := shaped_fill_iff.mp hc
    obtain ⟨-, hr⟩ := shaped_cut ht hx hks hlk hrk z
    rw [inorder_fill, inorder_cut (balanced_of_shaped hx) hks (hcount hlk) z, fill_swap,
      inorder_fill_pair]
    exact ((ih hr).upper (Int.le_of_lt hmk)).fill hb ha

end LearningCode.Btree
