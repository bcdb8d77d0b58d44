import LearningCode.Btree.Stored

/-!
# Borrowing a key from a sibling

The loops of both branches, first on the arrays of the children and then on the
three nodes.
-/

namespace LearningCode.Btree

open Blocks

variable {t : Nat} {nn nc nl nr : BtreeNode} {leaf : Bool} {ck lk rk a b : List Int}
  {cp lp rp pa pb : List Ptr} {s s' : Int} {T : Btree} {node c l r : Ptr}

theorem kids_leaf {children : List (Option Ptr)} :
    Kids t true children [] ↔ children = List.replicate (2 * t) none := by
  constructor
  · rintro ⟨rest, rfl, hlen, hnone⟩
    exact List.eq_replicate_iff.mpr ⟨by simpa using hlen, hnone rfl⟩
  · rintro rfl
    exact ⟨_, rfl, by simp, fun _ c hc => List.eq_of_mem_replicate hc⟩

theorem borrowRight_children (hc : Kids t leaf nc.children cp) (hr : Kids t leaf nr.children rp)
    (hcp : Width leaf cp nc.num) (hrp : Width leaf rp nr.num) (hcnum : nc.num + 1 < 2 * t)
    (hrnum : nr.num < 2 * t) (hpos : 0 < nr.num) : ∃ x cchildren r₁ y r₂ r₃,
      nr.children[0]? = some x ∧ write nc.children (nc.num + 1) x = some cchildren ∧
      shiftDown (nr.num - 1) 0 nr.children = some r₁ ∧ r₁[nr.num]? = some y ∧
      write r₁ (nr.num - 1) y = some r₂ ∧ write r₂ nr.num none = some r₃ ∧
      Kids t leaf cchildren (cp ++ rp.take 1) ∧ Kids t leaf r₃ (rp.drop 1) := by
  cases leaf with
  | true =>
    obtain rfl : cp = [] := hcp
    obtain rfl : rp = [] := hrp
    rw [kids_leaf] at hc hr
    rw [hc, hr]
    exact ⟨none, _, _, none, _, _, read_replicate (by omega), write_replicate hcnum,
      shiftDown_replicate (by omega), read_replicate hrnum, write_replicate (by omega),
      write_replicate hrnum, kids_leaf.mpr rfl, kids_leaf.mpr rfl⟩
  | false =>
    obtain ⟨crest, hcchildren, hclen, -⟩ := hc
    obtain ⟨rrest, hrchildren, hrlen, -⟩ := hr
    have hcp : cp.length = nc.num + 1 := hcp
    have hrp : rp.length = nr.num + 1 := hrp
    obtain ⟨z, crest, rfl⟩ : ∃ z rest, crest = z :: rest :=
      List.exists_cons_of_length_pos (by omega)
    obtain ⟨p, rp, rfl⟩ : ∃ p ps, rp = p :: ps := List.exists_cons_of_length_pos (by omega)
    have hrp : rp.length = nr.num := by simpa using hrp
    obtain ⟨mid, e, rfl⟩ : ∃ mid e, rp = mid ++ [e] := by
      have hne : rp ≠ [] := List.ne_nil_of_length_pos (by omega)
      exact ⟨_, _, (List.dropLast_append_getLast hne).symm⟩
    have hmid : mid.length = nr.num - 1 := by
      simp only [List.length_append, List.length_singleton] at hrp
      omega
    obtain ⟨y, -, hshift⟩ := shiftDown_split (p := []) (x := some p) (q := mid.map some)
      (r := some e :: rrest) (by simp [hmid] : nr.num - 1 = _) (rfl : 0 = _)
    refine ⟨some p, cp.map some ++ some p :: crest, mid.map some ++ y :: some e :: rrest, some e,
      mid.map some ++ some e :: some e :: rrest, mid.map some ++ [some e] ++ none :: rrest,
      ?_, ?_, ?_, ?_, ?_, ?_, ?_, ?_⟩
    · simp [hrchildren]
    · rw [hcchildren]
      exact write_split (by simp [hcp])
    · rw [hrchildren]
      simpa using hshift
    · have hread := read_split (p := mid.map some ++ [y]) (x := some e) (q := rrest) (i := nr.num)
        (by simp; omega)
      simpa using hread
    · exact write_split (by simp [hmid])
    · have hwrite := write_split (p := mid.map some ++ [some e]) (x := some e) (q := rrest)
        (v := none) (i := nr.num) (by simp; omega)
      simpa using hwrite
    · refine ⟨crest, by simp, ?_, nofun⟩
      simp only [List.length_append, List.length_cons, List.take_succ_cons, List.take_zero,
        List.length_nil] at *
      omega
    · refine ⟨none :: rrest, by simp, ?_, nofun⟩
      simp only [List.length_append, List.length_cons, List.drop_succ_cons, List.drop_zero,
        List.length_nil] at *
      omega

theorem borrowRight_spec (ht : 2 ≤ T.t) (hnc : node ≠ c) (hnr : node ≠ r) (hcr : c ≠ r)
    (hn : Node T.heap T.t false node (a ++ s :: b) (pa ++ c :: r :: pb))
    (hc : Node T.heap T.t leaf c ck cp) (hr : Node T.heap T.t leaf r (s' :: rk) rp)
    (hck : ck.length = T.t - 1) (hcp : Width leaf cp ck.length)
    (hrp : Width leaf rp (rk.length + 1)) : ∃ T',
      borrowRight T node c r a.length = some T' ∧ T'.t = T.t ∧ T'.root = T.root ∧
      (∀ p, p ≠ node → p ≠ c → p ≠ r → T'.heap p = T.heap p) ∧
      Node T'.heap T.t false node (a ++ s' :: b) (pa ++ c :: r :: pb) ∧
      Node T'.heap T.t leaf c (ck ++ [s]) (cp ++ rp.take 1) ∧
      Node T'.heap T.t leaf r rk (rp.drop 1) := by
  obtain ⟨nn, hnode, hn⟩ := hn
  obtain ⟨nc, hchild, hc⟩ := hc
  obtain ⟨nr, hright, hr⟩ := hr
  have hrnum : nr.num = rk.length + 1 := hr.num
  have hrle := hr.num_le
  simp only [List.length_cons] at hrle
  obtain ⟨crest, hckeys, hclen⟩ := hc.keys
  obtain ⟨rrest, hrkeys, hrlen⟩ := hr.keys
  simp only [List.length_cons] at hrlen
  obtain ⟨z, crest, rfl⟩ : ∃ z rest, crest = z :: rest :=
    List.exists_cons_of_length_pos (by omega)
  simp only [List.length_cons] at hclen
  obtain ⟨x, cchildren, r₁, y, r₂, r₃, hread, hcwrite, hshift, hlast, hmove, hclear, hckids, hrkids⟩ :=
    borrowRight_children hc.children hr.children (hc.num ▸ hcp) (hrnum ▸ hrp)
      (by rw [hc.num]; omega) (by omega) (by omega)
  obtain ⟨keys, hset, hn'⟩ := hn.setKey s' rfl
  have hcset : write nc.keys nc.num s = some (ck ++ s :: crest) := by
    rw [hckeys]
    exact write_split hc.num
  have hfirst : nr.keys[0]? = some s' := hr.key (a := []) rfl
  obtain ⟨w, -, hrshift⟩ := shiftDown_split (p := []) (x := s') (q := rk) (r := rrest)
    (by omega : nr.num - 1 = _) (rfl : 0 = _)
  have hrshift' : shiftDown (nr.num - 1) 0 nr.keys = some (rk ++ w :: rrest) := by
    rw [hrkeys]
    exact hrshift
  have hrset : write (rk ++ w :: rrest) (nr.num - 1) 0 = some (rk ++ 0 :: rrest) :=
    write_split (by omega)
  have hcall : borrowRight T node c r a.length = some
      (((T.store node { nn with keys := keys }).store c { nc with
          keys := ck ++ s :: crest
          children := cchildren
          num := nc.num + 1 }).store r { nr with
            keys := rk ++ 0 :: rrest
            children := r₃
            num := nr.num - 1 }) := by
    simp only [borrowRight, hnode, hchild, hright, hn.key rfl, hcset, hread, hcwrite, hfirst, hset,
      hrshift', hshift, hrset, hlast, hmove, hclear, Option.bind_eq_bind, Option.bind_some]
  have hc' : Holds T.t { nc with
      keys := ck ++ s :: crest
      children := cchildren
      num := nc.num + 1 } leaf (ck ++ [s]) (cp ++ rp.take 1) := by
    refine ⟨by simp [hc.num], hc.isLeaf, ⟨crest, by simp, ?_⟩, hckids⟩
    simp only [List.length_append, List.length_singleton]
    omega
  have hr' : Holds T.t { nr with
      keys := rk ++ 0 :: rrest
      children := r₃
      num := nr.num - 1 } leaf rk (rp.drop 1) := by
    refine ⟨by simp [hrnum], hr.isLeaf, ⟨0 :: rrest, rfl, ?_⟩, hrkids⟩
    simp only [List.length_cons]
    omega
  exact ⟨_, hcall, rfl, rfl, store_three hnc hnr hcr hn' hc' hr'⟩

theorem borrowLeft_children (hc : Kids t leaf nc.children cp) (hl : Kids t leaf nl.children lp)
    (hcp : Width leaf cp nc.num) (hlp : Width leaf lp nl.num) (hcnum : nc.num + 1 < 2 * t)
    (hlnum : nl.num < 2 * t) : ∃ c₁ y c₂ x c₃ lchildren,
      shiftUp nc.num 1 nc.children = some c₁ ∧ c₁[0]? = some y ∧ write c₁ 1 y = some c₂ ∧
      nl.children[nl.num]? = some x ∧ write c₂ 0 x = some c₃ ∧
      write nl.children nl.num none = some lchildren ∧
      Kids t leaf c₃ (lp.drop nl.num ++ cp) ∧ Kids t leaf lchildren (lp.take nl.num) := by
  cases leaf with
  | true =>
    obtain rfl : cp = [] := hcp
    obtain rfl : lp = [] := hlp
    rw [kids_leaf] at hc hl
    rw [hc, hl]
    exact ⟨_, none, _, none, _, _, shiftUp_replicate (by omega), read_replicate (by omega),
      write_replicate (by omega), read_replicate hlnum, write_replicate (by omega),
      write_replicate hlnum, by simpa using kids_leaf.mpr rfl, by simpa using kids_leaf.mpr rfl⟩
  | false =>
    obtain ⟨crest, hcchildren, hclen, -⟩ := hc
    obtain ⟨lrest, hlchildren, hllen, -⟩ := hl
    have hcp : cp.length = nc.num + 1 := hcp
    have hlp : lp.length = nl.num + 1 := hlp
    obtain ⟨z, crest, rfl⟩ : ∃ z rest, crest = z :: rest :=
      List.exists_cons_of_length_pos (by omega)
    obtain ⟨p, cp, rfl⟩ : ∃ p ps, cp = p :: ps := List.exists_cons_of_length_pos (by omega)
    have hcp : cp.length = nc.num := by simpa using hcp
    obtain ⟨mid, e, rfl⟩ : ∃ mid e, lp = mid ++ [e] := by
      have hne : lp ≠ [] := List.ne_nil_of_length_pos (by omega)
      exact ⟨_, _, (List.dropLast_append_getLast hne).symm⟩
    have hmid : mid.length = nl.num := by simpa using hlp
    obtain ⟨y, -, hshift⟩ := shiftUp_split (p := [some p]) (x := z) (q := cp.map some)
      (r := crest) (by simp [hcp] : nc.num = _) (rfl : 1 = _)
    refine ⟨some p :: y :: (cp.map some ++ crest), some p,
      some p :: some p :: (cp.map some ++ crest), some e,
      some e :: some p :: (cp.map some ++ crest), mid.map some ++ none :: lrest,
      ?_, rfl, ?_, ?_, ?_, ?_, ?_, ?_⟩
    · rw [hcchildren]
      simpa using hshift
    · exact write_split (p := [some p]) rfl
    · rw [hlchildren]
      have hread := read_split (p := mid.map some) (x := some e) (q := lrest) (i := nl.num)
        (by simp [hmid])
      simpa using hread
    · exact write_split (p := []) rfl
    · rw [hlchildren]
      have hwrite := write_split (p := mid.map some) (x := some e) (q := lrest) (v := none)
        (i := nl.num) (by simp [hmid])
      simpa using hwrite
    · refine ⟨crest, by simp [← hmid], ?_, nofun⟩
      simp only [← hmid, List.drop_left, List.length_append, List.length_cons, List.length_nil] at *
      omega
    · refine ⟨none :: lrest, by simp [← hmid], ?_, nofun⟩
      simp only [← hmid, List.take_left, List.length_append, List.length_cons, List.length_nil] at *
      omega

theorem borrowLeft_spec (ht : 2 ≤ T.t) (hnc : node ≠ c) (hnl : node ≠ l) (hcl : c ≠ l)
    (hn : Node T.heap T.t false node (a ++ s :: b) (pa ++ l :: c :: pb))
    (hc : Node T.heap T.t leaf c ck cp) (hl : Node T.heap T.t leaf l (lk ++ [s']) lp)
    (hck : ck.length = T.t - 1) (hcp : Width leaf cp ck.length)
    (hlp : Width leaf lp (lk.length + 1)) : ∃ T',
      borrowLeft T node c l (a.length + 1) = some T' ∧ T'.t = T.t ∧ T'.root = T.root ∧
      (∀ p, p ≠ node → p ≠ c → p ≠ l → T'.heap p = T.heap p) ∧
      Node T'.heap T.t false node (a ++ s' :: b) (pa ++ l :: c :: pb) ∧
      Node T'.heap T.t leaf c (s :: ck) (lp.drop (lk.length + 1) ++ cp) ∧
      Node T'.heap T.t leaf l lk (lp.take (lk.length + 1)) := by
  obtain ⟨nn, hnode, hn⟩ := hn
  obtain ⟨nc, hchild, hc⟩ := hc
  obtain ⟨nl, hleft, hl⟩ := hl
  have hlnum : nl.num = lk.length + 1 := by simpa using hl.num
  have hlle := hl.num_le
  simp only [List.length_append, List.length_singleton] at hlle
  obtain ⟨crest, hckeys, hclen⟩ := hc.keys
  obtain ⟨lrest, hlkeys, hllen⟩ := hl.keys
  simp only [List.length_append, List.length_singleton] at hllen
  obtain ⟨z, crest, rfl⟩ : ∃ z rest, crest = z :: rest :=
    List.exists_cons_of_length_pos (by omega)
  simp only [List.length_cons] at hclen
  obtain ⟨c₁, y, c₂, x, c₃, lchildren, hshift, hfirst, hmove, hread, hcwrite, hclear, hckids, hlkids⟩ :=
    borrowLeft_children hc.children hl.children (hc.num ▸ hcp) (hlnum ▸ hlp)
      (by rw [hc.num]; omega) (by omega)
  obtain ⟨keys, hset, hn'⟩ := hn.setKey s' rfl
  obtain ⟨w, -, hcshift⟩ := shiftUp_split (p := []) (x := z) (q := ck) (r := crest) hc.num
    (rfl : 0 = _)
  have hcshift' : shiftUp nc.num 0 nc.keys = some (w :: (ck ++ crest)) := by
    rw [hckeys]
    exact hcshift
  have hcset : write (w :: (ck ++ crest)) 0 s = some (s :: (ck ++ crest)) :=
    write_split (p := []) rfl
  have hlast : nl.keys[nl.num - 1]? = some s' := hl.key (by omega)
  have hlset : write nl.keys (nl.num - 1) 0 = some (lk ++ 0 :: lrest) := by
    rw [hlkeys, List.append_assoc]
    exact write_split (by omega)
  have hcall : borrowLeft T node c l (a.length + 1) = some
      (((T.store node { nn with keys := keys }).store c { nc with
          keys := s :: (ck ++ crest)
          children := c₃
          num := nc.num + 1 }).store l { nl with
            keys := lk ++ 0 :: lrest
            children := lchildren
            num := nl.num - 1 }) := by
    simp only [borrowLeft, hnode, hchild, hleft, Nat.add_sub_cancel, hn.key rfl, hcshift', hshift,
      hfirst, hmove, hread, hcwrite, hcset, hlast, hset, hlset, hclear, Option.bind_eq_bind,
      Option.bind_some]
  rw [hlnum] at hckids hlkids
  have hc' : Holds T.t { nc with
      keys := s :: (ck ++ crest)
      children := c₃
      num := nc.num + 1 } leaf (s :: ck) (lp.drop (lk.length + 1) ++ cp) := by
    refine ⟨by simp [hc.num], hc.isLeaf, ⟨crest, by simp, ?_⟩, hckids⟩
    simp only [List.length_cons]
    omega
  have hl' : Holds T.t { nl with
      keys := lk ++ 0 :: lrest
      children := lchildren
      num := nl.num - 1 } leaf lk (lp.take (lk.length + 1)) := by
    refine ⟨by simp [hlnum], hl.isLeaf, ⟨0 :: lrest, rfl, ?_⟩, hlkids⟩
    simp only [List.length_cons]
    omega
  exact ⟨_, hcall, rfl, rfl, store_three hnc hnl hcl hn' hc' hl'⟩

end LearningCode.Btree
