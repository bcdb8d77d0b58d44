import LearningCode.MinHeap.Runs
import LearningCode.WrapTimer.Expire
import Mathlib.Data.List.Pairwise

/-!
# Timers across the wrap of the clock

How the timers come to hold readings of their deadlines, and when the two
containers serve them right: the heap while no pending deadline lies in another
turn of the clock, the tree while the deadlines it comes to first do not.
-/

namespace LearningCode.WrapTimer

open Clock MinHeap

variable {now : Nat} {due : Ptr → Nat} {s s' : Heap} {e x : Ptr} {ps front later : List Ptr}
  {msec : BitVec 32}

theorem reading_add : reading 32 now + msec = reading 32 (now + msec.toNat) := by
  simp [reading, BitVec.ofNat_add]

theorem near_of_msec (h : msec.toNat < 2 ^ 31) : Near 32 (now + msec.toNat) now := by
  constructor <;> omega

-- --------------------------------------------------------------------------
-- The heap
-- --------------------------------------------------------------------------

namespace Mh

theorem addTimer_timed (granted : Bool) (h : Timed s now due) (he : ¬Held s e)
    (hn : s.n < 2 ^ 31 - 1) (hmsec : msec.toNat < 2 ^ 31) :
    ∃ s' r, addTimer s e msec (reading 32 now) granted = some (s', r) ∧
      Timed s' now (Function.update due e (now + msec.toNat)) ∧
      ∀ x, Held s' x ↔ Held s x ∨ r = some e ∧ x = e := by
  have hne : ∀ x, Held s x → x ≠ e := by
    rintro x hx rfl
    exact he hx
  let w : Heap :=
    { s with entry := Function.update s.entry e ⟨(reading 32 now + msec).toNat, 0⟩ }
  have hw : Timed w now (Function.update due e (now + msec.toNat)) := by
    refine ⟨h.inOrder.write he _, h.few, ?_, ?_⟩
    · intro x hx
      simp [w, hne x hx, h.key x hx]
    · intro x hx
      simp [hne x hx, h.near x hx]
  have hcall : addTimer s e msec (reading 32 now) granted =
      (minHeapPush w e granted).bind fun r => some (r.1, if r.2 ≠ 0 then none else some e) := rfl
  have hpush := push_spec (s := w) granted hw.inOrder (Nat.lt_trans hn (by decide)) he
  rcases hpush with hfull | ⟨s', hdone, hadd⟩
  · exact ⟨w, none, by simp [hcall, hfull], hw, fun x => by simp [w, Held]⟩
  · refine ⟨s', some e, by simp [hcall, hdone], ⟨hadd.inOrder, ?_, ?_, ?_⟩, ?_⟩
    · rw [hadd.n]
      exact Nat.succ_lt_of_lt_pred hn
    · intro x hx
      rw [hadd.time]
      rcases (hadd.held x).mp hx with hx | rfl
      · exact hw.key x hx
      · simp [w, reading_add]
    · intro x hx
      rcases (hadd.held x).mp hx with hx | rfl
      · exact hw.near x hx
      · simpa using near_of_msec hmsec
    · intro x
      rw [hadd.held]
      exact or_congr Iff.rfl (by simp)

end Mh

-- --------------------------------------------------------------------------
-- The tree
-- --------------------------------------------------------------------------

namespace Rbt

variable {B : Balancing} {t : Ngx} {node : Node}

theorem mem_insertTimerValue {n : Node} :
    n ∈ (insertTimerValue t node).inorder ↔ n = node ∨ n ∈ t.inorder := by
  induction t with
  | sentinel => simp [insertTimerValue, Ngx.inorder]
  | node l m r ihl ihr =>
    simp only [insertTimerValue]
    split
    · simp only [Ngx.inorder, List.mem_append, List.mem_cons, ihl, or_assoc]
    · simp only [Ngx.inorder, List.mem_append, List.mem_cons, ihr, or_left_comm]

theorem inorder_ngxRbtreeInsert :
    (ngxRbtreeInsert B t node).inorder = (insertTimerValue t node).inorder := by
  cases t with
  | sentinel => rfl
  | node l m r => exact B.inorder_rebalance ..

theorem mem_addTimer {n : Node} :
    n ∈ (addTimer B t e msec (reading 32 now)).inorder ↔
      n = ⟨e, reading 32 (now + msec.toNat)⟩ ∨ n ∈ t.inorder := by
  rw [addTimer, inorder_ngxRbtreeInsert, mem_insertTimerValue, BitVec.add_comm, reading_add]

def Sorted (due : Ptr → Nat) (ns : List Node) : Prop :=
  ns.Pairwise fun n m => due n.ptr ≤ due m.ptr

/-- The walk keeps the order of the deadlines, compared by their readings, as
long as none is half a turn away from the new one. -/
theorem sorted_insertTimerValue (hnode : node.key = reading 32 (due node.ptr))
    (hkey : ∀ n ∈ t.inorder, n.key = reading 32 (due n.ptr))
    (hnear : ∀ n ∈ t.inorder, Near 32 (due node.ptr) (due n.ptr)) (h : Sorted due t.inorder) :
    Sorted due (insertTimerValue t node).inorder := by
  induction t with
  | sentinel => exact List.pairwise_singleton ..
  | node l m r ihl ihr =>
    simp only [Ngx.inorder, List.mem_append, List.mem_cons] at hkey hnear
    obtain ⟨hl, hmr, hlr⟩ := List.pairwise_append.mp h
    obtain ⟨hm, hr⟩ := List.pairwise_cons.mp hmr
    have hdiff : (node.key - m.key).toInt = (due node.ptr : Int) - due m.ptr := by
      rw [hnode, hkey m (by simp)]
      exact (hnear m (by simp)).toInt_sub
    simp only [insertTimerValue, hdiff]
    split
    · next hlt =>
      have hlt : due node.ptr ≤ due m.ptr := by omega
      have ih := ihl (fun n hn => hkey n (.inl hn)) (fun n hn => hnear n (.inl hn)) hl
      refine List.pairwise_append.mpr ⟨ih, hmr, ?_⟩
      intro a ha b hb
      rcases mem_insertTimerValue.mp ha with rfl | ha
      · rcases List.mem_cons.mp hb with rfl | hb
        · exact hlt
        · exact Nat.le_trans hlt (hm b hb)
      · exact hlr a ha b hb
    · next hge =>
      have hge : due m.ptr ≤ due node.ptr := by omega
      have ih := ihr (fun n hn => hkey n (.inr (.inr hn))) (fun n hn => hnear n (.inr (.inr hn))) hr
      refine List.pairwise_append.mpr ⟨hl, List.pairwise_cons.mpr ⟨?_, ih⟩, ?_⟩
      · intro b hb
        rcases mem_insertTimerValue.mp hb with rfl | hb
        · exact hge
        · exact hm b hb
      · intro a ha b hb
        rcases List.mem_cons.mp hb with rfl | hb
        · exact hlr a ha b List.mem_cons_self
        · rcases mem_insertTimerValue.mp hb with rfl | hb
          · exact Nat.le_trans (hlr a ha m List.mem_cons_self) hge
          · exact hlr a ha b (List.mem_cons_of_mem m hb)

structure Ordered (due : Ptr → Nat) (t : Ngx) : Prop where
  key : ∀ n ∈ t.inorder, n.key = reading 32 (due n.ptr)
  sorted : Sorted due t.inorder

theorem Ordered.sublist {t' : Ngx} (h : Ordered due t) (hsub : t'.inorder.Sublist t.inorder) :
    Ordered due t' :=
  ⟨fun n hn => h.key n (hsub.subset hn), h.sorted.sublist hsub⟩

variable (B) in
theorem Ordered.add (h : Ordered due t) (hfresh : e ∉ ptrs t)
    (hnear : ∀ x ∈ ptrs t, Near 32 (now + msec.toNat) (due x)) :
    Ordered (Function.update due e (now + msec.toNat)) (addTimer B t e msec (reading 32 now)) := by
  have hsame : ∀ n ∈ t.inorder, Function.update due e (now + msec.toNat) n.ptr = due n.ptr := by
    intro n hn
    apply Function.update_of_ne
    rintro rfl
    exact hfresh (List.mem_map_of_mem hn)
  have hold : ∀ n ∈ t.inorder,
      n.key = reading 32 (Function.update due e (now + msec.toNat) n.ptr) := by
    intro n hn
    rw [hsame n hn]
    exact h.key n hn
  constructor
  · intro n hn
    rcases mem_addTimer.mp hn with rfl | hn
    · simp
    · exact hold n hn
  · rw [addTimer, inorder_ngxRbtreeInsert]
    refine sorted_insertTimerValue ?_ hold ?_ ?_
    · simp [BitVec.add_comm msec, reading_add]
    · intro n hn
      rw [hsame n hn, Function.update_self]
      exact hnear n.ptr (List.mem_map_of_mem hn)
    · refine h.sorted.imp_of_mem ?_
      intro n m hn hm hle
      rwa [hsame n hn, hsame m hm]

/-- The trees that `add_timer` and `ngx_rbtree_delete` build while every new
deadline is less than half a turn away from the pending ones. -/
inductive Built (B : Balancing) : (due : Ptr → Nat) → Ngx → Prop
  | empty (due : Ptr → Nat) : Built B due .sentinel
  | add {due : Ptr → Nat} {t : Ngx} (e : Ptr) (msec : BitVec 32) (now : Nat) (h : Built B due t)
      (hfresh : e ∉ ptrs t) (hnear : ∀ x ∈ ptrs t, Near 32 (now + msec.toNat) (due x)) :
      Built B (Function.update due e (now + msec.toNat)) (addTimer B t e msec (reading 32 now))
  | delete {due : Ptr → Nat} {t : Ngx} (n : Node) (h : Built B due t) (hn : n ∈ t.inorder) :
    Built B due (B.delete t n)

theorem Built.ordered (h : Built B due t) : Ordered due t := by
  induction h with
  | empty => exact ⟨by simp [Ngx.inorder], List.Pairwise.nil⟩
  | add e msec now _ hfresh hnear ih => exact ih.add B hfresh hnear
  | delete n _ hn ih => exact ih.sublist (B.inorder_delete _ n hn ▸ List.erase_sublist)

/-- In a sorted tree being in line is a matter of turns: those of the timers
that are due and of the earliest one that is not. -/
theorem inLine_iff_of_sorted (h : ps.Pairwise fun e x => due e ≤ due x) :
    (∃ front later, ps = front ++ later ∧ InLine now due front later) ↔
      ∀ e ∈ ps, (∀ x ∈ ps, now < due x → due e ≤ due x) → turn 32 (due e) = turn 32 now := by
  constructor
  · rintro ⟨front, later, rfl, hline⟩ e he hfirst
    rcases List.mem_append.mp he with he | he
    · exact (hline.reached e he).2
    · cases later with
      | nil => simp at he
      | cons x later =>
        have hle := hfirst x (by simp) (hline.ahead x List.mem_cons_self)
        have hge : due x ≤ due e := by
          rcases List.mem_cons.mp he with rfl | he
          · exact Nat.le_refl _
          · exact (List.pairwise_cons.mp (List.pairwise_append.mp h).2.1).1 e he
        rw [Nat.le_antisymm hle hge]
        exact hline.next x rfl
  · intro hturn
    have hsplit := List.takeWhile_append_dropWhile (p := fun e => decide (due e ≤ now)) (l := ps)
    have hreached : ∀ e ∈ ps.takeWhile fun e => due e ≤ now, due e ≤ now := by
      intro e he
      exact of_decide_eq_true (List.all_eq_true.mp List.all_takeWhile e he)
    have hlater := h.sublist (List.dropWhile_sublist fun e => decide (due e ≤ now))
    have hhead := List.head?_dropWhile_not (fun e => decide (due e ≤ now)) ps
    generalize hf : (ps.takeWhile fun e => due e ≤ now) = front at *
    generalize hd : (ps.dropWhile fun e => due e ≤ now) = later at *
    subst hsplit
    have hahead : ∀ e ∈ later, now < due e := by
      cases later with
      | nil => simp
      | cons x later =>
        have hx : now < due x := by simpa using hhead
        intro e he
        rcases List.mem_cons.mp he with rfl | he
        · exact hx
        · exact Nat.lt_of_lt_of_le hx ((List.pairwise_cons.mp hlater).1 e he)
    have hnext : ∀ e ∈ later.head?, ∀ x ∈ later, due e ≤ due x := by
      cases later with
      | nil => simp
      | cons y later =>
        rintro e ⟨⟩ x hx
        rcases List.mem_cons.mp hx with rfl | hx
        · exact Nat.le_refl _
        · exact (List.pairwise_cons.mp hlater).1 x hx
    refine ⟨front, later, rfl, ⟨?_, hahead, ?_, fun _ => hnext⟩⟩
    · intro e he
      refine ⟨hreached e he, hturn e (List.mem_append_left _ he) ?_⟩
      intro x _ hx
      exact Nat.le_of_lt (Nat.lt_of_le_of_lt (hreached e he) hx)
    · intro e he
      refine hturn e (List.mem_append_right _ (List.mem_of_mem_head? he)) ?_
      intro x hx hlt
      rcases List.mem_append.mp hx with hx | hx
      · exact absurd hlt (Nat.not_lt_of_le (hreached x hx))
      · exact hnext e he x hx

end Rbt

-- --------------------------------------------------------------------------
-- Both
-- --------------------------------------------------------------------------

/-- When each timer serves its pending timers right at an instant. -/
theorem timers_right_iff (now : Nat) (due : Ptr → Nat) :
    (∀ s, Mh.Timed s now due → ∃ s' fired nearest,
      Returns (fun turns => Mh.expireTimer turns s (reading 32 now)) (s', fired) ∧
      Mh.findNearestExpireTimer s (reading 32 now) = some nearest ∧
      (Right now due (Held s) fired nearest ↔ ∀ e, Held s e → turn 32 (due e) = turn 32 now)) ∧
    ∀ B t, Rbt.Timed t now due → ∃ t' fired,
      Returns (fun turns => Rbt.expireTimer B turns t (reading 32 now)) (t', fired) ∧
      (Right now due (· ∈ Rbt.ptrs t) fired (Rbt.findNearestExpireTimer t (reading 32 now)) ↔
        ∃ front later, Rbt.ptrs t = front ++ later ∧ Rbt.InLine now due front later) ∧
      (Rbt.Built B due t →
        (Right now due (· ∈ Rbt.ptrs t) fired (Rbt.findNearestExpireTimer t (reading 32 now)) ↔
          ∀ e ∈ Rbt.ptrs t, (∀ x ∈ Rbt.ptrs t, now < due x → due e ≤ due x) →
            turn 32 (due e) = turn 32 now)) := by
  refine ⟨fun s h => Mh.right_iff h, fun B t h => ?_⟩
  obtain ⟨t', fired, hrun, hright⟩ := Rbt.right_iff (B := B) h
  refine ⟨t', fired, hrun, hright, fun hbuilt => hright.trans (Rbt.inLine_iff_of_sorted ?_)⟩
  exact List.pairwise_map.mpr hbuilt.ordered.sorted

variable {B : Rbt.Balancing}

theorem Mh.timed_ctor : Mh.Timed (minHeapCtor entry) now due := by
  have hnone : ∀ e, ¬Held (minHeapCtor entry) e := fun e => Mh.not_held_of_empty rfl
  exact ⟨(Inv.ctor entry).inOrder, Nat.two_pow_pos 31, fun e he => absurd he (hnone e),
    fun e he => absurd he (hnone e)⟩

def Rbt.branch : List Rbt.Node → Rbt.Ngx
  | [] => .sentinel
  | n :: ns => .node .sentinel n (branch ns)

theorem Rbt.inorder_branch (ns : List Rbt.Node) : (branch ns).inorder = ns := by
  induction ns with
  | nil => rfl
  | cons n ns ih => simp [branch, Ngx.inorder, ih]

/-- No rotations, and a deletion that leaves a branch. -/
def Rbt.branching : Rbt.Balancing where
  rebalance t _ := t
  inorder_rebalance _ _ := rfl
  delete t n := branch (t.inorder.erase n)
  inorder_delete _ _ _ := inorder_branch _

theorem Mh.timed_one (e : Ptr) (msec : BitVec 32) (now : Nat) (h : msec.toNat < 2 ^ 31) : ∃ s,
    Mh.addTimer (minHeapCtor fun _ => ⟨0, 0⟩) e msec (reading 32 now) true = some (s, some e) ∧
      Mh.Timed s now (fun _ => now + msec.toNat) ∧ ∀ x, Held s x ↔ x = e := by
  have hnone : ¬Held (minHeapCtor fun _ => ⟨0, 0⟩) e := Mh.not_held_of_empty rfl
  have hempty : Mh.Timed (minHeapCtor fun _ => ⟨0, 0⟩) now (fun _ => now + msec.toNat) :=
    Mh.timed_ctor
  obtain ⟨s, r, hadd, htimed, hheld⟩ :=
    Mh.addTimer_timed true hempty hnone (by simp [minHeapCtor]) h
  have hr : r = some e := by
    simp [Mh.addTimer, minHeapPush, minHeapReserve, minHeapCtor, minHeapShiftUp, place] at hadd
    exact hadd.2.symm
  subst hr
  rw [Function.update_eq_self] at htimed
  refine ⟨s, hadd, htimed, fun x => ?_⟩
  have hctor : ¬Held (minHeapCtor fun _ => ⟨0, 0⟩) x := Mh.not_held_of_empty rfl
  simp [hheld, hctor]

theorem Rbt.timed_one (B : Rbt.Balancing) (e : Ptr) (msec : BitVec 32) (now : Nat)
    (h : msec.toNat < 2 ^ 31) :
    Rbt.ptrs (Rbt.addTimer B .sentinel e msec (reading 32 now)) = [e] ∧
      Rbt.Timed (Rbt.addTimer B .sentinel e msec (reading 32 now)) now
        (fun _ => now + msec.toNat) := by
  have hinorder : (Rbt.addTimer B .sentinel e msec (reading 32 now)).inorder =
      [⟨e, reading 32 (now + msec.toNat)⟩] := by
    simp [Rbt.addTimer, Rbt.ngxRbtreeInsert, Rbt.Ngx.inorder, BitVec.add_comm msec, reading_add]
  have hptrs : Rbt.ptrs (Rbt.addTimer B .sentinel e msec (reading 32 now)) = [e] := by
    simp [Rbt.ptrs, hinorder]
  refine ⟨hptrs, ⟨?_, fun _ _ => near_of_msec h, ?_⟩⟩
  · rw [hinorder]
    intro n hn
    rw [List.mem_singleton.mp hn]
  · rw [hptrs]
    exact List.nodup_singleton e

theorem Rbt.turn_of_inLine (h : [e] = front ++ later) (hline : Rbt.InLine now due front later) :
    turn 32 (due e) = turn 32 now := by
  rcases List.singleton_eq_append_iff.mp h with ⟨rfl, rfl⟩ | ⟨rfl, rfl⟩
  · exact hline.next e rfl
  · exact (hline.reached e (List.mem_singleton_self e)).2

theorem timers_right_iff_one : ∃ s s' fired nearest,
    Mh.addTimer (minHeapCtor fun _ => ⟨0, 0⟩) 0 15 (reading 32 5) true = some (s, some 0) ∧
      Returns (fun turns => Mh.expireTimer turns s (reading 32 5)) (s', fired) ∧
      Right 5 (fun _ => 20) (Held s) fired nearest ∧
      ∃ t' fired,
        let t := Rbt.addTimer Rbt.branching .sentinel 0 15 (reading 32 5)
        Returns (fun turns => Rbt.expireTimer Rbt.branching turns t (reading 32 5)) (t', fired) ∧
        Right 5 (fun _ => 20) (· ∈ Rbt.ptrs t) fired
          (Rbt.findNearestExpireTimer t (reading 32 5)) := by
  obtain ⟨s, hadd, htimed, -⟩ := Mh.timed_one 0 15 5 (by decide)
  obtain ⟨hptrs, htree⟩ := Rbt.timed_one Rbt.branching 0 15 5 (by decide)
  obtain ⟨hheap, hrbt⟩ := timers_right_iff 5 fun _ => 20
  obtain ⟨s', fired, nearest, hrun, -, hright⟩ := hheap s htimed
  obtain ⟨t', fired', hrun', hright', -⟩ := hrbt Rbt.branching _ htree
  refine ⟨s, s', fired, nearest, hadd, hrun, hright.mpr fun _ _ => rfl, t', fired', hrun',
    hright'.mpr ⟨[], [0], hptrs, ?_⟩⟩
  exact ⟨by simp, by simp, by simp [turn], by simp⟩

/-- A timer of 15 ms, set 10 ms before the wrap, fires at once in both. -/
theorem early_at_the_wrap :
    (∃ s s' fired nearest,
      Mh.addTimer (minHeapCtor fun _ => ⟨0, 0⟩) 0 15 (reading 32 (2 ^ 32 - 10)) true =
        some (s, some 0) ∧
      Returns (fun turns => Mh.expireTimer turns s (reading 32 (2 ^ 32 - 10))) (s', fired) ∧
      Mh.findNearestExpireTimer s (reading 32 (2 ^ 32 - 10)) = some nearest ∧
      ¬Right (2 ^ 32 - 10) (fun _ => 2 ^ 32 + 5) (Held s) fired nearest) ∧
    ∃ t' fired,
      let t := Rbt.addTimer Rbt.branching .sentinel 0 15 (reading 32 (2 ^ 32 - 10))
      Returns (fun turns => Rbt.expireTimer Rbt.branching turns t (reading 32 (2 ^ 32 - 10)))
        (t', fired) ∧
      ¬Right (2 ^ 32 - 10) (fun _ => 2 ^ 32 + 5) (· ∈ Rbt.ptrs t) fired
        (Rbt.findNearestExpireTimer t (reading 32 (2 ^ 32 - 10))) := by
  have hturn : ¬turn 32 (2 ^ 32 + 5) = turn 32 (2 ^ 32 - 10) := by simp [turn]
  obtain ⟨s, hadd, htimed, hheld⟩ := Mh.timed_one 0 15 (2 ^ 32 - 10) (by decide)
  obtain ⟨hptrs, htree⟩ := Rbt.timed_one Rbt.branching 0 15 (2 ^ 32 - 10) (by decide)
  obtain ⟨s', fired, nearest, hrun, hnearest, hright⟩ := Mh.right_iff htimed
  obtain ⟨t', fired', hrun', hright'⟩ := Rbt.right_iff (B := Rbt.branching) htree
  refine ⟨⟨s, s', fired, nearest, hadd, hrun, hnearest, fun h => ?_⟩, t', fired', hrun', fun h => ?_⟩
  · exact hturn (hright.mp h 0 ((hheld 0).mpr rfl))
  · obtain ⟨front, later, hps, hline⟩ := hright'.mp h
    have hpresent := Rbt.turn_of_inLine (hptrs.symm.trans hps) hline
    exact hturn hpresent

end LearningCode.WrapTimer
