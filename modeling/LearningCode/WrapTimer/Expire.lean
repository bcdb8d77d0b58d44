import LearningCode.Lib.Clock
import LearningCode.Lib.Fuel
import LearningCode.MinHeap.Operations
import LearningCode.WrapTimer.Model

/-!
# Deadlines against keys

Both timers keep deadlines as readings of the clock. `expire_timer` compares
readings as unsigned numbers, which tells a deadline that has passed from one
that has not as long as both lie in the same turn of the clock.
-/

namespace LearningCode.WrapTimer

open Clock MinHeap

variable {now : Nat} {due : Ptr → Nat} {s s' : Heap} {e x : Ptr} {l ps : List Ptr}

/-- What the timers should do at the true instant `now`, for the timers that
are pending and their true deadlines. -/
structure Right (now : Nat) (due : Ptr → Nat) (pending : Ptr → Prop) (fired : List Ptr)
    (nearest : Int) : Prop where
  fires : ∀ e, e ∈ fired ↔ pending e ∧ due e ≤ now
  zero : nearest = 0 ↔ fired ≠ []
  waits : fired = [] → (∃ e, pending e) →
    ∃ e, pending e ∧ (∀ x, pending x → due e ≤ due x) ∧ nearest = (due e : Int) - now

def clamp (diff : Int) : Int := if diff > 0 then diff else 0

theorem clamp_eq_zero_iff {diff : Int} : clamp diff = 0 ↔ diff ≤ 0 := by
  unfold clamp
  split <;> omega

theorem clamp_of_pos {diff : Int} (h : 0 < diff) : clamp diff = diff := if_pos h

-- --------------------------------------------------------------------------
-- The heap
-- --------------------------------------------------------------------------

namespace Mh

structure Timed (s : Heap) (now : Nat) (due : Ptr → Nat) : Prop where
  inOrder : InOrder s
  few : s.n < 2 ^ 31
  key : ∀ e, Held s e → (s.entry e).time = (reading 32 (due e)).toNat
  near : ∀ e, Held s e → Near 32 (due e) now

theorem Timed.time_eq (h : Timed s now due) (he : Held s e) : time s e = reading 32 (due e) := by
  rw [time, h.key e he, BitVec.ofNat_toNat, BitVec.setWidth_eq]

theorem top_empty (hn : s.n = 0) : minHeapTop s = some none := by
  simp [minHeapTop, hn]

theorem top_spec (h : InOrder s) (hn : 0 < s.n) (hlt : s.n < 2 ^ 31) :
    ∃ s' e, minHeapTop s = some (some e) ∧ minHeapPop s = some (s', some e) ∧ Held s e ∧
      (∀ x, Held s x → (s.entry e).time ≤ (s.entry x).time) ∧ Removed s s' e := by
  obtain ⟨s', e, hpop, hheld, hmin, hrem⟩ := pop_spec h hn hlt
  have hne : s.n ≠ 0 := Nat.pos_iff_ne_zero.mp hn
  have hload : load s 0 = some e := by
    cases htop : load s 0 with
    | none => simp [minHeapPop, hne, htop] at hpop
    | some q =>
      simp only [minHeapPop, if_pos hne, htop, Option.bind_eq_bind, Option.bind_some] at hpop
      obtain ⟨last, -, hpop⟩ := Option.bind_eq_some_iff.mp hpop
      obtain ⟨t, -, hpop⟩ := Option.bind_eq_some_iff.mp hpop
      simp only [Option.some.injEq, Prod.mk.injEq] at hpop
      rw [hpop.2]
  exact ⟨s', e, by simp [minHeapTop, hne, hload], hpop, hheld, hmin, hrem⟩

theorem not_held_of_empty (hn : s.n = 0) : ¬Held s e := by
  rintro ⟨i, hi, -⟩
  rw [hn] at hi
  exact Nat.not_lt_zero i hi

theorem expireTimer_spec (cur : BitVec 32) (h : InOrder s) (hlt : s.n < 2 ^ 31)
    (htime : ∀ e, Held s e → (s.entry e).time < 2 ^ 32) :
    ∃ s' fired, Returns (fun turns => expireTimer turns s cur) (s', fired) ∧
      ∀ e, e ∈ fired ↔ Held s e ∧ (s.entry e).time ≤ cur.toNat := by
  induction hn : s.n generalizing s with
  | zero =>
    refine ⟨s, [], Returns.last ?_, ?_⟩
    · intro turns
      simp only [expireTimer, top_empty hn, Option.bind_eq_bind, Option.bind_some]
    · simp [not_held_of_empty hn]
  | succ n ih =>
    obtain ⟨s', e, htop, hpop, he, hmin, hrem⟩ := top_spec h (by omega) hlt
    have hkey : time s e > cur ↔ cur.toNat < (s.entry e).time := by
      rw [gt_iff_lt, BitVec.lt_def, time, BitVec.toNat_ofNat, Nat.mod_eq_of_lt (htime e he)]
    by_cases hlate : cur.toNat < (s.entry e).time
    · refine ⟨s, [], Returns.last ?_, ?_⟩
      · intro turns
        simp only [expireTimer, htop, Option.bind_eq_bind, Option.bind_some,
          if_pos (hkey.mpr hlate)]
      · intro x
        simp only [List.not_mem_nil, false_iff, not_and, Nat.not_le]
        intro hx
        exact Nat.lt_of_lt_of_le hlate (hmin x hx)
    · have hn' := hrem.n
      obtain ⟨t, fired, hrun, hfired⟩ := ih hrem.inOrder (by omega)
        (fun x hx => by rw [hrem.time x]; exact htime x ((hrem.held x).mp hx).1) (by omega)
      refine ⟨t, e :: fired, (hrun.map fun r => (r.1, e :: r.2)).turn ?_, ?_⟩
      · intro turns
        simp only [expireTimer, htop, hpop, Option.bind_eq_bind, Option.bind_some,
          if_neg (mt hkey.mp hlate)]
        cases expireTimer turns s' cur <;> rfl
      · intro x
        rw [List.mem_cons, hfired, hrem.held, hrem.time]
        constructor
        · rintro (rfl | ⟨⟨hx, -⟩, hle⟩)
          · exact ⟨he, Nat.le_of_not_lt hlate⟩
          · exact ⟨hx, hle⟩
        · rintro ⟨hx, hle⟩
          by_cases hxe : x = e
          · exact .inl hxe
          · exact .inr ⟨⟨hx, hxe⟩, hle⟩

theorem findNearest_spec (h : Timed s now due) (hn : 0 < s.n) :
    ∃ e, Held s e ∧ (∀ x, Held s x → (s.entry e).time ≤ (s.entry x).time) ∧
      findNearestExpireTimer s (reading 32 now) = some (clamp ((due e : Int) - now)) := by
  obtain ⟨-, e, htop, -, he, hmin, -⟩ := top_spec h.inOrder hn h.few
  refine ⟨e, he, hmin, ?_⟩
  simp only [findNearestExpireTimer, htop, Option.bind_eq_bind, Option.bind_some, h.time_eq he,
    (h.near e he).toInt_sub, clamp]

/-- The heap does what it should exactly when every deadline falls in the
present turn of the clock. -/
theorem right_iff (h : Timed s now due) : ∃ s' fired nearest,
    Returns (fun turns => expireTimer turns s (reading 32 now)) (s', fired) ∧
      findNearestExpireTimer s (reading 32 now) = some nearest ∧
      (Right now due (Held s) fired nearest ↔ ∀ e, Held s e → turn 32 (due e) = turn 32 now) := by
  obtain ⟨s', fired, hrun, hfired⟩ := expireTimer_spec (reading 32 now) h.inOrder h.few
    (fun e he => by rw [h.key e he]; exact BitVec.isLt _)
  have hfires (e : Ptr) (he : Held s e) :
      (e ∈ fired ↔ due e ≤ now) ↔ turn 32 (due e) = turn 32 now := by
    rw [← (h.near e he).le_iff_turn, hfired, h.key e he]
    simp [he]
  have hturns (nearest : Int) (hright : Right now due (Held s) fired nearest) (e : Ptr)
      (he : Held s e) : turn 32 (due e) = turn 32 now := by
    rw [← hfires e he, hright.fires]
    simp [he]
  obtain hn | hn := Nat.eq_zero_or_pos s.n
  · have hnone : fired = [] := by
      rw [List.eq_nil_iff_forall_not_mem]
      intro e he
      exact not_held_of_empty hn ((hfired e).mp he).1
    subst hnone
    refine ⟨s', [], -1, hrun, by simp [findNearestExpireTimer, top_empty hn], hturns _, fun _ => ?_⟩
    exact ⟨by simp [not_held_of_empty hn], by simp, by simp [not_held_of_empty hn]⟩
  · obtain ⟨e, he, hmin, hnearest⟩ := findNearest_spec h hn
    refine ⟨s', fired, _, hrun, hnearest, hturns _, fun hall => ?_⟩
    have hfires' (x : Ptr) : x ∈ fired ↔ Held s x ∧ due x ≤ now := by
      constructor
      · intro hx
        have hheld := ((hfired x).mp hx).1
        exact ⟨hheld, ((hfires x hheld).mpr (hall x hheld)).mp hx⟩
      · rintro ⟨hheld, hle⟩
        exact ((hfires x hheld).mpr (hall x hheld)).mpr hle
    have hfirst : fired ≠ [] ↔ due e ≤ now := by
      constructor
      · intro hne
        obtain ⟨x, hx⟩ := List.exists_mem_of_ne_nil fired hne
        have hxe := (hfired x).mp hx
        exact ((hfires' e).mp ((hfired e).mpr ⟨he, Nat.le_trans (hmin x hxe.1) hxe.2⟩)).2
      · intro hle
        exact List.ne_nil_of_mem ((hfires' e).mpr ⟨he, hle⟩)
    refine ⟨hfires', ?_, ?_⟩
    · rw [clamp_eq_zero_iff, hfirst]
      omega
    · intro hnone _
      have hlate : ¬due e ≤ now := fun hle => hfirst.mpr hle hnone
      refine ⟨e, he, ?_, clamp_of_pos (by omega)⟩
      intro x hx
      rw [le_iff_of_turn ((hall e he).trans (hall x hx).symm), ← h.key e he, ← h.key x hx]
      exact hmin x hx

end Mh

-- --------------------------------------------------------------------------
-- The tree
-- --------------------------------------------------------------------------

namespace Rbt

variable {B : Balancing} {t l r : Ngx} {n m : Node}

def ptrs (t : Ngx) : List Ptr := t.inorder.map Node.ptr

structure Timed (t : Ngx) (now : Nat) (due : Ptr → Nat) : Prop where
  key : ∀ n ∈ t.inorder, n.key = reading 32 (due n.ptr)
  near : ∀ n ∈ t.inorder, Near 32 (due n.ptr) now
  nodup : (ptrs t).Nodup

theorem inorder_min : ∃ ns, (Ngx.node l n r).inorder = ngxRbtreeMin l n r :: ns := by
  induction l generalizing n r with
  | sentinel => exact ⟨r.inorder, rfl⟩
  | node l m r' ihl _ =>
    obtain ⟨ns, hns⟩ := ihl (n := m) (r := r')
    refine ⟨ns ++ n :: r.inorder, ?_⟩
    rw [Ngx.inorder, hns]
    rfl

theorem expireTimer_spec (cur : BitVec 32) (t : Ngx) :
    ∃ t', Returns (fun turns => expireTimer B turns t cur)
      (t', (t.inorder.takeWhile fun n => n.key ≤ cur).map Node.ptr) := by
  induction hl : t.inorder generalizing t with
  | nil =>
    cases t with
    | sentinel => exact ⟨.sentinel, Returns.last fun _ => rfl⟩
    | node l n r =>
      obtain ⟨ns, hns⟩ := inorder_min (l := l) (n := n) (r := r)
      rw [hns] at hl
      cases hl
  | cons first rest ih =>
    cases t with
    | sentinel => cases hl
    | node l n r =>
      obtain ⟨ns, hns⟩ := inorder_min (l := l) (n := n) (r := r)
      obtain ⟨hfirst, rfl⟩ := List.cons_eq_cons.mp (hl.symm.trans hns)
      by_cases hlate : (ngxRbtreeMin l n r).key > cur
      · refine ⟨.node l n r, Returns.last ?_⟩
        intro turns
        have hstop : ¬first.key ≤ cur := by rw [hfirst]; exact BitVec.not_le.mpr hlate
        simp [expireTimer, if_pos hlate, hstop]
      · have hdelete : (B.delete (.node l n r) (ngxRbtreeMin l n r)).inorder = rest := by
          rw [B.inorder_delete _ _ (by rw [hns]; exact List.mem_cons_self), hns,
            List.erase_cons_head]
        have hgo : (ngxRbtreeMin l n r).key ≤ cur := BitVec.not_lt.mp hlate
        obtain ⟨t', hrun⟩ := ih _ hdelete
        refine ⟨t', ?_⟩
        simp only [List.takeWhile_cons, hfirst, hgo, decide_true, if_true, List.map_cons]
        refine (hrun.map fun r' => (r'.1, (ngxRbtreeMin l n r).ptr :: r'.2)).turn ?_
        intro turns
        simp only [expireTimer, if_neg hlate, Option.bind_eq_bind]
        cases expireTimer B turns (B.delete (.node l n r) (ngxRbtreeMin l n r)) cur <;> rfl

theorem fired_eq (h : Timed t now due) :
    (t.inorder.takeWhile fun n => n.key ≤ reading 32 now).map Node.ptr =
      (ptrs t).takeWhile fun e => reading 32 (due e) ≤ reading 32 now := by
  rw [ptrs, List.takeWhile_map]
  congr 1
  have hkey := h.key
  generalize t.inorder = ns at hkey
  induction ns with
  | nil => rfl
  | cons n ns ih =>
    rw [List.forall_mem_cons] at hkey
    simp only [List.takeWhile_cons, Function.comp_apply, hkey.1, ih hkey.2]

theorem findNearest_eq (h : Timed t now due) :
    findNearestExpireTimer t (reading 32 now) =
      ((ptrs t).head?.map fun e => clamp ((due e : Int) - now)).getD (-1) := by
  cases t with
  | sentinel => rfl
  | node l n r =>
    obtain ⟨ns, hns⟩ := inorder_min (l := l) (n := n) (r := r)
    have hmem : ngxRbtreeMin l n r ∈ (Ngx.node l n r).inorder := by simp [hns]
    simp only [findNearestExpireTimer, ptrs, hns, List.map_cons, List.head?_cons, Option.map_some,
      Option.getD_some, h.key _ hmem, (h.near _ hmem).toInt_sub, clamp]

/-- The order of the timers in the tree: those that are due come first, they
and the next one fall in the present turn of the clock, and if none is due the
next one is the earliest. -/
structure InLine (now : Nat) (due : Ptr → Nat) (front later : List Ptr) : Prop where
  reached : ∀ e ∈ front, due e ≤ now ∧ turn 32 (due e) = turn 32 now
  ahead : ∀ e ∈ later, now < due e
  next : ∀ e ∈ later.head?, turn 32 (due e) = turn 32 now
  earliest : front = [] → ∀ e ∈ later.head?, ∀ x ∈ later, due e ≤ due x

theorem InLine.takeWhile_eq {front later : List Ptr} (h : InLine now due front later) :
    (front ++ later).takeWhile (fun e => reading 32 (due e) ≤ reading 32 now) = front := by
  have hfront : ∀ e ∈ front, decide (reading 32 (due e) ≤ reading 32 now) = true := by
    intro e he
    have hreached := h.reached e he
    exact decide_eq_true ((le_iff_of_turn hreached.2).mp hreached.1)
  rw [List.takeWhile_append_of_pos hfront, List.append_right_eq_self]
  cases later with
  | nil => rfl
  | cons e later =>
    have hturn := h.next e rfl
    have hlate : ¬reading 32 (due e) ≤ reading 32 now := by
      intro hle
      exact Nat.not_le_of_lt (h.ahead e List.mem_cons_self) ((le_iff_of_turn hturn).mpr hle)
    simp [hlate]

theorem InLine.right {front later : List Ptr} (h : InLine now due front later) :
    Right now due (· ∈ front ++ later) front
      (((front ++ later).head?.map fun e => clamp ((due e : Int) - now)).getD (-1)) := by
  refine ⟨?_, ?_, ?_⟩
  · intro e
    constructor
    · intro he
      exact ⟨List.mem_append_left _ he, (h.reached e he).1⟩
    · rintro ⟨he, hle⟩
      rcases List.mem_append.mp he with he | he
      · exact he
      · exact absurd hle (Nat.not_le_of_lt (h.ahead e he))
  · cases front with
    | cons e front =>
      have hle := (h.reached e List.mem_cons_self).1
      simp [clamp_eq_zero_iff, hle]
    | nil =>
      cases later with
      | nil => simp
      | cons e later =>
        have hlt := h.ahead e List.mem_cons_self
        simp [clamp_eq_zero_iff, hlt]
  · rintro rfl ⟨x, hx⟩
    cases later with
    | nil => simp at hx
    | cons e later =>
      have hlt := h.ahead e List.mem_cons_self
      refine ⟨e, List.mem_cons_self, fun x hx => h.earliest rfl e rfl x hx, ?_⟩
      simp only [List.nil_append, List.head?_cons, Option.map_some, Option.getD_some]
      exact clamp_of_pos (by omega)

theorem inLine_of_right {front later : List Ptr} (hnodup : (front ++ later).Nodup)
    (hnear : ∀ e ∈ front ++ later, Near 32 (due e) now)
    (hfront : ∀ e ∈ front, reading 32 (due e) ≤ reading 32 now)
    (hnext : ∀ e ∈ later.head?, ¬reading 32 (due e) ≤ reading 32 now)
    (h : Right now due (· ∈ front ++ later) front
      (((front ++ later).head?.map fun e => clamp ((due e : Int) - now)).getD (-1))) :
    InLine now due front later := by
  have hahead : ∀ e ∈ later, now < due e := by
    intro e he
    by_contra hle
    have hfired := (h.fires e).mpr ⟨List.mem_append_right _ he, Nat.le_of_not_lt hle⟩
    exact (List.disjoint_of_nodup_append hnodup) hfired he
  refine ⟨?_, hahead, ?_, ?_⟩
  · intro e he
    have hdue := ((h.fires e).mp he).2
    refine ⟨hdue, (hnear e (List.mem_append_left _ he)).le_iff_turn.mp ?_⟩
    exact iff_of_true (hfront e he) hdue
  · intro e he
    have hmem : e ∈ later := List.mem_of_mem_head? he
    refine (hnear e (List.mem_append_right _ hmem)).le_iff_turn.mp ?_
    exact iff_of_false (hnext e he) (Nat.not_le_of_lt (hahead e hmem))
  · rintro rfl e he x hx
    obtain ⟨y, -, hmin, hnearest⟩ := h.waits rfl ⟨x, hx⟩
    have hlt := hahead e (List.mem_of_mem_head? he)
    rw [Option.mem_def] at he
    simp only [List.nil_append, he, Option.map_some, Option.getD_some] at hnearest
    rw [clamp_of_pos (by omega)] at hnearest
    have heq : due e = due y := by omega
    rw [heq]
    exact hmin x hx

/-- The tree does what it should exactly when its timers are in line. -/
theorem right_iff (h : Timed t now due) : ∃ t' fired,
    Returns (fun turns => expireTimer B turns t (reading 32 now)) (t', fired) ∧
      (Right now due (· ∈ ptrs t) fired (findNearestExpireTimer t (reading 32 now)) ↔
        ∃ front later, ptrs t = front ++ later ∧ InLine now due front later) := by
  obtain ⟨t', hrun⟩ := expireTimer_spec (B := B) (reading 32 now) t
  refine ⟨t', _, hrun, ?_⟩
  rw [fired_eq h, findNearest_eq h]
  constructor
  · intro hright
    have hsplit := List.takeWhile_append_dropWhile
      (p := fun e => decide (reading 32 (due e) ≤ reading 32 now)) (l := ptrs t)
    refine ⟨_, _, hsplit.symm,
      inLine_of_right (by rw [hsplit]; exact h.nodup) ?_ ?_ ?_ (by rwa [hsplit])⟩
    · rw [hsplit]
      intro e he
      obtain ⟨n, hn, rfl⟩ := List.mem_map.mp he
      exact h.near n hn
    · intro e he
      exact of_decide_eq_true (List.all_eq_true.mp List.all_takeWhile e he)
    · intro e he
      have hhead := List.head?_dropWhile_not (fun e => decide (reading 32 (due e) ≤ reading 32 now))
        (ptrs t)
      rw [Option.mem_def.mp he] at hhead
      simpa using hhead
  · rintro ⟨front, later, hps, hline⟩
    rw [hps, hline.takeWhile_eq]
    exact hline.right

end Rbt

end LearningCode.WrapTimer
