import LearningCode.SingleTw.Model
import Mathlib.Algebra.BigOperators.Group.Finset.Piecewise
import Mathlib.Algebra.Order.BigOperators.Group.Finset

/-!
# Deaths against deadlines

What a run keeps is said for one connection: its counter is the number of its
nodes in 8 bits, and the nodes on the list `j` ticks ahead are the deadlines
`j` ticks ahead. A delay of 6 to 10 puts a node on a list that comes up before
its deadline.
-/

namespace LearningCode.SingleTw

variable {W W' : Wheel} {H : History} {l : List TimerPtr} {c : ConnPtr} {i j k n : Nat}
  {t : TimerPtr} {d : Int32} {u : UInt8}

-- --------------------------------------------------------------------------
-- The loop over one list
-- --------------------------------------------------------------------------

theorem ofNat_eq_zero_iff : UInt8.ofNat n = 0 ↔ n % 256 = 0 := by
  rw [← UInt8.toNat_inj]
  simp

theorem ofNat_succ_sub_one (n : Nat) : UInt8.ofNat (n + 1) - 1 = UInt8.ofNat n := by
  rw [UInt8.ofNat_add]
  exact UInt8.add_sub_cancel ..

def share (W : Wheel) (c : ConnPtr) (l : List TimerPtr) : Nat := l.countP (W.node · = c)

def turn (W : Wheel) (t : TimerPtr) : Wheel := setUsed W (W.node t) ((W.conn (W.node t)).used - 1)

@[simp] theorem setUsed_used : ((setUsed W c u).conn c).used = u := by
  simp [setUsed]

theorem turn_used (t : TimerPtr) :
    ((turn W t).conn c).used = (W.conn c).used - if W.node t = c then 1 else 0 := by
  by_cases hc : W.node t = c
  · subst hc
    simp [turn]
  · simp [turn, setUsed, Function.update_of_ne (Ne.symm hc), hc]

theorem mem_killed_cons : c ∈ (checkLoop W (t :: l)).2.filterMap Line.killed ↔
    (W.node t = c ∧ ((turn W t).conn c).used = 0) ∨
      c ∈ (checkLoop (turn W t) l).2.filterMap Line.killed := by
  have hcons : (checkLoop W (t :: l)).2 =
      (if ((turn W t).conn (W.node t)).used = 0 then
        .killDown (W.node t) ((turn W t).conn (W.node t)).id
      else .used (W.node t) ((turn W t).conn (W.node t)).id
        ((turn W t).conn (W.node t)).used) :: (checkLoop (turn W t) l).2 := rfl
  rw [hcons]
  by_cases hzero : ((turn W t).conn (W.node t)).used = 0
  · simp only [if_pos hzero, List.filterMap_cons, Line.killed, List.mem_cons]
    refine or_congr_left ⟨?_, fun h => h.1.symm⟩
    rintro rfl
    exact ⟨rfl, hzero⟩
  · simp only [if_neg hzero, List.filterMap_cons, Line.killed]
    refine (or_iff_right ?_).symm
    rintro ⟨rfl, h⟩
    exact hzero h

/-- The counter of `c` goes down once for each of its nodes, and `c` is
reported whenever that makes it 0. -/
theorem checkLoop_spec (hused : (W.conn c).used = UInt8.ofNat n) (hn : share W c l ≤ n) :
    (((checkLoop W l).1.conn c).used = UInt8.ofNat (n - share W c l)) ∧
      (c ∈ (checkLoop W l).2.filterMap Line.killed ↔
        ∃ j, 1 ≤ j ∧ j ≤ share W c l ∧ (n - j) % 256 = 0) := by
  induction l generalizing W n with
  | nil =>
    refine ⟨by simpa [checkLoop, share] using hused, ?_⟩
    simp only [checkLoop, List.filterMap_nil, List.not_mem_nil, false_iff, share, List.countP_nil]
    rintro ⟨j, hj, hle, -⟩
    exact absurd hj (Nat.not_le.mpr (Nat.lt_of_le_of_lt hle Nat.zero_lt_one))
  | cons t l ih =>
    have hshare : share (turn W t) c l = share W c l := rfl
    rw [mem_killed_cons]
    by_cases ht : W.node t = c
    · have hcons : share W c (t :: l) = share W c l + 1 := by simp [share, ht]
      rw [hcons] at hn
      obtain ⟨m, rfl⟩ := Nat.exists_eq_add_of_le' (Nat.le_trans (Nat.le_add_left 1 _) hn)
      have hturn : ((turn W t).conn c).used = UInt8.ofNat m := by
        rw [turn_used, if_pos ht, hused, ofNat_succ_sub_one]
      obtain ⟨hafter, hkilled⟩ := ih hturn (Nat.le_of_succ_le_succ hn)
      refine ⟨?_, ?_⟩
      · rw [hcons, Nat.add_sub_add_right]
        exact hafter
      · rw [hkilled, hturn, ofNat_eq_zero_iff, hshare, hcons]
        constructor
        · rintro (⟨-, hzero⟩ | ⟨j, hj, hle, hzero⟩)
          · exact ⟨1, Nat.le_refl 1, Nat.le_add_left 1 _, hzero⟩
          · exact ⟨j + 1, Nat.le_add_left 1 j, Nat.succ_le_succ hle, by simpa using hzero⟩
        · rintro ⟨j, hj, hle, hzero⟩
          cases j with
          | zero => cases hj
          | succ j =>
            rw [Nat.add_sub_add_right] at hzero
            cases j with
            | zero => exact .inl ⟨ht, hzero⟩
            | succ j => exact .inr ⟨j + 1, Nat.le_add_left 1 j, Nat.le_of_succ_le_succ hle, hzero⟩
    · have hcons : share W c (t :: l) = share W c l := by simp [share, ht]
      have hturn : ((turn W t).conn c).used = UInt8.ofNat n := by
        rw [turn_used, if_neg ht, hused]
        simp
      rw [hcons] at hn ⊢
      obtain ⟨hafter, hkilled⟩ := ih hturn hn
      refine ⟨hafter, ?_⟩
      rw [hkilled]
      simp [ht, hshare]

theorem checkLoop_frame : (checkLoop W l).1.tw = W.tw ∧ (checkLoop W l).1.node = W.node ∧
    (checkLoop W l).1.tick = W.tick := by
  induction l generalizing W with
  | nil => exact ⟨rfl, rfl, rfl⟩
  | cons t l ih => exact ih (W := turn W t)

-- --------------------------------------------------------------------------
-- The invariant
-- --------------------------------------------------------------------------

structure Kept (W : Wheel) (H : History) (c : ConnPtr) : Prop where
  used : (W.conn c).used = UInt8.ofNat (pending W c)
  pending : pending W c = (H.deadlines c).countP (H.now ≤ ·)
  ahead : ∀ j, j < twSize → entries W c ((H.now + j) % twSize) = (H.deadlines c).count (H.now + j)
  near : ∀ x ∈ H.deadlines c, x < H.now + twSize
  alive : H.deadlines c ≠ [] → ∃ x ∈ H.deadlines c, H.now ≤ x

structure Inv (W : Wheel) (H : History) : Prop where
  tick : W.tick.toNat % twSize = H.now % twSize
  kept : ∀ c, Kept W H c

theorem slot_eq (tick : UInt32) : slot tick = tick.toNat % twSize := by
  have hmask : twMask.toNat = 2 ^ 4 - 1 := rfl
  rw [slot, UInt32.toNat_and, hmask, Nat.and_two_pow_sub_one_eq_mod]

theorem Inv.slot_now (h : Inv W H) : slot W.tick = H.now % twSize := (slot_eq _).trans h.tick

theorem Initial.inv (h : Initial W) : Inv W ⟨0, fun _ => []⟩ := by
  obtain ⟨htw, htick, hused⟩ := h
  have hentries (c : ConnPtr) (i : Nat) : entries W c i = 0 := by simp [entries, htw]
  refine ⟨by simp [htick], fun c => ⟨?_, ?_, ?_, ?_, ?_⟩⟩
  · simp [hused, SingleTw.pending, hentries]
  · simp [SingleTw.pending, hentries]
  · simp [hentries]
  · simp
  · simp

theorem countP_le_eq (l : List Nat) (n : Nat) :
    l.countP (n ≤ ·) = l.count n + l.countP (n < ·) := by
  induction l with
  | nil => rfl
  | cons x l ih =>
    simp only [List.countP_cons, List.count_cons, ih, decide_eq_true_eq, beq_iff_eq]
    split <;> split <;> split <;> omega

theorem Kept.entries_slot (h : Kept W H c) (hslot : slot W.tick = H.now % twSize) :
    entries W c (slot W.tick) = (H.deadlines c).count H.now := by
  rw [hslot]
  exact h.ahead 0 (by decide)

theorem entries_le_pending (hi : i < twSize) : entries W c i ≤ pending W c :=
  Finset.single_le_sum (f := entries W c) (fun _ _ => Nat.zero_le _) (Finset.mem_range.mpr hi)

theorem slot_lt (tick : UInt32) : slot tick < twSize := by
  rw [slot_eq]
  exact Nat.mod_lt _ (by decide)

theorem Kept.max_eq_some_iff (h : Kept W H c) (hslot : slot W.tick = H.now % twSize) :
    (H.deadlines c).max? = some H.now ↔
      1 ≤ entries W c (slot W.tick) ∧ entries W c (slot W.tick) = SingleTw.pending W c := by
  rw [List.max?_eq_some_iff, h.entries_slot hslot, h.pending, countP_le_eq, Nat.left_eq_add,
    List.countP_eq_zero, Nat.succ_le_iff, List.count_pos_iff]
  simp

theorem Kept.reported_iff (h : Kept W H c) : Reported W c ↔
    ∃ j, 1 ≤ j ∧ j ≤ entries W c (slot W.tick) ∧ (SingleTw.pending W c - j) % 256 = 0 := by
  have hle := entries_le_pending (W := W) (c := c) (slot_lt W.tick)
  exact (checkLoop_spec (W := { W with tick := W.tick + 1 }) h.used hle).2

/-- The call reports what it should exactly when no counter passes 0 early. -/
theorem Inv.right_iff (h : Inv W H) : Right (W, H) ↔ Counted W := by
  refine forall_congr' fun c => ?_
  have hc := h.kept c
  rw [hc.reported_iff, hc.max_eq_some_iff h.slot_now]
  constructor
  · intro hiff hne j hj hle hzero
    exact hne (hiff.mp ⟨j, hj, hle, hzero⟩).2
  · intro hcount
    constructor
    · rintro ⟨j, hj, hle, hzero⟩
      refine ⟨Nat.le_trans hj hle, ?_⟩
      by_contra hne
      exact hcount hne j hj hle hzero
    · rintro ⟨hpos, heq⟩
      exact ⟨_, hpos, Nat.le_refl _, by rw [heq, Nat.sub_self]⟩

-- --------------------------------------------------------------------------
-- What a call preserves
-- --------------------------------------------------------------------------

theorem slot_add (hd : 0 ≤ d) : slot (W.tick + expire + d.toUInt32) =
    (W.tick.toNat + (10 + d.toNatClampNeg)) % twSize := by
  have hten : expire.toNat = 10 := rfl
  rw [slot_eq, UInt32.toNat_add, UInt32.toNat_add, Int32.toNat_toUInt32_of_le hd, hten, twSize]
  omega

theorem entries_addConn (ht : ∀ i, t ∉ W.tw i) :
    entries (addConn W t k d) c i = entries W c i +
      if i = slot (W.tick + expire + d.toUInt32) ∧ k = c then 1 else 0 := by
  have hkeep : ∀ x ∈ W.tw i, Function.update W.node t k x = W.node x := by
    intro x hx
    refine Function.update_of_ne ?_ _ _
    rintro rfl
    exact ht i hx
  have hcount : (W.tw i).countP (Function.update W.node t k · = c) = entries W c i :=
    List.countP_congr fun x hx => by rw [hkeep x hx]
  by_cases hi : i = slot (W.tick + expire + d.toUInt32)
  · subst hi
    have htw : (addConn W t k d).tw (slot (W.tick + expire + d.toUInt32)) =
        W.tw (slot (W.tick + expire + d.toUInt32)) ++ [t] := by
      simp [addConn, setUsed]
    have hnode : (addConn W t k d).node = Function.update W.node t k := rfl
    rw [entries, htw, hnode, List.countP_append, hcount]
    simp
  · have htw : (addConn W t k d).tw i = W.tw i := by
      simp [addConn, setUsed, Function.update_of_ne hi]
    have hnode : (addConn W t k d).node = Function.update W.node t k := rfl
    rw [entries, htw, hnode, hcount]
    simp [hi]

theorem pending_addConn (ht : ∀ i, t ∉ W.tw i) :
    pending (addConn W t k d) c = pending W c + if k = c then 1 else 0 := by
  have hslot := Finset.mem_range.mpr (slot_lt (W.tick + expire + d.toUInt32))
  simp only [pending, entries_addConn ht, Finset.sum_add_distrib]
  by_cases hk : k = c
  · simp only [hk, and_true, if_true, Finset.sum_ite_eq', if_pos hslot]
  · simp [hk]

theorem used_addConn : ((addConn W t k d).conn c).used =
    (W.conn c).used + if k = c then 1 else 0 := by
  by_cases hk : k = c
  · subst hk
    simp [addConn]
  · simp [addConn, setUsed, Function.update_of_ne (Ne.symm hk), hk]

theorem Kept.add {x : Nat} (h : Kept W H c) (hx : x < H.now + twSize) (hnow : H.now ≤ x)
    (hused : (W'.conn c).used = (W.conn c).used + 1)
    (hpending : SingleTw.pending W' c = SingleTw.pending W c + 1)
    (hentries : ∀ i, entries W' c i = entries W c i + if i = x % twSize then 1 else 0)
    {H' : History} (hsame : H'.now = H.now) (hd : H'.deadlines c = x :: H.deadlines c) :
    Kept W' H' c := by
  refine ⟨?_, ?_, ?_, ?_, ?_⟩
  · rw [hused, h.used, hpending, UInt8.ofNat_add]
    rfl
  · simp [hpending, h.pending, hd, hsame, hnow]
  · intro j hj
    rw [hentries, hsame, hd, h.ahead j hj, List.count_cons]
    refine congrArg _ (if_congr ?_ rfl rfl)
    simp only [twSize] at *
    rw [beq_iff_eq]
    omega
  · intro y hy
    rw [hd] at hy
    rw [hsame]
    obtain rfl | hy := List.mem_cons.mp hy
    · exact hx
    · exact h.near y hy
  · intro _
    exact ⟨x, by simp [hd], by rwa [hsame]⟩

theorem Kept.same (h : Kept W H c) (hused : (W'.conn c).used = (W.conn c).used)
    (hpending : SingleTw.pending W' c = SingleTw.pending W c)
    (hentries : ∀ i, entries W' c i = entries W c i) {H' : History} (hsame : H'.now = H.now)
    (hd : H'.deadlines c = H.deadlines c) : Kept W' H' c := by
  refine ⟨?_, ?_, ?_, ?_, ?_⟩
  · rw [hused, hpending, h.used]
  · rw [hpending, hd, hsame, h.pending]
  · intro j hj
    rw [hentries, hsame, hd, h.ahead j hj]
  · rw [hd, hsame]
    exact h.near
  · rw [hd, hsame]
    exact h.alive

theorem Inv.addConn (h : Inv W H) (hl : Legal W (.addConn t k d)) (hd : 10 + d.toNatClampNeg < twSize) :
    Inv (addConn W t k d) (record W H (.addConn t k d)) := by
  obtain ⟨ht, hpos, -⟩ := hl
  have hslot : slot (W.tick + expire + d.toUInt32) = (H.now + 10 + d.toNatClampNeg) % twSize := by
    rw [slot_add hpos, Nat.add_mod, h.tick, ← Nat.add_mod, Nat.add_assoc]
  refine ⟨h.tick, fun c => ?_⟩
  by_cases hk : k = c
  · subst hk
    refine (h.kept k).add (x := H.now + 10 + d.toNatClampNeg) (by omega) (by omega) ?_ ?_ ?_ rfl ?_
    · simp [used_addConn]
    · simp [pending_addConn ht]
    · intro i
      simp [entries_addConn ht, hslot]
    · simp [record]
  · refine (h.kept c).same ?_ ?_ ?_ rfl ?_
    · simp [used_addConn, hk]
    · simp [pending_addConn ht, hk]
    · intro i
      simp [entries_addConn ht, hk]
    · simp [record, Function.update_of_ne (Ne.symm hk)]

theorem checkConn_frame : (checkConn W).1.tw = Function.update W.tw (slot W.tick) [] ∧
    (checkConn W).1.node = W.node ∧ (checkConn W).1.tick = W.tick + 1 := by
  obtain ⟨htw, hnode, htick⟩ :=
    checkLoop_frame (W := { W with tick := W.tick + 1 }) (l := W.tw (slot W.tick))
  refine ⟨?_, hnode, htick⟩
  rw [← htw]
  rfl

theorem entries_checkConn : entries (checkConn W).1 c i =
    if i = slot W.tick then 0 else entries W c i := by
  obtain ⟨htw, hnode, -⟩ := checkConn_frame (W := W)
  rw [entries, htw, hnode]
  by_cases hi : i = slot W.tick
  · subst hi
    simp
  · rw [Function.update_of_ne hi, if_neg hi, entries]

theorem pending_checkConn :
    pending (checkConn W).1 c = pending W c - entries W c (slot W.tick) := by
  have hmem := Finset.mem_range.mpr (slot_lt W.tick)
  have hsplit := Finset.sum_erase_add (Finset.range twSize) (entries W c) hmem
  have hleft := Finset.sum_erase_add (Finset.range twSize) (entries (checkConn W).1 c) hmem
  have hkept : ∑ i ∈ (Finset.range twSize).erase (slot W.tick), entries (checkConn W).1 c i =
      ∑ i ∈ (Finset.range twSize).erase (slot W.tick), entries W c i := by
    refine Finset.sum_congr rfl ?_
    intro i hi
    rw [entries_checkConn, if_neg (Finset.ne_of_mem_erase hi)]
  rw [hkept, entries_checkConn, if_pos rfl] at hleft
  rw [pending, pending, ← hsplit, ← hleft, Nat.add_zero, Nat.add_sub_cancel]

theorem Kept.used_checkConn (h : Kept W H c) :
    ((SingleTw.checkConn W).1.conn c).used = UInt8.ofNat (SingleTw.pending (SingleTw.checkConn W).1 c) := by
  have hle := entries_le_pending (W := W) (c := c) (slot_lt W.tick)
  rw [pending_checkConn]
  exact (checkLoop_spec (W := { W with tick := W.tick + 1 }) h.used hle).1

theorem Kept.died (h : Kept W H c) (hslot : slot W.tick = H.now % twSize)
    (hmax : (H.deadlines c).max? = some H.now) {H' : History} (hd : H'.deadlines c = []) :
    Kept (SingleTw.checkConn W).1 H' c := by
  obtain ⟨-, heq⟩ := (h.max_eq_some_iff hslot).mp hmax
  have hnone : SingleTw.pending (SingleTw.checkConn W).1 c = 0 := by
    rw [pending_checkConn, heq, Nat.sub_self]
  refine ⟨h.used_checkConn, by simp [hnone, hd], ?_, by simp [hd], by simp [hd]⟩
  intro j hj
  have hle := entries_le_pending (W := (SingleTw.checkConn W).1) (c := c)
    (Nat.mod_lt (H'.now + j) (by decide))
  rw [hnone] at hle
  rw [hd]
  exact Nat.le_zero.mp hle

theorem Kept.lives (h : Kept W H c) (hslot : slot W.tick = H.now % twSize)
    (hmax : (H.deadlines c).max? ≠ some H.now) {H' : History}
    (hd : H'.deadlines c = H.deadlines c) (hnow : H'.now = H.now + 1) :
    Kept (SingleTw.checkConn W).1 H' c := by
  have hcount := h.entries_slot hslot
  have hpending := h.pending
  rw [countP_le_eq, ← hcount] at hpending
  refine ⟨h.used_checkConn, ?_, ?_, ?_, ?_⟩
  · rw [pending_checkConn, hpending, Nat.add_sub_cancel_left, hd, hnow]
    rfl
  · intro j hj
    rw [entries_checkConn, hslot, hd, hnow, Nat.add_assoc]
    by_cases hlast : j + 1 < twSize
    · have hother : (H.now + (1 + j)) % twSize ≠ H.now % twSize := by
        simp only [twSize] at *
        omega
      rw [if_neg hother]
      exact h.ahead (1 + j) (by rwa [Nat.add_comm])
    · have hwrap : (H.now + (1 + j)) % twSize = H.now % twSize := by
        simp only [twSize] at *
        omega
      rw [if_pos hwrap, eq_comm, List.count_eq_zero]
      intro hmem
      have := h.near _ hmem
      simp only [twSize] at *
      omega
  · intro x hx
    rw [hd] at hx
    rw [hnow]
    exact Nat.lt_trans (h.near x hx) (Nat.add_lt_add_right (Nat.lt_succ_self _) _)
  · intro hne
    rw [hd] at hne ⊢
    obtain ⟨x, hx, hle⟩ := h.alive hne
    by_contra hall
    have hbound : ∀ y ∈ H.deadlines c, y ≤ H.now := by
      intro y hy
      by_contra hlt
      exact hall ⟨y, hy, by rw [hnow]; exact Nat.lt_of_not_le hlt⟩
    obtain rfl : x = H.now := Nat.le_antisymm (hbound x hx) hle
    exact hmax (List.max?_eq_some_iff.mpr ⟨hx, hbound⟩)

theorem Inv.checkConn (h : Inv W H) (hcount : Counted W) :
    Inv (checkConn W).1 (record W H .checkConn) := by
  have hright := h.right_iff.mpr hcount
  refine ⟨?_, fun c => ?_⟩
  · have htick := h.tick
    have hone : (1 : UInt32).toNat = 1 := rfl
    rw [checkConn_frame.2.2, UInt32.toNat_add, hone]
    simp only [record, twSize] at *
    omega
  · by_cases hdead : Reported W c
    · exact (h.kept c).died h.slot_now ((hright c).mp hdead) (by simp [record, hdead])
    · exact (h.kept c).lives h.slot_now (hdead ∘ (hright c).mpr) (by simp [record, hdead]) rfl

-- --------------------------------------------------------------------------
-- Runs
-- --------------------------------------------------------------------------

theorem reach_inv {s : Wheel × History} (h : calls.Reach Fits s) : Inv s.1 s.2 := by
  refine h.invariant (P := fun s => Inv s.1 s.2) ?_ ?_
  · rintro ⟨W, H⟩ ⟨hinit, rfl⟩
    exact hinit.inv
  · rintro ⟨W, H⟩ op s' hinv hfits ⟨hlegal, rfl⟩
    cases op with
    | addConn t c d => exact hinv.addConn hlegal hfits
    | checkConn => exact hinv.checkConn hfits

/-- In a run whose heartbeats are less than one turn of the wheel away and
whose counters do not wrap early, a call of `check_conn` reports exactly the
connections whose last deadline it is, if and only if it does not make a
counter wrap either. -/
theorem reach_right_iff {s : Wheel × History} (h : calls.Reach Fits s) : Right s ↔ Counted s.1 :=
  (reach_inv h).right_iff

def emptyWheel : Wheel where
  tw := fun _ => []
  tick := 0
  node := fun _ => 0
  conn := fun _ => ⟨0, 0⟩

theorem init_emptyWheel : calls.init (emptyWheel, ⟨0, fun _ => []⟩) :=
  ⟨⟨fun _ => rfl, rfl, fun _ => rfl⟩, rfl⟩

theorem Reach.add {guard : Wheel × History → Op → Prop} (h : calls.Reach guard (W, H))
    (hg : guard (W, H) (.addConn t c d)) (ht : ∀ i, t ∉ W.tw i) (hd : 0 ≤ d ∧ d ≤ 10) :
    calls.Reach guard (addConn W t c d, record W H (.addConn t c d)) :=
  .step (i := .addConn t c d) h hg ⟨⟨ht, hd⟩, rfl⟩

theorem reach_right_iff_two : ∃ s, calls.Reach Fits s ∧ s.2.deadlines 7 = [15, 10] ∧
    (Right s ↔ Counted s.1) := by
  have hstart : calls.Reach Fits (emptyWheel, ⟨0, fun _ => []⟩) := .init init_emptyWheel
  have hfirst := Reach.add (t := 1) (c := 7) (d := 0) hstart (show 10 + 0 < 16 by decide)
    (fun _ => List.not_mem_nil) (by decide)
  have hfree (i : Nat) : 2 ∉ (addConn emptyWheel 1 7 0).tw i := by
    simp only [addConn, setUsed, emptyWheel, Function.update_apply]
    split <;> simp
  have hsecond := Reach.add (t := 2) (c := 7) (d := 5) hfirst (show 10 + 5 < 16 by decide) hfree
    (by decide)
  exact ⟨_, hsecond, by decide, reach_right_iff hsecond⟩

/-- A heartbeat with a delay of 6 is counted down by the very next call. -/
theorem delay_six_dies_early : ∃ s, calls.Reach Transition.free s ∧ Reported s.1 7 ∧
    s.2.now = 0 ∧ s.2.deadlines 7 = [16] ∧ ¬Right s := by
  have hstart : calls.Reach Transition.free (emptyWheel, ⟨0, fun _ => []⟩) :=
    .init init_emptyWheel
  have hadd := Reach.add (t := 1) (c := 7) (d := 6) hstart trivial (fun _ => List.not_mem_nil)
    (by decide)
  refine ⟨_, hadd, by decide, rfl, by decide, ?_⟩
  intro hright
  exact absurd ((hright 7).mp (by decide)) (by decide)

end LearningCode.SingleTw
