import LearningCode.Lib.Family
import LearningCode.TimeWheel.Nodes

/-!
# What each operation does to the lists

`Kept` says what the lists are: every list from its head to its tail, and in
`hand` a chain that was cut off. One lemma for each operation on the memory
says what it makes of them.
-/

namespace LearningCode.TimeWheel.Nodes

open Chain

variable {w w' : Wheel} {s : Slot} {p q r : Ptr} {cell : Cell} {o temp : Option Ptr}
  {lists : Slot → List Ptr} {hand l : List Ptr} {log : List Entry} {a : Addr}

def Pending : List Entry → Ptr → Prop
  | [], _ => False
  | .linked q :: log, p => q = p ∨ Pending log p
  | .dispatched q :: log, p => q ≠ p ∧ Pending log p
  | .cleared q :: log, p => q ≠ p ∧ Pending log p

def On (lists : Slot → List Ptr) (hand : List Ptr) (p : Ptr) : Prop :=
  p ∈ hand ∨ ∃ s, Valid s ∧ p ∈ lists s

structure Kept (w : Wheel) (lists : Slot → List Ptr) (hand : List Ptr) (temp : Option Ptr) :
    Prop where
  family : Family Valid Ptr.head w.next w.tail lists
  follows : Follows w.next hand
  nodup : hand.Nodup
  outside : ∀ p ∈ hand, Outside Valid Ptr.head lists p
  node : ∀ p, On lists hand p → ∃ a, p = .node a
  pending : ∀ p, On lists hand p ↔ Pending w.log p
  temp : ∀ p, temp = some p → (∃ a, p = .node a) ∧ w.heap p ≠ none ∧ ¬ Pending w.log p

-- ---------------------------------------------------------------------------
-- Reading and writing
-- ---------------------------------------------------------------------------

theorem next_of_heap (h : w.heap p = some cell) : w.next p = some cell.next := by
  simp [Wheel.next, h]

theorem heap_of_next (h : w.next p = some o) : ∃ cell, w.heap p = some cell ∧ cell.next = o := by
  simpa [Wheel.next] using h

@[simp] theorem write_next (cell : Option Cell) :
    (w.write p cell).next q = if q = p then cell.map Cell.next else w.next q := by
  by_cases hqp : q = p
  · simp [Wheel.next, Wheel.write, hqp]
  · simp [Wheel.next, Wheel.write, hqp]

theorem write_heap_of_ne (cell : Option Cell) (h : q ≠ p) : (w.write p cell).heap q = w.heap q :=
  Function.update_of_ne h ..

@[simp] theorem setTail_next : (w.setTail s p).next q = w.next q := rfl

theorem setNext_of_heap (h : w.heap p = some cell) :
    w.setNext p o = some (w.write p (some { cell with next := o })) := by
  simp [Wheel.setNext, h]

/-- Only links differ. -/
structure Same (w w' : Wheel) : Prop where
  heap : ∀ p, (w'.heap p).map Cell.toTimerNode = (w.heap p).map Cell.toTimerNode
  time : w'.time = w.time
  log : w'.log = w.log

theorem Same.none (h : Same w w') (p : Ptr) : w'.heap p = none ↔ w.heap p = none := by
  rw [← Option.map_eq_none_iff, h.heap, Option.map_eq_none_iff]

theorem Same.write (h : w.heap p = some cell) (o : Option Ptr) :
    Same w (w.write p (some { cell with next := o })) := by
  refine ⟨fun q => ?_, rfl, rfl⟩
  by_cases hqp : q = p
  · subst hqp
    simp [Wheel.write, h]
  · rw [write_heap_of_ne _ hqp]

-- ---------------------------------------------------------------------------
-- The lists and the memory
-- ---------------------------------------------------------------------------

theorem Kept.head_heap (h : Kept w lists hand temp) (hs : Valid s) : ∃ cell,
    w.heap (.head s) = some cell ∧ cell.next = (lists s).head? :=
  heap_of_next (h.family.linked s hs).next_head

theorem Kept.heap (h : Kept w lists hand temp) (hp : On lists hand p) : w.heap p ≠ none := by
  have hread : ∃ o, w.next p = some o := by
    rcases hp with hp | ⟨s, hs, hp⟩
    · exact h.follows.read hp
    · exact (h.family.linked s hs).read hp
  obtain ⟨o, ho⟩ := hread
  obtain ⟨cell, hcell, -⟩ := heap_of_next ho
  simp [hcell]

theorem outside_of_not (hp : ¬ On lists hand (.node a)) :
    Outside Valid Ptr.head lists (.node a) := by
  intro s hs hmem
  rcases List.mem_cons.mp hmem with hmem | hmem
  · cases hmem
  · exact hp (.inr ⟨s, hs, hmem⟩)

theorem Kept.of_next (h : Kept w lists hand temp) (htail : w'.tail = w.tail)
    (hlog : w'.log = w.log) (hnext : ∀ p, w.heap p ≠ none → w'.next p = w.next p) :
    Kept w' lists hand temp := by
  have hheap : ∀ p, w.heap p ≠ none → w'.heap p ≠ none := by
    intro p hp hnone
    have heq := hnext p hp
    simp only [Wheel.next, hnone] at heq
    obtain ⟨cell, hcell⟩ := Option.ne_none_iff_exists'.mp hp
    simp [hcell] at heq
  refine ⟨?_, ?_, h.nodup, h.outside, h.node, hlog ▸ h.pending, fun p hp => ?_⟩
  · rw [htail]
    refine h.family.congr fun s hs q hq => hnext q ?_
    rcases List.mem_cons.mp hq with rfl | hq
    · obtain ⟨cell, hcell, -⟩ := h.head_heap hs
      simp [hcell]
    · exact h.heap (.inr ⟨s, hs, hq⟩)
  · exact h.follows.congr fun q hq => hnext q (h.heap (.inl hq))
  · obtain ⟨hnode, hheap', hpending⟩ := h.temp p hp
    exact ⟨hnode, hheap p hheap', hlog ▸ hpending⟩

-- ---------------------------------------------------------------------------
-- link_clear
-- ---------------------------------------------------------------------------

theorem on_clear (hs : Valid s) : On (Function.update lists s []) (lists s) p ↔ On lists [] p := by
  constructor
  · rintro (hp | ⟨t, ht, hp⟩)
    · exact .inr ⟨s, hs, hp⟩
    · by_cases hts : t = s
      · subst hts
        simp at hp
      · rw [Function.update_of_ne hts] at hp
        exact .inr ⟨t, ht, hp⟩
  · rintro (hp | ⟨t, ht, hp⟩)
    · cases hp
    · by_cases hts : t = s
      · exact .inl (hts ▸ hp)
      · exact .inr ⟨t, ht, by rwa [Function.update_of_ne hts]⟩

theorem linkClear_spec (h : Kept w lists [] temp) (hs : Valid s) : ∃ w',
    linkClear w s = some (w', (lists s).head?) ∧ Same w w' ∧
      Kept w' (Function.update lists s []) (lists s) temp := by
  obtain ⟨cell, hcell, hnext⟩ := h.head_heap hs
  have hcall : linkClear w s = some
      ((w.write (.head s) (some { cell with next := none })).setTail s (.head s),
        (lists s).head?) := by
    simp only [linkClear, next_of_heap hcell, hnext, setNext_of_heap hcell, Option.bind_eq_bind,
      Option.bind_some]
  have hsame := Same.write hcell none
  have hagree : ∀ q, q ≠ .head s →
      (w.write (.head s) (some { cell with next := none })).next q = w.next q :=
    fun q hq => by simp [hq]
  have hapart : ∀ p, On lists [] p → p ≠ .head s := by
    intro p hp heq
    obtain ⟨a, ha⟩ := h.node p hp
    cases ha.symm.trans heq
  refine ⟨_, hcall, ⟨hsame.heap, rfl, rfl⟩, ?_⟩
  refine ⟨?_, ?_, (List.nodup_cons.mp (h.family.nodup s hs)).2, ?_, ?_, ?_, ?_⟩
  · refine h.family.clear ?_ fun t ht hts q hq => hagree q ?_
    · rw [setTail_next, write_next, if_pos rfl]
      rfl
    rintro rfl
    exact h.family.apart t s ht hs hts _ hq List.mem_cons_self
  · refine (h.family.linked s hs).follows.congr fun q hq => hagree q ?_
    exact hapart q (.inr ⟨s, hs, hq⟩)
  · intro p hp t ht hmem
    by_cases hts : t = s
    · subst hts
      rw [Function.update_self, List.mem_singleton] at hmem
      exact hapart p (.inr ⟨t, hs, hp⟩) hmem
    · rw [Function.update_of_ne hts] at hmem
      exact h.family.apart t s ht hs hts p hmem (List.mem_cons_of_mem _ hp)
  · exact fun p hp => h.node p ((on_clear hs).mp hp)
  · exact fun p => (on_clear hs).trans (h.pending p)
  · intro p hp
    obtain ⟨hnode, hheap, hpending⟩ := h.temp p hp
    exact ⟨hnode, mt (hsame.none p).mp hheap, hpending⟩

-- ---------------------------------------------------------------------------
-- add_node
-- ---------------------------------------------------------------------------

theorem slotOf_valid (expire now : BitVec 32) : Valid (slotOf expire now) := by
  have hlevel (x : Nat) : x % TIME_LEVEL < TIME_LEVEL := Nat.mod_lt _ (by decide)
  unfold slotOf
  split_ifs
  · exact Nat.mod_lt _ (by decide)
  all_goals exact ⟨by decide, hlevel _⟩

theorem addNode_eq (h : w.heap p = some cell) :
    addNode w p = link w (slotOf cell.expire w.time) p := by
  have h0 : (BitVec.ofNat 32 TIME_NEAR).toNat = span 0 := rfl
  have h1 : (BitVec.ofNat 32 (1 <<< (TIME_NEAR_SHIFT + TIME_LEVEL_SHIFT))).toNat = span 1 := rfl
  have h2 : (BitVec.ofNat 32 (1 <<< (TIME_NEAR_SHIFT + 2 * TIME_LEVEL_SHIFT))).toNat = span 2 := rfl
  have h3 : (BitVec.ofNat 32 (1 <<< (TIME_NEAR_SHIFT + 3 * TIME_LEVEL_SHIFT))).toNat = span 3 := rfl
  simp only [addNode, h, Option.bind_eq_bind, Option.bind_some, slotOf, delay, BitVec.lt_def, h0, h1,
    h2, h3, toNat_and_near, toNat_shift_and]
  split_ifs <;> simp only [*, ↓reduceIte] <;> rfl

theorem on_link (hs : Valid s) : On (Function.update lists s (lists s ++ [q])) hand p ↔
    p = q ∨ On lists hand p := by
  constructor
  · rintro (hp | ⟨t, ht, hp⟩)
    · exact .inr (.inl hp)
    · by_cases hts : t = s
      · subst hts
        rw [Function.update_self, List.mem_append, List.mem_singleton] at hp
        exact hp.symm.imp_right fun hp => .inr ⟨t, hs, hp⟩
      · rw [Function.update_of_ne hts] at hp
        exact .inr (.inr ⟨t, ht, hp⟩)
  · rintro (rfl | hp | ⟨t, ht, hp⟩)
    · exact .inr ⟨s, hs, by simp⟩
    · exact .inl hp
    · refine .inr ⟨t, ht, ?_⟩
      by_cases hts : t = s
      · subst hts
        simp [hp]
      · rwa [Function.update_of_ne hts]

theorem outside_link (hs : Valid s) (h : Outside Valid Ptr.head lists q) (hne : q ≠ p) :
    Outside Valid Ptr.head (Function.update lists s (lists s ++ [p])) q := by
  intro t ht hmem
  by_cases hts : t = s
  · subst hts
    rw [Function.update_self, ← List.cons_append, List.mem_append, List.mem_singleton] at hmem
    exact hmem.elim (h t hs) hne
  · rw [Function.update_of_ne hts] at hmem
    exact h t ht hmem

theorem link_family (h : Family Valid Ptr.head w.next w.tail lists) (hs : Valid s)
    (hp : Outside Valid Ptr.head lists p) (hcell : w.heap p = some cell) : ∃ w',
    link w s p = some w' ∧ Same w w' ∧
      (∀ q, q ≠ p → Outside Valid Ptr.head lists q → w'.next q = w.next q) ∧
      Family Valid Ptr.head w'.next w'.tail (Function.update lists s (lists s ++ [p])) := by
  obtain ⟨last, hlast⟩ : ∃ last, w.tail s = some last := ⟨_, h.tails s hs⟩
  have hmem := h.last_mem hs hlast
  have hne : p ≠ last := by
    rintro rfl
    exact hp s hs hmem
  obtain ⟨cl, hcl, -⟩ : ∃ cl, w.heap last = some cl ∧ True := by
    have hread : ∃ o, w.next last = some o := by
      rcases List.mem_cons.mp hmem with rfl | hmem
      · exact ⟨_, (h.linked s hs).next_head⟩
      · exact (h.linked s hs).read hmem
    obtain ⟨o, ho⟩ := hread
    obtain ⟨cl, hcl, -⟩ := heap_of_next ho
    exact ⟨cl, hcl, trivial⟩
  have hcell' : (w.write last (some { cl with next := some p })).heap p = some cell := by
    rw [write_heap_of_ne _ hne, hcell]
  have hcall : link w s p = some (((w.write last (some { cl with next := some p })).setTail s p).write p
      (some { cell with next := none })) := by
    simp only [link, hlast, setNext_of_heap hcl, Option.bind_eq_bind, Option.bind_some]
    exact setNext_of_heap hcell'
  have hnext : ∀ q, (((w.write last (some { cl with next := some p })).setTail s p).write p
      (some { cell with next := none })).next q =
        if q = p then some none else if q = last then some (some p) else w.next q := by
    intro q
    simp
  have hfirst := Same.write hcl (some p)
  have hsecond := Same.write hcell' none
  refine ⟨_, hcall, ⟨fun q => ?_, rfl, rfl⟩, ?_, ?_⟩
  · exact (hsecond.heap q).trans (hfirst.heap q)
  · intro q hqp hq
    have hql : q ≠ last := by
      rintro rfl
      exact hq s hs hmem
    rw [hnext, if_neg hqp, if_neg hql]
  · refine h.link hs hp hlast ?_ ?_ ?_
    · rw [hnext, if_neg hne.symm, if_pos rfl]
    · rw [hnext, if_pos rfl]
    · intro q hql hqp
      rw [hnext, if_neg hqp, if_neg hql]

theorem addNode_spec (h : Family Valid Ptr.head w.next w.tail lists) (hfollows : Follows w.next hand)
    (hout : ∀ q ∈ p :: hand, Outside Valid Ptr.head lists q) (hp : p ∉ hand)
    (hcell : w.heap p = some cell) (hs : s = slotOf cell.expire w.time) : ∃ w',
    addNode w p = some w' ∧ Same w w' ∧ Follows w'.next hand ∧
      Family Valid Ptr.head w'.next w'.tail (Function.update lists s (lists s ++ [p])) ∧
      ∀ q ∈ hand, Outside Valid Ptr.head (Function.update lists s (lists s ++ [p])) q := by
  rw [List.forall_mem_cons] at hout
  have hvalid : Valid s := hs ▸ slotOf_valid cell.expire w.time
  have hne : ∀ q ∈ hand, q ≠ p := by
    rintro q hq rfl
    exact hp hq
  obtain ⟨w', hcall, hsame, hnext, hfamily⟩ := link_family h hvalid hout.1 hcell
  refine ⟨w', (addNode_eq hcell).trans (hs ▸ hcall), hsame, ?_, hfamily, ?_⟩
  · exact hfollows.congr fun q hq => hnext q (hne q hq) (hout.2 q hq)
  · exact fun q hq => outside_link hvalid (hout.2 q hq) (hne q hq)

theorem on_cons : On lists (q :: hand) p ↔ p = q ∨ On lists hand p := by
  simp [On, or_assoc]

theorem Kept.relink (h : Kept w lists (p :: hand) temp) (hcell : w.heap p = some cell)
    (hs : s = slotOf cell.expire w.time) : ∃ w', addNode w p = some w' ∧ Same w w' ∧
      Kept w' (Function.update lists s (lists s ++ [p])) hand temp := by
  obtain ⟨w', hcall, hsame, hfollows, hfamily, hout⟩ :=
    addNode_spec h.family (Linked.follows h.follows) h.outside (List.nodup_cons.mp h.nodup).1 hcell
      hs
  have hon : ∀ q, On (Function.update lists s (lists s ++ [p])) hand q ↔ On lists (p :: hand) q :=
    fun q => (on_link (hs ▸ slotOf_valid ..)).trans on_cons.symm
  refine ⟨w', hcall, hsame, hfamily, hfollows, (List.nodup_cons.mp h.nodup).2, hout, ?_, ?_, ?_⟩
  · exact fun q hq => h.node q ((hon q).mp hq)
  · exact fun q => (hon q).trans (hsame.log ▸ h.pending q)
  · intro q hq
    obtain ⟨hnode, hheap, hpending⟩ := h.temp q hq
    exact ⟨hnode, mt (hsame.none q).mp hheap, hsame.log ▸ hpending⟩

theorem Kept.linkNew (h : Kept w lists hand temp) (hcell : w.heap (.node a) = some cell)
    (hnew : ¬ On lists hand (.node a)) (htemp : temp ≠ some (.node a))
    (hs : s = slotOf cell.expire w.time) : ∃ w', addNode w (.node a) = some w' ∧ Same w w' ∧
      Kept (w'.record (.linked (.node a))) (Function.update lists s (lists s ++ [.node a])) hand
        temp := by
  have hp : Ptr.node a ∉ hand := fun hmem => hnew (.inl hmem)
  have hvalid : Valid s := hs ▸ slotOf_valid ..
  obtain ⟨w', hcall, hsame, hfollows, hfamily, hout⟩ :=
    addNode_spec h.family h.follows
      (List.forall_mem_cons.mpr ⟨outside_of_not hnew, h.outside⟩) hp hcell hs
  refine ⟨w', hcall, hsame, hfamily, hfollows, h.nodup, hout, ?_, ?_, ?_⟩
  · intro q hq
    rcases (on_link hvalid).mp hq with rfl | hq
    · exact ⟨a, rfl⟩
    · exact h.node q hq
  · intro q
    simp only [on_link hvalid, Wheel.record, Pending, hsame.log, h.pending, eq_comm]
  · intro q hq
    obtain ⟨hnode, hheap, hpending⟩ := h.temp q hq
    refine ⟨hnode, mt (hsame.none q).mp hheap, ?_⟩
    simp only [Wheel.record, Pending, hsame.log, not_or]
    refine ⟨?_, hpending⟩
    rintro rfl
    exact htemp hq

-- ---------------------------------------------------------------------------
-- malloc, free and del_timer
-- ---------------------------------------------------------------------------

theorem Kept.not_on (h : Kept w lists hand temp) (hp : w.heap p = none) : ¬ On lists hand p :=
  fun hon => h.heap hon hp

theorem Kept.temp_ne (h : Kept w lists hand temp) (hp : w.heap p = none) : temp ≠ some p := by
  rintro rfl
  exact (h.temp p rfl).2.1 hp

theorem Kept.allocate (h : Kept w lists hand temp) (hfresh : w.heap (.node a) = none)
    (time : BitVec 32) (func : Handler) (threadid : BitVec 32) (cell : Cell) :
    Kept (allocate w time func threadid a cell) lists hand temp := by
  refine h.of_next rfl rfl fun p hp => ?_
  have hne : p ≠ .node a := by
    rintro rfl
    exact hp hfresh
  simp [Nodes.allocate, hne]

theorem Kept.delTimer (h : Kept w lists hand temp) (a : Addr) :
    Kept (delTimer w a) lists hand temp := by
  unfold Nodes.delTimer
  cases hcell : w.heap (.node a) with
  | none => exact h
  | some cell =>
    refine h.of_next rfl rfl fun p _ => ?_
    by_cases hp : p = .node a
    · simp [hp, next_of_heap hcell]
    · simp [hp]

theorem Kept.free (h : Kept w lists hand (some p)) : ∃ w', Nodes.free w p = some w' ∧
    w'.heap p = none ∧ Kept w' lists hand none := by
  obtain ⟨⟨a, rfl⟩, hheap, hpending⟩ := h.temp p rfl
  obtain ⟨cell, hcell⟩ := Option.ne_none_iff_exists'.mp hheap
  have hon : ¬ On lists hand (.node a) := mt (h.pending _).mp hpending
  have hagree : ∀ q, q ≠ .node a → (w.write (.node a) none).next q = w.next q :=
    fun q hq => by simp [hq]
  refine ⟨w.write (.node a) none, by simp [Nodes.free, hcell], by simp [Wheel.write], ?_⟩
  refine ⟨?_, ?_, h.nodup, h.outside, h.node, h.pending, nofun⟩
  · refine h.family.congr fun s hs q hq => hagree q ?_
    rintro rfl
    exact outside_of_not hon s hs hq
  · refine h.follows.congr fun q hq => hagree q ?_
    rintro rfl
    exact hon (.inl hq)

theorem Kept.dispatch (h : Kept w lists (p :: hand) none) :
    Kept (w.record (.dispatched p)) lists hand (some p) := by
  have hp : ¬ On lists hand p := by
    rintro (hp | ⟨s, hs, hp⟩)
    · exact (List.nodup_cons.mp h.nodup).1 hp
    · exact h.outside p List.mem_cons_self s hs (List.mem_cons_of_mem _ hp)
  have hout := (List.forall_mem_cons.mp h.outside).2
  refine ⟨h.family, Linked.follows h.follows, (List.nodup_cons.mp h.nodup).2, hout, ?_, ?_, ?_⟩
  · exact fun q hq => h.node q (on_cons.mpr (.inr hq))
  · intro q
    simp only [Wheel.record, Pending, ← h.pending, on_cons]
    constructor
    · intro hq
      refine ⟨?_, .inr hq⟩
      rintro rfl
      exact hp hq
    · rintro ⟨hne, rfl | hq⟩
      · exact absurd rfl hne
      · exact hq
  · rintro q ⟨⟩
    exact ⟨h.node p (on_cons.mpr (.inl rfl)), h.heap (on_cons.mpr (.inl rfl)), fun hq => hq.1 rfl⟩

end LearningCode.TimeWheel.Nodes
