import LearningCode.SimpleQueue.Outline
import Mathlib.Data.List.Nodup

/-!
# One lemma for each step that writes

What a step does to the shared annotation, and to the annotation of a thread
that is about different things.
-/

namespace LearningCode.SimpleQueue

open Links

variable {α : Type} {g : Ghost α} {s : Queue α} {m : Pc α} {a b i : Idx} {x : Item α} {n : Nat}
  {o : Option Idx} {l l' : List Idx}

theorem Shared.line_ne_nil (h : Shared g s) : g.line ≠ [] := by
  intro hnil
  have hhead := h.head
  simp [hnil] at hhead

theorem Shared.exists_line (h : Shared g s) : ∃ l, g.line = s.head :: l :=
  List.head?_eq_some_iff.mp h.head

theorem Shared.head_mem (h : Shared g s) : s.head ∈ g.line := List.mem_of_mem_head? h.head

theorem mem_unread (ha : a ∈ unread s l) : a ∈ l := by
  unfold unread at ha
  split at ha
  · exact List.mem_of_mem_tail ha
  · exact ha

theorem Shared.node_inj (h : Shared g s) (ha : a ∈ g.line ++ g.free) (hb : b ∈ g.line ++ g.free)
    (hab : a.node = b.node) : a = b := List.inj_on_of_nodup_map h.nodes ha hb hab

-- ---------------------------------------------------------------------------
-- A call
-- ---------------------------------------------------------------------------

theorem Shared.call (h : Shared g s) : Shared g { s with calls := s.calls + 1 } :=
  { h with
    kept := fun n x hx => Nat.lt_succ_of_lt (h.kept n x hx)
    counted := fun x hx => Nat.lt_succ_of_lt (h.counted x hx) }

theorem Shared.fresh (h : Shared g s) (v : α) :
    ⟨s.calls, v⟩ ∉ s.enqueued ∧ ∀ n, s.item n ≠ some ⟨s.calls, v⟩ :=
  ⟨fun hmem => Nat.lt_irrefl _ (h.counted _ hmem), fun n hn => Nat.lt_irrefl _ (h.kept n _ hn)⟩

theorem Here.call (h : Here g s m) : Here g { s with calls := s.calls + 1 } m :=
  { h with pending := fun x hx => ⟨Nat.lt_succ_of_lt (h.pending x hx).1, (h.pending x hx).2⟩ }

-- ---------------------------------------------------------------------------
-- A node out of the free list
-- ---------------------------------------------------------------------------

def Ghost.pop (g : Ghost α) (n : Nat) : Ghost α :=
  { g with free := g.free.tail, version := Function.update g.version n (g.version n + 1) }

theorem Shared.free_cons (h : Shared g s) (ha : s.freeListHead = some a) :
    g.free = a :: g.free.tail := by
  have htop := h.top.symm.trans ha
  cases hfree : g.free with
  | nil => simp [hfree] at htop
  | cons c l =>
    simp only [hfree, List.head?_cons, Option.some.injEq] at htop
    rw [htop, List.tail_cons]

theorem Shared.not_line (h : Shared g s) (ha : a ∈ g.free) (hb : b ∈ g.line) : b.node ≠ a.node := by
  have hnodes := h.nodes
  rw [List.map_append] at hnodes
  intro heq
  exact List.disjoint_of_nodup_append hnodes (List.mem_map_of_mem hb)
    (heq ▸ List.mem_map_of_mem ha)

theorem Shared.not_tail (h : Shared g s) (ha : s.freeListHead = some a) (hb : b ∈ g.free.tail) :
    b.node ≠ a.node := by
  have hnodes := h.nodes
  rw [List.map_append, h.free_cons ha] at hnodes
  have hfree := (List.nodup_append.mp hnodes).2.1
  intro heq
  exact (List.nodup_cons.mp hfree).1 (heq ▸ List.mem_map_of_mem hb)

theorem Shared.pop (h : Shared g s) (ha : s.freeListHead = some a) :
    Shared (g.pop a.node) { s with freeListHead := s.next a.node } := by
  have hfree := h.free_cons ha
  have hmem : a ∈ g.free := hfree ▸ List.mem_cons_self
  have hstacked := h.stacked
  rw [hfree] at hstacked
  have hsub : (g.line ++ g.free.tail).Sublist (g.line ++ g.free) :=
    (List.Sublist.refl _).append (List.tail_sublist g.free)
  have hother : ∀ n, n ≠ a.node → (g.pop a.node).version n = g.version n :=
    fun n hn => Function.update_of_ne hn ..
  refine { h with
    nodes := ?_, stacked := hstacked.2, top := hstacked.1, allocated := ?_, aged := ?_
    current := ?_, blank := ?_ }
  · exact h.nodes.sublist (hsub.map _)
  · intro b hb
    refine h.allocated b ?_
    simp only [Ghost.pop, List.append_assoc, List.mem_append] at hb ⊢
    exact hb.imp_right (Or.imp_right List.mem_of_mem_tail)
  · intro b hb
    by_cases hn : b.node = a.node
    · have hle := h.aged b hb
      simp only [Ghost.pop, hn, Function.update_self] at hle ⊢
      exact Nat.le_succ_of_le hle
    · rw [hother _ hn]
      exact h.aged b hb
  · intro b hb
    have hn : b.node ≠ a.node := by
      rcases List.mem_append.mp hb with hb | hb
      · exact h.not_line hmem hb
      · exact h.not_tail ha hb
    rw [hother _ hn]
    exact h.current b (hsub.subset hb)
  · intro n hn
    have hlt := h.allocated a (List.mem_append_right _ hmem)
    rw [hother n (Nat.ne_of_lt (Nat.lt_of_lt_of_le hlt hn)).symm]
    exact h.blank n hn

theorem Shared.loose_pop (h : Shared g s) (ha : s.freeListHead = some a) :
    Loose (g.pop a.node) { s with freeListHead := s.next a.node } a.node ∧
      (incrVersion a).version = (g.pop a.node).version a.node ∧ incrVersion a ∉ g.past := by
  have hmem : a ∈ g.free := h.free_cons ha ▸ List.mem_cons_self
  have hcurrent := h.current a (List.mem_append_right _ hmem)
  refine ⟨⟨h.allocated a (List.mem_append_right _ hmem), ?_⟩, ?_, ?_⟩
  · intro b hb
    rcases List.mem_append.mp hb with hb | hb
    · exact h.not_line hmem hb
    · exact h.not_tail ha hb
  · simp [Ghost.pop, incrVersion, hcurrent]
  · intro hpast
    have hle := h.aged _ hpast
    simp only [incrVersion, hcurrent] at hle
    exact Nat.not_succ_le_self _ hle

theorem Here.pop (h : Here g s m) (hs : Shared g s) (ha : s.freeListHead = some a) :
    Here (g.pop a.node) { s with freeListHead := s.next a.node } m := by
  have hfree := hs.free_cons ha
  have hmem : a ∈ g.free := hfree ▸ List.mem_cons_self
  have hcurrent := hs.current a (List.mem_append_right _ hmem)
  refine { h with popping := ?_, popped := ?_, held := ?_ }
  · intro b hb
    obtain ⟨hlt, hknown⟩ := h.popping b hb
    refine ⟨hlt, ?_⟩
    rw [hfree, List.mem_cons] at hknown
    rcases hknown with (rfl | hin) | hold
    · exact .inr (by simp [Ghost.pop, hcurrent])
    · exact .inl hin
    · right
      by_cases hn : b.node = a.node
      · rw [hn] at hold
        simpa [Ghost.pop, hn] using Nat.lt_succ_of_lt hold
      · simpa [Ghost.pop, hn] using hold
  · intro b o hb hin
    exact h.popped b o hb (List.mem_of_mem_tail hin)
  · intro b hb
    obtain ⟨⟨hlt, hloose⟩, hversion⟩ := h.held b hb
    refine ⟨⟨hlt, ?_⟩, ?_⟩
    · intro c hc
      refine hloose c ?_
      simp only [Ghost.pop, List.mem_append] at hc ⊢
      exact hc.imp_right List.mem_of_mem_tail
    · have hn : b.node ≠ a.node := (hloose a (List.mem_append_right _ hmem)).symm
      simpa [Ghost.pop, hn] using hversion

-- ---------------------------------------------------------------------------
-- A new node
-- ---------------------------------------------------------------------------

theorem Shared.newNode (h : Shared g s) :
    Shared g { s with nextNodeIdx := s.nextNodeIdx + 1 } :=
  { h with
    allocated := fun a ha => Nat.lt_succ_of_lt (h.allocated a ha)
    blank := fun n hn => h.blank n (Nat.le_of_succ_le hn) }

theorem Shared.loose_newNode (h : Shared g s) :
    Loose g { s with nextNodeIdx := s.nextNodeIdx + 1 } s.nextNodeIdx ∧
      g.version s.nextNodeIdx = 0 ∧ ∀ v, (⟨s.nextNodeIdx, v⟩ : Idx) ∉ g.past := by
  refine ⟨⟨Nat.lt_succ_self _, ?_⟩, h.blank _ (Nat.le_refl _), ?_⟩
  · intro a ha
    refine Nat.ne_of_lt (h.allocated a ?_)
    rw [List.append_assoc]
    exact List.mem_append_right _ ha
  · intro v hpast
    have hlt := h.allocated _ (List.mem_append_left _ (List.mem_append_left _ hpast))
    exact Nat.lt_irrefl _ hlt

theorem Here.newNode (h : Here g s m) : Here g { s with nextNodeIdx := s.nextNodeIdx + 1 } m :=
  { h with
    popping := fun a ha => ⟨Nat.lt_succ_of_lt (h.popping a ha).1, (h.popping a ha).2⟩
    held := fun a ha =>
      ⟨⟨Nat.lt_succ_of_lt (h.held a ha).1.1, (h.held a ha).1.2⟩, (h.held a ha).2⟩
    moving := fun a ha => ⟨Nat.lt_succ_of_lt (h.moving a ha).1, (h.moving a ha).2⟩ }

-- ---------------------------------------------------------------------------
-- A node that a thread keeps for itself
-- ---------------------------------------------------------------------------

theorem Loose.not_line (h : Loose g s n) (ha : a ∈ g.line) : a.node ≠ n :=
  h.2 a (List.mem_append_left _ ha)

theorem Loose.not_free (h : Loose g s n) (ha : a ∈ g.free) : a.node ≠ n :=
  h.2 a (List.mem_append_right _ ha)

theorem Shared.setNext (h : Shared g s) (hn : Loose g s n) (o : Option Idx) :
    Shared g { s with next := Function.update s.next n o } :=
  { h with
    queued := h.queued.update fun _ ha => hn.not_line ha
    stacked := h.stacked.update fun _ ha => hn.not_free ha }

theorem Pc.held_of_cleared (h : m.cleared = some a) : m.held = some a := by
  cases m <;> simp_all [Pc.held]

theorem Pc.held_of_filled (h : m.filled = some (a, x)) : m.held = some a := by
  cases m <;> simp_all [Pc.held]

theorem Pc.made_of_filled (h : m.filled = some (a, x)) : m.made = some a := by
  cases m <;> simp_all

theorem Pc.held_of_made (h : m.made = some a) : m.held = some a := by
  cases m <;> simp_all [Pc.held]

theorem Pc.held_of_pushing (h : m.pushing = some (a, o)) : m.held = some a := by
  cases m <;> simp_all [Pc.held]

theorem Pc.seen_of_removing (h : m.removing = some (a, b)) : m.seen = some a := by
  cases m <;> simp_all

theorem Here.setNext (h : Here g s m) (hs : Shared g s) (hn : Loose g s n) (o : Option Idx)
    (hm : ∀ a, m.held = some a → a.node ≠ n) :
    Here g { s with next := Function.update s.next n o } m := by
  refine { h with popped := ?_, cleared := ?_, linking := ?_, removing := ?_, pushing := ?_ }
  · intro a o' ha hin
    simpa [hn.not_free hin] using h.popped a o' ha hin
  · intro a ha
    simpa [hm a (Pc.held_of_cleared ha)] using h.cleared a ha
  · intro a b ha
    obtain ⟨hnone, l, l', hline⟩ := h.linking a b ha
    have hmem : a ∈ g.line := by simp [hline]
    exact ⟨by simpa [hn.not_line hmem] using hnone, l, l', hline⟩
  · rintro a b ha rfl
    simpa [hn.not_line hs.head_mem] using h.removing _ b ha rfl
  · intro a o' ha
    simpa [hm a (Pc.held_of_pushing ha)] using h.pushing a o' ha

theorem Shared.construct (h : Shared g s) (hn : Loose g s n) (hx : x.call < s.calls)
    (hnew : ∀ n, s.item n ≠ some x) :
    Shared g { s with item := Function.update s.item n (some x) } := by
  obtain ⟨waiting, henqueued, hitems⟩ := h.items
  have hcases : ∀ n' y, Function.update s.item n (some x) n' = some y →
      n' = n ∧ y = x ∨ n' ≠ n ∧ s.item n' = some y := by
    intro n' y hy
    by_cases heq : n' = n
    · subst heq
      simp only [Function.update_self, Option.some.injEq] at hy
      exact .inl ⟨rfl, hy.symm⟩
    · exact .inr ⟨heq, by simpa [heq] using hy⟩
  refine { h with items := ⟨waiting, henqueued, ?_⟩, kept := ?_, unique := ?_ }
  · rw [← hitems]
    refine List.map_congr_left ?_
    intro a ha
    have hne := hn.not_line (mem_unread (s := s) ha)
    simp [hne]
  · intro n' y hy
    rcases hcases n' y hy with ⟨-, rfl⟩ | ⟨-, hy⟩
    · exact hx
    · exact h.kept n' y hy
  · intro n' n'' y hy hy'
    rcases hcases n' y hy with ⟨rfl, rfl⟩ | ⟨-, hold⟩
    · rcases hcases n'' y hy' with ⟨rfl, -⟩ | ⟨-, hold'⟩
      · rfl
      · exact absurd hold' (hnew n'')
    · rcases hcases n'' y hy' with ⟨rfl, rfl⟩ | ⟨-, hold'⟩
      · exact absurd hold (hnew n')
      · exact h.unique n' n'' y hold hold'

theorem Pc.pending_of_unborn (h : m.unborn = some x) : m.pending = some x := by
  cases m <;> simp_all

theorem Here.construct (h : Here g s m) (hpending : m.pending ≠ some x)
    (hheld : ∀ a, m.held = some a → a.node ≠ n) (hmoving : ∀ a, m.moving = some a → a.node ≠ n) :
    Here g { s with item := Function.update s.item n (some x) } m := by
  refine { h with unborn := ?_, filled := ?_, moving := ?_ }
  · intro y hy n' hn'
    by_cases heq : n' = n
    · subst heq
      simp only [Function.update_self, Option.some.injEq] at hn'
      exact hpending (hn' ▸ Pc.pending_of_unborn hy)
    · exact h.unborn y hy n' (by simpa [heq] using hn')
  · intro a y ha
    simpa [hheld a (Pc.held_of_filled ha)] using h.filled a y ha
  · intro a ha
    simpa [hmoving a ha] using h.moving a ha

-- ---------------------------------------------------------------------------
-- A node into the line
-- ---------------------------------------------------------------------------

def Ghost.append (g : Ghost α) (i : Idx) : Ghost α := { g with line := g.line ++ [i] }

def enqueued (s : Queue α) (x : Item α) (i : Idx) : Queue α :=
  { s with tail := i, enqueued := s.enqueued ++ [x] }

theorem Shared.joins {r : List Idx} (h : Shared g s) (hi : Loose g s i.node)
    (hversion : i.version = g.version i.node) (hl : (l ++ r).Perm (i :: (g.line ++ g.free))) :
    ((l ++ r).map Idx.node).Nodup ∧ (∀ a ∈ g.past ++ l ++ r, a.node < s.nextNodeIdx) ∧
      ∀ a ∈ l ++ r, a.version = g.version a.node := by
  refine ⟨?_, fun a ha => ?_, fun a ha => ?_⟩
  · refine (hl.map Idx.node).nodup_iff.mpr (List.nodup_cons.mpr ⟨fun hmem => ?_, h.nodes⟩)
    obtain ⟨a, ha, heq⟩ := List.mem_map.mp hmem
    exact hi.2 a ha heq
  · rw [List.append_assoc] at ha
    rcases List.mem_append.mp ha with ha | ha
    · exact h.allocated a (List.mem_append_left _ (List.mem_append_left _ ha))
    · rcases List.mem_cons.mp (hl.mem_iff.mp ha) with rfl | ha
      · exact hi.1
      · exact h.allocated a (by simpa using .inr (List.mem_append.mp ha))
  · rcases List.mem_cons.mp (hl.mem_iff.mp ha) with rfl | ha
    · exact hversion
    · exact h.current a ha

theorem Shared.append (h : Shared g s) (hi : Loose g s i.node)
    (hversion : i.version = g.version i.node) (hpast : i ∉ g.past) (hnext : s.next i.node = none)
    (hitem : s.item i.node = some x) (hx : x.call < s.calls) (hnew : x ∉ s.enqueued) :
    Shared (g.append i) (enqueued s x i) := by
  obtain ⟨waiting, henqueued, hitems⟩ := h.items
  have hline : i ∉ g.line := fun hmem => hi.not_line hmem rfl
  obtain ⟨hnodes, hallocated, hcurrent⟩ := h.joins (l := g.line ++ [i]) (r := g.free) hi hversion
    (by simp)
  refine { h with
    head := ?_, tail := ?_, names := ?_, nodes := hnodes, queued := h.queued.append hnext
    allocated := hallocated, current := hcurrent, items := ⟨waiting ++ [x], ?_, ?_⟩, distinct := ?_
    counted := ?_ }
  · simp [Ghost.append, h.head, enqueued]
  · simp [Ghost.append, enqueued]
  · simp only [Ghost.append, ← List.append_assoc, List.nodup_append, List.nodup_singleton]
    refine ⟨List.nodup_append.mp h.names, trivial, ?_⟩
    simp only [List.mem_append, List.mem_singleton]
    rintro a ha b rfl rfl
    exact ha.elim hpast hline
  · simp [enqueued, Ghost.append, henqueued]
  · have hunread : unread s (g.line ++ [i]) = unread s g.line ++ [i] := by
      cases hconsumed : s.consumed with
      | false => simp [unread, hconsumed]
      | true => simpa [unread, hconsumed] using List.tail_append_of_ne_nil h.line_ne_nil
    have hsame : unread (enqueued s x i) (g.append i).line = unread s (g.line ++ [i]) := rfl
    rw [hsame, hunread]
    simp [enqueued, ← hitems, hitem]
  · simp only [enqueued, List.nodup_append, List.nodup_singleton]
    refine ⟨h.distinct, trivial, ?_⟩
    rintro y hy z hz rfl
    exact hnew (List.mem_singleton.mp hz ▸ hy)
  · intro y hy
    simp only [enqueued, List.mem_append, List.mem_singleton] at hy
    rcases hy with hy | rfl
    · exact h.counted y hy
    · exact hx

theorem Shared.linking_tail (h : Shared g s) : s.next s.tail.node = none ∧
    ∃ l l', (g.append i).line = l ++ s.tail :: i :: l' := by
  obtain ⟨l, hl⟩ := List.getLast?_eq_some_iff.mp h.tail
  have hqueued := h.queued
  rw [hl] at hqueued
  exact ⟨hqueued.next_eq.elim id id, l, [], by simp [Ghost.append, hl]⟩

theorem Here.append (h : Here g s m) (hi : Loose g s i.node) (hm : m.pending ≠ some x)
    (hheld : ∀ a, m.held = some a → a.node ≠ i.node) :
    Here (g.append i) (enqueued s x i) m := by
  refine { h with pending := ?_, held := ?_, linking := ?_ }
  · intro y hy
    obtain ⟨hlt, hnew⟩ := h.pending y hy
    refine ⟨hlt, ?_⟩
    simp only [enqueued, List.mem_append, List.mem_singleton, not_or]
    exact ⟨hnew, fun heq => hm (heq ▸ hy)⟩
  · intro a ha
    obtain ⟨⟨hlt, hloose⟩, hversion⟩ := h.held a ha
    refine ⟨⟨hlt, ?_⟩, hversion⟩
    intro b hb
    simp only [Ghost.append, List.mem_append, List.mem_singleton] at hb
    rcases hb with (hb | rfl) | hb
    · exact hloose b (by simp [hb])
    · exact (hheld a ha).symm
    · exact hloose b (by simp [hb])
  · intro a b ha
    obtain ⟨hnone, l, l', hline⟩ := h.linking a b ha
    exact ⟨hnone, l, l' ++ [i], by simp [Ghost.append, hline]⟩

theorem Here.linking_ne_tail (h : Here g s m) (hs : Shared g s) (hm : m.linking = some (a, b)) :
    a ≠ s.tail := by
  obtain ⟨-, l, l', hline⟩ := h.linking a b hm
  rintro rfl
  have hlast := hs.tail
  have hnames := hs.names
  rw [hline, List.nodup_append] at hnames
  rw [hline, List.getLast?_append_of_ne_nil _ (by simp)] at hlast
  have hnodup := (List.nodup_append.mp hnames.2.1).2.1
  refine (List.nodup_cons.mp hnodup).1 ?_
  rw [List.getLast?_cons_cons] at hlast
  exact List.mem_of_getLast? hlast

theorem Shared.link (h : Shared g s) (hline : g.line = l ++ a :: b :: l') :
    Shared g { s with next := Function.update s.next a.node (some b) } := by
  have hmem : a ∈ g.line := by simp [hline]
  refine { h with queued := ?_, stacked := h.stacked.update fun c hc => (h.not_line hc hmem).symm }
  have hqueued := h.queued
  have hnodes := h.nodes
  rw [List.map_append] at hnodes
  rw [hline] at hqueued hnodes ⊢
  exact hqueued.link (List.nodup_append.mp hnodes).1

theorem Here.link (h : Here g s m) (hs : Shared g s) (hnext : s.next a.node = none)
    (hmem : a ∈ g.line) (hm : ∀ c d, m.linking = some (c, d) → c ≠ a) :
    Here g { s with next := Function.update s.next a.node (some b) } m := by
  have hin : a ∈ g.line ++ g.free := List.mem_append_left _ hmem
  refine { h with popped := ?_, cleared := ?_, linking := ?_, removing := ?_, pushing := ?_ }
  · intro c o hc hfree
    have hne := hs.not_line hfree hmem
    simpa [hne.symm] using h.popped c o hc hfree
  · intro c hc
    have hne := (h.held c (Pc.held_of_cleared hc)).1.not_line hmem
    simpa [hne.symm] using h.cleared c hc
  · intro c d hc
    obtain ⟨hnone, l, l', hline⟩ := h.linking c d hc
    have hne : c.node ≠ a.node := by
      intro heq
      exact hm c d hc (hs.node_inj (by simp [hline]) hin heq)
    exact ⟨by simpa [hne] using hnone, l, l', hline⟩
  · rintro c d hc rfl
    have hset := h.removing _ d hc rfl
    have hne : s.head.node ≠ a.node := by
      intro heq
      rw [heq, hnext] at hset
      cases hset
    simpa [hne] using hset
  · intro c o hc
    have hne := (h.held c (Pc.held_of_pushing hc)).1.not_line hmem
    simpa [hne.symm] using h.pushing c o hc

-- ---------------------------------------------------------------------------
-- An item out of the line
-- ---------------------------------------------------------------------------

theorem Shared.exists_front (h : Shared g s) (hconsumed : s.consumed = false) :
    ∃ x waiting rest, g.line = s.head :: rest ∧ s.enqueued = g.taken ++ x :: waiting ∧
      s.item s.head.node = some x ∧
      rest.map (fun a => s.item a.node) = waiting.map some := by
  obtain ⟨rest, hline⟩ := h.exists_line
  obtain ⟨waiting, henqueued, hitems⟩ := h.items
  simp only [unread, hconsumed, hline] at hitems
  cases waiting with
  | nil => simp at hitems
  | cons x waiting =>
    simp only [Bool.false_eq_true, if_false, List.map_cons, List.cons.injEq] at hitems
    exact ⟨x, waiting, rest, hline, henqueued, hitems.1, hitems.2⟩

def Ghost.take (g : Ghost α) (x : Item α) : Ghost α := { g with taken := g.taken ++ [x] }

theorem Shared.consume (h : Shared g s) (hconsumed : s.consumed = false)
    (hx : s.item s.head.node = some x) : Shared (g.take x) { s with consumed := true } := by
  obtain ⟨y, waiting, rest, hline, henqueued, hy, hitems⟩ := h.exists_front hconsumed
  cases hx.symm.trans hy
  refine { h with items := ⟨waiting, ?_, ?_⟩, returned := ?_ }
  · simp [Ghost.take, henqueued]
  · simpa [unread, Ghost.take, hline] using hitems
  · intro r hr
    obtain ⟨y, hy, rfl⟩ := h.returned r hr
    exact ⟨y, List.mem_append_left _ hy, rfl⟩

theorem Here.take (h : Here g s m) (x : Item α) : Here (g.take x) s m := by
  refine { h with moving := ?_ }
  intro a ha
  obtain ⟨hlt, y, hy, hrest⟩ := h.moving a ha
  exact ⟨hlt, y, List.mem_append_left _ hy, hrest⟩

theorem Here.consume (h : Here g s m) : Here g { s with consumed := true } m := { h with }

theorem Here.moving_ne_head (h : Here g s m) (hs : Shared g s) (hconsumed : s.consumed = false)
    (hm : m.moving = some a) : a.node ≠ s.head.node := by
  obtain ⟨x, waiting, rest, -, henqueued, hx, -⟩ := hs.exists_front hconsumed
  obtain ⟨-, y, hy, hitem, -⟩ := h.moving a hm
  intro heq
  rw [heq, hx] at hitem
  cases hitem
  have hdistinct := hs.distinct
  rw [henqueued, List.nodup_append] at hdistinct
  exact hdistinct.2.2 x hy x List.mem_cons_self rfl

theorem Shared.front_owner (h : Shared g s) (hconsumed : s.consumed = false)
    (hx : s.item s.head.node = some x) : s.head.node < s.nextNodeIdx ∧
    ∃ y ∈ (g.take x).taken, s.item s.head.node = some y ∧ some y ∉ s.returned := by
  obtain ⟨y, waiting, rest, -, henqueued, hy, -⟩ := h.exists_front hconsumed
  cases hx.symm.trans hy
  have hin : s.head ∈ g.past ++ g.line ++ g.free := by simp [h.head_mem]
  refine ⟨h.allocated _ hin, x, by simp [Ghost.take], hx, ?_⟩
  intro hreturned
  obtain ⟨z, hz, heq⟩ := h.returned _ hreturned
  cases heq
  have hdistinct := h.distinct
  rw [henqueued, List.nodup_append] at hdistinct
  exact hdistinct.2.2 x hz x List.mem_cons_self rfl

def moved (s : Queue α) (n : Nat) : Queue α :=
  { s with item := Function.update s.item n none, returned := s.returned ++ [s.item n] }

theorem moved_item {n' : Nat} {y : Item α} (h : (moved s n).item n' = some y) :
    n' ≠ n ∧ s.item n' = some y := by
  by_cases heq : n' = n
  · simp [moved, heq] at h
  · exact ⟨heq, by simpa [moved, heq] using h⟩

theorem Shared.move (h : Shared g s) (hx : x ∈ g.taken) (hitem : s.item n = some x)
    (hnew : some x ∉ s.returned) : Shared g (moved s n) := by
  obtain ⟨waiting, henqueued, hitems⟩ := h.items
  refine { h with
    items := ⟨waiting, henqueued, ?_⟩, kept := ?_, unique := ?_, once := ?_, returned := ?_ }
  · have hsame : unread (moved s n) g.line = unread s g.line := rfl
    rw [hsame, ← hitems]
    refine List.map_congr_left ?_
    intro a ha
    have hne : a.node ≠ n := by
      rintro rfl
      have hwaiting : some x ∈ waiting.map some := by
        rw [← hitems, ← hitem]
        exact List.mem_map_of_mem (f := fun a : Idx => s.item a.node) ha
      obtain ⟨y, hy, heq⟩ := List.mem_map.mp hwaiting
      cases heq
      have hdistinct := h.distinct
      rw [henqueued, List.nodup_append] at hdistinct
      exact hdistinct.2.2 x hx x hy rfl
    simp [moved, hne]
  · intro n' y hy
    exact h.kept n' y (moved_item hy).2
  · intro n' n'' y hy hy'
    exact h.unique n' n'' y (moved_item hy).2 (moved_item hy').2
  · simp only [moved, List.nodup_append, List.nodup_singleton, hitem]
    refine ⟨h.once, trivial, ?_⟩
    rintro r hr z hz rfl
    exact hnew (List.mem_singleton.mp hz ▸ hr)
  · intro r hr
    simp only [moved, List.mem_append, List.mem_singleton, hitem] at hr
    rcases hr with hr | rfl
    · exact h.returned r hr
    · exact ⟨x, hx, rfl⟩

theorem Here.move (h : Here g s m) (hs : Shared g s)
    (hmade : ∀ a, m.made = some a → a.node ≠ n)
    (hmoving : ∀ a, m.moving = some a → a.node ≠ n) : Here g (moved s n) m := by
  refine { h with unborn := ?_, filled := ?_, moving := ?_ }
  · intro y hy n' hn'
    exact h.unborn y hy n' (moved_item hn').2
  · intro a y ha
    simpa [moved, hmade a (Pc.made_of_filled ha)] using h.filled a y ha
  · intro a ha
    obtain ⟨hlt, y, hy, hitem, hnew⟩ := h.moving a ha
    refine ⟨hlt, y, hy, by simpa [moved, hmoving a ha] using hitem, ?_⟩
    simp only [moved, List.mem_append, List.mem_singleton, not_or]
    refine ⟨hnew, fun heq => ?_⟩
    exact hmoving a ha (hs.unique _ _ y hitem heq.symm)

-- ---------------------------------------------------------------------------
-- A node out of the line
-- ---------------------------------------------------------------------------

def Ghost.remove (g : Ghost α) (h : Idx) : Ghost α :=
  { g with past := g.past ++ [h], line := g.line.tail }

def unlinked (s : Queue α) (b : Idx) : Queue α := { s with head := b, consumed := false }

theorem Shared.unlink (h : Shared g s) (hconsumed : s.consumed = true)
    (hnext : s.next s.head.node = some b) : Shared (g.remove s.head) (unlinked s b) := by
  obtain ⟨rest, hline⟩ := h.exists_line
  have hqueued := h.queued
  rw [hline] at hqueued
  have hrest : rest.head? = some b := by
    rcases hqueued.1 with hnone | hsome
    · rw [hnext] at hnone
      cases hnone
    · rw [← hsome, hnext]
  obtain ⟨waiting, henqueued, hitems⟩ := h.items
  have hsub : rest.Sublist g.line := hline ▸ List.sublist_cons_self ..
  refine { h with
    head := ?_, tail := ?_, names := ?_, nodes := ?_, queued := ?_, allocated := ?_, aged := ?_
    current := ?_, items := ⟨waiting, henqueued, ?_⟩ }
  · simpa [Ghost.remove, unlinked, hline] using hrest
  · have htail := h.tail
    have hne : rest ≠ [] := by
      rintro rfl
      cases hrest
    rw [hline, List.getLast?_cons, List.getLast?_eq_some_getLast hne] at htail
    simpa [Ghost.remove, unlinked, hline, List.getLast?_eq_some_getLast hne] using htail
  · simpa [Ghost.remove, hline] using h.names
  · have hnodes := h.nodes
    simp only [hline, List.cons_append, List.map_cons] at hnodes
    simpa [Ghost.remove, hline] using (List.nodup_cons.mp hnodes).2
  · simpa [Ghost.remove, unlinked, hline] using hqueued.2
  · intro a ha
    refine h.allocated a ?_
    simpa [Ghost.remove, hline] using ha
  · intro a ha
    simp only [Ghost.remove, List.mem_append, List.mem_singleton] at ha
    rcases ha with ha | rfl
    · exact h.aged a ha
    · exact Nat.le_of_eq (h.current _ (List.mem_append_left _ h.head_mem))
  · intro a ha
    refine h.current a ?_
    simp only [Ghost.remove, hline, List.tail_cons, List.mem_append] at ha
    exact List.mem_append.mpr (ha.imp_left fun hin => hsub.subset hin)
  · simpa [unread, unlinked, Ghost.remove, hline, hconsumed] using hitems

theorem Shared.loose_unlink (h : Shared g s) :
    Loose (g.remove s.head) (unlinked s b) s.head.node ∧
      s.head.version = (g.remove s.head).version s.head.node := by
  obtain ⟨rest, hline⟩ := h.exists_line
  have hin : s.head ∈ g.line ++ g.free := List.mem_append_left _ h.head_mem
  have hnodes := h.nodes
  simp only [hline, List.cons_append, List.map_cons, List.nodup_cons] at hnodes
  refine ⟨⟨h.allocated _ (by simp [h.head_mem]), ?_⟩, h.current _ hin⟩
  rintro a ha heq
  simp only [Ghost.remove, hline, List.tail_cons] at ha
  exact hnodes.1 (heq ▸ List.mem_map_of_mem ha)

theorem Here.unlink (h : Here g s m) (hs : Shared g s) (hnext : s.next s.head.node = some b) :
    Here (g.remove s.head) (unlinked s b) m := by
  obtain ⟨rest, hline⟩ := hs.exists_line
  have hnames := hs.names
  rw [hline, List.nodup_append, List.nodup_cons] at hnames
  have hrest : b ∈ rest := by
    have hqueued := hs.queued
    rw [hline] at hqueued
    rcases hqueued.1 with hnone | hsome
    · rw [hnext] at hnone
      cases hnone
    · exact List.mem_of_mem_head? (hsome.symm.trans hnext)
  refine { h with held := ?_, made := ?_, linking := ?_, seen := ?_, removing := ?_ }
  · intro a ha
    obtain ⟨⟨hlt, hloose⟩, hversion⟩ := h.held a ha
    refine ⟨⟨hlt, fun c hc => hloose c ?_⟩, hversion⟩
    simp only [Ghost.remove, List.mem_append] at hc ⊢
    exact hc.imp_left List.mem_of_mem_tail
  · intro a ha
    simp only [Ghost.remove, List.mem_append, List.mem_singleton, not_or]
    refine ⟨h.made a ha, ?_⟩
    rintro rfl
    exact (h.held _ (Pc.held_of_made ha)).1.not_line hs.head_mem rfl
  · intro a c ha
    obtain ⟨hnone, l, l', hl⟩ := h.linking a c ha
    refine ⟨hnone, ?_⟩
    cases l with
    | nil =>
      rw [hline] at hl
      cases hl
      rw [hnext] at hnone
      cases hnone
    | cons d l => exact ⟨l, l', by simp [Ghost.remove, hl]⟩
  · intro a ha
    left
    simp only [Ghost.remove, List.mem_append, List.mem_singleton]
    exact h.seen a ha
  · intro a c ha hab
    exfalso
    rw [hab] at ha
    rcases h.seen b (Pc.seen_of_removing ha) with hpast | heq
    · exact hnames.2.2 b hpast b (List.mem_cons_of_mem _ hrest) rfl
    · exact hnames.2.1.1 (heq ▸ hrest)

-- ---------------------------------------------------------------------------
-- A node into the free list
-- ---------------------------------------------------------------------------

def Ghost.push (g : Ghost α) (i : Idx) : Ghost α := { g with free := i :: g.free }

theorem Shared.push (h : Shared g s) (hi : Loose g s i.node)
    (hversion : i.version = g.version i.node) (hnext : s.next i.node = s.freeListHead) :
    Shared (g.push i) { s with freeListHead := some i } := by
  obtain ⟨hnodes, hallocated, hcurrent⟩ := h.joins (l := g.line) (r := i :: g.free) hi hversion
    List.perm_middle
  exact { h with
    nodes := hnodes, stacked := ⟨hnext.trans h.top, h.stacked⟩, top := rfl
    allocated := hallocated, current := hcurrent }

theorem Here.push (h : Here g s m) (hi : Loose g s i.node)
    (hversion : i.version = g.version i.node) (hm : ∀ a, m.held = some a → a.node ≠ i.node) :
    Here (g.push i) { s with freeListHead := some i } m := by
  refine { h with popping := ?_, popped := ?_, held := ?_ }
  · intro a ha
    exact ⟨(h.popping a ha).1, (h.popping a ha).2.imp_left (List.mem_cons_of_mem i)⟩
  · intro a o ha hin
    refine h.popped a o ha ?_
    rcases List.mem_cons.mp hin with rfl | hin
    · have hpopping : m.popping = some a := by cases m <;> simp_all
      rcases (h.popping a hpopping).2 with hfree | hold
      · exact hfree
      · exact absurd hversion (Nat.ne_of_lt hold)
    · exact hin
  · intro a ha
    obtain ⟨⟨hlt, hloose⟩, hcurrent⟩ := h.held a ha
    refine ⟨⟨hlt, ?_⟩, hcurrent⟩
    intro b hb
    simp only [Ghost.push, List.mem_append, List.mem_cons] at hb
    rcases hb with hb | rfl | hb
    · exact hloose b (by simp [hb])
    · exact (hm a ha).symm
    · exact hloose b (by simp [hb])

end LearningCode.SimpleQueue
