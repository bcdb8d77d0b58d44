import LearningCode.SkipList.Runs

/-!
# Expiring timers whose handlers arm new ones

`skl-timer.c` on top of the skip list. A handler is known by the `add_timer`
calls it makes, one list of them for each time a handler is run, and by nothing
else; it may make any.
-/

namespace LearningCode.SkipList

variable {z z' z₁ : Zskiplist} {nodes : List Ptr} {x y : Ptr} {now : Nat}

abbrev uint32 (n : Nat) : Nat := n % 2 ^ 32

/-- An `add_timer` call: its arguments, what `current_time` returns in it, and
what `zslRandomLevel` and `malloc` come up with. -/
structure AddCall where
  msec : Nat
  func : Handler
  clock : Nat
  ups : Nat
  block : Block

def AddCall.expire (c : AddCall) : Nat := uint32 (c.msec + c.clock)

def addTimer (z : Zskiplist) (c : AddCall) : Option (Zskiplist × Ptr) :=
  zslInsert z c.expire c.func c.ups c.block

def runHandler (z : Zskiplist) (calls : List AddCall) : Option Zskiplist :=
  calls.foldlM (fun z c => (addTimer z c).map (·.1)) z

inductive Event
  | ran (x : Ptr)
  | removed (x : Ptr)
  deriving DecidableEq

/-- The loop of `expire_timer`, with a record of what it does: the handlers run
and the nodes `zslDeleteHead` finds at the head. `script k` is what the `k`-th
of the handlers yet to run calls. -/
def expireLoop (now : Nat) : (turns : Nat) → (script : Nat → List AddCall) → Zskiplist →
    Option (Zskiplist × List Event)
  | 0, _, _ => none
  | turns + 1, script, z => do
    match ← zslMin z with
    | none => some (z, [])
    | some x =>
      let n ← z.heap x
      if now < n.score then some (z, [])
      else
        let z ← runHandler z (script 0)
        let head ← zslMin z
        let z ← zslDeleteHead z
        let (z, log) ← expireLoop now turns (fun k => script (k + 1)) z
        some (z, .ran x :: (head.toList.map .removed ++ log))

-- ---------------------------------------------------------------------------
-- What one handler does to the list
-- ---------------------------------------------------------------------------

structure Fresh (h : Heap) (script : Nat → List AddCall) : Prop where
  free : ∀ k, ∀ c ∈ script k, h c.block.ptr = none
  distinct : ∀ k, ((script k).map (·.block.ptr)).Nodup
  apart : ∀ j k, j ≠ k → ∀ c ∈ script j, ∀ d ∈ script k, c.block.ptr ≠ d.block.ptr

structure Armed (z z' : Zskiplist) (nodes nodes' : List Ptr) (calls : List AddCall) : Prop where
  rep : Rep z' nodes'
  kept : ∀ q, z.heap q ≠ none → shape z'.heap q = shape z.heap q
  free : ∀ q, z.heap q = none → (∀ c ∈ calls, c.block.ptr ≠ q) → z'.heap q = none
  mem : ∀ q, q ∈ nodes' ↔ q ∈ nodes ∨ ∃ c ∈ calls, c.block.ptr = q
  scores : (nodes'.map (scoreOf z'.heap)).Perm
    (calls.map AddCall.expire ++ nodes.map (scoreOf z.heap))

theorem allocated_of_shape {h h' : Heap} (hs : shape h' q = shape h q) (hq : h q ≠ none) :
    h' q ≠ none := fun hnone => by
  rw [shape, shape, hnone] at hs
  exact hq (Option.map_eq_none_iff.mp hs.symm)

theorem Rep.allocated_mem (hz : Rep z nodes) (hx : x ∈ nodes) : z.heap x ≠ none := fun hnone =>
  hz.allocated hnone (List.mem_cons_of_mem _ hx)

theorem addTimer_armed (hz : Rep z nodes) (c : AddCall) (hfree : z.heap c.block.ptr = none) :
    ∃ z' pre suf, addTimer z c = some (z', c.block.ptr) ∧ nodes = pre ++ suf ∧
      Split z.heap c.expire pre suf ∧ Armed z z' nodes (pre ++ c.block.ptr :: suf) [c] := by
  obtain ⟨pre, suf, rfl, hsplit⟩ := exists_split hz.sorted c.expire
  obtain ⟨z', hcall, hrep, hins⟩ := insert_spec hz hsplit c.func c.ups c.block hfree
  have hkept : ∀ q, z.heap q ≠ none → shape z'.heap q = shape z.heap q := fun q hq =>
    hins.other q (by rintro rfl; exact hq hfree)
  have hscore : scoreOf z'.heap c.block.ptr = c.expire := by
    have := hins.node
    cases hs : shape z'.heap c.block.ptr with
    | none => simp [hs] at this
    | some n =>
      rw [hs] at this
      rw [scoreOf, hs]
      exact congrArg Prod.fst (Option.some.inj this)
  have hold : ∀ l : List Ptr, (∀ q ∈ l, q ∈ pre ++ suf) →
      l.map (scoreOf z'.heap) = l.map (scoreOf z.heap) := fun l hl =>
    List.map_congr_left fun q hq => by
      rw [scoreOf, hkept q (hz.allocated_mem (hl q hq))]
      rfl
  refine ⟨z', pre, suf, hcall, rfl, hsplit, hrep, hkept, fun q hq hne => ?_, fun q => ?_, ?_⟩
  · have hq' := hins.other q fun h => hne c List.mem_cons_self h.symm
    rw [shape, shape, hq, Option.map_none, Option.map_eq_none_iff] at hq'
    exact hq'
  · simp only [List.mem_append, List.mem_cons, List.not_mem_nil, or_false, exists_eq_left]
    grind
  · rw [List.map_append, List.map_cons, hscore, hold pre fun q hq => List.mem_append_left suf hq,
      hold suf fun q hq => List.mem_append_right pre hq, List.map_append]
    exact List.perm_middle

theorem Armed.trans {nodes₁ nodes' : List Ptr} {c : AddCall} {cs : List AddCall}
    (h₁ : Armed z z₁ nodes nodes₁ [c]) (h₂ : Armed z₁ z' nodes₁ nodes' cs) :
    Armed z z' nodes nodes' (c :: cs) := by
  refine ⟨h₂.rep, fun q hq => ?_, fun q hq hne => ?_, fun q => ?_, ?_⟩
  · exact (h₂.kept q (allocated_of_shape (h₁.kept q hq) hq)).trans (h₁.kept q hq)
  · refine h₂.free q (h₁.free q hq fun d hd => ?_) fun d hd => hne d (List.mem_cons_of_mem c hd)
    exact List.mem_singleton.mp hd ▸ hne c List.mem_cons_self
  · rw [h₂.mem, h₁.mem]
    simp only [List.mem_cons, List.not_mem_nil, or_false, exists_eq_left]
    grind
  · refine h₂.scores.trans (((h₁.scores.append_left _)).trans ?_)
    rw [List.map_singleton, ← List.append_assoc, List.map_cons]
    exact (List.perm_append_comm.append_right _)

theorem runHandler_armed (hz : Rep z nodes) (calls : List AddCall)
    (hfree : ∀ c ∈ calls, z.heap c.block.ptr = none) (hnd : (calls.map (·.block.ptr)).Nodup) :
    ∃ z' nodes', runHandler z calls = some z' ∧ Armed z z' nodes nodes' calls ∧
      ∀ x t, nodes = x :: t →
        ((∀ c ∈ calls, scoreOf z.heap x < c.expire) → ∃ t', nodes' = x :: t') ∧
        ((∃ c ∈ calls, c.expire ≤ scoreOf z.heap x) →
          ∃ c ∈ calls, ∃ t', nodes' = c.block.ptr :: t') := by
  induction calls generalizing z nodes with
  | nil =>
    refine ⟨z, nodes, rfl, ⟨hz, fun _ _ => rfl, fun _ h _ => h, fun q => by simp, by simp⟩, ?_⟩
    rintro x t rfl
    exact ⟨fun _ => ⟨t, rfl⟩, fun ⟨c, hc, _⟩ => absurd hc List.not_mem_nil⟩
  | cons c cs ih =>
    obtain ⟨hc, hnd⟩ := List.nodup_cons.mp hnd
    obtain ⟨z₁, pre, suf, hadd, hnodes, hsplit, h₁⟩ := addTimer_armed hz c (hfree c List.mem_cons_self)
    have hfree₁ : ∀ d ∈ cs, z₁.heap d.block.ptr = none := fun d hd => by
      refine h₁.free _ (hfree d (List.mem_cons_of_mem c hd)) fun c' hc' heq => hc ?_
      obtain rfl := List.mem_singleton.mp hc'
      exact List.mem_map.mpr ⟨d, hd, heq.symm⟩
    obtain ⟨z', nodes', hrun, h₂, hhead⟩ := ih h₁.rep hfree₁ hnd
    refine ⟨z', nodes', ?_, h₁.trans h₂, ?_⟩
    · rw [runHandler, List.foldlM_cons, hadd]
      exact hrun
    · rintro x t rfl
      cases pre with
      | nil =>
        -- the new node comes to the front, and another new one may go before it
        obtain rfl : x :: t = suf := hnodes
        have hle := hsplit.above x List.mem_cons_self
        refine ⟨fun hall => absurd (hall c List.mem_cons_self) hle.not_gt, fun _ => ?_⟩
        obtain ⟨hkeep, hnew⟩ := hhead _ _ rfl
        cases Classical.em (∀ d ∈ cs, scoreOf z₁.heap c.block.ptr < d.expire) with
        | inl hall => exact ⟨c, List.mem_cons_self, hkeep hall⟩
        | inr hnot =>
          push Not at hnot
          obtain ⟨d, hd, t', ht'⟩ := hnew hnot
          exact ⟨d, List.mem_cons_of_mem c hd, t', ht'⟩
      | cons w pre =>
        obtain ⟨rfl, -⟩ := List.cons.inj hnodes
        have hlt := hsplit.below x List.mem_cons_self
        have hscore : scoreOf z₁.heap x = scoreOf z.heap x := by
          rw [scoreOf, h₁.kept x (hz.allocated_mem List.mem_cons_self)]
          rfl
        obtain ⟨hkeep, hnew⟩ := hhead _ _ rfl
        rw [hscore] at hkeep hnew
        refine ⟨fun hall => hkeep fun d hd => hall d (List.mem_cons_of_mem c hd), ?_⟩
        rintro ⟨d, hd, hle⟩
        rcases List.mem_cons.mp hd with rfl | hd
        · exact absurd hlt hle.not_gt
        · obtain ⟨d, hd, t', ht'⟩ := hnew ⟨d, hd, hle⟩
          exact ⟨d, List.mem_cons_of_mem c hd, t', ht'⟩

-- ---------------------------------------------------------------------------
-- One turn of the loop
-- ---------------------------------------------------------------------------

def NonWrapping (now : Nat) (script : Nat → List AddCall) : Prop :=
  ∀ k, ∀ c ∈ script k, now ≤ c.clock ∧ c.msec + c.clock < 2 ^ 32

structure Pending (z : Zskiplist) (nodes : List Ptr) (now : Nat) (script : Nat → List AddCall) :
    Prop where
  rep : Rep z nodes
  fresh : Fresh z.heap script
  clock : NonWrapping now script

def rest (script : Nat → List AddCall) : Nat → List AddCall := fun k => script (k + 1)

/-- Timers of the list overdue, and timers due this very millisecond. -/
def overdue (z : Zskiplist) (nodes : List Ptr) (now : Nat) : Nat :=
  nodes.countP (scoreOf z.heap · < now)

def dueNow (z : Zskiplist) (nodes : List Ptr) (now : Nat) : Nat :=
  nodes.countP (scoreOf z.heap · = now)

def armsNow (now : Nat) (calls : List AddCall) : Nat := calls.countP fun c => c.msec + c.clock = now

theorem AddCall.expire_eq (hclock : NonWrapping now script) (hc : c ∈ script k) :
    c.expire = c.msec + c.clock ∧ now ≤ c.expire := by
  obtain ⟨hle, hlt⟩ := hclock k c hc
  have : c.expire = c.msec + c.clock := Nat.mod_eq_of_lt hlt
  exact ⟨this, by omega⟩

structure Turn (z z' : Zskiplist) (nodes nodes' : List Ptr) (now : Nat)
    (script : Nat → List AddCall) (x y : Ptr) : Prop where
  loop : ∀ turns, expireLoop now (turns + 1) script z =
    (expireLoop now turns (rest script) z').map fun r => (r.1, .ran x :: .removed y :: r.2)
  pending : Pending z' nodes' now (rest script)
  kept : ∀ q, z.heap q ≠ none → shape z'.heap q = shape z.heap q
  gone : y ∉ nodes'
  mem : ∀ q, q = y ∨ q ∈ nodes' ↔ q ∈ nodes ∨ ∃ c ∈ script 0, c.block.ptr = q
  scores : (scoreOf z'.heap y :: nodes'.map (scoreOf z'.heap)).Perm
    ((script 0).map AddCall.expire ++ nodes.map (scoreOf z.heap))

theorem Fresh.rest {h h' : Heap} (hf : Fresh h script)
    (hfree : ∀ q, h q = none → (∀ c ∈ script 0, c.block.ptr ≠ q) → h' q = none) :
    Fresh h' (rest script) where
  free k c hc := hfree _ (hf.free (k + 1) c hc) fun d hd => hf.apart 0 (k + 1) (by omega) d hd c hc
  distinct k := hf.distinct (k + 1)
  apart j k hjk := hf.apart (j + 1) (k + 1) (by omega)

theorem SameNodes.none_iff {h h' : Heap} (hs : SameNodes h h') : h' q = none ↔ h q = none := by
  rw [← Option.isNone_iff_eq_none, ← Option.isNone_iff_eq_none, ← Option.not_isSome,
    ← Option.not_isSome, hs.isSome]

theorem turn_spec (hp : Pending z (x :: t) now script) (hx : scoreOf z.heap x ≤ now) :
    ∃ z' y t', Turn z z' (x :: t) t' now script x y ∧
      ((∀ c ∈ script 0, scoreOf z.heap x < c.expire) → y = x) ∧
      ((∃ c ∈ script 0, c.expire ≤ scoreOf z.heap x) → ∃ c ∈ script 0, c.block.ptr = y) := by
  obtain ⟨z₁, nodes₁, hrun, harmed, hhead⟩ := runHandler_armed hp.rep (script 0) (hp.fresh.free 0)
    (hp.fresh.distinct 0)
  obtain ⟨hkeep, hnew⟩ := hhead x t rfl
  cases nodes₁ with
  | nil =>
    exact absurd ((harmed.mem x).mpr (.inl List.mem_cons_self)) List.not_mem_nil
  | cons y t' =>
    obtain ⟨z', hdel, hrep, -, hs⟩ := deleteHead_spec harmed.rep
    obtain ⟨n, hn, -, hscore⟩ := node_of_height (hp.rep.tall x List.mem_cons_self).1
    have hmin := min_spec hp.rep.toLevels
    have hmin₁ := min_spec harmed.rep.toLevels
    refine ⟨z', y, t', ⟨fun turns => ?_, ⟨hrep, ?_, fun k => hp.clock (k + 1)⟩, fun q hq => ?_,
      ?_, fun q => ?_, ?_⟩, fun hall => ?_, fun hex => ?_⟩
    · have hdue : ¬ now < n.score := by omega
      rw [expireLoop]
      simp only [hmin, List.head?_cons, Option.bind_eq_bind, Option.bind_some, hn, if_neg hdue, hrun,
        hmin₁, hdel, Option.toList_some]
      show (expireLoop now turns (rest script) z').bind _ = _
      cases expireLoop now turns (rest script) z' <;> rfl
    · refine hp.fresh.rest fun q hq hne => hs.none_iff.mpr (harmed.free q hq hne)
    · exact (hs q).trans (harmed.kept q hq)
    · exact (List.nodup_cons.mp (List.nodup_cons.mp harmed.rep.nodup).2).1
    · rw [← harmed.mem, List.mem_cons]
    · have := harmed.scores
      rw [List.map_cons] at this
      simpa only [show scoreOf z'.heap = scoreOf z₁.heap from funext fun q => hs.scoreOf] using this
    · obtain ⟨t'', ht⟩ := hkeep hall
      exact (List.cons.inj ht).1
    · obtain ⟨c, hc, t'', ht⟩ := hnew hex
      exact ⟨c, hc, (List.cons.inj ht).1.symm⟩

theorem Turn.counts (ht : Turn z z' (x :: t) t' now script x x) (hclock : NonWrapping now script)
    (hx : z.heap x ≠ none) :
    overdue z' t' now + (if scoreOf z.heap x < now then 1 else 0) = overdue z (x :: t) now ∧
      dueNow z' t' now + (if scoreOf z.heap x = now then 1 else 0) =
        dueNow z (x :: t) now + armsNow now (script 0) := by
  have hscore : scoreOf z'.heap x = scoreOf z.heap x := by
    rw [scoreOf, ht.kept x hx]
    rfl
  have hcount : ∀ p : Nat → Bool, t'.countP (p ∘ scoreOf z'.heap) +
      (if p (scoreOf z.heap x) then 1 else 0) =
        (script 0).countP (p ∘ AddCall.expire) + (x :: t).countP (p ∘ scoreOf z.heap) := fun p => by
    have := ht.scores.countP_eq p
    rwa [List.countP_cons, List.countP_append, List.countP_map, List.countP_map, List.countP_map,
      hscore] at this
  have hlate : (script 0).countP ((fun s => decide (s < now)) ∘ AddCall.expire) = 0 := by
    refine List.countP_eq_zero.mpr fun c hc h => ?_
    have := (AddCall.expire_eq hclock hc).2
    have : c.expire < now := of_decide_eq_true h
    omega
  have hnow : (script 0).countP ((fun s => decide (s = now)) ∘ AddCall.expire) =
      armsNow now (script 0) := by
    refine List.countP_congr fun c hc => ?_
    simp only [Function.comp, (AddCall.expire_eq hclock hc).1]
  have h₁ := hcount fun s => decide (s < now)
  have h₂ := hcount fun s => decide (s = now)
  rw [hlate, Nat.zero_add] at h₁
  rw [hnow, Nat.add_comm (armsNow _ _)] at h₂
  simp only [decide_eq_true_eq] at h₁ h₂
  exact ⟨h₁, h₂⟩

-- ---------------------------------------------------------------------------
-- The whole loop
-- ---------------------------------------------------------------------------

/-- The handlers that find nothing overdue, but something due this very
millisecond: with `a` timers overdue these are the next after the first `a`.
None of them arms a timer for this millisecond. -/
def Quiet (now : Nat) (script : Nat → List AddCall) (a b : Nat) : Prop :=
  ∀ i, a ≤ i → i < a + (b + ((List.range a).map fun j => armsNow now (script j)).sum) →
    ∀ c ∈ script i, c.msec + c.clock ≠ now

theorem quiet_due : Quiet now script 0 (b + 1) ↔
    (∀ c ∈ script 0, c.msec + c.clock ≠ now) ∧ Quiet now (rest script) 0 b := by
  constructor
  · intro h
    exact ⟨h 0 (Nat.le_refl 0) (by simp), fun i _ hi => h (i + 1) (Nat.zero_le _) (by simpa using hi)⟩
  · rintro ⟨h₀, h⟩ i - hi
    cases i with
    | zero => exact h₀
    | succ i => exact h i (Nat.zero_le i) (by simpa using hi)

theorem quiet_overdue : Quiet now script (a + 1) b ↔
    Quiet now (rest script) a (b + armsNow now (script 0)) := by
  have hsum : ((List.range (a + 1)).map fun j => armsNow now (script j)).sum =
      armsNow now (script 0) + ((List.range a).map fun j => armsNow now (rest script j)).sum := by
    rw [List.range_succ_eq_map, List.map_cons, List.sum_cons, List.map_map]
    rfl
  unfold Quiet
  rw [hsum]
  constructor
  · exact fun h i hle hi => h (i + 1) (by omega) (by omega)
  · intro h i hle hi
    obtain ⟨i, rfl⟩ : ∃ j, i = j + 1 := ⟨i - 1, by omega⟩
    exact h i (by omega) (by omega)

/-- What the call is for: the nodes taken out are those whose handler has run. -/
structure Exact (z z' : Zskiplist) (log : List Event) : Prop where
  once : ∀ x, log.count (.ran x) ≤ 1
  same : ∀ x, .removed x ∈ log ↔ .ran x ∈ log
  after : ∀ pre x suf, log = pre ++ .removed x :: suf → .ran x ∈ pre
  left : ∀ x, InList z x → (InList z' x ↔ .ran x ∉ log)

structure Good (z z' : Zskiplist) (nodes : List Ptr) (log : List Event) : Prop where
  once : ∀ x, log.count (.ran x) ≤ 1
  same : ∀ x, .removed x ∈ log ↔ .ran x ∈ log
  after : ∀ pre x suf, log = pre ++ .removed x :: suf → .ran x ∈ pre
  origin : ∀ x, .ran x ∈ log → x ∈ nodes ∨ z.heap x = none
  left : ∃ nodes', Rep z' nodes' ∧ ∀ x, z.heap x ≠ none → (x ∈ nodes' ↔ x ∈ nodes ∧ .ran x ∉ log)

def Bad (z : Zskiplist) (log : List Event) : Prop :=
  ∃ pre y suf, log = pre ++ .removed y :: suf ∧ .ran y ∉ pre ∧ z.heap y = none

theorem Turn.good (ht : Turn z z₁ nodes nodes₁ now script x x) (hp : Pending z nodes now script)
    (hx : x ∈ nodes) (hg : Good z₁ z' nodes₁ log) :
    Good z z' nodes (.ran x :: .removed x :: log) := by
  have halloc : ∀ q, z.heap q ≠ none → z₁.heap q ≠ none := fun q hq =>
    allocated_of_shape (ht.kept q hq) hq
  have hnot : .ran x ∉ log := fun h =>
    (hg.origin x h).elim ht.gone (halloc x (hp.rep.allocated_mem hx))
  refine ⟨fun w => ?_, fun w => ?_, fun pre w suf heq => ?_, fun w hw => ?_, ?_⟩
  · rw [List.count_cons, List.count_cons]
    have := hg.once w
    cases Decidable.em (x = w) with
    | inl heq =>
      subst heq
      rw [List.count_eq_zero.mpr hnot]
      simp
    | inr hne => simpa [hne] using this
  · simp only [List.mem_cons, hg.same, Event.ran.injEq, Event.removed.injEq, reduceCtorEq, false_or]
  · match pre, heq with
    | [_], heq =>
      simp only [List.cons_append, List.nil_append, List.cons.injEq, Event.removed.injEq] at heq
      obtain ⟨rfl, rfl, -⟩ := heq
      exact List.mem_cons_self
    | _ :: _ :: pre, heq =>
      simp only [List.cons_append, List.cons.injEq] at heq
      obtain ⟨-, -, heq⟩ := heq
      exact List.mem_cons_of_mem _ (List.mem_cons_of_mem _ (hg.after pre w suf heq))
  · simp only [List.mem_cons, Event.ran.injEq, reduceCtorEq, false_or] at hw
    rcases hw with rfl | hw
    · exact .inl hx
    · rcases hg.origin w hw with hmem | hnone
      · refine ((ht.mem w).mp (.inr hmem)).imp_right ?_
        rintro ⟨c, hc, rfl⟩
        exact hp.fresh.free 0 c hc
      · exact .inr (Classical.not_not.mp fun h => halloc w h hnone)
  · obtain ⟨nodes', hrep, hleft⟩ := hg.left
    refine ⟨nodes', hrep, fun w hw => ?_⟩
    have hmem : w ∈ nodes₁ ↔ w ∈ nodes ∧ w ≠ x := by
      constructor
      · intro h
        refine ⟨((ht.mem w).mp (.inr h)).resolve_right ?_, ?_⟩
        · rintro ⟨c, hc, rfl⟩
          exact hw (hp.fresh.free 0 c hc)
        · rintro rfl
          exact ht.gone h
      · exact fun h => ((ht.mem w).mpr (.inl h.1)).resolve_left h.2
    rw [hleft w (halloc w hw), hmem]
    simp only [List.mem_cons, Event.ran.injEq, reduceCtorEq, false_or, not_or, and_assoc]

theorem Turn.bad (ht : Turn z z₁ nodes nodes₁ now script x y) (halloc : z.heap x ≠ none)
    (hb : Bad z₁ log) : Bad z (.ran x :: .removed y :: log) := by
  obtain ⟨pre, w, suf, rfl, hnot, hfree⟩ := hb
  have hw : z.heap w = none :=
    Classical.not_not.mp fun h => allocated_of_shape (ht.kept w h) h hfree
  refine ⟨.ran x :: .removed y :: pre, w, suf, rfl, ?_, hw⟩
  simp only [List.mem_cons, Event.ran.injEq, reduceCtorEq, false_or, not_or]
  refine ⟨?_, hnot⟩
  rintro rfl
  exact halloc hw

theorem expireLoop_done (hz : Rep z nodes) (hdue : ∀ x ∈ nodes, now < scoreOf z.heap x) (turns : Nat) :
    expireLoop now (turns + 1) script z = some (z, []) := by
  have hmin := min_spec hz.toLevels
  rw [expireLoop]
  cases nodes with
  | nil =>
    simp only [hmin, List.head?_nil, Option.bind_eq_bind, Option.bind_some]
  | cons x t =>
    obtain ⟨n, hn, -, hscore⟩ := node_of_height (hz.tall x List.mem_cons_self).1
    have hlate : now < n.score := hscore ▸ hdue x List.mem_cons_self
    simp only [hmin, List.head?_cons, Option.bind_eq_bind, Option.bind_some, hn, if_pos hlate]

theorem Good.done (hz : Rep z nodes) : Good z z nodes [] :=
  ⟨fun _ => Nat.zero_le 1, fun _ => by simp, fun pre _ _ h => (by cases pre <;> cases h),
    fun _ h => (nomatch h), nodes, hz, fun _ _ => by simp⟩

theorem Rep.head_le (hz : Rep z (x :: t)) (hy : y ∈ x :: t) : scoreOf z.heap x ≤ scoreOf z.heap y := by
  rcases List.mem_cons.mp hy with rfl | hy
  · exact Nat.le_refl _
  · exact (List.pairwise_cons.mp hz.sorted).1 y hy

theorem overdue_head (hz : Rep z nodes) (h : 0 < overdue z nodes now) :
    ∃ x t, nodes = x :: t ∧ scoreOf z.heap x < now := by
  obtain ⟨y, hy, hlt⟩ := List.countP_pos_iff.mp h
  cases nodes with
  | nil => exact absurd hy List.not_mem_nil
  | cons x t => exact ⟨x, t, rfl, (hz.head_le hy).trans_lt (of_decide_eq_true hlt)⟩

theorem due_head (hz : Rep z nodes) (ha : overdue z nodes now = 0) (h : 0 < dueNow z nodes now) :
    ∃ x t, nodes = x :: t ∧ scoreOf z.heap x = now := by
  obtain ⟨y, hy, heq⟩ := List.countP_pos_iff.mp h
  cases nodes with
  | nil => exact absurd hy List.not_mem_nil
  | cons x t =>
    have hge : ¬ scoreOf z.heap x < now := fun hlt =>
      List.countP_eq_zero.mp ha x List.mem_cons_self (decide_eq_true hlt)
    have hle := hz.head_le hy
    have heq : scoreOf z.heap y = now := of_decide_eq_true heq
    exact ⟨x, t, rfl, by omega⟩

theorem none_due (ha : overdue z nodes now = 0) (hb : dueNow z nodes now = 0) :
    ∀ x ∈ nodes, now < scoreOf z.heap x := fun x hx => by
  have h₁ := List.countP_eq_zero.mp ha x hx
  have h₂ := List.countP_eq_zero.mp hb x hx
  simp only [decide_eq_true_eq] at h₁ h₂
  omega

/-- The loop ends, having done what it is for; or it takes out a node too soon
however long it runs. -/
def Well (now : Nat) (script : Nat → List AddCall) (z : Zskiplist) (nodes : List Ptr) : Prop :=
  ∃ turns z' log, expireLoop now turns script z = some (z', log) ∧ Good z z' nodes log

def Badly (now : Nat) (script : Nat → List AddCall) (z : Zskiplist) : Prop :=
  ∀ turns z' log, expireLoop now turns script z = some (z', log) → Bad z log

theorem Turn.well (ht : Turn z z₁ nodes nodes₁ now script x x) (hp : Pending z nodes now script)
    (hx : x ∈ nodes) (h : Well now (rest script) z₁ nodes₁) : Well now script z nodes := by
  obtain ⟨turns, z', log, hloop, hgood⟩ := h
  exact ⟨turns + 1, z', _, by rw [ht.loop, hloop]; rfl, ht.good hp hx hgood⟩

theorem Turn.run_cases (ht : Turn z z₁ nodes nodes₁ now script x y)
    (h : expireLoop now turns script z = some (z', log)) :
    ∃ turns' log', expireLoop now turns' (rest script) z₁ = some (z', log') ∧
      log = .ran x :: .removed y :: log' := by
  cases turns with
  | zero => cases h
  | succ turns =>
    rw [ht.loop] at h
    obtain ⟨⟨z'', log'⟩, hloop, heq⟩ := Option.map_eq_some_iff.mp h
    cases heq
    exact ⟨turns, log', hloop, rfl⟩

theorem Turn.badly (ht : Turn z z₁ nodes nodes₁ now script x y) (halloc : z.heap x ≠ none)
    (h : Badly now (rest script) z₁) : Badly now script z := by
  intro turns z' log hrun
  obtain ⟨turns', log', hloop, rfl⟩ := ht.run_cases hrun
  exact ht.bad halloc (h turns' z' log' hloop)

/-- The node taken out is one the handler has just put in. -/
theorem Turn.badly_now (ht : Turn z z₁ nodes nodes₁ now script x y) (halloc : z.heap x ≠ none)
    (hy : z.heap y = none) : Badly now script z := by
  intro turns z' log hrun
  obtain ⟨turns', log', -, rfl⟩ := ht.run_cases hrun
  refine ⟨[.ran x], y, log', rfl, ?_, hy⟩
  simp only [List.mem_singleton, Event.ran.injEq]
  rintro rfl
  exact halloc hy

theorem due_cases (b : Nat) (hp : Pending z nodes now script) (ha : overdue z nodes now = 0)
    (hb : dueNow z nodes now = b) :
    (Quiet now script 0 b → Well now script z nodes) ∧
      (¬ Quiet now script 0 b → Badly now script z) := by
  induction b generalizing z nodes script with
  | zero =>
    refine ⟨fun _ => ⟨1, z, [], expireLoop_done hp.rep (none_due ha hb) 0, .done hp.rep⟩, ?_⟩
    exact fun h => absurd (fun i _ hi => absurd hi (Nat.not_lt_zero i)) h
  | succ b ih =>
    obtain ⟨x, t, rfl, hx⟩ := due_head hp.rep ha (show 0 < dueNow z nodes now by omega)
    have halloc := hp.rep.allocated_mem (x := x) List.mem_cons_self
    obtain ⟨z₁, y, t', ht, hkeep, hnew⟩ := turn_spec hp hx.le
    rw [quiet_due]
    cases Classical.em (∀ c ∈ script 0, c.msec + c.clock ≠ now) with
    | inl hnone =>
      have hlater : ∀ c ∈ script 0, scoreOf z.heap x < c.expire := fun c hc => by
        have := AddCall.expire_eq hp.clock hc
        have := hnone c hc
        omega
      obtain rfl := hkeep hlater
      obtain ⟨h₁, h₂⟩ := ht.counts hp.clock halloc
      have hadds : armsNow now (script 0) = 0 :=
        List.countP_eq_zero.mpr fun c hc h => hnone c hc (of_decide_eq_true h)
      rw [if_neg (by omega)] at h₁
      rw [if_pos hx] at h₂
      obtain ⟨hwell, hbadly⟩ := ih ht.pending (by omega) (by omega)
      refine ⟨fun h => ht.well hp List.mem_cons_self (hwell h.2), fun h => ht.badly halloc (hbadly ?_)⟩
      exact fun hq => h ⟨hnone, hq⟩
    | inr hsome =>
      refine ⟨fun h => absurd h.1 hsome, fun _ => ?_⟩
      push Not at hsome
      obtain ⟨c, hc, heq⟩ := hsome
      obtain ⟨d, hd, rfl⟩ := hnew ⟨c, hc, by rw [(AddCall.expire_eq hp.clock hc).1]; omega⟩
      exact ht.badly_now halloc (hp.fresh.free 0 d hd)

/-- A turn takes one overdue timer away, and its handler adds at most to those
due now. -/
theorem expire_cases (a b : Nat) (hp : Pending z nodes now script) (ha : overdue z nodes now = a)
    (hb : dueNow z nodes now = b) :
    (Quiet now script a b → Well now script z nodes) ∧
      (¬ Quiet now script a b → Badly now script z) := by
  induction a generalizing b z nodes script with
  | zero => exact due_cases b hp ha hb
  | succ a ih =>
    obtain ⟨x, t, rfl, hx⟩ := overdue_head hp.rep (show 0 < overdue z nodes now by omega)
    have halloc := hp.rep.allocated_mem (x := x) List.mem_cons_self
    obtain ⟨z₁, y, t', ht, hkeep, -⟩ := turn_spec hp hx.le
    obtain rfl := hkeep fun c hc => hx.trans_le (AddCall.expire_eq hp.clock hc).2
    obtain ⟨h₁, h₂⟩ := ht.counts hp.clock halloc
    rw [if_pos hx] at h₁
    rw [if_neg (by omega)] at h₂
    obtain ⟨hwell, hbadly⟩ := ih (b + armsNow now (script 0)) ht.pending (by omega) (by omega)
    rw [quiet_overdue]
    exact ⟨fun h => ht.well hp List.mem_cons_self (hwell h), fun h => ht.badly halloc (hbadly h)⟩

theorem Good.exact (hz : Rep z nodes) (hg : Good z z' nodes log) : Exact z z' log := by
  refine ⟨hg.once, hg.same, hg.after, fun x hx => ?_⟩
  obtain ⟨nodes', hrep, hleft⟩ := hg.left
  have hx := hz.inList_iff.mp hx
  rw [hrep.inList_iff, hleft x (hz.allocated_mem hx)]
  simp only [hx, true_and]

/-- One call of `expire_timer` ends, and takes out exactly the timers whose
handlers it has run, if and only if no handler of a timer due this very
millisecond arms another one for this millisecond. -/
theorem expire_exact_iff (hp : Pending z nodes now script) :
    (∃ turns z' log, expireLoop now turns script z = some (z', log) ∧ Exact z z' log) ↔
      Quiet now script (overdue z nodes now) (dueNow z nodes now) := by
  obtain ⟨hwell, hbadly⟩ := expire_cases _ _ hp rfl rfl
  constructor
  · rintro ⟨turns, z', log, hloop, hexact⟩
    refine Classical.not_not.mp fun hq => ?_
    obtain ⟨pre, y, suf, rfl, hnot, -⟩ := hbadly hq turns z' log hloop
    exact hnot (hexact.after pre y suf rfl)
  · intro hq
    obtain ⟨turns, z', log, hloop, hgood⟩ := hwell hq
    exact ⟨turns, z', log, hloop, hgood.exact hp.rep⟩

def rearmOnce (delay : Nat) : Nat → List AddCall
  | 0 => [{ msec := delay, func := 3, clock := 10, ups := 0, block := ⟨2, fun _ => none⟩ }]
  | _ + 1 => []

theorem rearmOnce_mem (hc : c ∈ rearmOnce delay k) :
    k = 0 ∧ c.msec = delay ∧ c.clock = 10 ∧ c.block.ptr = 2 := by
  cases k with
  | zero => simp_all [rearmOnce]
  | succ k => exact absurd hc List.not_mem_nil

theorem rearmOnce_fresh (hfree : h 2 = none) : Fresh h (rearmOnce delay) where
  free k c hc := by rw [(rearmOnce_mem hc).2.2.2, hfree]
  distinct k := by cases k <;> simp [rearmOnce]
  apart j k hjk c hc d hd := by
    have := (rearmOnce_mem hc).1
    have := (rearmOnce_mem hd).1
    omega

theorem rearmOnce_nonWrapping (hd : delay < 2 ^ 31) : NonWrapping 10 (rearmOnce delay) :=
  fun k c hc => by
    obtain ⟨-, hmsec, hclock, -⟩ := rearmOnce_mem hc
    omega

theorem expire_exact_rearm : ∃ z, InList z 1 ∧ ∃ turns z' log,
    expireLoop 10 turns (rearmOnce 5) z = some (z', log) ∧ Exact z z' log := by
  obtain ⟨z, -, hrep, hins⟩ := insert_spec
    (show Rep _ ([] ++ []) from create_rep (fun _ => none) ⟨0, fun _ => none⟩)
    (show Split _ 10 [] [] from ⟨fun _ h => (nomatch h), fun _ h => (nomatch h)⟩) 3 0
    ⟨1, fun _ => none⟩ rfl
  have hfree : z.heap 2 = none := Option.map_eq_none_iff.mp (hins.other 2 (by decide))
  refine ⟨z, hrep.inList_iff.mpr List.mem_cons_self, (expire_exact_iff
    ⟨hrep, rearmOnce_fresh hfree, rearmOnce_nonWrapping (by decide)⟩).mpr fun i _ _ c hc => ?_⟩
  obtain ⟨-, hmsec, hclock, -⟩ := rearmOnce_mem hc
  omega

/-- A delay of 0 in the same millisecond: the new node goes to the front and is
taken out in place of the one that fired, which fires again. -/
theorem expire_fires_twice : ∃ z z', calls.Reach Transition.free z ∧ InList z 1 ∧
    Fresh z.heap (rearmOnce 0) ∧ NonWrapping 10 (rearmOnce 0) ∧
    expireLoop 10 3 (rearmOnce 0) z = some (z', [.ran 1, .removed 2, .ran 1, .removed 1]) ∧
    ¬ Exact z z' [.ran 1, .removed 2, .ran 1, .removed 1] := by
  let junk : Nat → Option Ptr := fun _ => none
  let z₀ := zslCreate (fun _ => none) ⟨0, junk⟩
  obtain ⟨z, z', hone, hfirst, hend, hfree, hloop⟩ : ∃ z z',
      call z₀ (.insert 10 3 0 ⟨1, junk⟩) = some z ∧ forward z.heap z.header 0 = some (some 1) ∧
      forward z.heap 1 0 = some none ∧ z.heap 2 = none ∧ expireLoop 10 3 (rearmOnce 0) z =
        some (z', [.ran 1, .removed 2, .ran 1, .removed 1]) :=
    ⟨_, _, rfl, rfl, rfl, rfl, rfl⟩
  have hrun : calls.Reach Transition.free z :=
    .step (i := .insert 10 3 0 ⟨1, junk⟩) (t := z₀) (.init ⟨_, _, rfl, rfl⟩) trivial ⟨rfl, hone⟩
  refine ⟨z, z', hrun, ⟨[1], ⟨hfirst, hend⟩, List.mem_cons_self⟩, rearmOnce_fresh hfree,
    rearmOnce_nonWrapping (by decide), hloop, fun h => ?_⟩
  have := h.once 1
  exact absurd this (by decide)

end LearningCode.SkipList
