import LearningCode.Lib.Fuel
import LearningCode.SingleTw.Runs

/-!
# The nodes handed out by the heartbeat wheel

`get_timer_node` and `get_conn_node` look for an unused node from a cursor on. The
cursor is masked where the node is tested and not where it is taken, with a mask that
equals the number of nodes. Outside the arrays there is nothing to read or to write.
-/

namespace LearningCode.SingleTw

open Transition

abbrev maxTimer : Nat := 2 ^ 17 - 1
abbrev maxConn : Nat := 2 ^ 16 - 1

structure Pools where
  wheel : Wheel
  /-- The field `idx` of a timer node. -/
  idx : TimerPtr → UInt32
  tIter : UInt32
  cIter : UInt32
  /-- What `get_timer_node` has returned so far. -/
  timerNodes : List TimerPtr
  /-- What `get_conn_node` has returned so far. -/
  connNodes : List ConnPtr

/-- The `while` of both functions, over an array of `max` nodes. -/
def search (busy : Nat → Bool) (max : Nat) : (turns : Nat) → (iter : UInt32) → Option UInt32
  | 0, _ => none
  | turns + 1, iter =>
    let i := (iter &&& UInt32.ofNat max).toNat
    if i < max then
      if busy i then search busy max turns (iter + 1) else some iter
    else none

def getTimerNode (turns : Nat) (P : Pools) : Option (Pools × TimerPtr) := do
  let tIter ← search (fun i => P.idx i > 0) maxTimer turns (P.tIter + 1)
  let tnode := tIter.toNat
  if tnode < maxTimer then
    some ({ P with
      idx := Function.update P.idx tnode tIter
      tIter := tIter
      timerNodes := tnode :: P.timerNodes }, tnode)
  else none

/-- The node is returned without being touched. -/
def getConnNode (turns : Nat) (P : Pools) : Option (Pools × ConnPtr) := do
  let cIter ← search (fun i => (P.wheel.conn i).used > 0) maxConn turns (P.cIter + 1)
  let cnode := cIter.toNat
  some ({ P with cIter := cIter, connNodes := cnode :: P.connNodes }, cnode)

namespace Pools

def addConn (turns : Nat) (P : Pools) (cnode : ConnPtr) (delay : Int32) : Option Pools := do
  let (P, tnode) ← getTimerNode turns P
  some { P with wheel := SingleTw.addConn P.wheel tnode cnode delay }

def checkConn (P : Pools) : Pools :=
  { P with
    wheel := (SingleTw.checkConn P.wheel).1
    idx := (P.wheel.tw (slot P.wheel.tick)).foldl (fun idx temp => Function.update idx temp 0)
      P.idx }

inductive Op
  | getTimerNode
  | getConnNode
  | addConn (cnode : ConnPtr) (delay : Int32)
  | checkConn

def perform (turns : Nat) (P : Pools) : Op → Option Pools
  | .getTimerNode => (SingleTw.getTimerNode turns P).map Prod.fst
  | .getConnNode => (SingleTw.getConnNode turns P).map Prod.fst
  | .addConn cnode delay => addConn turns P cnode delay
  | .checkConn => some (checkConn P)

/-- A heartbeat is for a connection that `get_conn_node` has returned. -/
def Legal (P : Pools) : Op → Prop
  | .addConn cnode _ => cnode ∈ P.connNodes
  | _ => True

def calls : Transition Pools Op where
  init P := Initial P.wheel ∧ (∀ t, P.idx t = 0) ∧ P.tIter = 0 ∧ P.cIter = 0 ∧
    P.timerNodes = [] ∧ P.connNodes = []
  step P op P' := Legal P op ∧ Returns (fun turns => perform turns P op) P'

-- --------------------------------------------------------------------------
-- What is said about the next call
-- --------------------------------------------------------------------------

def TimerRight (P : Pools) : Prop := ∃ P' t, Returns (fun turns => getTimerNode turns P) (P', t) ∧
  t < maxTimer ∧ ∀ i, t ∉ P.wheel.tw i

def ConnRight (P : Pools) : Prop := ∃ P' c, Returns (fun turns => getConnNode turns P) (P', c) ∧
  c < maxConn ∧ (P.wheel.conn c).used = 0

def timersInUse (P : Pools) : Nat := ((Finset.range maxTimer).filter fun t => P.idx t ≠ 0).card

def connsInUse (P : Pools) : Nat :=
  ((Finset.range maxConn).filter fun c => (P.wheel.conn c).used ≠ 0).card

def Spare (P : Pools) (_ : Op) : Prop := P.timersInUse < maxTimer ∧ P.connsInUse < maxConn

end Pools

-- --------------------------------------------------------------------------
-- The search
-- --------------------------------------------------------------------------

variable {b : Nat → Bool} {max k : Nat} {iter : UInt32} {P P' : Pools} {W : Wheel}
  {l : List TimerPtr} {c : ConnPtr} {t : TimerPtr}

theorem masked (hk : k < 32) (h : iter.toNat < 2 ^ k) :
    (iter &&& UInt32.ofNat (2 ^ k - 1)).toNat = iter.toNat := by
  have hlt : 2 ^ k - 1 < 2 ^ 32 := by
    have := Nat.pow_lt_pow_right (a := 2) (by decide) hk
    omega
  rw [UInt32.toNat_and, UInt32.toNat_ofNat', Nat.mod_eq_of_lt hlt, Nat.and_two_pow_sub_one_eq_mod,
    Nat.mod_eq_of_lt h]

theorem search_free (hk : k < 32) (h : iter.toNat < 2 ^ k - 1) (hfree : b iter.toNat = false) :
    Returns (fun turns => search b (2 ^ k - 1) turns iter) iter := by
  refine .last fun turns => ?_
  have hmask := masked hk (Nat.lt_of_lt_of_le h (Nat.sub_le _ 1))
  simp only [search, hmask, if_pos h, hfree, Bool.false_eq_true, if_false]

theorem search_end (hk : k < 32) (h : iter.toNat = 2 ^ k - 1) (turns : Nat) :
    search b (2 ^ k - 1) turns iter = none := by
  cases turns with
  | zero => rfl
  | succ turns =>
    have hlt : iter.toNat < 2 ^ k := by
      have := Nat.two_pow_pos k
      omega
    have hnot : ¬ iter.toNat < 2 ^ k - 1 := Nat.not_lt.mpr (Nat.le_of_eq h.symm)
    simp only [search, masked hk hlt, if_neg hnot]

-- --------------------------------------------------------------------------
-- The cursors never come round
-- --------------------------------------------------------------------------

namespace Pools

/-- Every node in front of a cursor is as it was at the start, and so is node 0. -/
structure Sound (P : Pools) : Prop where
  timers : P.tIter.toNat = P.timerNodes.length
  timers_lt : P.timerNodes.length < maxTimer
  idx : ∀ t, t = 0 ∨ P.timerNodes.length < t → P.idx t = 0
  linked : ∀ i, ∀ t ∈ P.wheel.tw i, t ≤ P.timerNodes.length ∧ P.wheel.node t ∈ P.connNodes
  conns : P.cIter.toNat = P.connNodes.length
  conns_lt : P.connNodes.length < maxConn
  given : ∀ c ∈ P.connNodes, c ≠ 0 ∧ c ≤ P.connNodes.length
  used : ∀ c, c = 0 ∨ P.connNodes.length < c → (P.wheel.conn c).used = 0

def takeTimer (P : Pools) : Pools :=
  { P with
    idx := Function.update P.idx (P.timerNodes.length + 1) (P.tIter + 1)
    tIter := P.tIter + 1
    timerNodes := (P.timerNodes.length + 1) :: P.timerNodes }

def takeConn (P : Pools) : Pools :=
  { P with cIter := P.cIter + 1, connNodes := (P.connNodes.length + 1) :: P.connNodes }

theorem next_cursor {n : Nat} (h : iter.toNat = n) (hn : n + 1 < 2 ^ 32) :
    (iter + 1).toNat = n + 1 := by
  have hone : (1 : UInt32).toNat = 1 := rfl
  rw [UInt32.toNat_add, hone, h, Nat.mod_eq_of_lt hn]

theorem Sound.next_timer (h : Sound P) : (P.tIter + 1).toNat = P.timerNodes.length + 1 := by
  exact next_cursor h.timers (Nat.lt_of_le_of_lt h.timers_lt (by decide : maxTimer < 2 ^ 32))

theorem Sound.next_conn (h : Sound P) : (P.cIter + 1).toNat = P.connNodes.length + 1 := by
  exact next_cursor h.conns (Nat.lt_of_le_of_lt h.conns_lt (by decide : maxConn < 2 ^ 32))

theorem Sound.getTimerNode (h : Sound P) (hlt : P.timerNodes.length + 1 < maxTimer) :
    Returns (fun turns => SingleTw.getTimerNode turns P)
      (takeTimer P, P.timerNodes.length + 1) := by
  have hnext := h.next_timer
  have hfree : decide (P.idx (P.tIter + 1).toNat > 0) = false := by
    rw [hnext, h.idx _ (.inr (Nat.lt_succ_self _))]
    rfl
  have hsearch := search_free (b := fun i => decide (P.idx i > 0)) (by decide : 17 < 32)
    (by rw [hnext]; exact hlt) hfree
  refine hsearch.bind (.const fun turns => ?_)
  simp only [hnext, if_pos hlt, takeTimer]

theorem Sound.getTimerNode_end (h : Sound P) (heq : P.timerNodes.length + 1 = maxTimer)
    (turns : Nat) : SingleTw.getTimerNode turns P = none := by
  have hend := search_end (b := fun i => decide (P.idx i > 0)) (by decide : 17 < 32)
    (h.next_timer.trans heq) turns
  rw [SingleTw.getTimerNode, hend]
  rfl

theorem Sound.getConnNode (h : Sound P) (hlt : P.connNodes.length + 1 < maxConn) :
    Returns (fun turns => SingleTw.getConnNode turns P)
      (takeConn P, P.connNodes.length + 1) := by
  have hnext := h.next_conn
  have hfree : decide ((P.wheel.conn (P.cIter + 1).toNat).used > 0) = false := by
    rw [hnext, h.used _ (.inr (Nat.lt_succ_self _))]
    rfl
  have hsearch := search_free (b := fun i => decide ((P.wheel.conn i).used > 0))
    (by decide : 16 < 32) (by rw [hnext]; exact hlt) hfree
  refine hsearch.bind (.const fun turns => ?_)
  simp only [hnext, takeConn]

theorem Sound.getConnNode_end (h : Sound P) (heq : P.connNodes.length + 1 = maxConn)
    (turns : Nat) : SingleTw.getConnNode turns P = none := by
  have hend := search_end (b := fun i => decide ((P.wheel.conn i).used > 0))
    (by decide : 16 < 32) (h.next_conn.trans heq) turns
  rw [SingleTw.getConnNode, hend]
  rfl

theorem Sound.takeTimer (h : Sound P) (hlt : P.timerNodes.length + 1 < maxTimer) :
    Sound (takeTimer P) := by
  refine ⟨h.next_timer, hlt, fun t ht => ?_, fun i t ht => ?_, h.conns, h.conns_lt, h.given, h.used⟩
  · have hother : t ≠ P.timerNodes.length + 1 := by
      simp only [Pools.takeTimer, List.length_cons] at ht
      omega
    have hold : t = 0 ∨ P.timerNodes.length < t := ht.imp_right Nat.lt_of_succ_lt
    exact (Function.update_of_ne hother _ _).trans (h.idx t hold)
  · obtain ⟨hle, hconn⟩ := h.linked i t ht
    exact ⟨Nat.le_succ_of_le hle, hconn⟩

theorem Sound.takeConn (h : Sound P) (hlt : P.connNodes.length + 1 < maxConn) :
    Sound (takeConn P) := by
  refine ⟨h.timers, h.timers_lt, h.idx, fun i t ht => ?_, h.next_conn, hlt, fun c hc => ?_,
    fun c hc => h.used c (hc.imp_right Nat.lt_of_succ_lt)⟩
  · obtain ⟨hle, hconn⟩ := h.linked i t ht
    exact ⟨hle, List.mem_cons_of_mem _ hconn⟩
  · rcases List.mem_cons.mp hc with rfl | hc
    · exact ⟨Nat.succ_ne_zero _, Nat.le_refl _⟩
    · obtain ⟨hne, hle⟩ := h.given c hc
      exact ⟨hne, Nat.le_succ_of_le hle⟩

-- --------------------------------------------------------------------------
-- Heartbeats
-- --------------------------------------------------------------------------

theorem mem_tw_addConn {cnode : ConnPtr} {delay : Int32} {i : Nat} {x : TimerPtr}
    (h : x ∈ (SingleTw.addConn W t cnode delay).tw i) : x ∈ W.tw i ∨ x = t := by
  by_cases hi : i = slot (W.tick + expire + delay.toUInt32)
  · subst hi
    simpa [SingleTw.addConn, setUsed] using h
  · simp only [SingleTw.addConn, setUsed, Function.update_of_ne hi] at h
    exact .inl h

theorem Sound.addConn {cnode : ConnPtr} (h : Sound P) (hc : cnode ∈ P.connNodes) (delay : Int32)
    (hlt : P.timerNodes.length + 1 < maxTimer) :
    Sound { Pools.takeTimer P with
      wheel := SingleTw.addConn P.wheel (P.timerNodes.length + 1) cnode delay } := by
  have htake := h.takeTimer hlt
  refine ⟨htake.timers, htake.timers_lt, htake.idx, fun i t ht => ?_, h.conns, h.conns_lt, h.given,
    fun c hzero => ?_⟩
  · have hnode : (SingleTw.addConn P.wheel (P.timerNodes.length + 1) cnode delay).node =
        Function.update P.wheel.node (P.timerNodes.length + 1) cnode := rfl
    rw [hnode]
    rcases mem_tw_addConn ht with hold | rfl
    · obtain ⟨hle, hconn⟩ := h.linked i t hold
      rw [Function.update_of_ne (Nat.ne_of_lt (Nat.lt_succ_of_le hle))]
      exact ⟨Nat.le_succ_of_le hle, hconn⟩
    · rw [Function.update_self]
      exact ⟨Nat.le_refl _, hc⟩
  · have hne : cnode ≠ c := by
      rintro rfl
      obtain ⟨hne, hle⟩ := h.given cnode hc
      exact hzero.elim hne (Nat.not_lt.mpr hle)
    rw [used_addConn, if_neg hne, UInt8.add_zero]
    exact h.used c hzero

theorem checkLoop_other (h : ∀ t ∈ l, W.node t ≠ c) :
    ((checkLoop W l).1.conn c).used = (W.conn c).used := by
  induction l generalizing W with
  | nil => rfl
  | cons t l ih =>
    have hrest := ih (W := turn W t) fun x hx => h x (List.mem_cons_of_mem _ hx)
    refine hrest.trans ?_
    rw [turn_used, if_neg (h t List.mem_cons_self), UInt8.sub_zero]

theorem foldl_update_zero (idx : TimerPtr → UInt32) (t : TimerPtr) :
    l.foldl (fun idx temp => Function.update idx temp 0) idx t = if t ∈ l then 0 else idx t := by
  induction l generalizing idx with
  | nil => rfl
  | cons x l ih =>
    rw [List.foldl_cons, ih, Function.update_apply]
    by_cases hx : t = x <;> by_cases hl : t ∈ l <;> simp [hx, hl]

theorem Sound.checkConn (h : Sound P) : Sound (Pools.checkConn P) := by
  obtain ⟨htw, hnode, -⟩ := checkConn_frame (W := P.wheel)
  refine ⟨h.timers, h.timers_lt, fun t ht => ?_, fun i t ht => ?_, h.conns, h.conns_lt, h.given,
    fun c hc => ?_⟩
  · simp only [Pools.checkConn, foldl_update_zero, h.idx t ht, ite_self]
  · have hold : t ∈ P.wheel.tw i := by
      simp only [Pools.checkConn, htw, Function.update_apply] at ht
      split at ht
      · cases ht
      · exact ht
    simp only [Pools.checkConn, hnode]
    exact h.linked i t hold
  · have hother : ∀ t ∈ P.wheel.tw (slot P.wheel.tick), P.wheel.node t ≠ c := by
      rintro t ht rfl
      obtain ⟨hne, hle⟩ := h.given _ (h.linked _ t ht).2
      exact hc.elim hne (Nat.not_lt.mpr hle)
    exact (checkLoop_other (W := { P.wheel with tick := P.wheel.tick + 1 }) hother).trans
      (h.used c hc)

-- --------------------------------------------------------------------------
-- Runs
-- --------------------------------------------------------------------------

theorem Sound.timer_lt (h : Sound P) {α : Type} {f : Nat → Option α} {a : α} (hr : Returns f a)
    (hf : ∀ turns, SingleTw.getTimerNode turns P = none → f turns = none) :
    P.timerNodes.length + 1 < maxTimer := by
  refine Nat.lt_of_le_of_ne h.timers_lt fun heq => ?_
  exact Returns.not_of_none (fun turns => hf turns (h.getTimerNode_end heq turns)) hr

theorem Sound.conn_lt (h : Sound P) {α : Type} {f : Nat → Option α} {a : α} (hr : Returns f a)
    (hf : ∀ turns, SingleTw.getConnNode turns P = none → f turns = none) :
    P.connNodes.length + 1 < maxConn := by
  refine Nat.lt_of_le_of_ne h.conns_lt fun heq => ?_
  exact Returns.not_of_none (fun turns => hf turns (h.getConnNode_end heq turns)) hr

theorem Sound.addConn_returns {cnode : ConnPtr} {delay : Int32} (h : Sound P)
    (hlt : P.timerNodes.length + 1 < maxTimer) : Returns (fun turns => Pools.addConn turns P cnode delay)
      { Pools.takeTimer P with
        wheel := SingleTw.addConn P.wheel (P.timerNodes.length + 1) cnode delay } :=
  (h.getTimerNode hlt).bind (.const fun _ => rfl)

theorem Sound.perform {op : Op} (h : Sound P) (hop : Legal P op)
    (hr : Returns (fun turns => perform turns P op) P') : Sound P' := by
  cases op with
  | getTimerNode =>
    have hlt := h.timer_lt hr fun turns hnone => by simp [Pools.perform, hnone]
    rw [hr.unique ((h.getTimerNode hlt).map Prod.fst)]
    exact h.takeTimer hlt
  | getConnNode =>
    have hlt := h.conn_lt hr fun turns hnone => by simp [Pools.perform, hnone]
    rw [hr.unique ((h.getConnNode hlt).map Prod.fst)]
    exact h.takeConn hlt
  | addConn cnode delay =>
    have hlt := h.timer_lt hr fun turns hnone => by simp [Pools.perform, Pools.addConn, hnone]
    rw [hr.unique (h.addConn_returns hlt)]
    exact h.addConn hop delay hlt
  | checkConn =>
    rw [hr.unique (.const fun _ => rfl)]
    exact h.checkConn

theorem sound_of_reach {guard : Pools → Op → Prop} (h : calls.Reach guard P) : Sound P := by
  refine h.invariant ?_ fun P op P' hP _ hstep => hP.perform hstep.1 hstep.2
  rintro P ⟨⟨htw, -, hused⟩, hidx, htimer, hconn, htimers, hconns⟩
  refine ⟨?_, ?_, fun t _ => hidx t, fun i t ht => ?_, ?_, ?_, fun c hc => ?_, fun c _ => hused c⟩
  · rw [htimer, htimers]
    rfl
  · rw [htimers]
    decide
  · rw [htw] at ht
    cases ht
  · rw [hconn, hconns]
    rfl
  · rw [hconns]
    decide
  · rw [hconns] at hc
    cases hc

theorem Sound.timerRight_iff (h : Sound P) :
    TimerRight P ↔ P.timerNodes.length + 1 < maxTimer := by
  constructor
  · rintro ⟨P', t, hr, -⟩
    exact h.timer_lt hr fun _ => id
  · intro hlt
    refine ⟨_, _, h.getTimerNode hlt, hlt, fun i ht => ?_⟩
    exact Nat.not_succ_le_self _ (h.linked i _ ht).1

theorem Sound.connRight_iff (h : Sound P) :
    ConnRight P ↔ P.connNodes.length + 1 < maxConn := by
  constructor
  · rintro ⟨P', c, hr, -⟩
    exact h.conn_lt hr fun _ => id
  · intro hlt
    exact ⟨_, _, h.getConnNode hlt, hlt, h.used _ (.inr (Nat.lt_succ_self _))⟩

/-- The next call of an allocator is right as long as fewer nodes were returned than the
array has behind its first one, however many of them are in use. -/
theorem allocators_right_iff (h : calls.Reach free P) :
    (TimerRight P ↔ P.timerNodes.length + 1 < maxTimer) ∧
      (ConnRight P ↔ P.connNodes.length + 1 < maxConn) :=
  ⟨(sound_of_reach h).timerRight_iff, (sound_of_reach h).connRight_iff⟩

def fresh : Pools := ⟨emptyWheel, fun _ => 0, 0, 0, [], []⟩

theorem fresh_init : calls.init fresh :=
  ⟨init_emptyWheel.1, fun _ => rfl, rfl, rfl, rfl, rfl⟩

/-- A connection with two heartbeats; `check_conn` has counted one of them down. -/
theorem allocators_right_iff_counted : ∃ P, calls.Reach free P ∧ P.timerNodes = [2, 1] ∧
    P.connNodes = [1] ∧ (P.wheel.conn 1).used = 1 ∧ P.idx 1 = 0 ∧ P.idx 2 = 2 ∧
      TimerRight P ∧ ConnRight P := by
  have h0 : calls.Reach free fresh := .init fresh_init
  have h1 : calls.Reach free _ := h0.step (i := .getConnNode) trivial
    ⟨trivial, ((sound_of_reach h0).getConnNode (by decide)).map Prod.fst⟩
  have h2 : calls.Reach free _ := h1.step (i := .addConn 1 6) trivial
    ⟨List.mem_singleton_self 1, (sound_of_reach h1).addConn_returns (by decide)⟩
  have h3 : calls.Reach free _ := h2.step (i := .addConn 1 10) trivial
    ⟨List.mem_singleton_self 1, (sound_of_reach h2).addConn_returns (by decide)⟩
  have h4 : calls.Reach free _ := h3.step (i := .checkConn) trivial
    ⟨trivial, .const fun _ => rfl⟩
  obtain ⟨htimer, hconn⟩ := allocators_right_iff h4
  exact ⟨_, h4, rfl, rfl, rfl, rfl, rfl, htimer.mpr (by decide), hconn.mpr (by decide)⟩

-- --------------------------------------------------------------------------
-- One heartbeat at a time
-- --------------------------------------------------------------------------

structure Idle (P : Pools) : Prop where
  tw : ∀ i, P.wheel.tw i = []
  idx : ∀ t, P.idx t = 0

theorem card_filter_lt {n : Nat} (hn : 0 < n) {p : Nat → Prop} [DecidablePred p] (h : ¬ p 0) :
    ((Finset.range n).filter p).card < n := by
  have hss : (Finset.range n).filter p ⊂ Finset.range n := by
    refine Finset.filter_ssubset.mpr ⟨0, Finset.mem_range.mpr hn, h⟩
  simpa using Finset.card_lt_card hss

theorem Sound.spare (h : Sound P) (op : Op) : Spare P op :=
  ⟨card_filter_lt (by decide) fun hne => hne (h.idx 0 (.inl rfl)),
    card_filter_lt (by decide) fun hne => hne (h.used 0 (.inl rfl))⟩

theorem slot_six (W : Wheel) : slot (W.tick + expire + (6 : Int32).toUInt32) = slot W.tick := by
  rw [slot_add (by decide), slot_eq]
  have hsix : (6 : Int32).toNatClampNeg = 6 := rfl
  rw [hsix, twSize]
  omega

theorem tw_addConn_six (h : ∀ i, W.tw i = []) (i : Nat) :
    (SingleTw.addConn W t c 6).tw i = if i = slot W.tick then [t] else [] := by
  have htw : (SingleTw.addConn W t c 6).tw = Function.update W.tw
      (slot (W.tick + expire + (6 : Int32).toUInt32))
      (W.tw (slot (W.tick + expire + (6 : Int32).toUInt32)) ++ [t]) := rfl
  rw [htw, slot_six, Function.update_apply, h, h, List.nil_append]

theorem Idle.heartbeat {cnode : ConnPtr} (h : Idle P) (hsound : Sound P)
    (hc : cnode ∈ P.connNodes) (hlt : P.timerNodes.length + 1 < maxTimer)
    (hreach : calls.Reach Spare P) : ∃ P', calls.Reach Spare P' ∧ Idle P' ∧
      P'.timerNodes.length = P.timerNodes.length + 1 ∧ P'.connNodes = P.connNodes := by
  have hadd := hsound.addConn hc 6 hlt
  have hfirst : calls.Reach Spare _ := hreach.step (hsound.spare (.addConn cnode 6))
    ⟨hc, hsound.addConn_returns hlt⟩
  have hsecond : calls.Reach Spare _ := hfirst.step (hadd.spare .checkConn)
    ⟨trivial, .const fun _ => rfl⟩
  refine ⟨_, hsecond, ⟨fun i => ?_, fun t => ?_⟩, rfl, rfl⟩
  · simp only [Pools.checkConn, checkConn_frame.1, Function.update_apply, tw_addConn_six h.tw]
    split
    · rfl
    · next hi => exact if_neg hi
  · have hlist := tw_addConn_six (t := P.timerNodes.length + 1) (c := cnode) h.tw
      (slot P.wheel.tick)
    rw [if_pos rfl] at hlist
    have hidx := foldl_update_zero (l := [P.timerNodes.length + 1])
      (Function.update P.idx (P.timerNodes.length + 1) (P.tIter + 1)) t
    rw [← hlist] at hidx
    refine hidx.trans ?_
    by_cases ht : t = P.timerNodes.length + 1
    · simp only [hlist, ht, List.mem_singleton, if_true]
    · simp only [hlist, ht, List.mem_singleton, if_false, Function.update_of_ne ht, h.idx]

theorem reach_idle (k : Nat) (hk : k < maxTimer) : ∃ P, calls.Reach Spare P ∧ Idle P ∧
    P.timerNodes.length = k ∧ 1 ∈ P.connNodes := by
  induction k with
  | zero =>
    have hinit : calls.Reach Spare fresh := .init fresh_init
    have hsound := sound_of_reach hinit
    have hstep : calls.Reach Spare _ := hinit.step (hsound.spare .getConnNode)
      ⟨trivial, (hsound.getConnNode (by decide)).map Prod.fst⟩
    exact ⟨_, hstep, ⟨fun _ => rfl, fun _ => rfl⟩, rfl, List.mem_singleton_self 1⟩
  | succ k ih =>
    obtain ⟨P, hP, hidle, hlen, hconn⟩ := ih (Nat.lt_of_succ_lt hk)
    obtain ⟨P', hP', hidle', hlen', hconns⟩ :=
      hidle.heartbeat (sound_of_reach hP) hconn (by rw [hlen]; exact hk) hP
    exact ⟨P', hP', hidle', by rw [hlen', hlen], by rw [hconns]; exact hconn⟩

/-- After 131070 heartbeats with one node in use at a time, the next one goes behind the
array. -/
theorem timer_node_behind : ¬ ∀ P, calls.Reach Spare P → (∀ op, Spare P op) →
    TimerRight P ∧ ConnRight P := by
  intro hall
  obtain ⟨P, hP, -, hlen, -⟩ := reach_idle (maxTimer - 1) (by decide)
  have hsound := sound_of_reach hP
  have hlt := hsound.timerRight_iff.mp (hall P hP hsound.spare).1
  rw [hlen] at hlt
  exact absurd hlt (by decide)

end Pools

end LearningCode.SingleTw
