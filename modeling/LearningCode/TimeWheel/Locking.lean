import Mathlib.Logic.Relation
import LearningCode.Lib.Spinlock
import LearningCode.Lib.Transition
import LearningCode.TimeWheel.Model

/-!
# The lock of the time wheel

`add_timer`, `timer_update` and `del_timer`, called by any number of threads and by
the callbacks they run. A thread is the stack of its calls under way. A step of the call
on top goes up to the next `spinlock_lock`, to the next test of a loop or into a
callback; what it does under the lock is one step, as `Model.lean` has it.
-/

namespace LearningCode.TimeWheel.Locking

open Transition Spinlock

abbrev Thread := Nat

/-- A call under way, by where it stands. `again` tells the second `timer_execute` of
`timer_update` from the first. -/
inductive Frame
  /-- The code of the thread. -/
  | own
  | callback (node : Addr)
  | addLock (node : Addr) (time : BitVec 32) (func : Handler) (threadid : BitVec 32)
  | addLocked (node : Addr) (time : BitVec 32) (func : Handler) (threadid : BitVec 32)
  /-- `add_timer` once its `node->callback(node)` has returned. -/
  | addUnlock (node : Addr)
  | updateLock
  /-- `timer_execute` at the test of its loop. -/
  | execute (again : Bool) (idx : Nat)
  | dispatch (again : Bool) (idx : Nat) (current : List Addr)
  | executeLock (again : Bool) (idx : Nat)
  deriving DecidableEq

structure State where
  T : Timer
  /-- The thread that has set `lock` to 1; `none` stands for 0. -/
  holder : Option Thread
  stack : Thread → List Frame

inductive Label
  /-- `block` is what `malloc` finds in the memory it returns. -/
  | call (u : Thread) (op : Op) (block : TimerNode)
  /-- The callback on top returns. -/
  | ret (u : Thread)
  | run (u : Thread)

def start (time : BitVec 32) : State := ⟨timerCreateTimer time, none, fun _ => [.own]⟩

def timerExecute (T : Timer) (again : Bool) : Frame :=
  .execute again (T.time &&& TIME_NEAR_MASK).toNat

/-- `spinlock_lock`: one test and set, and `spin` once more when it found 1. -/
def spinlockLock (holder : Option Thread) (u : Thread) (locked spin : Frame) :
    Option Thread × List Frame :=
  if holder = none then (some u, [locked]) else (holder, [spin])

/-- A step of the call on top: the wheel, the lock, and the calls in its place. The lock
becomes `none` where `spinlock_unlock` is called. -/
def advance (T : Timer) (holder : Option Thread) (u : Thread) :
    Frame → Timer × Option Thread × List Frame
  | .own => (T, holder, [.own])
  | .callback node => (T, holder, [.callback node])
  | .addLock node time func threadid =>
    (T, spinlockLock holder u (.addLocked node time func threadid)
      (.addLock node time func threadid))
  | .addLocked node time func threadid =>
    let T := { T with
      node := Function.update T.node node
        { T.node node with expire := time + T.time, callback := func, id := threadid } }
    if time.toInt ≤ 0 then
      -- the lock is kept
      (runCallback T node, holder, [.callback node, .addUnlock node])
    else
      (addNode T node, none, [])
  | .addUnlock _ => (T, none, [])
  | .updateLock => (T, spinlockLock holder u (timerExecute T false) .updateLock)
  | .execute again idx =>
    if T.near idx = [] then
      if again then
        (T, none, [])
      else
        (timerShift T, holder, [timerExecute (timerShift T) true])
    else
      let cleared := linkClear (T.near idx)
      ({ T with near := Function.update T.near idx cleared.2 }, none,
        [.dispatch again idx cleared.1])
  | .dispatch again idx [] => (T, holder, [.executeLock again idx])
  | .dispatch again idx (temp :: current) =>
    if (T.node temp).cancel = 0#8 then
      (runCallback T temp, holder, [.callback temp, .dispatch again idx current])
    else
      (T, holder, [.dispatch again idx current])
  | .executeLock again idx =>
    (T, spinlockLock holder u (.execute again idx) (.executeLock again idx))

def Frame.code : Frame → Bool
  | .own => true
  | .callback _ => true
  | _ => false

/-- A call: the wheel, and the call on top of the one that makes it. `del_timer` takes no
lock and is done at once. -/
def enter (T : Timer) (block : TimerNode) : Op → Timer × List Frame
  | .addTimer time func threadid =>
    ({ T with fresh := T.fresh + 1, node := Function.update T.node T.fresh block },
      [.addLock T.fresh time func threadid])
  | .timerUpdate => (T, [.updateLock])
  | .delTimer node => (delTimer T node, [])

def step (s : State) : Label → Option State
  | .call u op block =>
    match s.stack u with
    | [] => none
    | f :: stack =>
      let (T, frames) := enter s.T block op
      if f.code then
        some { s with T := T, stack := Function.update s.stack u (frames ++ f :: stack) }
      else none
  | .ret u =>
    match s.stack u with
    | .callback _ :: stack => some { s with stack := Function.update s.stack u stack }
    | _ => none
  | .run u =>
    match s.stack u with
    | [] => none
    | f :: stack =>
      let (T, holder, frames) := advance s.T s.holder u f
      some ⟨T, holder, Function.update s.stack u (frames ++ stack)⟩

def calls : Transition State Label where
  init s := ∃ time, s = start time
  step s i s' := step s i = some s'

def delays (allowed : BitVec 32 → Prop) (_ : State) : Label → Prop
  | .call _ (.addTimer time _ _) _ => allowed time
  | _ => True

-- --------------------------------------------------------------------------
-- What is said about the lock
-- --------------------------------------------------------------------------

def Frame.spinning : Frame → Bool
  | .addLock .. => true
  | .updateLock => true
  | .executeLock .. => true
  | _ => false

def Frame.locked : Frame → Bool
  | .addLocked .. => true
  | .addUnlock _ => true
  | .execute .. => true
  | _ => false

/-- The thread that executes a callback does not hold the lock, nor does one that is at
`spinlock_lock`. -/
structure Safe (s : State) : Prop where
  callback : ∀ u node stack, s.stack u = .callback node :: stack → s.holder ≠ some u
  spinning : ∀ u f stack, s.stack u = f :: stack → f.spinning → s.holder ≠ some u

-- --------------------------------------------------------------------------
-- What a step does to the lock
-- --------------------------------------------------------------------------

variable {T : Timer} {holder : Option Thread} {u v : Thread} {f locked spin : Frame}
  {old new rest : List Frame} {s s' : State} {i : Label} {allowed : BitVec 32 → Prop}

theorem spinlockLock_move (hlocked : locked.locked) (hspin : spin.locked = false) :
    Move Frame.locked u holder [spin] (spinlockLock holder u locked spin).1
      (spinlockLock holder u locked spin).2 := by
  unfold spinlockLock
  split
  · rename_i hfree
    subst hfree
    exact .take (by simp [hspin]) (by simp [hlocked])
  · exact .keep rfl

theorem advance_move : Move Frame.locked u holder [f] (advance T holder u f).2.1
    (advance T holder u f).2.2 := by
  cases f with
  | own => exact .keep rfl
  | callback => exact .keep rfl
  | addLock => exact spinlockLock_move rfl rfl
  | addLocked =>
    rw [advance]
    split
    · exact .keep rfl
    · exact .give rfl rfl
  | addUnlock => exact .give rfl rfl
  | updateLock => exact spinlockLock_move rfl rfl
  | execute again idx =>
    rw [advance]
    split
    · split
      · exact .give rfl rfl
      · exact .keep rfl
    · exact .give rfl rfl
  | dispatch again idx current =>
    cases current with
    | nil => exact .keep rfl
    | cons temp current =>
      rw [advance]
      split
      · exact .keep rfl
      · exact .keep rfl
  | executeLock => exact spinlockLock_move rfl rfl

/-- What a label does to the lock, with the calls that come in place of the top one. -/
inductive Turn (s : State) (u : Thread) : Frame → Label → Option Thread → List Frame → Prop
  | call {f : Frame} {op : Op} {block : TimerNode} :
    f.code → Turn s u f (.call u op block) s.holder ((enter s.T block op).2 ++ [f])
  | ret {node : Addr} : Turn s u (.callback node) (.ret u) s.holder []
  | run {f : Frame} :
    Turn s u f (.run u) (advance s.T s.holder u f).2.1 (advance s.T s.holder u f).2.2

theorem step_turn (h : step s i = some s') : ∃ u f new rest,
    s.stack u = f :: rest ∧ Turn s u f i s'.holder new ∧
      s'.stack = Function.update s.stack u (new ++ rest) := by
  cases i with
  | call u op block =>
    rw [step] at h
    split at h
    · cases h
    · rename_i f rest hstack
      dsimp only at h
      split at h
      · rename_i hcode
        cases h
        exact ⟨u, f, _, rest, hstack, .call hcode, by simp⟩
      · cases h
  | ret u =>
    rw [step] at h
    split at h
    · rename_i node rest hstack
      cases h
      exact ⟨u, _, [], rest, hstack, .ret, rfl⟩
    · cases h
  | run u =>
    rw [step] at h
    split at h
    · cases h
    · rename_i f rest hstack
      cases h
      exact ⟨u, f, _, rest, hstack, .run, rfl⟩

theorem code_not_locked (hf : f.code) : ¬ f.locked := by
  cases f with
  | own => simp [Frame.locked]
  | callback => simp [Frame.locked]
  | _ => cases hf

theorem enter_not_locked {op : Op} {block : TimerNode} :
    ∀ f ∈ (enter T block op).2, ¬ f.locked := by
  cases op with
  | _ => simp [enter, Frame.locked]

theorem Turn.move {holder' : Option Thread} (h : Turn s u f i holder' new) :
    Move Frame.locked u s.holder [f] holder' new := by
  cases h with
  | call hcode =>
    refine .keep ?_
    rw [List.countP_append, List.countP_eq_zero.mpr enter_not_locked, Nat.zero_add]
  | ret => exact .keep rfl
  | run => exact advance_move

theorem owned_step (h : Owned Frame.locked s.holder s.stack) (hs : step s i = some s') :
    Owned Frame.locked s'.holder s'.stack := by
  obtain ⟨u, f, new, rest, hstack, hturn, hs'⟩ := step_turn hs
  rw [hs']
  exact h.move hstack hturn.move

theorem reach_owned {guard : State → Label → Prop} (h : calls.Reach guard s) :
    Owned Frame.locked s.holder s.stack := by
  refine h.invariant ?_ fun s i s' ho _ hs => owned_step ho hs
  rintro _ ⟨time, rfl⟩ u
  simp [start, Frame.locked]

-- --------------------------------------------------------------------------
-- Runs in which every delay is positive
-- --------------------------------------------------------------------------

/-- Not on the way to the immediate path of `add_timer`, nor on it. -/
def Frame.delayed : Frame → Prop
  | .addLock _ time _ _ => 0 < time.toInt
  | .addLocked _ time _ _ => 0 < time.toInt
  | .addUnlock _ => False
  | _ => True

/-- No call of the thread is on the immediate path, and none that is under the lock has
made another one. -/
structure Calm (stack : List Frame) : Prop where
  delayed : ∀ f ∈ stack, f.delayed
  flat : Flat Frame.locked stack

theorem calm_nil : Calm [] := ⟨nofun, nofun⟩

theorem calm_single (hf : f.delayed) : Calm [f] := ⟨by simpa using hf, nofun⟩

theorem calm_pair (hf : f.delayed) {g : Frame} (hg : g.delayed) (hunder : ¬ g.locked) :
    Calm [f, g] := by
  refine ⟨fun x hx => ?_, by simpa [Flat] using hunder⟩
  rcases List.mem_pair.mp hx with rfl | rfl
  · exact hf
  · exact hg

theorem spinlockLock_calm (hlocked : locked.delayed) (hspin : spin.delayed) :
    Calm (spinlockLock holder u locked spin).2 := by
  unfold spinlockLock
  split
  · exact calm_single hlocked
  · exact calm_single hspin

/-- A step leaves no call of the immediate path, and `dispatch_list` runs its callbacks
without the lock. -/
theorem advance_calm (hf : f.delayed) : Calm (advance T holder u f).2.2 := by
  cases f with
  | own => exact calm_single trivial
  | callback => exact calm_single trivial
  | addLock => exact spinlockLock_calm hf hf
  | addLocked node time func threadid =>
    have hpos : ¬ time.toInt ≤ 0 := not_le.mpr hf
    rw [advance, if_neg hpos]
    exact calm_nil
  | addUnlock => exact hf.elim
  | updateLock => exact spinlockLock_calm trivial trivial
  | execute again idx =>
    rw [advance]
    split
    · split
      · exact calm_nil
      · exact calm_single trivial
    · exact calm_single trivial
  | dispatch again idx current =>
    cases current with
    | nil => exact calm_single trivial
    | cons temp current =>
      rw [advance]
      split
      · exact calm_pair (f := .callback temp) trivial trivial (by simp [Frame.locked])
      · exact calm_single trivial
  | executeLock => exact spinlockLock_calm trivial trivial

theorem enter_calm {op : Op} {block : TimerNode} (hcode : f.code)
    (hop : ∀ time func threadid, op = .addTimer time func threadid → 0 < time.toInt) :
    Calm ((enter T block op).2 ++ [f]) := by
  have hdelayed : f.delayed := by
    cases f with
    | own => trivial
    | callback => trivial
    | _ => cases hcode
  have hunder := code_not_locked hcode
  cases op with
  | addTimer time func threadid =>
    have htime : 0 < time.toInt := hop time func threadid rfl
    exact calm_pair (f := .addLock T.fresh time func threadid) htime hdelayed hunder
  | timerUpdate => exact calm_pair (f := .updateLock) trivial hdelayed hunder
  | delTimer => exact calm_single hdelayed

theorem Turn.calm {holder' : Option Thread} (h : Turn s u f i holder' new)
    (hallowed : ∀ time, allowed time → 0 < time.toInt) (hi : delays allowed s i)
    (hf : f.delayed) : Calm new := by
  cases h with
  | call hcode =>
    refine enter_calm hcode ?_
    rintro time func threadid rfl
    exact hallowed time hi
  | ret => exact calm_nil
  | run => exact advance_calm hf

theorem Calm.replace (h : Calm (f :: rest)) (hnew : Calm new) : Calm (new ++ rest) := by
  refine ⟨fun g hg => ?_, h.flat.replace hnew.flat⟩
  rcases List.mem_append.mp hg with hg | hg
  · exact hnew.delayed g hg
  · exact h.delayed g (List.mem_cons_of_mem _ hg)

theorem calm_step (h : ∀ u, Calm (s.stack u)) (hallowed : ∀ time, allowed time → 0 < time.toInt)
    (hi : delays allowed s i) (hs : step s i = some s') (v : Thread) : Calm (s'.stack v) := by
  obtain ⟨u, f, new, rest, hstack, hturn, hs'⟩ := step_turn hs
  by_cases hv : v = u
  · subst hv
    have htop : Calm (f :: rest) := hstack ▸ h v
    rw [hs', Function.update_self]
    exact htop.replace (hturn.calm hallowed hi (htop.delayed f List.mem_cons_self))
  · rw [hs', Function.update_of_ne hv]
    exact h v

theorem reach_calm (hallowed : ∀ time, allowed time → 0 < time.toInt)
    (h : calls.Reach (delays allowed) s) (u : Thread) : Calm (s.stack u) := by
  revert u
  refine h.invariant ?_ fun s i s' hcalm hi hs => calm_step hcalm hallowed hi hs
  rintro _ ⟨time, rfl⟩ u
  exact calm_single trivial

theorem spinning_not_locked (hf : f.spinning) : ¬ f.locked := by
  cases f with
  | addLock => simp [Frame.locked]
  | updateLock => simp [Frame.locked]
  | executeLock => simp [Frame.locked]
  | _ => cases hf

theorem safe_of_calm (h : ∀ u, Calm (s.stack u)) (ho : Owned Frame.locked s.holder s.stack) :
    Safe s := by
  constructor
  · intro u node stack hstack
    exact (hstack ▸ (h u).flat).not_holder (by simp [Frame.locked]) ho hstack
  · intro u f stack hstack hspin
    exact (hstack ▸ (h u).flat).not_holder (spinning_not_locked hspin) ho hstack

-- --------------------------------------------------------------------------
-- Spinning on one's own lock
-- --------------------------------------------------------------------------

theorem spinning_not_code (hf : f.spinning) : ¬ f.code := by
  cases f with
  | addLock => simp [Frame.code]
  | updateLock => simp [Frame.code]
  | executeLock => simp [Frame.code]
  | _ => cases hf

theorem advance_spinning (hf : f.spinning) (hholder : holder = some v) :
    (advance T holder u f).2 = (holder, [f]) := by
  subst hholder
  cases f with
  | addLock => rfl
  | updateLock => rfl
  | executeLock => rfl
  | _ => cases hf

theorem spins_step (ho : Owned Frame.locked s.holder s.stack) (hstack : s.stack u = f :: rest)
    (hf : f.spinning) (hholder : s.holder = some u) (hs : step s i = some s') :
    s'.stack u = s.stack u ∧ s'.holder = some u := by
  obtain ⟨v, g, new, rest', hv, hturn, hs'⟩ := step_turn hs
  by_cases huv : u = v
  · subst huv
    obtain ⟨rfl, rfl⟩ := List.cons.inj (hstack.symm.trans hv)
    generalize hholder' : s'.holder = holder' at hturn ⊢
    cases hturn with
    | call hcode => exact absurd hcode (spinning_not_code hf)
    | ret => cases hf
    | run =>
      rw [hs', advance_spinning hf hholder, Function.update_self, hstack]
      exact ⟨rfl, hholder⟩
  · refine ⟨by rw [hs', Function.update_of_ne huv], ?_⟩
    exact ho.holder_of_move hv hturn.move hholder huv

/-- A thread that waits for a lock it holds itself waits forever, whatever the others do. -/
theorem spins_forever {guard : State → Label → Prop} (h : calls.Reach guard s)
    (hstack : s.stack u = f :: rest) (hf : f.spinning) (hholder : s.holder = some u)
    (hrun : Relation.ReflTransGen (fun s s' => ∃ i, step s i = some s') s s') :
    s'.stack u = f :: rest ∧ s'.holder = some u := by
  have hall : Owned Frame.locked s'.holder s'.stack ∧ s'.stack u = f :: rest ∧
      s'.holder = some u := by
    induction hrun with
    | refl => exact ⟨reach_owned h, hstack, hholder⟩
    | tail _ hs ih =>
      obtain ⟨i, hs⟩ := hs
      obtain ⟨ho, hstack, hholder⟩ := ih
      obtain ⟨hstack', hholder'⟩ := spins_step ho hstack hf hholder hs
      exact ⟨owned_step ho hs, hstack'.trans hstack, hholder'⟩
  exact hall.2

-- --------------------------------------------------------------------------
-- The immediate path
-- --------------------------------------------------------------------------

theorem reach_run (h : calls.Reach (delays allowed) s) (hstack : s.stack u = f :: rest) :
    calls.Reach (delays allowed) ⟨(advance s.T s.holder u f).1, (advance s.T s.holder u f).2.1,
      Function.update s.stack u ((advance s.T s.holder u f).2.2 ++ rest)⟩ := by
  have hi : delays allowed s (.run u) := trivial
  refine h.step hi ?_
  simp [calls, step, hstack]

theorem reach_immediate {time : BitVec 32} (func : Handler) (threadid : BitVec 32)
    (htime : time.toInt ≤ 0) (hallowed : allowed time) : ∃ s, calls.Reach (delays allowed) s ∧
      s.stack 0 = [.callback 0, .addUnlock 0, .own] ∧ s.holder = some 0 := by
  have h₀ : calls.Reach (delays allowed) (start 0) := .init ⟨0, rfl⟩
  have hi : delays allowed (start 0) (.call 0 (.addTimer time func threadid) ⟨0, 0, 0, 0⟩) :=
    hallowed
  have h₁ := h₀.step hi rfl
  have h₂ := reach_run h₁ (u := 0)
    (show _ = Frame.addLock 0 time func threadid :: [.own] from rfl)
  have h₃ := reach_run h₂ (u := 0)
    (show _ = Frame.addLocked 0 time func threadid :: [.own] from rfl)
  refine ⟨_, h₃, ?_, ?_⟩
  · simp [htime, advance]
  · simp [htime, advance, start, spinlockLock]

/-- No callback is run under the lock, and no thread spins on a lock it holds itself,
exactly when `add_timer` is called with positive delays only. -/
theorem safe_iff (allowed : BitVec 32 → Prop) :
    (∀ s, calls.Reach (delays allowed) s → Safe s) ↔ ∀ time, allowed time → 0 < time.toInt := by
  constructor
  · intro h time htime
    by_contra hpos
    obtain ⟨s, hs, hstack, hholder⟩ := reach_immediate 0 0 (not_lt.mp hpos) htime
    exact (h s hs).callback 0 _ _ hstack hholder
  · intro h s hs
    exact safe_of_calm (reach_calm h hs) (reach_owned hs)

theorem callback_under_lock : ¬ ∀ s, calls.Reach free s → Safe s := by
  intro h
  have hzero : ∃ s, calls.Reach (delays fun _ => True) s ∧
      s.stack 0 = [.callback 0, .addUnlock 0, .own] ∧ s.holder = some 0 :=
    reach_immediate 0 0 (le_refl (0 : BitVec 32).toInt) trivial
  obtain ⟨s, hs, hstack, hholder⟩ := hzero
  exact (h s (hs.mono fun _ _ _ => trivial)).callback 0 _ _ hstack hholder

end LearningCode.TimeWheel.Locking
