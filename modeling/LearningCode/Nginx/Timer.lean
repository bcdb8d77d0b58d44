import LearningCode.Nginx.Order

/-!
# The timers over the tree of nginx

`rbt-timer.h`. The tree node is the first field of `timer_entry_s`, so that the two
have one address. A script says what the handlers call, one list of calls for each
handler in the order they are run; when it is used up they call nothing.
-/

namespace LearningCode.Nginx

open RedBlack RedBlack.Context
open RbTree (Binding At ptrs)

variable {T T' : NgxRbtree} {p te self sentinel : Ptr} {n : Node} {l l' : List Node} {k now : BitVec 32}
  {t : ColoredTree Binding} {c : TimerCall}
  {calls : List TimerCall} {script : List (List TimerCall)}
  {fired : List Ptr}

/-- A call with what it is answered: `te` by `malloc`, `now` by `current_time`. -/
inductive TimerCall
  | add (te : Ptr) (msec now : BitVec 32)
  | del (te : Ptr)
deriving DecidableEq

/-- `add_timer`, with the entry set to zero before its key is written. -/
def addTimer (turns : Nat) (T : NgxRbtree) (te : Ptr) (msec now : BitVec 32) : Option NgxRbtree :=
  ngxRbtreeInsert turns (T.modify te fun _ => ⟨msec + now, NULL, NULL, NULL, .black⟩) te

/-- `del_timer`, up to the `free`. -/
def delTimer (turns : Nat) (T : NgxRbtree) (te : Ptr) : Option NgxRbtree :=
  ngxRbtreeDelete turns T te

def findNearestExpireTimer (turns : Nat) (T : NgxRbtree) (now : BitVec 32) : Option Int :=
  if T.root = T.sentinel then some (-1)
  else do
    let node ← ngxRbtreeMin T turns T.root
    let diff := ((T.mem node).key - now).toInt
    some (if diff > 0 then diff else 0)

def runCall (turns : Nat) (T : NgxRbtree) : TimerCall → Option NgxRbtree
  | .add te msec now => addTimer turns T te msec now
  | .del te => delTimer turns T te

def runHandler (turns : Nat) (T : NgxRbtree) : List TimerCall → Option NgxRbtree
  | [] => some T
  | c :: calls => do
    let T ← runCall turns T c
    runHandler turns T calls

/-- A timer of `expire_timer`: its handler, which calls `calls`, and its deletion. -/
def touchTimer (turns : Nat) (T : NgxRbtree) (node : Ptr) (calls : List TimerCall) :
    Option NgxRbtree := do
  let T ← runHandler turns T calls
  ngxRbtreeDelete turns T node

def expireTimer : (turns : Nat) → NgxRbtree → (now : BitVec 32) → (script : List (List TimerCall)) →
    Option (NgxRbtree × List Ptr)
  | 0, _, _, _ => none
  | turns + 1, T, now, script =>
    if T.root = T.sentinel then some (T, [])
    else do
      let node ← ngxRbtreeMin T turns T.root
      if (T.mem node).key > now then some (T, [])
      else do
        let T ← touchTimer turns T node (script.headD [])
        let (T, fired) ← expireTimer turns T now script.tail
        some (T, node :: fired)

-- ---------------------------------------------------------------------------
-- The timers as a list
-- ---------------------------------------------------------------------------

def place (n : Node) : List Node → List Node
  | [] => [n]
  | a :: l => if timerLess n.key a.key then n :: a :: l else a :: place n l

def TimerCall.on (l : List Node) : TimerCall → List Node
  | .add te msec now => place ⟨te, msec + now⟩ l
  | .del te => l.filter (·.ptr ≠ te)

/-- The keys lie within half a turn of the clock. -/
def HalfTurn (ks : List (BitVec 32)) : Prop := ∃ base, ∀ k ∈ ks, (k - base).toNat < 2 ^ 31

/-- The pending timers being `l`, what the program may call, and also the handler of `self`. -/
def LegalCall (sentinel : Ptr) (self : Option Ptr) (l : List Node) : TimerCall → Prop
  | .add te msec now => te ≠ sentinel ∧ te ≠ NULL ∧ te ∉ l.map Node.ptr ∧
      HalfTurn ((msec + now) :: l.map Node.key)
  | .del te => te ∈ l.map Node.ptr ∧ self ≠ some te

def LegalCalls (sentinel self : Ptr) : List Node → List TimerCall → Prop
  | _, [] => True
  | l, c :: calls => LegalCall sentinel (some self) l c ∧ LegalCalls sentinel self (c.on l) calls

def handled (l : List Node) (calls : List TimerCall) : List Node := calls.foldl TimerCall.on l

/-- `expire_timer` on the list: the first timer, as long as it is due, has its handler
run and is taken out. -/
inductive Expires (sentinel : Ptr) (now : BitVec 32) :
    List Node → List (List TimerCall) → List Node → List Ptr → Prop
  | done (l : List Node) (script : List (List TimerCall)) (h : ∀ n ∈ l.head?, now < n.key) :
    Expires sentinel now l script l []
  | fire (n : Node) (l l' : List Node) (script : List (List TimerCall)) (fired : List Ptr)
    (hdue : n.key ≤ now) (hlegal : LegalCalls sentinel n.ptr (n :: l) (script.headD []))
    (hrest : Expires sentinel now
      ((handled (n :: l) (script.headD [])).filter (·.ptr ≠ n.ptr)) script.tail l' fired) :
    Expires sentinel now (n :: l) script l' (n.ptr :: fired)

-- ---------------------------------------------------------------------------
-- One call
-- ---------------------------------------------------------------------------

structure Timers (sentinel : Ptr) (T : NgxRbtree) (l : List Node) : Prop where
  sentinel : T.sentinel = sentinel
  kept : ∃ t, Kept timerLess T t ∧ l = t.inorder.map nodeOf
  inOrder : InOrder timerLess l

theorem Timers.linked_iff (h : Timers sentinel T l) : Linked T p ↔ p ∈ l.map Node.ptr := by
  obtain ⟨-, ⟨t, ht, rfl⟩, -⟩ := h
  rw [Nginx.linked_iff ht.tree.stored, List.map_map]
  rfl

theorem Timers.key (h : Timers sentinel T l) (hn : n ∈ l) : (T.mem n.ptr).key = n.key := by
  obtain ⟨-, ⟨t, ht, rfl⟩, -⟩ := h
  obtain ⟨b, hb, rfl⟩ := List.mem_map.mp hn
  exact keyOf_mem ht.tree.stored hb

theorem Timers.nodup (h : Timers sentinel T l) : (l.map Node.ptr).Nodup := by
  obtain ⟨-, ⟨t, ht, rfl⟩, -⟩ := h
  rw [List.map_map]
  exact ht.tree.stored.nodup

theorem Timers.call (op : Op) (h : Timers sentinel T l) (hl : Legal T op)
    (hcmp : Comparable timerLess T op) :
    ∃ T' l', Call T op T' ∧ Timers sentinel T' l' ∧ Changed timerLess T op l l' := by
  obtain ⟨hsent, ⟨t, ht, rfl⟩, ho⟩ := h
  obtain ⟨T', t', hcall, hsent', ht', heff⟩ := ht.call hl
  obtain ⟨hchanged, ho'⟩ := ht.changed ho hcmp heff
  exact ⟨T', _, hcall, ⟨hsent'.trans hsent, ⟨t', ht', rfl⟩, ho'⟩, hchanged⟩

theorem place_eq {pre suf : List Node} (hpre : ∀ a ∈ pre, timerLess n.key a.key = false)
    (hsuf : ∀ a ∈ suf, timerLess n.key a.key = true) : place n (pre ++ suf) = pre ++ n :: suf := by
  induction pre with
  | nil =>
    cases suf with
    | nil => rfl
    | cons a suf => exact if_pos (hsuf a List.mem_cons_self)
  | cons a pre ih =>
    rw [List.cons_append, place, hpre a List.mem_cons_self,
      ih fun b hb => hpre b (List.mem_cons_of_mem _ hb)]
    rfl

theorem filter_erase {pre suf : List Node} (hnodup : ((pre ++ n :: suf).map Node.ptr).Nodup) :
    (pre ++ n :: suf).filter (·.ptr ≠ n.ptr) = pre ++ suf := by
  rw [List.map_append, List.map_cons, List.nodup_append, List.nodup_cons] at hnodup
  obtain ⟨-, ⟨hsuf, -⟩, hpre⟩ := hnodup
  have hkeep : ∀ a ∈ pre ++ suf, decide (a.ptr ≠ n.ptr) = true := by
    intro a ha
    rw [decide_eq_true_iff]
    obtain ha | ha := List.mem_append.mp ha
    · exact hpre _ (List.mem_map_of_mem ha) _ List.mem_cons_self
    · rintro heq
      exact hsuf (heq ▸ List.mem_map_of_mem ha)
  rw [List.filter_append, List.filter_cons_of_neg (by simp), ← List.filter_append]
  exact List.filter_eq_self.mpr hkeep

theorem Timers.add {self : Option Ptr} (h : Timers sentinel T l)
    (hl : LegalCall sentinel self l (.add te k now)) :
    ∃ T', Returns (addTimer · T te k now) T' ∧ Timers sentinel T' (place ⟨te, k + now⟩ l) := by
  obtain ⟨hsent, hnull, hnew, base, hbase⟩ := hl
  have hout : ¬Linked T te := mt h.linked_iff.mp hnew
  obtain ⟨T₁, l₁, hwrite, h₁, hl₁⟩ :=
    h.call (.write te ⟨k + now, NULL, NULL, NULL, .black⟩)
      ⟨h.sentinel.symm ▸ hsent, hout⟩ trivial
  obtain rfl : l₁ = l := hl₁
  have hwrite : T₁ = T.modify te fun _ => ⟨k + now, NULL, NULL, NULL, .black⟩ := hwrite
  have hkey : (T₁.mem te).key = k + now := by rw [hwrite, NgxRbtree.modify_self]
  have hcmp : Comparable timerLess T₁ (.insert te) := by
    refine timerLess_comparable base fun p hp => ?_
    obtain hp | rfl := hp
    · obtain ⟨a, ha, rfl⟩ := List.mem_map.mp (h₁.linked_iff.mp hp)
      rw [h₁.key ha]
      exact hbase _ (List.mem_cons_of_mem _ (List.mem_map_of_mem ha))
    · rw [hkey]
      exact hbase _ List.mem_cons_self
  have hlegal : Legal T₁ (.insert te) :=
    ⟨h₁.sentinel.symm ▸ hsent, hnull, mt h₁.linked_iff.mp hnew⟩
  obtain ⟨T', l', hcall, ht', pre, suf, rfl, rfl, hpre, hsuf⟩ := h₁.call (.insert te) hlegal hcmp
  rw [hkey] at hpre hsuf ht'
  refine ⟨T', ?_, by rwa [place_eq (n := ⟨te, k + now⟩) hpre hsuf]⟩
  have hcall : Returns (ngxRbtreeInsert · T₁ te) T' := hcall
  rw [hwrite] at hcall
  exact hcall

theorem Timers.del (h : Timers sentinel T l) (hte : te ∈ l.map Node.ptr) :
    ∃ T', Returns (ngxRbtreeDelete · T te) T' ∧ Timers sentinel T' (l.filter (·.ptr ≠ te)) := by
  obtain ⟨T', l', hcall, ht', pre, suf, a, rfl, rfl, rfl⟩ :=
    h.call (.delete te) (h.linked_iff.mpr hte) trivial
  refine ⟨T', hcall, ?_⟩
  rw [filter_erase h.nodup]
  exact ht'

theorem Timers.runCall {self : Option Ptr} (h : Timers sentinel T l)
    (hl : LegalCall sentinel self l c) : ∃ T', Returns (runCall · T c) T' ∧ Timers sentinel T' (c.on l) := by
  cases c with
  | add te msec now => exact h.add hl
  | del te => exact h.del hl.1

theorem self_mem_on (hl : LegalCall sentinel (some self) l c) (hself : self ∈ l.map Node.ptr) :
    self ∈ (c.on l).map Node.ptr := by
  obtain ⟨n, hn, rfl⟩ := List.mem_map.mp hself
  cases c with
  | add te msec now =>
    refine List.mem_map_of_mem ?_
    clear hl hself
    rw [TimerCall.on]
    induction l with
    | nil => cases hn
    | cons a l ih =>
      rw [place]
      split
      · exact List.mem_cons_of_mem _ hn
      · obtain rfl | hn := List.mem_cons.mp hn
        · exact List.mem_cons_self
        · exact List.mem_cons_of_mem _ (ih hn)
  | del te => exact List.mem_map_of_mem (List.mem_filter.mpr ⟨hn, by simpa using hl.2⟩)

theorem Timers.runHandler (h : Timers sentinel T l) (hl : LegalCalls sentinel self l calls)
    (hself : self ∈ l.map Node.ptr) :
    ∃ T', Returns (runHandler · T calls) T' ∧ Timers sentinel T' (handled l calls) ∧
      self ∈ (handled l calls).map Node.ptr := by
  induction calls generalizing T l with
  | nil => exact ⟨T, .const fun turns => rfl, h, hself⟩
  | cons c calls ih =>
    obtain ⟨T₁, hret, h₁⟩ := h.runCall hl.1
    obtain ⟨T₂, hret₂, h₂⟩ := ih h₁ hl.2 (self_mem_on hl.1 hself)
    exact ⟨T₂, hret.bind (k := fun turns T => Nginx.runHandler turns T calls) hret₂, h₂⟩

-- ---------------------------------------------------------------------------
-- Expiry
-- ---------------------------------------------------------------------------

theorem Timers.root_iff (h : Timers sentinel T l) : T.root = T.sentinel ↔ l = [] := by
  obtain ⟨-, ⟨t, ht, rfl⟩, -⟩ := h
  have hroot : T.root = RbTree.top T.sentinel t := ht.tree.stored.root_eq
  rw [hroot, List.map_eq_nil_iff]
  refine (RbTree.top_eq_nil_iff ht.tree.stored.here).trans ?_
  cases t with
  | leaf => exact ⟨fun _ => rfl, fun _ => rfl⟩
  | node c b l r => simp [ColoredTree.inorder]

theorem Timers.min (h : Timers sentinel T (n :: l)) : Returns (ngxRbtreeMin T · T.root) n.ptr := by
  obtain ⟨-, ⟨t, ht, hl⟩, -⟩ := h
  have henum := enumerates_of_at ht.tree.stored
  rw [← hl] at henum
  exact henum.min (List.cons_ne_nil _ _)

theorem Timers.touch (h : Timers sentinel T (n :: l))
    (hl : LegalCalls sentinel n.ptr (n :: l) calls) :
    ∃ T', Returns (touchTimer · T n.ptr calls) T' ∧
      Timers sentinel T' ((handled (n :: l) calls).filter (·.ptr ≠ n.ptr)) := by
  obtain ⟨T₁, hhandler, h₁, hself⟩ := h.runHandler hl List.mem_cons_self
  obtain ⟨T₂, hdelete, h₂⟩ := h₁.del hself
  exact ⟨T₂, hhandler.bind (k := fun turns T => ngxRbtreeDelete turns T n.ptr) hdelete, h₂⟩

/-- The tree does what the list does. -/
theorem Timers.expireTimer (h : Timers sentinel T l) (he : Expires sentinel now l script l' fired) :
    ∃ T', Returns (expireTimer · T now script) (T', fired) ∧ Timers sentinel T' l' := by
  induction he generalizing T with
  | done l script hlate =>
    refine ⟨T, ?_, h⟩
    cases l with
    | nil =>
      refine .last fun turns => ?_
      rw [Nginx.expireTimer, if_pos (h.root_iff.mpr rfl)]
    | cons n l =>
      have hlt : (T.mem n.ptr).key > now := by
        rw [h.key List.mem_cons_self]
        exact hlate n rfl
      refine (h.min.bind (k := fun turns node => if (T.mem node).key > now then some (T, [])
        else touchTimer turns T node (script.headD []) >>= fun T =>
          Nginx.expireTimer turns T now script.tail >>= fun r => some (r.1, node :: r.2))
        (.const fun turns => if_pos hlt)).turn fun turns => ?_
      rw [Nginx.expireTimer, if_neg (mt h.root_iff.mp (List.cons_ne_nil _ _))]
  | fire n l l' script fired hdue hlegal hrest ih =>
    have hle : ¬(T.mem n.ptr).key > now := by
      rw [h.key List.mem_cons_self]
      exact BitVec.not_lt.mpr hdue
    obtain ⟨T₁, htouch, h₁⟩ := h.touch hlegal
    obtain ⟨T', hrun, h'⟩ := ih h₁
    have hturn := htouch.bind (k := fun turns T => Nginx.expireTimer turns T now script.tail >>=
      fun r => some (r.1, n.ptr :: r.2)) (hrun.bind (k := fun _ r => some (r.1, n.ptr :: r.2))
        (.const fun turns => rfl))
    refine ⟨T', (h.min.bind (k := fun turns node => if (T.mem node).key > now then some (T, [])
      else touchTimer turns T node (script.headD []) >>= fun T =>
        Nginx.expireTimer turns T now script.tail >>= fun r => some (r.1, node :: r.2))
      (hturn.congr fun turns => if_neg hle)).turn fun turns => ?_, h'⟩
    rw [Nginx.expireTimer, if_neg (mt h.root_iff.mp (List.cons_ne_nil _ _))]

def nearest (now : BitVec 32) : List Node → Int
  | [] => -1
  | n :: _ => max 0 (n.key - now).toInt

theorem Timers.nearest (h : Timers sentinel T l) (now : BitVec 32) :
    Returns (findNearestExpireTimer · T now) (nearest now l) := by
  cases l with
  | nil => exact .const fun turns => if_pos (h.root_iff.mpr rfl)
  | cons n l =>
    have hkey := h.key (List.mem_cons_self (a := n))
    refine (h.min.bind (k := fun _ node => some (if ((T.mem node).key - now).toInt > 0 then
      ((T.mem node).key - now).toInt else 0)) (c := Nginx.nearest now (n :: l)) ?_).congr
        fun turns => ?_
    · refine .const fun turns => ?_
      rw [hkey, Nginx.nearest]
      congr 1
      split <;> omega
    · rw [findNearestExpireTimer, if_neg (mt h.root_iff.mp (List.cons_ne_nil _ _))]

-- ---------------------------------------------------------------------------
-- Whole runs
-- ---------------------------------------------------------------------------

inductive TimerOp
  | call (c : TimerCall)
  | expire (now : BitVec 32) (script : List (List TimerCall))

def initTimer (mem : Mem) (sentinel : Ptr) : NgxRbtree :=
  ngxRbtreeInit mem sentinel ngxRbtreeInsertTimerValue

def timers (mem : Mem) (sentinel : Ptr) : Transition NgxRbtree (TimerOp × List Ptr) where
  init T := T = initTimer mem sentinel
  step T o T' := match o with
    | (.call c, fired) => Returns (runCall · T c) T' ∧ fired = []
    | (.expire now script, fired) => Returns (expireTimer · T now script) (T', fired)

def listTimers (sentinel : Ptr) : Transition (List Node) (TimerOp × List Ptr) where
  init l := l = []
  step l o l' := match o with
    | (.call c, fired) => LegalCall sentinel none l c ∧ l' = c.on l ∧ fired = []
    | (.expire now script, fired) => Expires sentinel now l script l' fired

theorem init_timers (mem : Mem) (sentinel : Ptr) : Timers sentinel (initTimer mem sentinel) [] :=
  ⟨rfl, ⟨.leaf, init_kept ⟨mem, sentinel, rfl⟩, rfl⟩, List.Pairwise.nil⟩

theorem Timers.step {o : TimerOp × List Ptr} (mem : Mem) (h : Timers sentinel T l)
    (hstep : (listTimers sentinel).step l o l') :
    ∃ T', (timers mem sentinel).step T o T' ∧ Timers sentinel T' l' := by
  obtain ⟨op, fired⟩ := o
  cases op with
  | call c =>
    obtain ⟨hlegal, rfl, rfl⟩ := hstep
    obtain ⟨T', hret, h'⟩ := h.runCall hlegal
    exact ⟨T', ⟨hret, rfl⟩, h'⟩
  | expire now script => exact h.expireTimer hstep

theorem Timers.path {ops : List (TimerOp × List Ptr)} (mem : Mem) (h : Timers sentinel T l)
    (hpath : (listTimers sentinel).Path l ops l') :
    ∃ T', (timers mem sentinel).Path T ops T' ∧ Timers sentinel T' l' := by
  induction hpath generalizing T with
  | nil l => exact ⟨T, .nil T, h⟩
  | cons hstep _ ih =>
    obtain ⟨T₁, hstep₁, h₁⟩ := h.step mem hstep
    obtain ⟨T', hpath', h'⟩ := ih h₁
    exact ⟨T', .cons hstep₁ hpath', h'⟩

/-- Whatever the sorted list of the pending timers goes through, the tree goes through,
with the same timers fired and the same answer when the nearest is asked for. -/
theorem timers_path {ops : List (TimerOp × List Ptr)} (mem : Mem)
    (h : (listTimers sentinel).Path [] ops l) :
    ∃ T, (timers mem sentinel).Path (initTimer mem sentinel) ops T ∧ Holds T l ∧
      InOrder timerLess l ∧ ∀ now, Returns (findNearestExpireTimer · T now) (nearest now l) := by
  obtain ⟨T, hpath, ht⟩ := (init_timers mem sentinel).path mem h
  obtain ⟨t, hkept, hl⟩ := ht.kept
  exact ⟨T, hpath, hl ▸ hkept.holds, ht.inOrder, ht.nearest⟩

/-- Two timers are added; the handler of the earlier one adds a third, which is due at once,
and cancels the other. -/
theorem path_reentrant : (listTimers 100).Path []
    [(.call (.add 1 5 10), []), (.call (.add 2 3 10), []),
      (.expire 14 [[.add 3 0 14, .del 1]], [2, 3])] [] := by
  refine .cons (t := [⟨1, 15⟩]) ⟨⟨by decide, by decide, by decide, 0, by simp⟩, rfl, rfl⟩
    (.cons (t := [⟨2, 13⟩, ⟨1, 15⟩]) ⟨⟨by decide, by decide, by decide, 0, by simp⟩, rfl, rfl⟩
    (.cons (t := []) ?_ (.nil [])))
  refine .fire ⟨2, 13⟩ [⟨1, 15⟩] [] [[.add 3 0 14, .del 1]] [3] (by decide) ?_ ?_
  · exact ⟨⟨by decide, by decide, by decide, 0, by simp⟩, ⟨by decide, by decide⟩, trivial⟩
  · exact .fire ⟨3, 14⟩ [] [] [] [] (by decide) trivial (.done [] [] (by simp))

theorem timers_path_reentrant : ∃ T, (timers (fun _ => ⟨0, 0, 0, 0, .black⟩) 100).Path
    (initTimer (fun _ => ⟨0, 0, 0, 0, .black⟩) 100)
    [(.call (.add 1 5 10), []), (.call (.add 2 3 10), []),
      (.expire 14 [[.add 3 0 14, .del 1]], [2, 3])] T ∧ Holds T [] := by
  obtain ⟨T, hpath, hholds, -⟩ := timers_path (fun _ => ⟨0, 0, 0, 0, .black⟩) path_reentrant
  exact ⟨T, hpath, hholds⟩

end LearningCode.Nginx
