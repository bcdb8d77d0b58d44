import LearningCode.SimpleQueue.Steps

/-!
# What the linked queue delivers

While no thread takes from the free list a node that still holds another
thread's item, every item is delivered once. Nothing in the code keeps threads
from doing so: a consumed node is unlinked and freed by whoever comes next,
whether or not its consumer has moved the item out.
-/

namespace LearningCode.SimpleQueue

open Links Threads Transition

variable {α : Type} {g g' : Ghost α} {s s' : Queue α} {pc k m : Pc α} {a b i : Idx} {x : Item α}
  {o : Option Idx} {r : Option (Option (Item α))}

-- ---------------------------------------------------------------------------
-- The annotation of a control state that a step leads to
-- ---------------------------------------------------------------------------

theorem Here.idle : Here g s (.idle : Pc α) := by constructor <;> simp [Pc.held]

theorem Here.enqueueReturn : Here g s (.enqueueReturn : Pc α) := by constructor <;> simp [Pc.held]

theorem Here.dequeueReturn : Here g s (.dequeueReturn r) := by constructor <;> simp [Pc.held]

theorem Here.loadHead : Here g s (.loadHead : Pc α) := by constructor <;> simp [Pc.held]

theorem Here.afterFree : Here g s (afterFree r) := by
  cases r with
  | none => exact Here.loadHead
  | some r => exact Here.dequeueReturn

theorem Here.tryGetLoad (hx : x.call < s.calls ∧ x ∉ s.enqueued) (hnew : ∀ n, s.item n ≠ some x) :
    Here g s (.tryGetLoad x) := by
  constructor <;> simp [Pc.held, hx, hnew]

theorem Here.tryGet (hs : Shared g s) (hx : x.call < s.calls ∧ x ∉ s.enqueued)
    (hnew : ∀ n, s.item n ≠ some x) : Here g s (tryGet x s.freeListHead) := by
  cases hhead : s.freeListHead with
  | none => constructor <;> simp [SimpleQueue.tryGet, Pc.held, hx, hnew]
  | some a =>
    have hin : a ∈ g.free := hs.free_cons hhead ▸ List.mem_cons_self
    have hlt := hs.allocated a (List.mem_append_right _ hin)
    constructor <;> simp [SimpleQueue.tryGet, Pc.held, hx, hnew, hin, hlt]

theorem Here.clearNext (hx : x.call < s.calls ∧ x ∉ s.enqueued) (hnew : ∀ n, s.item n ≠ some x)
    (hi : Loose g s i.node) (hversion : i.version = g.version i.node) (hpast : i ∉ g.past) :
    Here g s (.clearNext x i) := by
  constructor <;> simp [Pc.held, hx, hnew, hi, hversion, hpast]

theorem Here.construct_of_clearNext (h : Here g s (.clearNext x i)) (hnext : s'.next i.node = none)
    (hsame : s' = { s with next := s'.next }) : Here g s' (.construct x i) := by
  have hx := h.pending x rfl
  have hnew := h.unborn x rfl
  have hi := h.held i rfl
  have hpast := h.made i rfl
  rw [hsame] at *
  constructor <;> simp_all [Pc.held, Loose]

theorem Here.loadTail_of_construct (h : Here g s (.construct x i))
    (hitem : s'.item i.node = some x) (hsame : s' = { s with item := s'.item }) :
    Here g s' (.loadTail x i) := by
  have hx := h.pending x rfl
  have hi := h.held i rfl
  have hpast := h.made i rfl
  have hcleared := h.cleared i rfl
  rw [hsame] at *
  constructor <;> simp_all [Pc.held, Loose]

theorem Here.casTail (hx : x.call < s.calls ∧ x ∉ s.enqueued)
    (hi : Loose g s i.node ∧ i.version = g.version i.node) (hpast : i ∉ g.past)
    (hnext : s.next i.node = none) (hitem : s.item i.node = some x) : Here g s (.casTail x i a) := by
  constructor <;> simp [Pc.held, hx, hi, hpast, hnext, hitem]

theorem Here.storeNext (h : s.next a.node = none ∧ ∃ l l', g.line = l ++ a :: b :: l') :
    Here g s (.storeNext a b : Pc α) := by
  constructor <;> simp [Pc.held]
  exact h

theorem Here.tryGetCas (h : Here g s (.tryGetNext x a)) :
    Here g s (.tryGetCas x a (s.next a.node)) := by
  have hx := h.pending x rfl
  have hnew := h.unborn x rfl
  have hknown := h.popping a rfl
  constructor <;> simp [Pc.held, hx, hnew, hknown]

theorem Here.loadNext : Here g s (.loadNext s.head s.consumed : Pc α) := by
  constructor <;> simp [Pc.held]

theorem Here.consume_of_loadNext {c : Bool} (h : Here g s (.loadNext a c)) :
    Here g s (.consume a) := by
  have hseen := h.seen a rfl
  constructor <;> simp [Pc.held, hseen]

theorem Here.moveHead {c : Bool} (h : Here g s (.loadNext a c)) (hnext : s.next a.node = some b) :
    Here g s (.moveHead a c b) := by
  have hseen := h.seen a rfl
  constructor <;> simp [Pc.held, hseen]
  intro _
  exact hnext

theorem Here.moveConsumed (h : a.node < s.nextNodeIdx ∧
    ∃ y ∈ g.taken, s.item a.node = some y ∧ some y ∉ s.returned) : Here g s (.moveConsumed a) := by
  constructor <;> simp [Pc.held]
  exact h

theorem Here.moveRemoved (h : a.node < s.nextNodeIdx ∧
    ∃ y ∈ g.taken, s.item a.node = some y ∧ some y ∉ s.returned)
    (ha : Loose g s a.node ∧ a.version = g.version a.node) : Here g s (.moveRemoved a) := by
  constructor <;> simp [Pc.held, ha]
  exact h

theorem Here.loadFree (ha : Loose g s a.node ∧ a.version = g.version a.node) :
    Here g s (.loadFree a r) := by
  constructor <;> simp [Pc.held, ha]

theorem Here.storeFree (ha : Loose g s a.node ∧ a.version = g.version a.node) :
    Here g s (.storeFree a r o) := by
  constructor <;> simp [Pc.held, ha]

theorem Here.casFree (ha : Loose g s a.node ∧ a.version = g.version a.node)
    (hnext : s.next a.node = o) : Here g s (.casFree a r o) := by
  constructor <;> simp [Pc.held, ha, hnext]

-- ---------------------------------------------------------------------------
-- Two threads
-- ---------------------------------------------------------------------------

structure Within (k k' : Pc α) : Prop where
  pending : ∀ x, k'.pending = some x → k.pending = some x
  held : ∀ a, k'.held = some a → k.held = some a
  linking : ∀ a, k'.linking = some a → k.linking = some a
  moving : ∀ a, k'.moving = some a → k.moving = some a
  made : ∀ a, k'.made = some a → k.made = some a

theorem Apart.within {k' : Pc α} (h : Apart k m) (hk : Within k k') : Apart k' m :=
  ⟨fun x hx => h.pending x (hk.pending x hx), fun a b ha => h.held a b (hk.held a ha),
    fun a b c d ha => h.linking a b c d (hk.linking _ ha),
    fun a b ha => h.moving a b (hk.moving a ha),
    fun a b ha => h.made_moving a b (hk.made a ha),
    fun a b ha => h.moving_made a b (hk.moving a ha)⟩

theorem still {k' : Pc α} (hk : Within k k') (hm : Here g s m) (h : Apart k m) :
    Here g s m ∧ Apart k' m := ⟨hm, h.within hk⟩

theorem Within.tryGet (hk : k.pending = some x) : Within k (tryGet x o) := by
  cases o <;> refine ⟨?_, nofun, nofun, nofun, nofun⟩ <;> rintro y ⟨⟩ <;> exact hk

theorem Within.afterFree : Within k (afterFree r) := by
  cases r <;> exact ⟨nofun, nofun, nofun, nofun, nofun⟩

theorem Apart.call (hm : Here g s m) (hx : x.call = s.calls) : Apart (.tryGetLoad x) m := by
  refine ⟨?_, nofun, nofun, nofun, nofun, nofun⟩
  rintro y ⟨⟩ hpending
  exact Nat.ne_of_lt (hm.pending x hpending).1 hx

-- ---------------------------------------------------------------------------
-- The steps of a call
-- ---------------------------------------------------------------------------

def Ghost.initial (α : Type) : Ghost α := ⟨[], [⟨1, 0⟩], [], fun _ => 0, []⟩

theorem Shared.initial : Shared (Ghost.initial α) (initial α) := by
  constructor <;> simp [Ghost.initial, SimpleQueue.initial, Queued, Stacked, unread]

def Keeps (g : Ghost α) (s : Queue α) (k : Pc α) (action : Action α) (s' : Queue α) (k' : Pc α) :
    Prop :=
  ∃ g', Shared g' s' ∧ Here g' s' k' ∧
    ∀ m, Here g s m → Apart k m → Spares s k action m → Here g' s' m ∧ Apart k' m

variable {spurious : Bool} {action : Action α}

theorem Keeps.still {k' : Pc α} (hs : Shared g s) (hk : Here g s k') (hin : Within k k') :
    Keeps g s k action s k' :=
  ⟨g, hs, hk, fun _ hm hapart _ => SimpleQueue.still hin hm hapart⟩

theorem keeps_tryGetCas {head : Idx} (hs : Shared g s) (h : Here g s (.tryGetCas x head o))
    (hrun : run s spurious (.tryGetCas x head o) = (s', k)) :
    Keeps g s (.tryGetCas x head o) (.run spurious) s' k := by
  have hx := h.pending x rfl
  have hnew := h.unborn x rfl
  simp only [run] at hrun
  split at hrun
  · next htest =>
    obtain ⟨rfl, hhead⟩ := htest
    cases hrun
    have hin : head ∈ g.free := hs.free_cons hhead ▸ List.mem_cons_self
    cases h.popped head o rfl hin
    obtain ⟨hloose, hversion, hpast⟩ := hs.loose_pop hhead
    refine ⟨g.pop head.node, hs.pop hhead, .clearNext hx hnew hloose hversion hpast, ?_⟩
    intro m hm hapart hspares
    refine ⟨hm.pop hs hhead, hapart.pending, ?_, nofun, nofun, ?_, nofun⟩
    · rintro a b ⟨⟩ hb
      have hne : head.node ≠ b.node := (hm.held b hb).1.not_free hin
      exact hne
    · rintro a b ⟨⟩ hb
      exact (hspares x head _ rfl rfl hhead b hb).symm
  · cases hrun
    exact .still hs (.tryGet hs hx hnew) (.tryGet rfl)

theorem keeps_newNodeAddress (hs : Shared g s) (h : Here g s (.newNodeAddress x)) :
    Keeps g s (.newNodeAddress x) action { s with nextNodeIdx := s.nextNodeIdx + 1 }
      (.clearNext x ⟨s.nextNodeIdx, 0⟩) := by
  obtain ⟨hloose, hversion, hpast⟩ := hs.loose_newNode
  refine ⟨g, hs.newNode, .clearNext (h.pending x rfl) (h.unborn x rfl) hloose hversion.symm
    (hpast 0), ?_⟩
  intro m hm hapart _
  refine ⟨hm.newNode, hapart.pending, ?_, nofun, nofun, ?_, nofun⟩
  · rintro a b ⟨⟩ hb
    exact (Nat.ne_of_lt (hm.held b hb).1.1).symm
  · rintro a b ⟨⟩ hb
    exact (Nat.ne_of_lt (hm.moving b hb).1).symm

theorem keeps_clearNext (hs : Shared g s) (h : Here g s (.clearNext x i)) :
    Keeps g s (.clearNext x i) action { s with next := Function.update s.next i.node none }
      (.construct x i) := by
  have hi := h.held i rfl
  refine ⟨g, hs.setNext hi.1 none, h.construct_of_clearNext (by simp) rfl, ?_⟩
  intro m hm hapart _
  refine ⟨hm.setNext hs hi.1 none fun a ha => (hapart.held i a rfl ha).symm, hapart.within ?_⟩
  exact ⟨fun _ h => h, fun _ h => h, nofun, nofun, fun _ h => h⟩

theorem keeps_construct (hs : Shared g s) (h : Here g s (.construct x i)) :
    Keeps g s (.construct x i) action { s with item := Function.update s.item i.node (some x) }
      (.loadTail x i) := by
  have hi := h.held i rfl
  refine ⟨g, hs.construct hi.1 (h.pending x rfl).1 (h.unborn x rfl),
    h.loadTail_of_construct (by simp) rfl, ?_⟩
  intro m hm hapart _
  refine ⟨hm.construct (hapart.pending x rfl) (fun a ha => (hapart.held i a rfl ha).symm)
    fun a ha => (hapart.made_moving i a rfl ha).symm, hapart.within ?_⟩
  exact ⟨fun _ h => h, fun _ h => h, nofun, nofun, fun _ h => h⟩

theorem keeps_loadTail (hs : Shared g s) (h : Here g s (.loadTail x i)) :
    Keeps g s (.loadTail x i) action s (.casTail x i a) := by
  refine .still hs (.casTail (h.pending x rfl) (h.held i rfl) (h.made i rfl) (h.cleared i rfl)
    (h.filled i x rfl)) ?_
  exact ⟨fun _ h => h, fun _ h => h, nofun, nofun, fun _ h => h⟩

theorem keeps_casTail (hs : Shared g s) (h : Here g s (.casTail x i a))
    (hrun : run s spurious (.casTail x i a) = (s', k)) : Keeps g s (.casTail x i a) action s' k := by
  have hi := h.held i rfl
  have hx := h.pending x rfl
  simp only [run] at hrun
  split at hrun
  · next htest =>
    obtain ⟨-, rfl⟩ := htest
    cases hrun
    refine ⟨g.append i, hs.append hi.1 hi.2 (h.made i rfl) (h.cleared i rfl) (h.filled i x rfl)
      hx.1 hx.2, .storeNext hs.linking_tail, ?_⟩
    intro m hm hapart _
    refine ⟨hm.append hi.1 (hapart.pending x rfl) fun a ha => (hapart.held i a rfl ha).symm,
      nofun, nofun, ?_, nofun, nofun, nofun⟩
    rintro a b c d ⟨⟩ hc
    exact (hm.linking_ne_tail hs hc).symm
  · cases hrun
    refine .still hs (.casTail hx hi (h.made i rfl) (h.cleared i rfl) (h.filled i x rfl)) ?_
    exact ⟨fun _ h => h, fun _ h => h, nofun, nofun, fun _ h => h⟩

theorem keeps_storeNext (hs : Shared g s) (h : Here g s (.storeNext a b)) :
    Keeps g s (.storeNext a b) action { s with next := Function.update s.next a.node (some b) }
      .enqueueReturn := by
  obtain ⟨hnone, l, l', hline⟩ := h.linking a b rfl
  refine ⟨g, hs.link hline, .enqueueReturn, ?_⟩
  intro m hm hapart _
  refine ⟨hm.link hs hnone (by simp [hline]) fun c d hc => (hapart.linking a b c d rfl hc).symm,
    hapart.within ?_⟩
  exact ⟨nofun, nofun, nofun, nofun, nofun⟩

theorem keeps_loadNext {c : Bool} (hs : Shared g s) (h : Here g s (.loadNext a c))
    (hrun : run s spurious (.loadNext a c) = (s', k)) : Keeps g s (.loadNext a c) action s' k := by
  have hin : ∀ k : Pc α, k.pending = none → k.held = none → k.linking = none → k.moving = none →
      k.made = none → Within (.loadNext a c) k := by
    intro k hp hh hl hm hmade
    constructor <;> simp_all
  simp only [run] at hrun
  split at hrun
  · split at hrun
    · cases hrun
      exact .still hs .dequeueReturn (hin _ rfl rfl rfl rfl rfl)
    · cases hrun
      exact .still hs h.consume_of_loadNext (hin _ rfl rfl rfl rfl rfl)
  · next hnext =>
    cases hrun
    exact .still hs (h.moveHead hnext) (hin _ rfl rfl rfl rfl rfl)

theorem keeps_consume (hs : Shared g s) (hrun : run s spurious (.consume a) = (s', k)) :
    Keeps g s (.consume a) action s' k := by
  simp only [run] at hrun
  split at hrun
  · next htest =>
    obtain ⟨rfl, hconsumed⟩ := htest
    cases hrun
    obtain ⟨x, -, -, -, -, hx, -⟩ := hs.exists_front hconsumed
    refine ⟨g.take x, hs.consume hconsumed hx, .moveConsumed (hs.front_owner hconsumed hx), ?_⟩
    intro m hm hapart _
    refine ⟨(hm.take x).consume, nofun, nofun, nofun, ?_, nofun, ?_⟩
    · rintro a b ⟨⟩ hb
      exact (hm.moving_ne_head hs hconsumed hb).symm
    · rintro a b ⟨⟩ hb
      exact (hm.held b (Pc.held_of_made hb)).1.not_line hs.head_mem
  · cases hrun
    exact .still hs .loadHead ⟨nofun, nofun, nofun, nofun, nofun⟩

theorem keeps_move {k' : Pc α} (hs : Shared g s) (h : Here g s k) (hk : k.moving = some a)
    (hk' : Here g (moved s a.node) k') (hin : Within k k') :
    Keeps g s k action (moved s a.node) k' := by
  obtain ⟨-, x, hx, hitem, hnew⟩ := h.moving a hk
  refine ⟨g, hs.move hx hitem hnew, hk', ?_⟩
  intro m hm hapart _
  exact ⟨hm.move hs (fun b hb => (hapart.moving_made a b hk hb).symm)
    fun b hb => (hapart.moving a b hk hb).symm, hapart.within hin⟩

theorem keeps_removeConsumed (hs : Shared g s) (hconsumed : s.consumed = true)
    (hnext : s.next s.head.node = some b) :
    Keeps g s (.moveHead s.head true b) action (unlinked s b) (.loadFree s.head none) := by
  refine ⟨g.remove s.head, hs.unlink hconsumed hnext, .loadFree hs.loose_unlink, ?_⟩
  intro m hm hapart _
  refine ⟨hm.unlink hs hnext, nofun, ?_, nofun, nofun, nofun, nofun⟩
  rintro a c ⟨⟩ hc
  exact (hm.held c hc).1.not_line hs.head_mem

theorem keeps_removeOwned (hs : Shared g s) (hconsumed : s.consumed = false)
    (hnext : s.next s.head.node = some b) :
    Keeps g s (.moveHead s.head false b) action (unlinked s b) (.moveRemoved s.head) := by
  obtain ⟨x, -, -, -, -, hx, -⟩ := hs.exists_front hconsumed
  have htake := hs.consume hconsumed hx
  have howner := hs.front_owner hconsumed hx
  refine ⟨(g.take x).remove s.head, htake.unlink rfl hnext,
    .moveRemoved howner htake.loose_unlink, ?_⟩
  intro m hm hapart _
  refine ⟨((hm.take x).consume).unlink htake hnext, nofun, ?_, nofun, ?_, nofun, ?_⟩
  · rintro a c ⟨⟩ hc
    exact (hm.held c hc).1.not_line hs.head_mem
  · rintro a c ⟨⟩ hc
    exact (hm.moving_ne_head hs hconsumed hc).symm
  · rintro a c ⟨⟩ hc
    exact (hm.held c (Pc.held_of_made hc)).1.not_line hs.head_mem

theorem keeps_moveHead {c : Bool} (hs : Shared g s) (h : Here g s (.moveHead a c b))
    (hrun : run s spurious (.moveHead a c b) = (s', k)) :
    Keeps g s (.moveHead a c b) action s' k := by
  simp only [run] at hrun
  split at hrun
  · next htest =>
    obtain ⟨-, rfl, rfl⟩ := htest
    have hnext := h.removing s.head b rfl rfl
    cases hconsumed : s.consumed with
    | true =>
      simp only [hconsumed, if_true] at hrun
      cases hrun
      exact keeps_removeConsumed hs hconsumed hnext
    | false =>
      simp only [hconsumed, Bool.false_eq_true, if_false] at hrun
      cases hrun
      exact keeps_removeOwned hs hconsumed hnext
  · cases hrun
    exact .still hs .loadHead ⟨nofun, nofun, nofun, nofun, nofun⟩

theorem keeps_storeFree (hs : Shared g s) (h : Here g s (.storeFree i r o)) :
    Keeps g s (.storeFree i r o) action { s with next := Function.update s.next i.node o }
      (.casFree i r o) := by
  have hi := h.held i rfl
  refine ⟨g, hs.setNext hi.1 o, .casFree hi (by simp), ?_⟩
  intro m hm hapart _
  refine ⟨hm.setNext hs hi.1 o fun a ha => (hapart.held i a rfl ha).symm, hapart.within ?_⟩
  exact ⟨nofun, fun _ h => h, nofun, nofun, nofun⟩

theorem keeps_casFree (hs : Shared g s) (h : Here g s (.casFree i r o))
    (hrun : run s spurious (.casFree i r o) = (s', k)) :
    Keeps g s (.casFree i r o) action s' k := by
  have hi := h.held i rfl
  simp only [run] at hrun
  split at hrun
  · next htest =>
    obtain ⟨-, rfl⟩ := htest
    cases hrun
    refine ⟨g.push i, hs.push hi.1 hi.2 (h.pushing i _ rfl), .afterFree, ?_⟩
    intro m hm hapart _
    exact ⟨hm.push hi.1 hi.2 fun a ha => (hapart.held i a rfl ha).symm, hapart.within .afterFree⟩
  · cases hrun
    exact .still hs (.storeFree hi) ⟨nofun, fun _ h => h, nofun, nofun, nofun⟩

theorem keeps_run (hs : Shared g s) (h : Here g s pc) (hret : pc.returned = false)
    (hrun : run s spurious pc = (s', k)) : Keeps g s pc (.run spurious) s' k := by
  cases pc with
  | idle => cases hret
  | enqueueReturn => cases hret
  | dequeueReturn r => cases hret
  | tryGetLoad x =>
    cases hrun
    exact .still hs (.tryGet hs (h.pending x rfl) (h.unborn x rfl)) (.tryGet rfl)
  | tryGetNext x a =>
    cases hrun
    exact .still hs h.tryGetCas ⟨fun _ h => h, nofun, nofun, nofun, nofun⟩
  | tryGetCas x a o => exact keeps_tryGetCas hs h hrun
  | newNodeAddress x => cases hrun; exact keeps_newNodeAddress hs h
  | clearNext x i => cases hrun; exact keeps_clearNext hs h
  | construct x i => cases hrun; exact keeps_construct hs h
  | loadTail x i => cases hrun; exact keeps_loadTail hs h
  | casTail x i a => exact keeps_casTail hs h hrun
  | storeNext a b => cases hrun; exact keeps_storeNext hs h
  | loadHead =>
    cases hrun
    exact .still hs .loadNext ⟨nofun, nofun, nofun, nofun, nofun⟩
  | loadNext a c => exact keeps_loadNext hs h hrun
  | consume a => exact keeps_consume hs hrun
  | moveConsumed a =>
    cases hrun
    exact keeps_move hs h rfl .dequeueReturn ⟨nofun, nofun, nofun, nofun, nofun⟩
  | moveHead a c b => exact keeps_moveHead hs h hrun
  | moveRemoved a =>
    cases hrun
    exact keeps_move hs h rfl (.loadFree (h.held a rfl))
      ⟨nofun, fun _ h => h, nofun, nofun, nofun⟩
  | loadFree i r =>
    cases hrun
    exact .still hs (.storeFree (h.held i rfl)) ⟨nofun, fun _ h => h, nofun, nofun, nofun⟩
  | storeFree i r o => cases hrun; exact keeps_storeFree hs h
  | casFree i r o => exact keeps_casFree hs h hrun

theorem outline_valid : (outline α).Valid (queue α) Spares where
  start := by
    rintro s rfl
    refine ⟨Ghost.initial α, Shared.initial, ?_⟩
    rintro k rfl
    exact Here.idle
  idle := by
    rintro k m rfl rfl
    exact ⟨nofun, nofun, nofun, nofun, nofun, nofun⟩
  symm _ _ := Apart.symm
  step := by
    intro g s k action s' k' hs hk hstep
    cases action with
    | enqueue value =>
      simp only [queue, step, Option.ite_none_right_eq_some, Option.some.injEq,
        Prod.mk.injEq] at hstep
      obtain ⟨-, rfl, rfl⟩ := hstep
      obtain ⟨hnew, hnowhere⟩ := Shared.fresh hs value
      refine ⟨g, Shared.call hs, .tryGetLoad ⟨Nat.lt_succ_self _, hnew⟩ hnowhere, ?_⟩
      intro m hm _ _
      exact ⟨Here.call hm, .call hm rfl⟩
    | tryDequeue =>
      simp only [queue, step, Option.ite_none_right_eq_some, Option.some.injEq,
        Prod.mk.injEq] at hstep
      obtain ⟨-, rfl, rfl⟩ := hstep
      exact Keeps.still hs .loadHead ⟨nofun, nofun, nofun, nofun, nofun⟩
    | run spurious =>
      simp only [queue, step, Option.ite_none_left_eq_some, Option.some.injEq,
        Bool.not_eq_true] at hstep
      exact keeps_run hs hk hstep.1 hstep.2

-- ---------------------------------------------------------------------------
-- Whole runs
-- ---------------------------------------------------------------------------

variable {τ : Type} [DecidableEq τ] {st : Queue α × (τ → Pc α)}

/-- Items are delivered once, and no storage is constructed over before the
item that a thread owns there was moved out. -/
structure Right (st : Queue α × (τ → Pc α)) : Prop where
  distinct : st.1.enqueued.Nodup
  once : st.1.returned.Nodup
  enqueued : ∀ r ∈ st.1.returned, ∃ x ∈ st.1.enqueued, r = some x
  unspoiled : ∀ t u x i a, st.2 t = .construct x i → (st.2 u).moving = some a → a.node ≠ i.node

omit [DecidableEq τ] in
theorem right_of_holds (h : (outline α).Holds g st) : Right st := by
  obtain ⟨waiting, henqueued, -⟩ := h.shared.items
  refine ⟨h.shared.distinct, h.shared.once, ?_, ?_⟩
  · intro r hr
    obtain ⟨x, hx, rfl⟩ := h.shared.returned r hr
    exact ⟨x, henqueued ▸ List.mem_append_left _ hx, rfl⟩
  · intro t u x i a ht hu
    have htu : t ≠ u := by
      rintro rfl
      rw [ht] at hu
      cases hu
    exact ((h.apart t u htu).made_moving i a (by rw [ht]; rfl) hu).symm

/-- Thread `u` goes on with the node `a`, in which it owned `y` in `st`; `y` is in no
node any more, and was not returned. -/
structure Lost (st st' : Queue α × (τ → Pc α)) (u : τ) (a : Idx) (y : Item α) : Prop where
  owned : (st.2 u).moving = some a ∧ st.1.item a.node = some y
  still : (st'.2 u).moving = some a
  other : ∃ x, x ≠ y ∧ st'.1.item a.node = some x
  nowhere : ∀ n, st'.1.item n ≠ some y
  unreturned : some y ∉ st'.1.returned

/-- The steps of a thread that takes a node from the free list while another still
holds its item, up to the one that constructs over it. -/
theorem constructs_of_not_spares {t : τ} (h : ¬spares Spares st (t, .run false)) :
    ∃ st' st'' u a x, u ≠ t ∧
      schedule step st [(t, .run false), (t, .run false)] = some st' ∧ ¬Right st' ∧
      schedule step st' [(t, .run false)] = some st'' ∧
      (st.2 t).unborn = some x ∧ (st.2 u).moving = some a ∧ (st''.2 u).moving = some a ∧
      st''.1.item = Function.update st.1.item a.node (some x) ∧
      st''.1.returned = st.1.returned := by
  simp only [spares, Spares, not_forall, not_not] at h
  obtain ⟨u, hut, x, head, next, hpc, -, hhead, a, ha, hnode⟩ := h
  have hfirst : step st.1 (st.2 t) (.run false) =
      some ({ st.1 with freeListHead := next }, .clearNext x (incrVersion head)) := by
    simp [hpc, step, Pc.returned, run, hhead]
  let s : Queue α :=
    { st.1 with freeListHead := next, next := Function.update st.1.next head.node none }
  let pc := Function.update (Function.update st.2 t (.clearNext x (incrVersion head))) t
    (.construct x (incrVersion head))
  let s' : Queue α := { s with item := Function.update s.item head.node (some x) }
  have hthird : step s (pc t) (.run false) = some (s', .loadTail x (incrVersion head)) := by
    simp [s', pc, step, Pc.returned, run, incrVersion]
  refine ⟨(s, pc), (s', Function.update pc t (.loadTail x (incrVersion head))), u, a, x, hut, ?_, fun hright => ?_, ?_, by simp [hpc], ha, ?_, ?_, ?_⟩
  · simp only [schedule, hfirst, Option.bind_some, Function.update_self]
    rfl
  · refine hright.unspoiled t u x (incrVersion head) a (by simp [pc]) ?_ hnode
    simpa [pc, hut] using ha
  · simp only [schedule, hthird, Option.bind_some]
  · simpa [pc, hut] using ha
  · rw [hnode]
  · rfl

/-- The queue delivers every item once in every run in which no thread takes
from the free list a node that still holds another thread's item. Where one does,
its third step constructs over that item, and the item is lost. -/
theorem right_while_spares (α τ : Type) [DecidableEq τ] :
    (∀ st, Reach ((queue α).threads τ) (spares Spares) st → Right st) ∧
      ∀ (st : Queue α × (τ → Pc α)) (t : τ), ¬spares Spares st (t, .run false) →
        ∃ st' st'', schedule step st [(t, .run false), (t, .run false)] = some st' ∧ ¬Right st' ∧
          schedule step st' [(t, .run false)] = some st'' ∧
          (Reach ((queue α).threads τ) (spares Spares) st →
            ∃ u a, ∃ y ∈ st.1.enqueued, Lost st st'' u a y) := by
  refine ⟨fun st h => ?_, fun st t h => ?_⟩
  · obtain ⟨g, hholds⟩ := outline_valid.holds h
    exact right_of_holds hholds
  · obtain ⟨st', st'', u, a, x, hut, htwo, hwrong, hthird, hx, ha, hstill, hitem, hreturned⟩ :=
      constructs_of_not_spares h
    refine ⟨st', st'', htwo, hwrong, hthird, fun hreach => ?_⟩
    obtain ⟨g, hholds⟩ := outline_valid.holds hreach
    obtain ⟨-, y, hy, hnode, hkept⟩ := (hholds.here u).moving a ha
    have hfresh := (hholds.here t).unborn x hx
    have hne : x ≠ y := by
      rintro rfl
      exact hfresh a.node hnode
    obtain ⟨waiting, henqueued, -⟩ := hholds.shared.items
    refine ⟨u, a, y, henqueued ▸ List.mem_append_left _ hy, ⟨ha, hnode⟩, hstill,
      ⟨x, hne, by rw [hitem, Function.update_self]⟩, fun n hn => ?_, hreturned ▸ hkept⟩
    rw [hitem] at hn
    by_cases hna : n = a.node
    · rw [hna, Function.update_self] at hn
      exact hne (Option.some.inj hn)
    · rw [Function.update_of_ne hna] at hn
      exact hna (hholds.shared.unique n a.node y hn hnode)

def sparesNode (s : Queue α) : Pc α → Action α → Pc α → Bool
  | .tryGetCas _ head _, .run false, m =>
    s.freeListHead ≠ some head || m.moving.all (·.node ≠ head.node)
  | _, _, _ => true

theorem spares_of_sparesNode {s : Queue α} {pc m : Pc α} {action : Action α}
    (h : sparesNode s pc action m = true) : Spares s pc action m := by
  rintro item head next rfl rfl hhead idx hidx
  simp only [sparesNode, hhead, hidx, Option.all_some] at h
  simpa using h

/-- Thread 1 owns the item 10 and stops before it moves it out; thread 0 takes the
first node from the free list; thread 2 unlinks and frees the node of 10, and thread
0 is about to take that one too. -/
def overlapping : List (Fin 3 × Action Nat) :=
  (0, .enqueue 10) :: List.replicate 7 (0, .run false) ++
    (1, .tryDequeue) :: List.replicate 9 (1, .run false) ++
    (0, .enqueue 20) :: List.replicate 8 (0, .run false) ++
    (2, .tryDequeue) :: List.replicate 6 (2, .run false) ++
    (0, .enqueue 30) :: List.replicate 2 (0, .run false)

theorem right_while_spares_overlap : ∃ st : Queue Nat × (Fin 3 → Pc Nat),
    st.1.enqueued = [⟨0, 10⟩, ⟨1, 20⟩] ∧ Right st ∧
      ∃ st' st'', schedule step st [(0, .run false), (0, .run false)] = some st' ∧ ¬Right st' ∧
        schedule step st' [(0, .run false)] = some st'' ∧
        ∃ u a, ∃ y ∈ st.1.enqueued, Lost st st'' u a y := by
  obtain ⟨st, hrun, henqueued, hcas, hhead, hmoving⟩ : ∃ st,
      scheduleSparing step sparesNode [0, 1, 2] (initial Nat, fun _ => Pc.idle) overlapping =
        some st ∧ st.1.enqueued = [⟨0, 10⟩, ⟨1, 20⟩] ∧
      st.2 0 = .tryGetCas ⟨2, 30⟩ ⟨2, 0⟩ none ∧ st.1.freeListHead = some ⟨2, 0⟩ ∧
      (st.2 1).moving = some ⟨2, 0⟩ := ⟨_, rfl, rfl, rfl, rfl, rfl⟩
  have hinit : Reach ((queue Nat).threads (Fin 3)) (spares Spares)
      (initial Nat, fun _ => Pc.idle) := .init ⟨rfl, fun _ => rfl⟩
  have hreach : Reach ((queue Nat).threads (Fin 3)) (spares Spares) st :=
    reach_scheduleSparing (fun _ _ _ _ _ h => h) (fun _ _ _ _ => spares_of_sparesNode)
      (by decide : ∀ u : Fin 3, u ∈ [0, 1, 2]) hinit hrun
  obtain ⟨st', st'', htwo, hwrong, hthird, hlost⟩ :=
    (right_while_spares Nat (Fin 3)).2 st 0 fun h =>
      h 1 (by decide) _ _ _ hcas rfl hhead ⟨2, 0⟩ hmoving rfl
  exact ⟨st, henqueued, (right_while_spares Nat (Fin 3)).1 st hreach, st', st'', htwo, hwrong,
    hthird, hlost hreach⟩

/-- Two consumers and a producer. Thread 1 owns the item 10 and stops before it
moves it out; thread 2 unlinks and frees the node; thread 0 constructs 30 there. -/
def spoiling : List (Nat × Action Nat) :=
  (0, .enqueue 10) :: List.replicate 7 (0, .run false) ++
    (1, .tryDequeue) :: List.replicate 9 (1, .run false) ++
    (0, .enqueue 20) :: List.replicate 8 (0, .run false) ++
    (2, .tryDequeue) :: List.replicate 6 (2, .run false) ++
    (0, .enqueue 30) :: List.replicate 8 (0, .run false) ++
    -- the item 30 is moved out as if it were 10, and later its storage is read again
    (1, .run false) :: List.replicate 7 (2, .run false) ++
    (2, .tryDequeue) :: List.replicate 4 (2, .run false)

theorem not_right : ¬∀ st, Reach ((queue Nat).threads Nat) free st → Right st := by
  intro h
  obtain ⟨st, hrun, hreturned⟩ : ∃ st, schedule step (initial Nat, fun _ => Pc.idle) spoiling =
      some st ∧ st.1.returned = [some ⟨2, 30⟩, some ⟨1, 20⟩, none] := ⟨_, rfl, rfl⟩
  have hinit : Reach ((queue Nat).threads Nat) free (initial Nat, fun _ => Pc.idle) :=
    .init ⟨rfl, fun _ => rfl⟩
  have hright := h st (reach_schedule (fun _ _ _ _ _ h => h) hinit hrun)
  obtain ⟨x, -, hx⟩ := hright.enqueued none (by simp [hreturned])
  cases hx

end LearningCode.SimpleQueue
