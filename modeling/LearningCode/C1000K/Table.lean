import Mathlib.Data.List.Nodup
import LearningCode.Lib.Chain
import LearningCode.C1000K.Model

/-!
# One slot for each descriptor

The blocks are on the chain in the order in which they were allocated, and `blkcnt`
counts them. So the quotient of a descriptor names an array that stays where it
is, however the table grows.
-/

namespace LearningCode.C1000K

open Transition Chain

variable {ν : Type} {malloc : Nat → Ptr} {zero : ν} {R R' : Ntyreactor ν} {x p : Ptr} {l m : List Ptr}
  {fd fd' n : Nat}

def next (blocks : Ptr → Option Eventblock) (p : Ptr) : Option (Option Ptr) :=
  (blocks p).map Eventblock.next

/-- The slot of a descriptor, wherever the table has grown to. -/
def slotOf (malloc : Nat → Ptr) (sockfd : Nat) : Slot :=
  ⟨malloc (2 * (sockfd / MAX_EPOLL_EVENTS)), sockfd % MAX_EPOLL_EVENTS⟩

/-- The blocks of the chain with their arrays, and nothing else, is in the memory. -/
structure Table (malloc : Nat → Ptr) (R : Ntyreactor ν) (x : Ptr) (l : List Ptr) : Prop where
  first : R.evblk = some x
  linked : Linked (next R.blocks) x l
  names : x :: l = (List.range R.blkcnt).map fun k => malloc (2 * k + 1)
  mallocs : R.mallocs = 2 * R.blkcnt
  block : ∀ k < R.blkcnt, ∃ b, R.blocks (malloc (2 * k + 1)) = some b ∧ b.events = malloc (2 * k)
  array : ∀ k < R.blkcnt, R.events (malloc (2 * k)) ≠ none
  used : ∀ p, R.blocks p ≠ none ∨ R.events p ≠ none → ∃ k < R.mallocs, p = malloc k

/-- Nothing that is there is moved or changed, the links apart. -/
structure Extends (R R' : Ntyreactor ν) : Prop where
  events : ∀ p evs, R.events p = some evs → R'.events p = some evs
  blocks : ∀ p b, R.blocks p = some b → ∃ b', R'.blocks p = some b' ∧ b'.events = b.events

theorem Extends.refl (R : Ntyreactor ν) : Extends R R := ⟨fun _ _ => id, fun _ b h => ⟨b, h, rfl⟩⟩

theorem Extends.trans {R'' : Ntyreactor ν} (h : Extends R R') (h' : Extends R' R'') :
    Extends R R'' := by
  refine ⟨fun p evs hp => h'.events p evs (h.events p evs hp), fun p b hp => ?_⟩
  obtain ⟨b', hp', hb'⟩ := h.blocks p b hp
  obtain ⟨b'', hp'', hb''⟩ := h'.blocks p b' hp'
  exact ⟨b'', hp'', hb''.trans hb'⟩

theorem slotOf_inj (hmalloc : Function.Injective malloc) :
    slotOf malloc fd = slotOf malloc fd' ↔ fd = fd' := by
  refine ⟨fun h => ?_, congrArg _⟩
  rw [slotOf, slotOf, Slot.mk.injEq] at h
  obtain ⟨hquot, hrem⟩ := h
  have hdiv : fd / MAX_EPOLL_EVENTS = fd' / MAX_EPOLL_EVENTS := by
    have htwice := hmalloc hquot
    omega
  rw [← Nat.div_add_mod fd MAX_EPOLL_EVENTS, ← Nat.div_add_mod fd' MAX_EPOLL_EVENTS, hdiv, hrem]

theorem last_returns {blocks : Ptr → Option Eventblock} (h : Linked (next blocks) x l) :
    Returns (fun turns => last blocks turns x) (l.getLastD x) := by
  induction l generalizing x with
  | nil =>
    obtain ⟨b, hb, hnext⟩ := Option.map_eq_some_iff.mp h
    exact .last fun turns => by simp [last, hb, hnext]
  | cons y l ih =>
    obtain ⟨b, hb, hnext⟩ := Option.map_eq_some_iff.mp h.1
    rw [List.getLastD_cons]
    exact (ih h.2).turn fun turns => by simp [last, hb, hnext]

theorem walk_eq {blocks : Ptr → Option Eventblock} (h : Linked (next blocks) x l)
    (hn : n ≤ l.length) : walk blocks n (some x) = some (x :: l)[n]? := by
  induction n generalizing x l with
  | zero => rfl
  | succ n ih =>
    cases l with
    | nil => cases hn
    | cons y l =>
      obtain ⟨b, hb, hnext⟩ := Option.map_eq_some_iff.mp h.1
      rw [walk, hb, Option.bind_eq_bind, Option.bind_some, hnext,
        ih h.2 (Nat.le_of_succ_le_succ hn)]
      rfl

-- ---------------------------------------------------------------------------
-- Growing
-- ---------------------------------------------------------------------------

theorem Table.fresh (h : Table malloc R x l) (hmalloc : Function.Injective malloc)
    (hn : R.mallocs ≤ n) : R.blocks (malloc n) = none ∧ R.events (malloc n) = none := by
  have hnot : ¬ ∃ k < R.mallocs, malloc n = malloc k := by
    rintro ⟨k, hk, heq⟩
    have hnk := hmalloc heq
    omega
  exact ⟨by_contra fun hb => hnot (h.used _ (.inl hb)), by_contra fun he => hnot (h.used _ (.inr he))⟩

theorem Table.nodup (h : Table malloc R x l) (hmalloc : Function.Injective malloc) :
    (x :: l).Nodup := by
  rw [h.names]
  refine List.Nodup.map (fun j k hjk => ?_) List.nodup_range
  have hodd := hmalloc hjk
  omega

theorem Table.exists_block (h : Table malloc R x l) (hp : p = x ∨ p ∈ l) :
    ∃ k < R.blkcnt, p = malloc (2 * k + 1) := by
  have hmem : p ∈ x :: l := List.mem_cons.mpr hp
  rw [h.names, List.mem_map] at hmem
  obtain ⟨k, hk, rfl⟩ := hmem
  exact ⟨k, List.mem_range.mp hk, rfl⟩

def appended (malloc : Nat → Ptr) (zero : ν) (R : Ntyreactor ν) (blk : Ptr) (b : Eventblock) :
    Ntyreactor ν :=
  let (R, block) := newBlock malloc zero R
  { R with
    blocks := Function.update R.blocks blk (some { b with next := some block })
    blkcnt := R.blkcnt + 1 }

theorem appended_last {blk : Ptr} {b : Eventblock} :
    (appended malloc zero R blk b).blocks blk =
      some { b with next := some (malloc (R.mallocs + 1)) } := Function.update_self ..

theorem appended_new {blk : Ptr} {b : Eventblock} (hne : blk ≠ malloc (R.mallocs + 1)) :
    (appended malloc zero R blk b).blocks (malloc (R.mallocs + 1)) =
      some ⟨none, malloc R.mallocs⟩ :=
  (Function.update_of_ne hne.symm _ _).trans (Function.update_self ..)

theorem appended_other {blk : Ptr} {b : Eventblock} (hblk : p ≠ blk)
    (hne : p ≠ malloc (R.mallocs + 1)) :
    (appended malloc zero R blk b).blocks p = R.blocks p :=
  (Function.update_of_ne hblk _ _).trans (Function.update_of_ne hne _ _)

theorem appended_events {blk : Ptr} {b : Eventblock} : (appended malloc zero R blk b).events =
    Function.update R.events (malloc R.mallocs) (some fun _ => zero) := rfl

theorem appended_none (zero : ν) {blk : Ptr} {b : Eventblock} (hb : R.blocks blk = some b)
    (hblock : R.blocks p = none) (hevs : R.events p = none) (hp0 : p ≠ malloc R.mallocs)
    (hp1 : p ≠ malloc (R.mallocs + 1)) :
    (appended malloc zero R blk b).blocks p = none ∧
      (appended malloc zero R blk b).events p = none := by
  have hblk : p ≠ blk := by
    rintro rfl
    cases hblock.symm.trans hb
  refine ⟨(appended_other hblk hp1).trans hblock, ?_⟩
  rw [appended_events, Function.update_of_ne hp0]
  exact hevs

theorem appended_extends (zero : ν) {blk : Ptr} {b : Eventblock} (hb : R.blocks blk = some b)
    (hblock : R.blocks (malloc (R.mallocs + 1)) = none) (hevs : R.events (malloc R.mallocs) = none) :
    Extends R (appended malloc zero R blk b) := by
  refine ⟨fun p evs hp => ?_, fun p c hp => ?_⟩
  · have hne : p ≠ malloc R.mallocs := by
      rintro rfl
      cases hevs.symm.trans hp
    exact (Function.update_of_ne hne _ _).trans hp
  · by_cases hblk : p = blk
    · subst hblk
      cases hb.symm.trans hp
      exact ⟨_, appended_last, rfl⟩
    · have hne : p ≠ malloc (R.mallocs + 1) := by
        rintro rfl
        cases hblock.symm.trans hp
      exact ⟨c, (appended_other hblk hne).trans hp, rfl⟩

theorem Table.appended (zero : ν) {b : Eventblock} (h : Table malloc R x l)
    (hmalloc : Function.Injective malloc) (hb : R.blocks (l.getLastD x) = some b) :
    Table malloc (appended malloc zero R (l.getLastD x) b) x (l ++ [malloc (R.mallocs + 1)]) ∧
      Extends R (C1000K.appended malloc zero R (l.getLastD x) b) := by
  obtain ⟨hnoblock, -⟩ := h.fresh hmalloc (n := R.mallocs + 1) (Nat.le_succ _)
  obtain ⟨-, hnoevs⟩ := h.fresh hmalloc (Nat.le_refl R.mallocs)
  have hne (p : Ptr) (hp : R.blocks p ≠ none) : p ≠ malloc (R.mallocs + 1) := by
    rintro rfl
    exact hp hnoblock
  have hlast := hne (l.getLastD x) (by rw [hb]; exact Option.some_ne_none _)
  have hextends := appended_extends zero hb hnoblock hnoevs
  refine ⟨⟨h.first, ?_, ?_, ?_, fun k hk => ?_, fun k hk => ?_, ?_⟩, hextends⟩
  · refine Linked.relink (m := []) (by simpa using h.linked) (h.nodup hmalloc) ?_ ⟨?_, ?_⟩
    · intro p hp hmem
      obtain ⟨k, hk, rfl⟩ := h.exists_block hmem
      obtain ⟨c, hc, -⟩ := h.block k hk
      rw [next, next, appended_other hp (hne _ (by simp [hc]))]
    · rw [next, appended_last]
      rfl
    · rw [Linked, next, appended_new hlast]
      rfl
  · show x :: (l ++ _) = (List.range (R.blkcnt + 1)).map _
    rw [List.range_succ, List.map_append, ← h.names, h.mallocs]
    rfl
  · show R.mallocs + 2 = 2 * (R.blkcnt + 1)
    rw [h.mallocs]
    rfl
  · rcases Nat.lt_succ_iff_lt_or_eq.mp hk with hk | rfl
    · obtain ⟨c, hc, hcevents⟩ := h.block k hk
      obtain ⟨c', hc', hsame⟩ := hextends.blocks _ c hc
      exact ⟨c', hc', hsame.trans hcevents⟩
    · exact ⟨_, h.mallocs ▸ appended_new hlast, h.mallocs ▸ rfl⟩
  · rcases Nat.lt_succ_iff_lt_or_eq.mp hk with hk | rfl
    · obtain ⟨evs, hevs⟩ := Option.ne_none_iff_exists'.mp (h.array k hk)
      rw [hextends.events _ evs hevs]
      exact Option.some_ne_none evs
    · rw [← h.mallocs, appended_events, Function.update_self]
      exact Option.some_ne_none _
  · intro p hp
    by_cases hold : R.blocks p ≠ none ∨ R.events p ≠ none
    · obtain ⟨k, hk, rfl⟩ := h.used p hold
      exact ⟨k, Nat.lt_add_right 2 hk, rfl⟩
    · obtain ⟨hblock, hevs⟩ := not_or.mp hold
      by_cases hp0 : p = malloc R.mallocs
      · exact ⟨R.mallocs, by show R.mallocs < R.mallocs + 2; omega, hp0⟩
      · by_cases hp1 : p = malloc (R.mallocs + 1)
        · exact ⟨R.mallocs + 1, by show R.mallocs + 1 < R.mallocs + 2; omega, hp1⟩
        · obtain ⟨hblock', hevs'⟩ := appended_none zero hb (not_not.mp hblock) (not_not.mp hevs) hp0 hp1
          exact absurd hp (not_or.mpr ⟨not_not.mpr hblock', not_not.mpr hevs'⟩)

theorem Table.alloc (zero : ν) (h : Table malloc R x l) (hmalloc : Function.Injective malloc) : ∃ R' m,
    Returns (fun turns => ntyreactorAlloc malloc zero turns R) R' ∧
      Table malloc R' x (l ++ m) ∧ R'.blkcnt = R.blkcnt + 1 ∧ Extends R R' := by
  have hlast : l.getLastD x = x ∨ l.getLastD x ∈ l := List.mem_cons.mp List.getLastD_mem_cons
  obtain ⟨j, hj, hlastj⟩ := h.exists_block hlast
  obtain ⟨b, hb, -⟩ := h.block j hj
  rw [← hlastj] at hb
  obtain ⟨htable, hextends⟩ := h.appended zero hmalloc hb
  refine ⟨_, _, ?_, htable, rfl, hextends⟩
  obtain ⟨hnoblock, -⟩ := h.fresh hmalloc (n := R.mallocs + 1) (Nat.le_succ _)
  have hne : l.getLastD x ≠ malloc (R.mallocs + 1) := by
    intro heq
    cases hb.symm.trans (heq ▸ hnoblock)
  obtain ⟨enough, hreturns⟩ := last_returns h.linked
  refine ⟨enough, fun turns hle => ?_⟩
  have hnew : (newBlock malloc zero R).1.blocks (l.getLastD x) = some b :=
    (Function.update_of_ne hne _ _).trans hb
  simp only [ntyreactorAlloc, h.first, hreturns turns hle, hnew, Option.bind_eq_bind,
    Option.bind_some]
  rfl

-- ---------------------------------------------------------------------------
-- The call
-- ---------------------------------------------------------------------------

theorem Table.grow (zero : ν) (h : Table malloc R x l) (hmalloc : Function.Injective malloc) (blkidx : Nat) :
    ∃ R' m, Returns (fun turns => grow malloc zero blkidx turns R) R' ∧
      Table malloc R' x (l ++ m) ∧ blkidx < R'.blkcnt ∧ Extends R R' := by
  -- the blocks that are missing
  obtain ⟨missing, hmissing⟩ : ∃ missing, blkidx + 1 ≤ R.blkcnt + missing :=
    ⟨blkidx + 1, Nat.le_add_left ..⟩
  induction missing generalizing R l with
  | zero =>
    refine ⟨R, [], .last fun turns => ?_, by simpa using h, hmissing, .refl R⟩
    exact if_neg (Nat.not_le_of_lt hmissing)
  | succ missing ih =>
    by_cases hdone : blkidx < R.blkcnt
    · refine ⟨R, [], .last fun turns => ?_, by simpa using h, hdone, .refl R⟩
      exact if_neg (Nat.not_le_of_lt hdone)
    · obtain ⟨R₁, m₁, halloc, h₁, hblkcnt, hextends₁⟩ := h.alloc zero hmalloc
      obtain ⟨R', m, hgrow, h', hlt, hextends⟩ := ih h₁ (by omega)
      refine ⟨R', m₁ ++ m, ?_, by rwa [← List.append_assoc], hlt, hextends₁.trans hextends⟩
      exact (halloc.bind hgrow).turn fun turns => if_pos (Nat.le_of_not_lt hdone)

theorem Table.find (zero : ν) (h : Table malloc R x l) (hmalloc : Function.Injective malloc) (fd : Nat) :
    ∃ R' m, Returns (fun turns => findEventIdx malloc zero turns R fd) (R', slotOf malloc fd) ∧
      Table malloc R' x (l ++ m) ∧ Extends R R' ∧
        R'.events (slotOf malloc fd).events ≠ none := by
  obtain ⟨R', m, hgrow, h', hlt, hextends⟩ :=
    h.grow zero hmalloc (fd / MAX_EPOLL_EVENTS)
  refine ⟨R', m, ?_, h', hextends, h'.array _ hlt⟩
  refine hgrow.bind (.const fun turns => ?_)
  obtain ⟨b, hb, hevents⟩ := h'.block _ hlt
  have hlen : R'.blkcnt = (l ++ m).length + 1 := by
    have hcount := congrArg List.length h'.names
    simpa using hcount.symm
  have hname : (x :: (l ++ m))[fd / MAX_EPOLL_EVENTS]? =
      some (malloc (2 * (fd / MAX_EPOLL_EVENTS) + 1)) := by
    rw [h'.names, List.getElem?_map, List.getElem?_range hlt]
    rfl
  rw [h'.first, walk_eq h'.linked (by omega), hname]
  simp only [Option.bind_eq_bind, Option.bind_some, hb, hevents, slotOf]

-- ---------------------------------------------------------------------------
-- Every run
-- ---------------------------------------------------------------------------

theorem Table.init {epfd : Int} (h : ntyreactorInit malloc zero epfd = (R, 0)) :
    Table malloc R (malloc 1) [] := by
  unfold ntyreactorInit at h
  dsimp only at h
  split at h
  · cases h
  · cases h
    have hone (k : Nat) (hk : k < 1) : k = 0 := Nat.lt_one_iff.mp hk
    refine ⟨rfl, ?_, rfl, rfl, fun k hk => ?_, fun k hk => ?_, fun p hp => ?_⟩
    · simp [Linked, next, newBlock]
    · cases hone k hk
      exact ⟨_, Function.update_self .., rfl⟩
    · cases hone k hk
      simp [newBlock]
    · by_cases hp0 : p = malloc 0
      · exact ⟨0, Nat.succ_pos 1, hp0⟩
      · by_cases hp1 : p = malloc 1
        · exact ⟨1, Nat.lt_succ_self 1, hp1⟩
        · simp [newBlock, hp0, hp1] at hp

theorem Table.write {slot : Slot} {ev : ν} {evs : Nat → ν} (h : Table malloc R x l)
    (hslot : R.events slot.events = some evs) :
    Table malloc { R with
      events := Function.update R.events slot.events
        (some (Function.update evs slot.idx ev)) } x l := by
  have hsame (p : Ptr) : Function.update R.events slot.events
      (some (Function.update evs slot.idx ev)) p ≠ none ↔ R.events p ≠ none := by
    by_cases hp : p = slot.events
    · simp [hp, hslot]
    · simp [hp]
  refine ⟨h.first, h.linked, h.names, h.mallocs, h.block, fun k hk => ?_, fun p hp => ?_⟩
  · exact (hsame _).mpr (h.array k hk)
  · exact h.used p (hp.imp_right (hsame p).mp)

theorem exists_table (hmalloc : Function.Injective malloc)
    (h : Reach (table malloc zero) free R) : ∃ x l, Table malloc R x l := by
  refine h.invariant (P := fun R => ∃ x l, Table malloc R x l) ?_ ?_
  · rintro R ⟨epfd, hinit⟩
    exact ⟨_, _, .init hinit⟩
  · rintro R i R' ⟨x, l, h⟩ - hstep
    cases hstep with
    | @find _ sockfd _ hreturns =>
      obtain ⟨R'', m, hfind, h', -⟩ := h.find zero hmalloc sockfd
      cases hreturns.unique hfind
      exact ⟨x, _, h'⟩
    | write hslot _ => exact ⟨x, l, h.write hslot⟩

/-- `blkcnt` counts the chain; a call returns, and keeps what was there; its slot is there,
and any later call returns the same one just for the same descriptor. -/
theorem findEventIdx_table (hmalloc : Function.Injective malloc)
    (h : Reach (table malloc zero) free R) :
    (∃ x l, R.evblk = some x ∧ Linked (next R.blocks) x l ∧ R.blkcnt = (x :: l).length) ∧
      ∀ fd, ∃ R' slot, Returns (fun turns => findEventIdx malloc zero turns R fd) (R', slot) ∧
        R'.events slot.events ≠ none ∧ slot.idx < MAX_EPOLL_EVENTS ∧ Extends R R' ∧
          ∀ is t, Path (table malloc zero) R' is t → ∀ fd' t' slot',
            Returns (fun turns => findEventIdx malloc zero turns t fd') (t', slot') →
              (slot' = slot ↔ fd' = fd) := by
  obtain ⟨x, l, htable⟩ := exists_table hmalloc h
  refine ⟨⟨x, l, htable.first, htable.linked, ?_⟩, fun fd => ?_⟩
  · rw [htable.names, List.length_map, List.length_range]
  · obtain ⟨R', m, hfind, -, hextends, harray⟩ := htable.find zero hmalloc fd
    refine ⟨R', slotOf malloc fd, hfind, harray, Nat.mod_lt _ (by decide), hextends, ?_⟩
    intro is t hpath fd' t' slot' hfind'
    have hR' : Reach (table malloc zero) free R' := h.step trivial (.find hfind)
    obtain ⟨y, l', htable'⟩ := exists_table hmalloc (hR'.path hpath fun _ _ _ => trivial)
    obtain ⟨t'', m', hfind'', -⟩ := htable'.find zero hmalloc fd'
    cases hfind'.unique hfind''
    exact slotOf_inj hmalloc

theorem grown_table : ∃ R : Ntyreactor Unit, R.blkcnt = 3 ∧ Reach (table id ()) free R := by
  have hinit : Reach (table id ()) free (ntyreactorInit id () 3).1 := .init ⟨3, rfl⟩
  obtain ⟨R, slot, hfind, hcnt⟩ : ∃ R slot,
      Returns (fun turns => findEventIdx id () turns (ntyreactorInit id () 3).1 2500) (R, slot) ∧
        R.blkcnt = 3 := ⟨_, _, .of_add 4 fun turns => rfl, rfl⟩
  exact ⟨R, hcnt, hinit.step trivial (.find hfind)⟩

theorem findEventIdx_table_grown : ∃ R : Ntyreactor Unit, R.blkcnt = 3 ∧
    (∃ x l, R.evblk = some x ∧ Linked (next R.blocks) x l ∧ R.blkcnt = (x :: l).length) ∧
      ∀ fd, ∃ R' slot, Returns (fun turns => findEventIdx id () turns R fd) (R', slot) ∧
        R'.events slot.events ≠ none ∧ slot.idx < MAX_EPOLL_EVENTS ∧ Extends R R' ∧
          ∀ is t, Path (table id ()) R' is t → ∀ fd' t' slot',
            Returns (fun turns => findEventIdx id () turns t fd') (t', slot') →
              (slot' = slot ↔ fd' = fd) := by
  obtain ⟨R, hcnt, hrun⟩ := grown_table
  exact ⟨R, hcnt, findEventIdx_table Function.injective_id hrun⟩

end LearningCode.C1000K
