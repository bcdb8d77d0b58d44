import Mathlib.Data.List.Nodup
import Mathlib.Tactic.SplitIfs
import LearningCode.DbPool.Model

/-!
# Every connection is in one place

What a step does to the two lists, as long as nobody releases NULL; from it the
accounts of the pool in every run, and that a single release of NULL ends them.
-/

namespace LearningCode.DbPool

open Threads Transition

variable {s s' : CDBPool} {k k' m : Pc} {i : Action} {c : Ptr} {rest : List (Option Ptr)}

structure Accounted (s : CDBPool) : Prop where
  /-- Not NULL, and made by the pool. -/
  conns : ∀ o ∈ s.freeList ++ s.usedList, ∃ c ∈ s.created, o = some c
  /-- Apart, and without duplicates. -/
  nodup : (s.freeList ++ s.usedList).Nodup
  count : (s.freeList.length + s.usedList.length : Int) = s.dbCurConnCnt
  bound : s.dbCurConnCnt ≤ s.dbMaxConnCnt

theorem Accounted.of_perm (h : Accounted s)
    (hperm : (s'.freeList ++ s'.usedList).Perm (s.freeList ++ s.usedList))
    (hcreated : s'.created = s.created) (hcur : s'.dbCurConnCnt = s.dbCurConnCnt)
    (hmax : s'.dbMaxConnCnt = s.dbMaxConnCnt) : Accounted s' := by
  refine ⟨?_, hperm.nodup_iff.mpr h.nodup, ?_, by rw [hcur, hmax]; exact h.bound⟩
  · intro o ho
    rw [hcreated]
    exact h.conns o (hperm.mem_iff.mp ho)
  · have hlen := hperm.length_eq
    have hcount := h.count
    simp only [List.length_append] at hlen
    omega

inductive Effect (s : CDBPool) (k : Pc) : CDBPool → Pc → Prop
  | same {k' : Pc} : (∀ c, k' ≠ .got (some c)) → Effect s k s k'
  | reuse {c : Ptr} {rest : List (Option Ptr)} : s.freeList = some c :: rest →
      Effect s k { s with freeList := rest, usedList := s.usedList ++ [some c] } (.got (some c))
  | create {c : Ptr} : c ∉ s.created → s.freeList = [] → s.dbCurConnCnt < s.dbMaxConnCnt →
      Effect s k { s with
        usedList := s.usedList ++ [some c], created := c :: s.created
        dbCurConnCnt := s.dbCurConnCnt + 1 } (.got (some c))
  | release {c : Ptr} : k = .got (some c) → Effect s k (relDBConn s (some c)) .idle

theorem take_effect (h : Accounted s) (htake : take s = some (s', k')) : Effect s k s' k' := by
  unfold take at htake
  split at htake
  · cases htake
  · next conn rest hfree =>
    cases htake
    obtain ⟨c, -, rfl⟩ := h.conns conn (by simp [hfree])
    exact .reuse hfree

theorem getDBConn_effect (h : Accounted s) {timeoutMs : Int} {made : Made}
    (hfresh : made.conn ∉ s.created) (hget : getDBConn s timeoutMs made = some (s', k')) :
    Effect s k s' k' := by
  unfold getDBConn at hget
  split_ifs at hget with habort hempty hfull hret
  · cases hget
    exact .same nofun
  · cases hget
    exact .same nofun
  · have hsame : (s.make made.conn).delete made.conn = s := by
      simp [CDBPool.make, CDBPool.delete]
    simp only [hsame] at hget
    cases hget
    exact .same nofun
  · have hnil : s.freeList = [] := List.isEmpty_iff.mp hempty
    simp only [take, CDBPool.make, CDBPool.pushFree, hnil, List.nil_append] at hget
    cases hget
    have hlt : s.dbCurConnCnt < s.dbMaxConnCnt := Int.not_le.mp hfull
    have heffect := Effect.create (k := k) hfresh hnil hlt
    rwa [hnil] at heffect
  · exact take_effect h hget

theorem wake_effect (h : Accounted s) {timeoutMs : Int} {timeout : Bool}
    (hwake : wake s timeoutMs timeout = some (s', k')) : Effect s k s' k' := by
  unfold wake at hwake
  simp only at hwake
  split_ifs at hwake
  all_goals first
    | exact take_effect h hwake
    | cases hwake; exact .same nofun

theorem step_effect (h : Accounted s) (hok : Backed k i) (hstep : step s k i = some (s', k')) :
    Effect s k s' k' := by
  cases k with
  | idle =>
    cases i with
    | getDBConn timeoutMs made =>
      obtain ⟨hfresh, hget⟩ := Option.ite_none_left_eq_some.mp hstep
      exact getDBConn_effect h hfresh hget
    | wake => cases hstep
    | relDBConn => cases hstep
  | waiting timeoutMs =>
    cases i with
    | wake timeout => exact wake_effect h hstep
    | getDBConn => cases hstep
    | relDBConn => cases hstep
  | got conn =>
    cases i with
    | relDBConn =>
      cases hstep
      cases conn with
      | none => exact absurd ⟨rfl, rfl⟩ hok
      | some c => exact .release rfl
    | getDBConn => cases hstep
    | wake => cases hstep

-- ---------------------------------------------------------------------------
-- The accounts
-- ---------------------------------------------------------------------------

theorem relDBConn_eq (h : Accounted s) (hc : some c ∈ s.usedList) :
    relDBConn s (some c) =
      { s with freeList := s.freeList ++ [some c], usedList := s.usedList.erase (some c) } := by
  obtain ⟨-, hused, hdisjoint⟩ := List.nodup_append.mp h.nodup
  have hfree : some c ∉ s.freeList := fun hmem => hdisjoint _ hmem _ hc rfl
  rw [relDBConn, if_neg hfree, hused.erase_eq_filter]
  rfl

theorem Accounted.release (h : Accounted s) (hc : some c ∈ s.usedList) :
    Accounted (relDBConn s (some c)) := by
  rw [relDBConn_eq h hc]
  refine h.of_perm ?_ rfl rfl rfl
  rw [List.append_assoc]
  exact (List.perm_cons_erase hc).symm.append_left _

theorem Accounted.reuse (h : Accounted s) (hfree : s.freeList = some c :: rest) :
    Accounted { s with freeList := rest, usedList := s.usedList ++ [some c] } := by
  refine h.of_perm ?_ rfl rfl rfl
  rw [hfree, ← List.append_assoc]
  exact List.perm_append_singleton _ _

theorem Accounted.create (h : Accounted s) (hfresh : c ∉ s.created) (hnil : s.freeList = [])
    (hlt : s.dbCurConnCnt < s.dbMaxConnCnt) : Accounted { s with
      usedList := s.usedList ++ [some c], created := c :: s.created
      dbCurConnCnt := s.dbCurConnCnt + 1 } := by
  have hconns := h.conns
  have hnodup := h.nodup
  have hcount := h.count
  rw [hnil, List.nil_append] at hconns hnodup
  rw [hnil] at hcount
  refine ⟨?_, ?_, ?_, Int.add_one_le_of_lt hlt⟩
  · intro o ho
    rw [hnil, List.nil_append, List.mem_append, List.mem_singleton] at ho
    rcases ho with ho | rfl
    · obtain ⟨d, hd, rfl⟩ := hconns o ho
      exact ⟨d, List.mem_cons_of_mem _ hd, rfl⟩
    · exact ⟨c, List.mem_cons_self, rfl⟩
  · rw [hnil, List.nil_append]
    refine List.nodup_append.mpr ⟨hnodup, List.pairwise_singleton .., ?_⟩
    rintro o ho _ hc rfl
    rw [List.mem_singleton] at hc
    obtain ⟨d, hd, heq⟩ := hconns o ho
    cases hc.symm.trans heq
    exact hfresh hd
  · simp only [List.length_append, List.length_nil, List.length_singleton, hnil] at hcount ⊢
    omega

def Here (s : CDBPool) (k : Pc) : Prop := ∀ c, k = .got (some c) → some c ∈ s.usedList

def Apart (k m : Pc) : Prop := ∀ c, k = .got (some c) → m ≠ .got (some c)

def outline : Outline CDBPool Pc Unit where
  shared _ := Accounted
  here _ := Here
  apart := Apart

theorem init_accounted {maxConnCnt : Int} {made : Nat → Made} (hmax : 1 ≤ maxConnCnt)
    (hinit : init made MIN_DB_CONN_CNT.toNat 0 (.new maxConnCnt) = (s, 0)) : Accounted s := by
  have hone : MIN_DB_CONN_CNT.toNat = 1 := rfl
  simp only [hone, init] at hinit
  split at hinit
  · next hret => exact absurd (congrArg Prod.snd hinit) hret
  · obtain ⟨rfl, -⟩ := Prod.mk.inj hinit
    exact ⟨by simp [CDBPool.new, CDBPool.make, CDBPool.pushFree], by simp [CDBPool.new, CDBPool.make,
      CDBPool.pushFree], rfl, hmax⟩

theorem outline_valid : outline.Valid (clients.only Backed) fun _ _ _ _ => True where
  start s hs := by
    obtain ⟨maxConnCnt, made, hmax, hinit⟩ := hs
    refine ⟨(), init_accounted hmax hinit, ?_⟩
    rintro k rfl
    exact nofun
  idle k m hk _ := by
    cases hk
    exact nofun
  symm k m h c hm hk := h c hk hm
  step g s k i s' k' hs hk hstep := by
    obtain ⟨hstep, hok⟩ := hstep
    refine ⟨(), ?_⟩
    have hdisjoint := (List.nodup_append.mp hs.nodup).2.2
    cases step_effect hs hok hstep with
    | same hnot => exact ⟨hs, fun c hc => absurd hc (hnot c), fun m hm _ _ =>
        ⟨hm, fun c hc => absurd hc (hnot c)⟩⟩
    | @reuse c rest hfree =>
      refine ⟨hs.reuse hfree, ?_, fun m hm _ _ => ⟨fun d hd => ?_, ?_⟩⟩
      · rintro d ⟨⟩
        exact List.mem_append_right _ List.mem_cons_self
      · exact List.mem_append_left _ (hm d hd)
      · rintro d ⟨⟩ hd
        exact hdisjoint _ (hfree ▸ List.mem_cons_self) _ (hm c hd) rfl
    | @create c hfresh hnil hlt =>
      refine ⟨hs.create hfresh hnil hlt, ?_, fun m hm _ _ => ⟨fun d hd => ?_, ?_⟩⟩
      · rintro d ⟨⟩
        exact List.mem_append_right _ List.mem_cons_self
      · exact List.mem_append_left _ (hm d hd)
      · rintro d ⟨⟩ hd
        obtain ⟨e, he, heq⟩ := hs.conns _ (List.mem_append_right _ (hm c hd))
        cases heq
        exact hfresh he
    | @release c hgot =>
      have hc := hk c hgot
      refine ⟨hs.release hc, nofun, fun m hm hapart _ => ⟨fun d hd => ?_, nofun⟩⟩
      have hne : (some d : Option Ptr) ≠ some c := by
        rintro ⟨⟩
        exact hapart c hgot hd
      rw [relDBConn_eq hs hc]
      exact (List.mem_erase_of_ne hne).mpr (hm d hd)

variable {τ : Type} [DecidableEq τ] {st st' : CDBPool × (τ → Pc)}

/-- While no client releases NULL, every connection is in one place. -/
theorem connections_accounted
    (h : Reach (clients.threads τ) (fun st i => Backed (st.2 i.1) i.2) st) :
    Accounted st.1 ∧ ∀ t u c, st.2 t = .got (some c) → st.2 u = .got (some c) → t = u := by
  obtain ⟨g, hst⟩ := outline_valid.holds_free (reach_only h)
  refine ⟨hst.shared, fun t u c ht hu => ?_⟩
  by_contra hne
  exact hst.apart t u hne c ht hu

def start : CDBPool × (Bool → Pc) := ((init (fun _ => ⟨7, 0⟩) 1 0 (.new 1)).1, fun _ => .idle)

theorem start_reach {guard : CDBPool × (Bool → Pc) → Bool × Action → Prop} :
    Reach (clients.threads Bool) guard start :=
  .init ⟨⟨1, fun _ => ⟨7, 0⟩, by decide, rfl⟩, fun _ => rfl⟩

/-- The second client waits for the connection of the first, and gets it. -/
theorem connections_accounted_twoClients : ∃ st : CDBPool × (Bool → Pc),
    st.2 false = .got (some 7) ∧ Accounted st.1 ∧
      ∀ t u c, st.2 t = .got (some c) → st.2 u = .got (some c) → t = u := by
  have h0 : Reach (clients.threads Bool) (fun st i => Backed (st.2 i.1) i.2) start := start_reach
  have h1 := reach_step (t := true) (i := .getDBConn 0 ⟨8, 0⟩) h0 (fun h => nomatch h.2) rfl
  have h2 := reach_step (t := false) (i := .getDBConn 2000 ⟨8, 0⟩) h1 (fun h => nomatch h.2) rfl
  have h3 := reach_step (t := true) (i := .relDBConn) h2 (fun h => nomatch h.1) rfl
  have h4 := reach_step (t := false) (i := .wake false) h3 (fun h => nomatch h.2) rfl
  exact ⟨_, rfl, connections_accounted h4⟩

/-- The second client gives up waiting, and releases what it was given: NULL. -/
theorem connections_released_null : ¬ ∀ st : CDBPool × (Bool → Pc),
    Reach (clients.threads Bool) free st →
      Accounted st.1 ∧ ∀ t u c, st.2 t = .got (some c) → st.2 u = .got (some c) → t = u := by
  intro h
  have h0 : Reach (clients.threads Bool) free start := start_reach
  have h1 := reach_step (t := true) (i := Action.getDBConn 0 ⟨8, 0⟩) h0 trivial rfl
  have h2 := reach_step (t := false) (i := Action.getDBConn 2000 ⟨8, 0⟩) h1 trivial rfl
  have h3 := reach_step (t := false) (i := Action.wake true) h2 trivial rfl
  have h4 := reach_step (t := false) (i := Action.relDBConn) h3 trivial rfl
  obtain ⟨c, -, hc⟩ := (h _ h4).1.conns none List.mem_cons_self
  cases hc

theorem accounted_iff (h : Reach (clients.threads τ) (fun st i => Backed (st.2 i.1) i.2) st)
    {i : τ × Action} (hstep : (clients.threads τ).step st i st') :
    Accounted st'.1 ↔ Backed (st.2 i.1) i.2 := by
  constructor
  · rintro hst' ⟨hgot, hrel⟩
    obtain ⟨k, hstep, -⟩ := hstep
    obtain ⟨hst, -⟩ := connections_accounted h
    have hnone : none ∉ st.1.freeList := by
      intro hmem
      obtain ⟨c, -, hc⟩ := hst.conns none (List.mem_append_left _ hmem)
      cases hc
    rw [hgot, hrel] at hstep
    have hst'_eq : relDBConn st.1 none = st'.1 := (Prod.mk.inj (Option.some.inj hstep)).1
    obtain ⟨c, -, hc⟩ := hst'.conns none (by simp [← hst'_eq, relDBConn, hnone, CDBPool.pushFree])
    cases hc
  · exact fun hok => (connections_accounted (h.step hok hstep)).1

end LearningCode.DbPool
