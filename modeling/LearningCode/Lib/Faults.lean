import LearningCode.Lib.Fuel

/-!
# Loops that may go wrong

A run has no result while its turns are used up, and else a value or the fault that
stopped it. With `Steady` runs, for which more turns change nothing, what is put
together of parts stops as its parts do.
-/

namespace LearningCode

universe u

/-- A number of turns is enough for it. -/
def Steady {α : Type u} (f : Nat → Option α) : Prop :=
  ∀ turns a, f turns = some a → f (turns + 1) = some a

theorem Steady.mono {α : Type u} {f : Nat → Option α} {m n : Nat} {a : α} (hf : Steady f)
    (h : f m = some a) (hle : m ≤ n) : f n = some a := by
  induction hle with
  | refl => exact h
  | step _ ih => exact hf _ a ih

theorem Steady.returns {α : Type u} {f : Nat → Option α} {turns : Nat} {a : α} (hf : Steady f)
    (h : f turns = some a) : Returns f a :=
  ⟨turns, fun _ hle => hf.mono h hle⟩

theorem Steady.returns_iff {α : Type u} {f : Nat → Option α} {a : α} (hf : Steady f) :
    Returns f a ↔ ∃ turns, f turns = some a :=
  ⟨fun ⟨enough, h⟩ => ⟨enough, h enough (Nat.le_refl _)⟩, fun ⟨_, h⟩ => hf.returns h⟩

namespace Faults

variable {ε α β : Type u}

abbrev Run (ε α : Type u) := ExceptT ε Option α

def running : Run ε α := ExceptT.mk none

def need (fault : ε) : Option α → Run ε α
  | some a => pure a
  | none => throw fault

/-- The value, unless it is still running or has gone wrong. -/
def value (x : Run ε α) : Option α :=
  match x.run with
  | some (.ok a) => some a
  | _ => none

variable {x : Run ε α} {k : α → Run ε β} {fault : ε} {a : α} {b : β}

@[simp] theorem run_running : (running : Run ε α).run = none := rfl

@[simp] theorem run_return : (pure a : Run ε α).run = some (.ok a) := rfl

@[simp] theorem run_need_some : (need fault (some a)).run = some (.ok a) := rfl

@[simp] theorem run_need_none : (need fault (none : Option α)).run = some (.error fault) := rfl

theorem bind_of_none (h : x.run = none) : (x >>= k).run = none := by
  rw [ExceptT.run_bind, h]
  rfl

theorem bind_of_error (h : x.run = some (.error fault)) :
    (x >>= k).run = some (.error fault) := by
  rw [ExceptT.run_bind, h]
  rfl

theorem bind_of_ok (h : x.run = some (.ok a)) : (x >>= k).run = (k a).run := by
  rw [ExceptT.run_bind, h]
  rfl

@[simp] theorem bind_need_some : need fault (some a) >>= k = k a := rfl

@[simp] theorem bind_need_none :
    (need fault (none : Option α) >>= k).run = some (.error fault) := rfl

theorem value_eq_some : value x = some a ↔ x.run = some (.ok a) := by
  unfold value
  split
  · rename_i a' h
    simp [h]
  · rename_i h
    exact ⟨fun hnone => (nomatch hnone), fun hsome => absurd hsome (h a)⟩

@[simp] theorem value_running : value (running : Run ε α) = none := rfl

@[simp] theorem value_return : value (pure a : Run ε α) = some a := rfl

@[simp] theorem value_throw : value (throw fault : Run ε α) = none := rfl

@[simp] theorem value_need {o : Option α} : value (need fault o) = o := by
  cases o with
  | none => rfl
  | some a => rfl

@[simp] theorem value_bind : value (x >>= k) = (value x).bind fun a => value (k a) := by
  cases hx : x.run with
  | none => simp [value, bind_of_none hx, hx]
  | some r =>
    cases r with
    | error fault => simp [value, bind_of_error hx, hx]
    | ok a => simp [value, bind_of_ok hx, hx]

-- ---------------------------------------------------------------------------
-- Runs with enough turns
-- ---------------------------------------------------------------------------

def Stops (f : Nat → Run ε α) (r : Except ε α) : Prop := Returns (fun turns => (f turns).run) r

def Ends (f : Nat → Run ε α) : Prop := ∃ r, Stops f r

variable {f : Nat → Run ε α} {g : Nat → α → Run ε β} {r : Except ε β}

theorem Stops.bind_error (h : Stops f (.error fault)) :
    Stops (fun turns => f turns >>= g turns) (.error fault) := by
  obtain ⟨enough, h⟩ := h
  exact ⟨enough, fun turns hle => bind_of_error (h turns hle)⟩

theorem Stops.bind (h : Stops f (.ok a)) (hg : Stops (fun turns => g turns a) r) :
    Stops (fun turns => f turns >>= g turns) r := by
  obtain ⟨n, hn⟩ := h
  obtain ⟨m, hm⟩ := hg
  refine ⟨max n m, fun turns hle => ?_⟩
  have hok := hn turns (Nat.le_trans (Nat.le_max_left n m) hle)
  exact (bind_of_ok hok).trans (hm turns (Nat.le_trans (Nat.le_max_right n m) hle))

def Keeps (f : Nat → Run ε α) : Prop := Steady fun turns => (f turns).run

theorem Keeps.const {x : Run ε α} : Keeps fun _ => x := fun _ _ h => h

theorem Keeps.bind (hf : Keeps f) (hg : ∀ a, Keeps fun turns => g turns a) :
    Keeps fun turns => f turns >>= g turns := by
  intro turns r h
  dsimp only at h ⊢
  cases hx : (f turns).run with
  | none => cases (bind_of_none hx).symm.trans h
  | some outcome =>
    cases outcome with
    | error fault =>
      rw [bind_of_error hx] at h
      rw [bind_of_error (hf turns _ hx), h]
    | ok a =>
      rw [bind_of_ok hx] at h
      rw [bind_of_ok (hf turns _ hx)]
      exact hg a turns r h

theorem stops_bind (hf : Keeps f) :
    Stops (fun turns => f turns >>= g turns) r ↔
      (∃ fault, Stops f (.error fault) ∧ r = .error fault) ∨
        ∃ a, Stops f (.ok a) ∧ Stops (fun turns => g turns a) r := by
  constructor
  · rintro ⟨enough, h⟩
    cases hx : (f enough).run with
    | none => cases (bind_of_none hx).symm.trans (h enough (Nat.le_refl _))
    | some outcome =>
      cases outcome with
      | error fault =>
        have hr := (bind_of_error hx).symm.trans (h enough (Nat.le_refl _))
        exact .inl ⟨fault, hf.returns hx, (Option.some.inj hr).symm⟩
      | ok a =>
        refine .inr ⟨a, hf.returns hx, enough, fun turns hle => ?_⟩
        exact (bind_of_ok (hf.mono hx hle)).symm.trans (h turns hle)
  · rintro (⟨fault, h, rfl⟩ | ⟨a, h, hg⟩)
    · exact h.bind_error
    · exact h.bind hg

theorem ends_bind (hf : Keeps f) :
    Ends (fun turns => f turns >>= g turns) ↔
      Ends f ∧ ∀ a, Stops f (.ok a) → Ends fun turns => g turns a := by
  constructor
  · rintro ⟨r, hr⟩
    obtain ⟨fault, h, -⟩ | ⟨a, h, hg⟩ := (stops_bind hf).mp hr
    · refine ⟨⟨_, h⟩, fun a ha => ?_⟩
      cases h.unique ha
    · refine ⟨⟨_, h⟩, fun a' ha => ?_⟩
      cases h.unique ha
      exact ⟨r, hg⟩
  · rintro ⟨⟨outcome, h⟩, hall⟩
    cases outcome with
    | error fault => exact ⟨_, h.bind_error⟩
    | ok a =>
      obtain ⟨r, hr⟩ := hall a h
      exact ⟨r, h.bind hr⟩

theorem stops_ok_bind (hf : Keeps f) :
    Stops (fun turns => f turns >>= g turns) (.ok b) ↔
      ∃ a, Stops f (.ok a) ∧ Stops (fun turns => g turns a) (.ok b) := by
  rw [stops_bind hf]
  refine ⟨?_, .inr⟩
  rintro (⟨fault, -, hnone⟩ | h)
  · cases hnone
  · exact h

@[simp] theorem stops_const {x : Run ε α} {r : Except ε α} :
    Stops (fun _ => x) r ↔ x.run = some r :=
  ⟨fun ⟨enough, h⟩ => h enough (Nat.le_refl _), fun h => .const fun _ => h⟩

theorem ends_need {o : Option α} : Ends fun _ => need fault o := by
  cases o with
  | none => exact ⟨_, stops_const.mpr run_need_none⟩
  | some a => exact ⟨_, stops_const.mpr run_need_some⟩

theorem stops_need {o : Option α} : Stops (fun _ => need fault o) (.ok a) ↔ o = some a := by
  rw [stops_const, ← value_eq_some, value_need]

end Faults

end LearningCode
