import LearningCode.NtyCo.Model
import Mathlib.Data.Rat.Floor
import Mathlib.Tactic.FieldSimp
import Mathlib.Tactic.Ring

/-!
# How long `epoll_wait` waits

`nty_schedule_epoll` splits microseconds into seconds and nanoseconds, and
`nty_epoller_wait` makes milliseconds of them. From a second on, only the last three
digits get into the nanoseconds.
-/

namespace LearningCode.NtyCo

open Transition

variable {s : Schedule} {usecs : UInt64} {a b : Nat}

structure Timespec where
  tvSec : Int64
  tvNsec : Int64

def timespec (usecs : UInt64) : Timespec :=
  let tvSec := (usecs / 1000000).toInt64
  if tvSec ≠ 0 then ⟨tvSec, (usecs % 1000 * 1000).toInt64⟩
  else ⟨tvSec, (usecs * 1000).toInt64⟩

/-- `nty_schedule_epoll` up to its loop, which it may not get to. -/
def ntyScheduleEpoll (s : Schedule) : Option Timespec :=
  let usecs := ntyScheduleMinTimeout s
  if usecs ≠ 0 ∧ s.ready = [] then some (timespec usecs) else none

/-- The conversion to `int` drops what is behind the point; what does not fit has no result. -/
def toInt (x : ℚ) : Option Int :=
  let n := if 0 ≤ x then ⌊x⌋ else ⌈x⌉
  if -2 ^ 31 ≤ n ∧ n < 2 ^ 31 then some n else none

def ntyEpollerWait (t : Timespec) : Option Int :=
  toInt (t.tvSec.toInt * 1000 + t.tvNsec.toInt / 1000000)

def Denotes (t : Timespec) (usecs : UInt64) : Prop :=
  t.tvSec.toInt * 1000000000 + t.tvNsec.toInt = usecs.toNat * 1000

def Exact (usecs : UInt64) (t : Timespec) : Prop :=
  Denotes t usecs ∧ ntyEpollerWait t = some ⌊(usecs.toNat : ℚ) / 1000⌋

theorem toInt_toInt64 {x : UInt64} (h : x.toNat < 2 ^ 63) : x.toInt64.toInt = x.toNat := by
  rw [← Int64.toInt_toBitVec, UInt64.toBitVec_toInt64]
  exact BitVec.toInt_eq_toNat_of_lt (by rw [UInt64.toNat_toBitVec]; omega)

theorem timespec_short (h : usecs.toNat < 1000000) :
    (timespec usecs).tvSec.toInt = 0 ∧ (timespec usecs).tvNsec.toInt = ↑(usecs.toNat * 1000) := by
  have hsec : usecs / 1000000 = 0 := by
    apply UInt64.toNat.inj
    rw [UInt64.toNat_div]
    exact Nat.div_eq_of_lt h
  have hnsec : (usecs * 1000).toNat = usecs.toNat * 1000 := by
    rw [UInt64.toNat_mul]
    exact Nat.mod_eq_of_lt (show usecs.toNat * 1000 < 2 ^ 64 by omega)
  rw [timespec, hsec]
  exact ⟨rfl, (toInt_toInt64 (by omega)).trans (congrArg _ hnsec)⟩

theorem timespec_long (h : 1000000 ≤ usecs.toNat) :
    (timespec usecs).tvSec.toInt = ↑(usecs.toNat / 1000000) ∧
      (timespec usecs).tvNsec.toInt = ↑(usecs.toNat % 1000 * 1000) := by
  have hlt := usecs.toNat_lt
  have hdiv : (usecs / 1000000).toNat = usecs.toNat / 1000000 := UInt64.toNat_div ..
  have hsec : (usecs / 1000000).toInt64.toInt = ↑(usecs.toNat / 1000000) := by
    rw [← hdiv]
    exact toInt_toInt64 (by omega)
  have hne : (usecs / 1000000).toInt64 ≠ 0 := by
    intro hzero
    rw [hzero] at hsec
    have hpos : 0 < usecs.toNat / 1000000 := Nat.div_pos h (by decide)
    have hz : (0 : Int64).toInt = 0 := rfl
    omega
  have hnsec : (usecs % 1000 * 1000).toNat = usecs.toNat % 1000 * 1000 := by
    rw [UInt64.toNat_mul, UInt64.toNat_mod]
    exact Nat.mod_eq_of_lt (show usecs.toNat % 1000 * 1000 < 2 ^ 64 by omega)
  rw [timespec, if_pos hne]
  exact ⟨hsec, (toInt_toInt64 (by omega)).trans (congrArg _ hnsec)⟩

theorem floor_millis (a b : Nat) :
    ⌊((a : ℤ) * 1000 + (b : ℤ) / 1000000 : ℚ)⌋ = ↑((a * 1000000000 + b) / 1000000) := by
  have hsum : ((a : ℤ) * 1000 + (b : ℤ) / 1000000 : ℚ) =
      ((a * 1000000000 + b : ℕ) : ℚ) / (1000000 : ℕ) := by
    push_cast
    field_simp
    ring
  rw [hsum, Rat.floor_natCast_div_natCast]
  rfl

theorem ntyEpollerWait_eq {t : Timespec} (hsec : t.tvSec.toInt = a) (hnsec : t.tvNsec.toInt = b)
    (hfits : (a * 1000000000 + b) / 1000000 < 2 ^ 31) :
    ntyEpollerWait t = some ↑((a * 1000000000 + b) / 1000000) := by
  have hnonneg : (0 : ℚ) ≤ (a : ℤ) * 1000 + (b : ℤ) / 1000000 := by positivity
  rw [ntyEpollerWait, hsec, hnsec, toInt, if_pos hnonneg, floor_millis]
  exact if_pos ⟨by omega, by omega⟩

/-- Both are right or both are wrong: a second has to be all there is but for the last three
digits. -/
theorem exact_timespec_iff (hfits : usecs.toNat / 1000 < 2 ^ 31) :
    Exact usecs (timespec usecs) ↔ usecs.toNat < 1000000 ∨ usecs.toNat % 1000000 < 1000 := by
  have hfloor : ⌊(usecs.toNat : ℚ) / 1000⌋ = ↑(usecs.toNat / 1000) :=
    Rat.floor_natCast_div_natCast usecs.toNat 1000
  rw [Exact, Denotes, hfloor]
  by_cases hshort : usecs.toNat < 1000000
  · obtain ⟨hsec, hnsec⟩ := timespec_short hshort
    rw [ntyEpollerWait_eq (a := 0) hsec hnsec (by omega), hsec, hnsec, Option.some.injEq]
    omega
  · obtain ⟨hsec, hnsec⟩ := timespec_long (Nat.le_of_not_lt hshort)
    rw [ntyEpollerWait_eq hsec hnsec (by omega), hsec, hnsec, Option.some.injEq]
    omega

/-- The timeout is exact if and only if it is below a second, or less than a millisecond
behind a whole one. -/
theorem epoll_timeout_iff (s : Schedule) (hready : s.ready = [])
    (hpos : ntyScheduleMinTimeout s ≠ 0)
    (hfits : (ntyScheduleMinTimeout s).toNat / 1000 < 2 ^ 31) :
    (∃ t, ntyScheduleEpoll s = some t ∧ Exact (ntyScheduleMinTimeout s) t) ↔
      (ntyScheduleMinTimeout s).toNat < 1000000 ∨
        (ntyScheduleMinTimeout s).toNat % 1000000 < 1000 := by
  have hwait : ntyScheduleEpoll s = some (timespec (ntyScheduleMinTimeout s)) :=
    if_pos ⟨hpos, hready⟩
  rw [hwait, ← exact_timespec_iff hfits]
  constructor
  · rintro ⟨t, ht, hexact⟩
    exact Option.some.inj ht ▸ hexact
  · exact fun hexact => ⟨_, rfl, hexact⟩

/-- Nothing sleeps: the default of three seconds. -/
theorem epoll_timeout_iff_default : ∃ t, ntyScheduleEpoll (fresh 0) = some t ∧ Exact 3000000 t :=
  (epoll_timeout_iff (fresh 0) rfl (by decide) (by decide)).mpr (.inr (by decide))

/-- After `nty_coroutine_sleep(1500)` and `nty_recv`, the half second is missing. -/
theorem timeout_too_short : ¬ ∀ s, Reach coroutines free s → s.ready = [] →
    ntyScheduleMinTimeout s ≠ 0 → (ntyScheduleMinTimeout s).toNat / 1000 < 2 ^ 31 →
      ∃ t, ntyScheduleEpoll s = some t ∧ Exact (ntyScheduleMinTimeout s) t := by
  intro h
  have h0 : Reach coroutines free firstTurn := reach_firstTurn fun _ => ⟨trivial, trivial, trivial⟩
  have h1 := h0.step (i := Action.sleep 1500) trivial rfl
  have h2 := h1.step (i := Action.wait .recv 7 true) trivial rfl
  obtain ⟨t, ht, hexact⟩ := h _ h2 rfl (by decide) (by decide)
  have hhalf : Exact 1500000 (timespec 1500000) := Option.some.inj ht ▸ hexact
  exact absurd ((exact_timespec_iff (by decide)).mp hhalf) (by decide)

end LearningCode.NtyCo
