import Mathlib.Data.List.Basic
import Mathlib.Order.Basic

/-!
# Spans of addresses
-/

namespace LearningCode

structure Span where
  addr : Nat
  size : Nat
deriving DecidableEq, Repr

namespace Span

variable {a b c : Span} {l m : List Span}

def stop (a : Span) : Nat := a.addr + a.size

def Apart (a b : Span) : Prop := a.stop ≤ b.addr ∨ b.stop ≤ a.addr

def Within (a b : Span) : Prop := b.addr ≤ a.addr ∧ a.stop ≤ b.stop

theorem Apart.symm (h : Apart a b) : Apart b a := Or.symm h

theorem Apart.within (h : Apart a b) (hc : Within c a) : Apart c b :=
  h.imp (Nat.le_trans hc.2) fun h => Nat.le_trans h hc.1

theorem Apart.addr_ne (h : Apart a b) (ha : 0 < a.size) (hb : 0 < b.size) : a.addr ≠ b.addr := by
  intro heq
  rcases h with h | h
  · exact absurd h (Nat.not_le_of_lt (heq ▸ Nat.lt_add_of_pos_right ha))
  · exact absurd h (Nat.not_le_of_lt (heq ▸ Nat.lt_add_of_pos_right hb))

theorem pairwise_of_perm (h : l.Pairwise Apart) (hlm : l.Perm m) : m.Pairwise Apart :=
  (hlm.pairwise_iff fun h => Apart.symm h).mp h

end Span

end LearningCode
