import LearningCode.Lib.Fuel
import LearningCode.WebSocket.Reactor
import Mathlib.Data.List.GetD

/-!
# The loop around `recv`

Only -1 ends the loop of `recv_cb`. A peer that has closed gives 0 instead, and so does
a request for nothing, which is what the loop makes once the buffer is full.
-/

namespace LearningCode.WebSocket

structure Socket where
  available : List UInt8
  closed : Bool

/-- What the peer has yet to do: a piece of its stream comes with each turn of the loop,
an empty one if it is too early, and then it closes or is silent. -/
structure Peer where
  pieces : List (List UInt8)
  closes : Bool

def Socket.arrive (s : Socket) : Peer → Socket × Peer
  | ⟨[], closes⟩ => ({ s with closed := closes }, ⟨[], closes⟩)
  | ⟨piece :: pieces, closes⟩ => ({ s with available := s.available ++ piece }, ⟨pieces, closes⟩)

/-- `recv` on a socket that does not block; -1 is `none`. -/
def Socket.recv (s : Socket) (requested : Nat) : Option (List UInt8) × Socket :=
  if requested = 0 then (some [], s)
  else if s.available ≠ [] then
    (some (s.available.take requested), { s with available := s.available.drop requested })
  else if s.closed then (some [], s)
  else (none, s)

def put (b : Buffer) (off : Nat) (bytes : List UInt8) : Buffer := fun j =>
  if off ≤ j ∧ j < off + bytes.length then bytes.getD (j - off) 0 else b j

def recvLoop : (turns : Nat) → Socket → Peer → Buffer → (len : Nat) → Option (Buffer × Nat)
  | 0, _, _, _, _ => none
  | turns + 1, s, peer, buffer, len =>
    let (s, peer) := s.arrive peer
    match s.recv (BUFFER_LENGTH - len) with
    | (some bytes, s) => recvLoop turns s peer (put buffer len bytes) (len + bytes.length)
    | (none, _) => some (buffer, len)

def recvAll (peer : Peer) (turns : Nat) : Option (Buffer × Nat) :=
  recvLoop turns ⟨[], false⟩ peer (load []) 0

/-- Nothing comes with some turn, although the peer has not closed, nor filled the
buffer up to then. -/
def Peer.Pauses (peer : Peer) : Prop :=
  ∃ i, (peer.pieces.take i).flatten.length < BUFFER_LENGTH ∧ peer.pieces.getD i [] = [] ∧
    (i < peer.pieces.length ∨ peer.closes = false)

variable {s : Socket} {peer : Peer} {pieces : List (List UInt8)} {l piece : List UInt8}
  {closes : Bool} {result : Buffer × Nat}

def Ends (s : Socket) (peer : Peer) (l : List UInt8) : Prop :=
  ∃ result, Returns (fun turns => recvLoop turns s peer (load l) l.length) result

def PausesAfter (l : List UInt8) (peer : Peer) : Prop :=
  ∃ i, l.length + (peer.pieces.take i).flatten.length < BUFFER_LENGTH ∧
    peer.pieces.getD i [] = [] ∧ (i < peer.pieces.length ∨ peer.closes = false)

theorem put_load (l bytes : List UInt8) : put (load l) l.length bytes = load (l ++ bytes) := by
  funext j
  by_cases hl : j < l.length
  · rw [put, if_neg (by omega), load, load, List.getD_append _ _ _ _ hl]
  · have hle : l.length ≤ j := Nat.le_of_not_lt hl
    rw [load, List.getD_append_right _ _ _ _ hle, put]
    by_cases hb : j < l.length + bytes.length
    · rw [if_pos ⟨hle, hb⟩]
    · rw [if_neg (by omega), load, List.getD_eq_default _ _ hle,
        List.getD_eq_default _ _ (by omega)]

-- ---------------------------------------------------------------------------
-- One turn
-- ---------------------------------------------------------------------------

theorem recvLoop_succ (turns : Nat) (buffer : Buffer) (len : Nat) :
    recvLoop (turns + 1) s peer buffer len =
      match (s.arrive peer).1.recv (BUFFER_LENGTH - len) with
      | (some bytes, s') =>
        recvLoop turns s' (s.arrive peer).2 (put buffer len bytes) (len + bytes.length)
      | (none, _) => some (buffer, len) := rfl

theorem recvLoop_some {bytes : List UInt8} {s' : Socket}
    (h : (s.arrive peer).1.recv (BUFFER_LENGTH - l.length) = (some bytes, s')) (turns : Nat) :
    recvLoop (turns + 1) s peer (load l) l.length =
      recvLoop turns s' (s.arrive peer).2 (load (l ++ bytes)) (l ++ bytes).length := by
  rw [recvLoop_succ, h, ← put_load, List.length_append]

theorem ends_turn {bytes : List UInt8} {s' : Socket}
    (h : (s.arrive peer).1.recv (BUFFER_LENGTH - l.length) = (some bytes, s')) :
    Ends s peer l ↔ Ends s' (s.arrive peer).2 (l ++ bytes) :=
  exists_congr fun _ => Returns.turn_iff (recvLoop_some h)

theorem ends_last (s' : Socket)
    (h : (s.arrive peer).1.recv (BUFFER_LENGTH - l.length) = (none, s')) : Ends s peer l :=
  ⟨(load l, l.length), Returns.last fun turns => by rw [recvLoop_succ, h]⟩

theorem not_ends_of_none (h : ∀ turns, recvLoop turns s peer (load l) l.length = none) :
    ¬Ends s peer l := fun ⟨_, hreturns⟩ => Returns.not_of_none h hreturns

theorem recvLoop_full (hfull : BUFFER_LENGTH ≤ l.length) (turns : Nat) :
    recvLoop turns s peer (load l) l.length = none := by
  induction turns generalizing s peer with
  | zero => rfl
  | succ turns ih =>
    have hrecv : (s.arrive peer).1.recv (BUFFER_LENGTH - l.length) =
        (some [], (s.arrive peer).1) := if_pos (Nat.sub_eq_zero_of_le hfull)
    rw [recvLoop_some hrecv, List.append_nil]
    exact ih

theorem recvLoop_closed (turns : Nat) :
    recvLoop turns ⟨[], closes⟩ ⟨[], true⟩ (load l) l.length = none := by
  induction turns generalizing closes with
  | zero => rfl
  | succ turns ih =>
    have hrecv : (Socket.arrive ⟨[], closes⟩ ⟨[], true⟩).1.recv (BUFFER_LENGTH - l.length) =
        (some [], ⟨[], true⟩) := by simp [Socket.arrive, Socket.recv]
    rw [recvLoop_some hrecv, List.append_nil]
    exact ih

theorem recv_piece (hroom : l.length < BUFFER_LENGTH) (hpiece : piece ≠ []) :
    (Socket.arrive ⟨[], false⟩ ⟨piece :: pieces, closes⟩).1.recv (BUFFER_LENGTH - l.length) =
      (some (piece.take (BUFFER_LENGTH - l.length)),
        ⟨piece.drop (BUFFER_LENGTH - l.length), false⟩) := by
  have hne : BUFFER_LENGTH - l.length ≠ 0 := by omega
  simp [Socket.arrive, Socket.recv, hne, hpiece]

-- ---------------------------------------------------------------------------
-- The whole loop
-- ---------------------------------------------------------------------------

theorem pausesAfter_nil :
    PausesAfter l ⟨[], closes⟩ ↔ l.length < BUFFER_LENGTH ∧ closes = false := by
  simp [PausesAfter]

theorem pausesAfter_cons : PausesAfter l ⟨piece :: pieces, closes⟩ ↔
    l.length < BUFFER_LENGTH ∧ piece = [] ∨ PausesAfter (l ++ piece) ⟨pieces, closes⟩ := by
  constructor
  · rintro ⟨i, hroom, hnone, hopen⟩
    cases i with
    | zero => exact .inl ⟨hroom, hnone⟩
    | succ i =>
      refine .inr ⟨i, ?_, hnone, hopen.imp_left Nat.lt_of_succ_lt_succ⟩
      rwa [List.length_append, Nat.add_assoc, ← List.length_append]
  · rintro (⟨hroom, hpiece⟩ | ⟨i, hroom, hnone, hopen⟩)
    · exact ⟨0, hroom, hpiece, .inl (Nat.succ_pos _)⟩
    · refine ⟨i + 1, ?_, hnone, hopen.imp_left Nat.succ_lt_succ⟩
      rwa [List.length_append, Nat.add_assoc, ← List.length_append] at hroom

theorem not_pausesAfter_full (hfull : BUFFER_LENGTH ≤ l.length) : ¬PausesAfter l peer := by
  rintro ⟨i, hroom, -⟩
  omega

/-- As long as there is room, a turn takes all that has come. -/
theorem ends_iff_pausesAfter (l : List UInt8) (pieces : List (List UInt8)) (closes : Bool) :
    Ends ⟨[], false⟩ ⟨pieces, closes⟩ l ↔ PausesAfter l ⟨pieces, closes⟩ := by
  by_cases hfull : BUFFER_LENGTH ≤ l.length
  · exact iff_of_false (not_ends_of_none (recvLoop_full hfull)) (not_pausesAfter_full hfull)
  have hroom : l.length < BUFFER_LENGTH := Nat.lt_of_not_le hfull
  have hne : BUFFER_LENGTH - l.length ≠ 0 := by omega
  induction pieces generalizing l with
  | nil =>
    rw [pausesAfter_nil]
    cases closes with
    | true => exact iff_of_false (not_ends_of_none recvLoop_closed) (by simp)
    | false =>
      refine iff_of_true (ends_last ⟨[], false⟩ ?_) ⟨hroom, rfl⟩
      simp [Socket.arrive, Socket.recv, hne]
  | cons piece pieces ih =>
    rw [pausesAfter_cons]
    by_cases hpiece : piece = []
    · refine iff_of_true (ends_last ⟨[], false⟩ ?_) (.inl ⟨hroom, hpiece⟩)
      simp [Socket.arrive, Socket.recv, hne, hpiece]
    · rw [ends_turn (recv_piece hroom hpiece), or_iff_right (fun h => hpiece h.2)]
      by_cases hfits : (l ++ piece).length < BUFFER_LENGTH
      · have hle : piece.length ≤ BUFFER_LENGTH - l.length := by
          rw [List.length_append] at hfits
          omega
        rw [List.take_of_length_le hle, List.drop_of_length_le hle]
        exact ih _ (Nat.not_le.mpr hfits) hfits (by omega)
      · have hlength : BUFFER_LENGTH ≤ (l ++ piece.take (BUFFER_LENGTH - l.length)).length := by
          rw [List.length_append] at hfits
          rw [List.length_append, List.length_take]
          omega
        exact iff_of_false (not_ends_of_none (recvLoop_full hlength))
          (not_pausesAfter_full (Nat.le_of_not_lt hfits))

/-- The loop ends if and only if the peer pauses. -/
theorem recv_loop_ends_iff (peer : Peer) :
    (∃ result, Returns (recvAll peer) result) ↔ peer.Pauses := by
  have hiff := ends_iff_pausesAfter [] peer.pieces peer.closes
  simp only [PausesAfter, List.length_nil, Nat.zero_add] at hiff
  exact hiff

/-- Two bytes, and then the peer closes: 0 ever after. -/
theorem closed_after_hi : ¬∃ result, Returns (recvAll ⟨[ascii "hi"], true⟩) result := by
  have hpauses : ¬PausesAfter [] ⟨[ascii "hi"], true⟩ := by
    have hsome : ascii "hi" ≠ [] := by decide
    simp [pausesAfter_cons, pausesAfter_nil, hsome]
  exact fun hends => hpauses ((ends_iff_pausesAfter ..).mp hends)

-- ---------------------------------------------------------------------------
-- What it leaves
-- ---------------------------------------------------------------------------

theorem recv_none {requested : Nat} {s' : Socket} (h : s.recv requested = (none, s')) :
    requested ≠ 0 := by
  intro hzero
  rw [Socket.recv, if_pos hzero] at h
  cases h

/-- Nothing is lost, and nothing comes twice. -/
theorem recv_some {requested : Nat} {bytes : List UInt8} {s' : Socket}
    (h : s.recv requested = (some bytes, s')) : bytes ++ s'.available = s.available := by
  rw [Socket.recv] at h
  split at h
  · cases h
    rfl
  · split at h
    · cases h
      exact List.take_append_drop requested s.available
    · split at h
      · cases h
        rfl
      · cases h

theorem arrive_available (s : Socket) (peer : Peer) :
    (s.arrive peer).1.available ++ (s.arrive peer).2.pieces.flatten =
      s.available ++ peer.pieces.flatten := by
  obtain ⟨pieces, closes⟩ := peer
  cases pieces with
  | nil => rfl
  | cons piece pieces => simp [Socket.arrive]

theorem recvLoop_load {buffer : Buffer} {len turns : Nat}
    (h : recvLoop turns s peer (load l) l.length = some (buffer, len)) :
    ∃ data, data <+: l ++ (s.available ++ peer.pieces.flatten) ∧ data.length < BUFFER_LENGTH ∧
      buffer = load data ∧ len = data.length := by
  induction turns generalizing s peer l with
  | zero => cases h
  | succ turns ih =>
    rw [← arrive_available]
    cases hrecv : (s.arrive peer).1.recv (BUFFER_LENGTH - l.length) with
    | mk bytes s' =>
      cases bytes with
      | none =>
        rw [recvLoop_succ, hrecv] at h
        cases h
        have hroom := recv_none hrecv
        exact ⟨l, List.prefix_append .., by omega, rfl, rfl⟩
      | some bytes =>
        rw [recvLoop_some hrecv] at h
        rw [← recv_some hrecv, List.append_assoc, ← List.append_assoc]
        exact ih h

theorem recvAll_data {buffer : Buffer} {len turns : Nat}
    (h : recvAll peer turns = some (buffer, len)) :
    ∃ data, data <+: peer.pieces.flatten ∧ data.length < BUFFER_LENGTH ∧
      buffer = load data ∧ len = data.length := recvLoop_load h

end LearningCode.WebSocket
