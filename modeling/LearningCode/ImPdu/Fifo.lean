import LearningCode.ImPdu.Header

/-!
# The simple buffer as a queue of bytes

Writes append, reads take the oldest bytes, and a caller may also ask for room
with `Extend`, fill it and advance the write offset. The bytes held follow the
queue as long as the size `Extend` computes is not cut off to less than what is
held and filled.
-/

namespace LearningCode.ImPdu

open LearningCode.Blocks

/-- `fill` is `Extend(n)`, bytes stored behind the data, and `IncWriteOffset`
over these bytes. -/
inductive BufOp
  | write (buf : Option (List Byte)) (len : UInt32)
  | read (len : UInt32)
  | fill (n : UInt32) (d : List Byte)
deriving Repr, DecidableEq

variable {R : Realloc} {b c : CSimpleBuffer} {l d out : List Byte} {n len : UInt32} {op : BufOp}
  {ops : List BufOp}

namespace CSimpleBuffer

/-- The null pointer is memory without a byte. -/
def start : CSimpleBuffer := { CSimpleBuffer.new with buffer := some [] }

def held (b : CSimpleBuffer) : List Byte := (b.buffer.getD []).take b.writeOffset.toNat

end CSimpleBuffer

namespace BufOp

def apply (R : Realloc) (b : CSimpleBuffer) : BufOp → Option (List Byte × CSimpleBuffer)
  | write buf len => do return ([], ← b.write R buf len)
  | read len => b.read len
  | fill n d => do return ([], ← recv (b.extend R n) d)

/-- The arguments are those of a caller: a source has `len` bytes, and no more
is filled than was asked for. -/
def Valid : BufOp → Prop
  | write (some buf) len => len.toNat ≤ buf.length
  | fill n d => d.length ≤ n.toNat
  | _ => True

/-- A queue of bytes. A write without a source appends bytes of any value. -/
def Queue : BufOp → (l out l' : List Byte) → Prop
  | write (some buf) len, l, out, l' => out = [] ∧ l' = l ++ buf.take len.toNat
  | write none len, l, out, l' => out = [] ∧ ∃ d, d.length = len.toNat ∧ l' = l ++ d
  | read len, l, out, l' => out = l.take len.toNat ∧ l' = l.drop len.toNat
  | fill _ d, l, out, l' => out = [] ∧ l' = l ++ d

def count (held : Nat) : BufOp → Nat
  | write _ len => held + len.toNat
  | read len => held - len.toNat
  | fill _ d => held + d.length

def Light (held : Nat) (op : BufOp) : Prop := op.count held < 2 ^ 31

/-- With `m` bytes to make room for, the size is `m` and a quarter more. It
fits in 32 bits, or what is left of it still has place for the bytes held and
those filled. -/
def Kept (held : Nat) : BufOp → Prop
  | fill n d =>
    let m := held + n.toNat
    m + m / 4 < 2 ^ 32 ∨ (m < 2 ^ 32 ∧ held + d.length + 2 ^ 32 ≤ m + m / 4) ∨
      (2 ^ 32 ≤ m ∧ held + d.length ≤ m - 2 ^ 32 + (m - 2 ^ 32) / 4)
  | _ => True

def AtEach (P : Nat → BufOp → Prop) : Nat → List BufOp → Prop
  | _, [] => True
  | held, op :: ops => P held op ∧ AtEach P (op.count held) ops

/-- Each operation stays inside the memory and does to the bytes held what it
does to a queue. -/
def Fifo (R : Realloc) : CSimpleBuffer → List BufOp → Prop
  | _, [] => True
  | b, op :: ops => ∃ out c, op.apply R b = some (out, c) ∧ op.Queue b.held out c.held ∧
      c.writeOffset ≤ c.allocSize ∧ Fifo R c ops

instance : Decidable (op.Valid) := by
  cases op with
  | write buf => cases buf <;> unfold Valid <;> infer_instance
  | read => unfold Valid; infer_instance
  | fill => unfold Valid; infer_instance

end BufOp

namespace CSimpleBuffer

structure Sound (b : CSimpleBuffer) (l : List Byte) : Prop where
  room : b.HasRoom l 0
  offset : b.writeOffset.toNat = l.length

theorem Sound.holds (h : b.Sound l) : b.Holds l := h.room.holds h.offset

theorem Sound.held (h : b.Sound l) : b.held = l := by
  obtain ⟨slack, hbuf, -⟩ := h.room
  simp [CSimpleBuffer.held, hbuf, h.offset]

theorem Sound.le (h : b.Sound l) : b.writeOffset ≤ b.allocSize := by
  obtain ⟨slack, -, hsize, -⟩ := h.room
  rw [UInt32.le_iff_toNat_le, h.offset, hsize, List.length_append]
  exact Nat.le_add_right _ _

theorem Sound.start : start.Sound [] := ⟨⟨[], rfl, rfl, Nat.le_refl _⟩, rfl⟩

theorem Holds.sound (h : b.Holds l) {mem : List Byte} (hmem : b.buffer = some mem) :
    b.Sound l := by
  obtain ⟨⟨slack, hbuf, hsize⟩, hoff⟩ := h
  rw [hmem, Option.getD_some] at hbuf
  exact ⟨⟨slack, hbuf ▸ hmem, hsize, Nat.zero_le _⟩, hoff⟩

-- --------------------------------------------------------------------------
-- One call
-- --------------------------------------------------------------------------

theorem Sound.roomFor (h : b.Sound l) (hlight : l.length + n.toNat < 2 ^ 31) :
    (b.roomFor R n).HasRoom l n.toNat := by
  obtain ⟨slack, hbuf, -⟩ := h.room
  exact h.holds.roomFor_of_some (roomy_of_lt hlight) fun _ => ⟨_, hbuf⟩

theorem Sound.write_some {buf : List Byte} (h : b.Sound l) (hlen : len.toNat ≤ buf.length)
    (hlight : l.length + len.toNat < 2 ^ 31) :
    ∃ c, b.write R (some buf) len = some c ∧ c.Sound (l ++ buf.take len.toNat) := by
  have hd : (buf.take len.toNat).length = len.toNat := by simpa using hlen
  obtain ⟨c, mem, hwrite, hmem, hc⟩ := (h.roomFor (R := R) hlight).write
    (e := buf.drop len.toNat) h.offset hd (roomy_of_lt hlight)
  rw [List.take_append_drop] at hwrite
  exact ⟨c, hwrite, hc.sound hmem⟩

theorem Sound.write_none (h : b.Sound l) (hlight : l.length + len.toNat < 2 ^ 31) :
    ∃ c d, b.write R none len = some c ∧ d.length = len.toNat ∧ c.Sound (l ++ d) := by
  obtain ⟨c, mem, d, hwrite, hmem, hc, hd⟩ :=
    (h.roomFor (R := R) hlight).reserve h.offset (roomy_of_lt hlight)
  exact ⟨c, d, hwrite, hd, hc.sound hmem⟩

theorem Sound.read_clamp (h : b.Sound l) (hlen : l.length < len.toNat) :
    b.read len = b.read b.writeOffset := by
  obtain ⟨slack, hbuf, -⟩ := h.room
  have hzero : len ≠ 0 := by
    rintro rfl
    simp at hlen
  have hmore : len > b.writeOffset := by
    rw [gt_iff_lt, UInt32.lt_iff_toNat_lt, h.offset]
    exact hlen
  by_cases hoff : b.writeOffset = 0
  · have hl : l = [] := List.length_eq_zero_iff.mp (by rw [← h.offset, hoff]; rfl)
    cases b
    simp_all [CSimpleBuffer.read, slice, overwrite]
  · simp [CSimpleBuffer.read, hzero, hmore, hoff]

theorem read_buffer {mem : List Byte} (hmem : b.buffer = some mem)
    (h : b.read len = some (out, c)) : ∃ mem', c.buffer = some mem' := by
  unfold CSimpleBuffer.read at h
  split at h
  · cases h
    exact ⟨mem, hmem⟩
  · simp only [hmem, Option.bind_eq_bind, Option.bind_some] at h
    obtain ⟨_, -, h⟩ := Option.bind_eq_some_iff.mp h
    obtain ⟨_, -, h⟩ := Option.bind_eq_some_iff.mp h
    obtain ⟨mem', -, h⟩ := Option.bind_eq_some_iff.mp h
    cases h
    exact ⟨mem', rfl⟩

theorem Sound.read (h : b.Sound l) (len : UInt32) :
    ∃ c, b.read len = some (l.take len.toNat, c) ∧ c.Sound (l.drop len.toNat) := by
  obtain ⟨slack, hbuf, -⟩ := h.room
  by_cases hlen : len.toNat ≤ l.length
  · have hholds : b.Holds (l.take len.toNat ++ l.drop len.toNat) := by
      simpa using h.holds
    obtain ⟨c, hread, hc⟩ := hholds.read (n := len) (by simpa using hlen)
    obtain ⟨mem, hmem⟩ := read_buffer hbuf hread
    exact ⟨c, hread, hc.sound hmem⟩
  · rw [Nat.not_le] at hlen
    have hholds : b.Holds (l ++ []) := by simpa using h.holds
    obtain ⟨c, hread, hc⟩ := hholds.read h.offset.symm
    obtain ⟨mem, hmem⟩ := read_buffer hbuf hread
    refine ⟨c, ?_, ?_⟩
    · rw [h.read_clamp hlen, hread, List.take_of_length_le (Nat.le_of_lt hlen)]
    · rw [List.drop_of_length_le (Nat.le_of_lt hlen)]
      exact hc.sound hmem

theorem Sound.recv_extend (h : b.Sound l) (hlight : l.length + d.length < 2 ^ 31)
    (hsize : l.length + d.length ≤ (b.extend R n).allocSize.toNat) :
    ∃ c, recv (b.extend R n) d = some c ∧ c.Sound (l ++ d) := by
  obtain ⟨c, mem, hrecv, hmem, hc⟩ := (h.holds.extend_of_le hsize).recv h.offset (roomy_of_lt hlight)
  exact ⟨c, hrecv, hc.sound hmem⟩

/-- With too little memory the bytes filled, or the write offset alone, are
behind it. -/
theorem Sound.recv_outside (h : b.Sound l)
    (hsize : (b.extend R n).allocSize.toNat < l.length + d.length) :
    recv (b.extend R n) d = none := by
  have hlen := R.length_run (b.buffer.getD []) (b.extend R n).allocSize.toNat
  have hmem : (b.extend R n).buffer =
      some (R.run (b.buffer.getD []) (b.extend R n).allocSize.toNat) := rfl
  have hoff : (b.extend R n).writeOffset.toNat = l.length := h.offset
  have hput : overwrite (R.run (b.buffer.getD []) (b.extend R n).allocSize.toNat) l.length d =
      none := by
    rw [overwrite, hlen, if_neg (Nat.not_le.mpr hsize)]
  simp [recv, hmem, hoff, hput]

end CSimpleBuffer

namespace BufOp

open CSimpleBuffer

-- --------------------------------------------------------------------------
-- Whole runs
-- --------------------------------------------------------------------------

theorem kept_fill (h : b.Sound l) (hvalid : d.length ≤ n.toNat)
    (hlight : l.length + d.length < 2 ^ 31) :
    (fill n d).Kept l.length ↔ l.length + d.length ≤ (b.extend R n).allocSize.toNat := by
  have hn := n.toNat_lt
  rw [allocSize_extend, h.offset]
  simp only [Kept]
  generalize hm : l.length + n.toNat = m
  rcases Nat.lt_or_ge m (2 ^ 32) with hlt | hge
  · rw [Nat.mod_eq_of_lt hlt]
    rcases Nat.lt_or_ge (m + m / 4) (2 ^ 32) with hfits | hover
    · rw [Nat.mod_eq_of_lt hfits]
      omega
    · rw [Nat.mod_eq_sub_mod hover, Nat.mod_eq_of_lt (by omega)]
      omega
  · rw [Nat.mod_eq_sub_mod hge, Nat.mod_eq_of_lt (b := 2 ^ 32) (by omega),
      Nat.mod_eq_of_lt (by omega)]
    omega

theorem kept_recv {held : Nat} (h : held < 2 ^ 31) : (fill readBufSize d).Kept held := by
  have hsize : readBufSize.toNat = 2048 := rfl
  refine .inl ?_
  rw [hsize]
  omega

theorem Kept.step (hkept : op.Kept l.length) (h : b.Sound l) (hvalid : op.Valid)
    (hlight : op.Light l.length) :
    ∃ out c l', op.apply R b = some (out, c) ∧ op.Queue l out l' ∧ c.Sound l' ∧
      l'.length = op.count l.length := by
  cases op with
  | write buf len =>
    cases buf with
    | none =>
      obtain ⟨c, d, hwrite, hd, hc⟩ := h.write_none (R := R) hlight
      exact ⟨[], c, _, by simp [apply, hwrite], ⟨rfl, d, hd, rfl⟩, hc, by simp [count, hd]⟩
    | some buf =>
      obtain ⟨c, hwrite, hc⟩ := h.write_some (R := R) hvalid hlight
      have hlen : min len.toNat buf.length = len.toNat := Nat.min_eq_left hvalid
      exact ⟨[], c, _, by simp [apply, hwrite], ⟨rfl, rfl⟩, hc, by simp [count, hlen]⟩
  | read len =>
    obtain ⟨c, hread, hc⟩ := h.read len
    exact ⟨_, c, _, hread, ⟨rfl, rfl⟩, hc, List.length_drop⟩
  | fill n d =>
    obtain ⟨c, hrecv, hc⟩ := h.recv_extend (R := R) hlight ((kept_fill h hvalid hlight).mp hkept)
    exact ⟨[], c, _, by simp [apply, hrecv], ⟨rfl, rfl⟩, hc, List.length_append⟩

theorem apply_outside (hlost : ¬op.Kept l.length) (h : b.Sound l)
    (hvalid : op.Valid) (hlight : op.Light l.length) : op.apply R b = none := by
  cases op with
  | write => exact absurd trivial hlost
  | read => exact absurd trivial hlost
  | fill n d =>
    rw [kept_fill (R := R) h hvalid hlight, Nat.not_le] at hlost
    simp [apply, h.recv_outside hlost]

theorem fifo_iff_of_sound (h : b.Sound l) (hvalid : ∀ op ∈ ops, op.Valid)
    (hlight : AtEach Light l.length ops) : Fifo R b ops ↔ AtEach Kept l.length ops := by
  induction ops generalizing b l with
  | nil => exact Iff.rfl
  | cons op ops ih =>
    have hop : op.Valid := hvalid op (List.mem_cons_self ..)
    by_cases hkept : op.Kept l.length
    · obtain ⟨out, c, l', hrun, hqueue, hc, hcount⟩ := hkept.step (R := R) h hop hlight.1
      have hrest : Fifo R c ops ↔ AtEach Kept (op.count l.length) ops := by
        rw [← hcount]
        exact ih hc (fun o ho => hvalid o (List.mem_cons_of_mem _ ho)) (hcount ▸ hlight.2)
      constructor
      · rintro ⟨_, _, hrun', -, -, hfifo⟩
        cases hrun.symm.trans hrun'
        exact ⟨hkept, hrest.mp hfifo⟩
      · rintro ⟨-, hall⟩
        refine ⟨out, c, hrun, ?_, hc.le, hrest.mpr hall⟩
        rw [h.held, hc.held]
        exact hqueue
    · constructor
      · rintro ⟨_, _, hrun, -⟩
        rw [apply_outside hkept h hop hlight.1] at hrun
        cases hrun
      · exact fun hall => absurd hall.1 hkept

/-- A buffer that starts empty is a queue exactly while no size is cut off. -/
theorem fifo_iff (hvalid : ∀ op ∈ ops, op.Valid) (hlight : AtEach Light 0 ops) :
    Fifo R start ops ↔ AtEach Kept 0 ops :=
  fifo_iff_of_sound .start hvalid hlight

/-- Room for `recv`, a message in and out. -/
theorem fifo_iff_recv : Fifo zeroed start [.fill 2048 [1, 2, 3], .read 2, .write none 4, .read 9] :=
  (fifo_iff (by decide) (by simp [AtEach, Light, count])).mpr
    (by simp [AtEach, Kept])

/-- Two bytes are held. A request for `2 ^ 32 - 1` more leaves one byte of memory. -/
theorem held_lost_by_extend :
    (∀ op ∈ [write (some [1, 2]) 2, fill 0xFFFFFFFF [3]], op.Valid) ∧
      AtEach Light 0 [write (some [1, 2]) 2, fill 0xFFFFFFFF [3]] ∧
      ¬Fifo zeroed start [write (some [1, 2]) 2, fill 0xFFFFFFFF [3]] := by
  refine ⟨by decide, by simp [AtEach, Light, count], ?_⟩
  rintro ⟨_, c, hwrite, -, -, _, _, hfill, -⟩
  cases hwrite
  cases hfill

end BufOp

end LearningCode.ImPdu
