import LearningCode.ImPdu.Model

/-!
# What a simple buffer holds

The bytes up to the write offset are the data; behind them there is room up to
the allocated size. As long as a quarter more than the data fits in 32 bits, no
size wraps around.
-/

namespace LearningCode.ImPdu

open LearningCode.Blocks

variable {R : Realloc} {b : CSimpleBuffer} {l d e : List Byte} {n : UInt32}

def Roomy (n : Nat) : Prop := n + n / 4 < 2 ^ 32

theorem roomy_of_lt {n : Nat} (h : n < 2 ^ 31) : Roomy n := by
  unfold Roomy
  omega

namespace CSimpleBuffer

structure Holds (b : CSimpleBuffer) (l : List Byte) : Prop where
  mem : ∃ slack, b.buffer.getD [] = l ++ slack ∧ b.allocSize.toNat = (l ++ slack).length
  offset : b.writeOffset.toNat = l.length

def HasRoom (b : CSimpleBuffer) (l : List Byte) (room : Nat) : Prop :=
  ∃ slack, b.buffer = some (l ++ slack) ∧ b.allocSize.toNat = (l ++ slack).length ∧
    room ≤ slack.length

theorem HasRoom.holds {room : Nat} (h : b.HasRoom l room) (hoff : b.writeOffset.toNat = l.length) :
    b.Holds l := by
  obtain ⟨slack, hbuf, hsize, -⟩ := h
  exact ⟨⟨slack, by simp [hbuf], hsize⟩, hoff⟩

theorem buffer_eq_some {mem : List Byte} (h : b.buffer.getD [] = mem) (hne : mem ≠ []) :
    b.buffer = some mem := by
  cases hb : b.buffer with
  | none => simp [hb, hne.symm] at h
  | some _ => simpa [hb] using h

theorem HasRoom.mono {m n : Nat} (h : b.HasRoom l n) (hle : m ≤ n) : b.HasRoom l m := by
  obtain ⟨slack, hbuf, hsize, hroom⟩ := h
  exact ⟨slack, hbuf, hsize, Nat.le_trans hle hroom⟩

theorem Holds.hasRoom (h : b.Holds l) (hne : l ≠ []) : b.HasRoom l 0 := by
  obtain ⟨⟨slack, hbuf, hsize⟩, -⟩ := h
  exact ⟨slack, buffer_eq_some hbuf (by simp [hne]), hsize, Nat.zero_le _⟩

theorem Holds.new : new.Holds [] := ⟨⟨[], rfl, rfl⟩, rfl⟩

theorem Holds.toNat_add (h : b.Holds l) (hr : Roomy (l.length + n.toNat)) :
    (b.writeOffset + n).toNat = l.length + n.toNat := by
  unfold Roomy at hr
  rw [UInt32.toNat_add, h.offset]
  exact Nat.mod_eq_of_lt (by omega)

theorem allocSize_extend : (b.extend R n).allocSize.toNat =
    ((b.writeOffset.toNat + n.toNat) % 2 ^ 32 +
      (b.writeOffset.toNat + n.toNat) % 2 ^ 32 / 4) % 2 ^ 32 := by
  simp [extend, UInt32.toNat_add, UInt32.toNat_shiftRight, Nat.shiftRight_eq_div_pow]

theorem Holds.extend_of_le {room : Nat} (h : b.Holds l)
    (hle : l.length + room ≤ (b.extend R n).allocSize.toNat) :
    (b.extend R n).HasRoom l room := by
  obtain ⟨slack, hbuf, -⟩ := h.mem
  have hmem : (b.extend R n).buffer =
      some (R.run (l ++ slack) (b.extend R n).allocSize.toNat) := by
    simp [CSimpleBuffer.extend, hbuf]
  rw [HasRoom, hmem]
  generalize (b.extend R n).allocSize.toNat = size at hle ⊢
  have hkept : (R.run (l ++ slack) size).take l.length = l := by
    have htake := congrArg (List.take l.length) (R.take_run (l ++ slack) size)
    simpa [List.take_take, Nat.le_of_add_right_le hle] using htake
  have hlen := R.length_run (l ++ slack) size
  have hsplit := List.take_append_drop l.length (R.run (l ++ slack) size)
  rw [hkept] at hsplit
  refine ⟨(R.run (l ++ slack) size).drop l.length, by rw [hsplit], by rw [hsplit, hlen], ?_⟩
  rw [List.length_drop, hlen]
  omega

theorem Holds.extend (h : b.Holds l) (hr : Roomy (l.length + n.toNat)) :
    (b.extend R n).HasRoom l n.toNat := by
  unfold Roomy at hr
  have hfits : (l.length + n.toNat) % 2 ^ 32 = l.length + n.toNat :=
    Nat.mod_eq_of_lt (by omega)
  apply h.extend_of_le
  rw [allocSize_extend, h.offset, hfits, Nat.mod_eq_of_lt hr]
  exact Nat.le_add_right _ _

/-- Writing makes room first when there is too little. -/
def roomFor (R : Realloc) (b : CSimpleBuffer) (n : UInt32) : CSimpleBuffer :=
  if b.writeOffset + n > b.allocSize then b.extend R n else b

@[simp] theorem roomFor_writeOffset : (b.roomFor R n).writeOffset = b.writeOffset := by
  unfold roomFor
  split <;> rfl

/-- Where the memory is long enough, if there is any. -/
theorem Holds.roomFor_of_some (h : b.Holds l) (hr : Roomy (l.length + n.toNat))
    (hsome : l.length + n.toNat ≤ b.allocSize.toNat → ∃ mem, b.buffer = some mem) :
    (b.roomFor R n).HasRoom l n.toNat := by
  unfold roomFor
  split
  · exact h.extend hr
  · rename_i hfits
    rw [gt_iff_lt, UInt32.lt_iff_toNat_lt, h.toNat_add hr, Nat.not_lt] at hfits
    obtain ⟨mem, hmem⟩ := hsome hfits
    obtain ⟨slack, hbuf, hsize⟩ := h.mem
    rw [hmem, Option.getD_some] at hbuf
    rw [hsize, List.length_append] at hfits
    exact ⟨slack, hbuf ▸ hmem, hsize, Nat.le_of_add_le_add_left hfits⟩

theorem Holds.roomFor (h : b.Holds l) (hr : Roomy (l.length + n.toNat))
    (hne : l ≠ [] ∨ 0 < n.toNat) : (b.roomFor R n).HasRoom l n.toNat := by
  refine h.roomFor_of_some hr fun hfits => ?_
  obtain ⟨slack, hbuf, hsize⟩ := h.mem
  refine ⟨_, buffer_eq_some hbuf fun hnil => ?_⟩
  obtain ⟨rfl, rfl⟩ := List.append_eq_nil_iff.mp hnil
  simp only [hsize, List.append_nil, List.length_nil, Nat.zero_add, Nat.le_zero] at hfits
  simp [hfits] at hne

theorem HasRoom.fill {room : List Byte} (hoff : b.writeOffset.toNat = l.length)
    (hr : Roomy (l.length + n.toNat)) (hlen : d.length = n.toNat)
    (hbuf : b.buffer = some (l ++ (d ++ room)))
    (hsize : b.allocSize.toNat = (l ++ (d ++ room)).length) :
    (b.incWriteOffset n).Holds (l ++ d) := by
  refine ⟨⟨room, by simp [incWriteOffset, hbuf], by simpa [incWriteOffset] using hsize⟩, ?_⟩
  unfold Roomy at hr
  have hadd : (b.writeOffset + n).toNat = l.length + n.toNat := by
    rw [UInt32.toNat_add, hoff]
    exact Nat.mod_eq_of_lt (by omega)
  simp [incWriteOffset, hadd, hlen]

theorem HasRoom.cut (h : b.HasRoom l n.toNat) : ∃ used left, used.length = n.toNat ∧
    b.buffer = some (l ++ (used ++ left)) ∧ b.allocSize.toNat = (l ++ (used ++ left)).length := by
  obtain ⟨slack, hbuf, hsize, hroom⟩ := h
  refine ⟨slack.take n.toNat, slack.drop n.toNat, by simpa using hroom, ?_, ?_⟩
  · simpa using hbuf
  · simpa using hsize

theorem HasRoom.overwrite (h : b.HasRoom l n.toNat) (hoff : b.writeOffset.toNat = l.length)
    (hd : d.length = n.toNat) (hr : Roomy (l.length + n.toNat)) :
    ∃ mem mem', b.buffer = some mem ∧ Blocks.overwrite mem b.writeOffset.toNat d = some mem' ∧
      ({ b with buffer := some mem' }.incWriteOffset n).Holds (l ++ d) := by
  obtain ⟨used, left, hused, hbuf, hsize⟩ := h.cut
  have hlen : d.length = used.length := hd.trans hused.symm
  refine ⟨_, l ++ (d ++ left), hbuf, overwrite_split hoff hlen, ?_⟩
  exact HasRoom.fill hoff hr hd rfl (by simpa [hlen] using hsize)

theorem HasRoom.write (h : (b.roomFor R n).HasRoom l n.toNat)
    (hoff : b.writeOffset.toNat = l.length) (hd : d.length = n.toNat)
    (hr : Roomy (l.length + n.toNat)) :
    ∃ c mem, b.write R (some (d ++ e)) n = some c ∧ c.buffer = some mem ∧ c.Holds (l ++ d) := by
  have hoff' : (b.roomFor R n).writeOffset.toNat = l.length := by rwa [roomFor_writeOffset]
  obtain ⟨mem, mem', hmem, hput, hholds⟩ := h.overwrite hoff' hd hr
  have hsrc : slice (d ++ e) 0 n.toNat = some d := slice_split (p := []) rfl hd.symm
  refine ⟨_, mem', ?_, rfl, hholds⟩
  show ((b.roomFor R n).put (d ++ e) n >>= fun b => some (b.incWriteOffset n)) = _
  simp only [put, hmem, hsrc, hput, Option.bind_eq_bind, Option.bind_some, Option.pure_def]

theorem HasRoom.reserve (h : (b.roomFor R n).HasRoom l n.toNat)
    (hoff : b.writeOffset.toNat = l.length) (hr : Roomy (l.length + n.toNat)) :
    ∃ c mem d, b.write R none n = some c ∧ c.buffer = some mem ∧ c.Holds (l ++ d) ∧
      d.length = n.toNat := by
  have hoff' : (b.roomFor R n).writeOffset.toNat = l.length := by rwa [roomFor_writeOffset]
  obtain ⟨used, left, hused, hbuf, hsize⟩ := h.cut
  exact ⟨_, _, used, rfl, hbuf, HasRoom.fill hoff' hr hused hbuf hsize, hused⟩

theorem HasRoom.recv (h : b.HasRoom l d.length) (hoff : b.writeOffset.toNat = l.length)
    (hr : Roomy (l.length + d.length)) :
    ∃ c mem, ImPdu.recv b d = some c ∧ c.buffer = some mem ∧ c.Holds (l ++ d) := by
  have hsmall : d.length < 2 ^ 32 := by
    unfold Roomy at hr
    omega
  have hd : d.length = (UInt32.ofNat d.length).toNat := (UInt32.toNat_ofNat_of_lt' hsmall).symm
  have hroom : b.HasRoom l (UInt32.ofNat d.length).toNat := hd ▸ h
  obtain ⟨mem, mem', hmem, hput, hholds⟩ := hroom.overwrite hoff hd (hd ▸ hr)
  refine ⟨_, mem', ?_, rfl, hholds⟩
  simp only [ImPdu.recv, hmem, hput, Option.bind_eq_bind, Option.bind_some, Option.pure_def]

theorem Holds.write (h : b.Holds l) (hd : d.length = n.toNat)
    (hr : Roomy (l.length + n.toNat)) (hne : l ≠ [] ∨ 0 < n.toNat) :
    ∃ c, b.write R (some (d ++ e)) n = some c ∧ c.Holds (l ++ d) := by
  obtain ⟨c, mem, hwrite, -, hc⟩ := (h.roomFor hr hne).write (R := R) (e := e) h.offset hd hr
  exact ⟨c, hwrite, hc⟩

theorem Holds.reserve (h : b.Holds l) (hr : Roomy (l.length + n.toNat))
    (hne : l ≠ [] ∨ 0 < n.toNat) :
    ∃ c d, b.write R none n = some c ∧ c.Holds (l ++ d) ∧ d.length = n.toNat := by
  obtain ⟨c, mem, d, hwrite, -, hc, hd⟩ := (h.roomFor hr hne).reserve (R := R) h.offset hr
  exact ⟨c, d, hwrite, hc, hd⟩

theorem Holds.read (h : b.Holds (d ++ l)) (hd : d.length = n.toNat) :
    ∃ c, b.read n = some (d, c) ∧ c.Holds l := by
  by_cases hzero : n = 0
  · obtain rfl : d = [] := by simpa [hzero] using hd
    exact ⟨b, by simp [CSimpleBuffer.read, hzero], by simpa using h⟩
  · have hne : d ≠ [] := by
      rintro rfl
      exact hzero (UInt32.toNat_inj.mp hd.symm)
    obtain ⟨slack, hbuf, hsize, -⟩ := h.hasRoom (by simp [hne])
    have hoff := h.offset
    have hclamp : ¬n > b.writeOffset := by
      rw [gt_iff_lt, UInt32.lt_iff_toNat_lt, hoff, ← hd, List.length_append]
      omega
    have hleft : (b.writeOffset - n).toNat = l.length := by
      rw [gt_iff_lt, UInt32.not_lt] at hclamp
      rw [UInt32.toNat_sub_of_le _ _ hclamp, hoff, ← hd, List.length_append]
      omega
    have hout : slice (d ++ l ++ slack) 0 n.toNat = some d := by
      simpa using slice_split (p := []) (m := d) (q := l ++ slack) rfl hd.symm
    have hmoved : slice (d ++ l ++ slack) n.toNat (b.writeOffset - n).toNat = some l := by
      simpa using slice_split (p := d) (m := l) (q := slack) hd.symm hleft
    -- what the move leaves behind the data is the tail of the old bytes
    have hput : Blocks.overwrite (d ++ l ++ slack) 0 l =
        some (l ++ (d ++ l ++ slack).drop l.length) := by
      simp [Blocks.overwrite]
      omega
    refine ⟨{ b with
      buffer := some (l ++ (d ++ l ++ slack).drop l.length)
      writeOffset := b.writeOffset - n }, ?_, ⟨(d ++ l ++ slack).drop l.length, rfl, ?_⟩, hleft⟩
    · simp only [CSimpleBuffer.read, hzero, hclamp, hbuf, hout, hmoved, hput, if_false,
        Option.bind_eq_bind, Option.bind_some, Option.pure_def]
    · simp only [hsize, List.length_append, List.length_drop]
      omega

end CSimpleBuffer

end LearningCode.ImPdu
