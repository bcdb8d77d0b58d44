import LearningCode.Lib.Scan
import LearningCode.WebSocket.Echo

/-!
# Where a frame is read and written

The functions of the model once more, in which an access outside the event's buffer
stops the run, and so does a payload length that is negative as an `int`. To print a
string is to read it up to its NUL.
-/

namespace LearningCode.WebSocket

open Scan (bind_eq_ok ok_bind)

inductive Fault
  /-- Outside the buffer. -/
  | read
  /-- Outside the buffer. -/
  | write
  /-- A length becomes negative. -/
  | negative
  deriving DecidableEq

namespace Access

def get (b : Buffer) (i : Nat) : Except Fault UInt8 :=
  if i < BUFFER_LENGTH then .ok (b i) else .error .read

def set (b : Buffer) (i : Nat) (v : UInt8) : Except Fault Buffer :=
  if i < BUFFER_LENGTH then .ok (Function.update b i v) else .error .write

def read (b : Buffer) (off : Nat) : (n : Nat) → Except Fault Nat
  | 0 => .ok 0
  | n + 1 => do
    let low ← get b off
    let high ← read b (off + 1) n
    return low.toNat + 256 * high

def write (b : Buffer) (off : Nat) : (n x : Nat) → Except Fault Buffer
  | 0, _ => .ok b
  | n + 1, x => do
    let b ← set b off (UInt8.ofNat x)
    write b (off + 1) n (x / 256)

def toInt (x : Nat) : Except Fault Int :=
  if 0 ≤ WebSocket.toInt x then .ok (WebSocket.toInt x) else .error .negative

def umask (b : Buffer) (payload maskKey : Nat) : (n i : Nat) → Except Fault Buffer
  | 0, _ => .ok b
  | n + 1, i => do
    let c ← get b (payload + i)
    let k ← get b (maskKey + i % 4)
    let b ← set b (payload + i) (c ^^^ k)
    umask b payload maskKey n (i + 1)

def memcpy (b : Buffer) (dst : Nat) (src : Option Nat) (n : Nat) : Except Fault Buffer :=
  match src with
  | none => if n = 0 then .ok b else .error .read
  | some src =>
    if n = 0 then .ok b
    else if BUFFER_LENGTH < src + n then .error .read
    else if BUFFER_LENGTH < dst + n then .error .write
    else .ok (WebSocket.memcpy b dst src n)

/-- `%s`, with as many bytes from `i` on as the buffer has left. -/
def puts (b : Buffer) : (left i : Nat) → Except Fault Unit
  | 0, _ => .error .read
  | left + 1, i => if b i = 0 then .ok () else puts b left (i + 1)

def unmask (b : Buffer) (payload maskKey n : Nat) : Except Fault Buffer :=
  if isMasked b then umask b payload maskKey n 0 else .ok b

def decodePacket (ev : Ntyevent) : Except Fault Decoded := do
  let b := ev.buffer
  let _ ← get b 0
  let _ ← get b 1
  let virtualLen := payloadLen b
  if opcode b = 8 then return ⟨{ ev with stateMachine := .WS_END }, none, 0, virtualLen, true⟩
  else if virtualLen < 126 then
    let payload := sizeofOphdr + 4
    let b ← unmask b payload 2 virtualLen
    return ⟨{ ev with buffer := b }, some payload, virtualLen, virtualLen, false⟩
  else if virtualLen = 126 then
    let payload := sizeofOphdr + sizeofOphdr126
    let length := ntohs (← read b sizeofOphdr 2)
    let b ← write b sizeofOphdr 2 length
    let b ← unmask b payload (sizeofOphdr + 2) length
    return ⟨{ ev with buffer := b }, some payload, length, virtualLen, false⟩
  else
    let payload := sizeofOphdr + sizeofOphdr127
    let length ← toInt (← read b sizeofOphdr 8)
    let b ← unmask b payload (sizeofOphdr + 8) length.toNat
    return ⟨{ ev with buffer := b }, some payload, length, virtualLen, false⟩

def encodeHead (b : Buffer) (realLen : Int) (virtualLen : Nat) : Except Fault (Buffer × Nat) := do
  let head ← write b 0 1 (128 + 1)
  let head ← write head 1 1 virtualLen
  if virtualLen < 126 then return (head, sizeofOphdr)
  else if virtualLen = 126 then
    return (← write head sizeofOphdr 2 (ntohs (realLen.toNat % 65536)), sizeofOphdr + 2)
  else return (← write head sizeofOphdr 8 (BitVec.ofInt 64 realLen).toNat, sizeofOphdr + 8)

def encodePacket (ev : Ntyevent) (realLen : Int) (virtualLen : Nat) (buf : Option Nat) :
    Except Fault (Buffer × Int) := do
  let (b, headOffset) ← encodeHead ev.buffer realLen virtualLen
  if realLen < 0 then throw .negative
  else return (← memcpy b headOffset buf realLen.toNat, headOffset + realLen)

/-- `%s` of the payload; of NULL nothing is read. -/
def putsPayload (b : Buffer) : Option Nat → Except Fault Unit
  | none => .ok ()
  | some payload => puts b (BUFFER_LENGTH - payload) payload

def transmission (ev : Ntyevent) : Except Fault (Ntyevent × Bool) := do
  let d ← decodePacket ev
  putsPayload d.ev.buffer d.payload
  let (buffer, length) ← encodePacket d.ev d.realLen d.virtualLen d.payload
  return ({ d.ev with buffer := buffer, length := length }, d.closed)

/-- `recv_cb` from where `len` bytes have been received, with the handshake behind it;
`memset` and `recv` are told how much room there is. -/
def frameCb (ev : Ntyevent) (len : Nat) : Except Fault (Ntyevent × Bool) := do
  puts ev.buffer BUFFER_LENGTH 0
  let buffer ← set ev.buffer len 0
  transmission { ev with buffer := buffer, length := len }

-- ---------------------------------------------------------------------------
-- When they stay inside
-- ---------------------------------------------------------------------------

variable {b b' : Buffer} {i off n x p k left : Nat} {ev : Ntyevent}

theorem get_of_lt (h : i < BUFFER_LENGTH) : get b i = .ok (b i) := Scan.get_of_lt h

theorem set_of_lt {v : UInt8} (h : i < BUFFER_LENGTH) :
    set b i v = .ok (Function.update b i v) := Scan.set_of_lt h

theorem set_eq_ok {v : UInt8} :
    set b i v = .ok b' ↔ i < BUFFER_LENGTH ∧ Function.update b i v = b' := Scan.set_eq_ok

theorem read_of_le (h : off + n ≤ BUFFER_LENGTH) : read b off n = .ok (WebSocket.read b off n) := by
  induction n generalizing off with
  | zero => rfl
  | succ n ih =>
    rw [read, get_of_lt (by omega), ih (by omega)]
    rfl

theorem write_of_le (h : off + n ≤ BUFFER_LENGTH) :
    write b off n x = .ok (WebSocket.write b off n x) := by
  induction n generalizing b off x with
  | zero => rfl
  | succ n ih =>
    rw [write, set_of_lt (by omega), ok_bind, ih (by omega)]
    rfl

/-- The key is inside, so it is the payload that may not be. -/
theorem umask_eq_ok (hk : k + 4 ≤ BUFFER_LENGTH) :
    umask b p k n i = .ok b' ↔
      (n = 0 ∨ p + i + n ≤ BUFFER_LENGTH) ∧ WebSocket.umask b p k n i = b' := by
  induction n generalizing b i with
  | zero => simp [umask, WebSocket.umask]
  | succ n ih =>
    have hkey : k + i % 4 < BUFFER_LENGTH := by
      have hmod : i % 4 < 4 := Nat.mod_lt _ (by decide)
      omega
    by_cases hin : p + i < BUFFER_LENGTH
    · rw [umask, get_of_lt hin, ok_bind, get_of_lt hkey, ok_bind, set_of_lt hin, ok_bind, ih,
        WebSocket.umask]
      refine and_congr_left fun _ => ?_
      omega
    · have hget : get b (p + i) = .error .read := if_neg hin
      rw [umask, hget]
      constructor
      · intro h
        cases h
      · rintro ⟨hroom, -⟩
        omega

theorem puts_find {u : Unit} :
    puts b left i = .ok u ↔ ∃ j, Scan.find (· == 0) Fault.read b left i = .ok j := by
  induction left generalizing i with
  | zero => exact ⟨fun h => (nomatch h), fun ⟨_, h⟩ => (nomatch h)⟩
  | succ left ih =>
    by_cases hzero : b i = 0
    · simp [puts, Scan.find, hzero]
    · simp [puts, Scan.find, hzero, ih]

theorem puts_eq_ok {u : Unit} : puts b left i = .ok u ↔ ∃ j, i ≤ j ∧ j < i + left ∧ b j = 0 := by
  rw [puts_find, Scan.exists_find]
  simp

theorem unmask_eq_ok (hk : k + 4 ≤ BUFFER_LENGTH) :
    unmask b p k n = .ok b' ↔ (isMasked b = true → n = 0 ∨ p + n ≤ BUFFER_LENGTH) ∧
      (if isMasked b then WebSocket.umask b p k n 0 else b) = b' := by
  unfold unmask
  cases isMasked b with
  | true => simp [umask_eq_ok hk]
  | false => simp

theorem memcpy_null_eq_ok {dst : Nat} : memcpy b dst none n = .ok b' ↔ n = 0 ∧ b = b' := by
  unfold memcpy
  by_cases hn : n = 0
  · simp [hn]
  · simp [hn]

theorem memcpy_eq_ok {dst src : Nat} :
    memcpy b dst (some src) n = .ok b' ↔
      (n = 0 ∨ src + n ≤ BUFFER_LENGTH ∧ dst + n ≤ BUFFER_LENGTH) ∧
        WebSocket.memcpy b dst src n = b' := by
  have hzero : WebSocket.memcpy b dst src 0 = b := by
    funext j
    exact if_neg (by omega)
  unfold memcpy
  dsimp only
  by_cases hn : n = 0
  · subst hn
    simp [hzero]
  · by_cases hsrc : BUFFER_LENGTH < src + n
    · rw [if_neg hn, if_pos hsrc]
      exact ⟨fun h => (nomatch h), fun h => by omega⟩
    · by_cases hdst : BUFFER_LENGTH < dst + n
      · rw [if_neg hn, if_neg hsrc, if_pos hdst]
        exact ⟨fun h => (nomatch h), fun h => by omega⟩
      · rw [if_neg hn, if_neg hsrc, if_neg hdst, Except.ok.injEq]
        exact ⟨fun h => ⟨by omega, h⟩, fun h => h.2⟩

end Access

-- ---------------------------------------------------------------------------
-- The frame as its header tells it
-- ---------------------------------------------------------------------------

variable {b b' : Buffer} {ev : Ntyevent}

def payloadAt (b : Buffer) : Nat :=
  if payloadLen b < 126 then 6 else if payloadLen b = 126 then 8 else 18

def keyAt (b : Buffer) : Nat :=
  if payloadLen b < 126 then 2 else if payloadLen b = 126 then 4 else 10

/-- The length as an `int`; eight bytes of it are taken in the order of the machine. -/
def lengthOf (b : Buffer) : Int :=
  if payloadLen b < 126 then payloadLen b
  else if payloadLen b = 126 then ntohs (read b 2 2)
  else toInt (read b 2 8)

def unmasked (b : Buffer) (j : Nat) : UInt8 :=
  if isMasked b ∧ j < payloadAt b + (lengthOf b).toNat then
    b j ^^^ b (keyAt b + (j - payloadAt b) % 4)
  else b j

theorem unmask_apply {p k n j : Nat} (hkp : k + 4 ≤ p) (hj : p ≤ j) :
    (if isMasked b then umask b p k n 0 else b) j =
      if isMasked b ∧ j < p + n then b j ^^^ b (k + (j - p) % 4) else b j := by
  cases isMasked b with
  | false => simp
  | true =>
    simp only [if_true, true_and]
    rw [umask_apply hkp]
    simp [hj]

theorem write_length_apply {x j : Nat} (hj : j < 2 ∨ 4 ≤ j) : write b 2 2 x j = b j := by
  rw [write_apply, if_neg (by omega)]

/-- Two bytes of a length are written back in the order of the machine. -/
def swapped (b : Buffer) : Buffer :=
  if payloadLen b = 126 then write b 2 2 (ntohs (read b 2 2)) else b

theorem swapped_apply {j : Nat} (hj : j < 2 ∨ 4 ≤ j ∨ payloadLen b ≠ 126) :
    swapped b j = b j := by
  unfold swapped
  split
  · exact write_length_apply (by omega)
  · rfl

theorem isMasked_swapped : isMasked (swapped b) = isMasked b := by
  rw [isMasked, isMasked, swapped_apply (.inl (by decide))]

theorem decodePacket_close (h : opcode ev.buffer = 8) :
    decodePacket ev =
      ⟨{ ev with stateMachine := .WS_END }, none, 0, payloadLen ev.buffer, true⟩ := by
  simp [decodePacket, h]

theorem keyAt_le : keyAt b + 4 ≤ payloadAt b ∧ payloadAt b ≤ 18 := by
  unfold keyAt payloadAt
  split
  · decide
  · split <;> decide

def decoded (b : Buffer) : Buffer :=
  if isMasked (swapped b) then
    umask (swapped b) (payloadAt b) (keyAt b) (lengthOf b).toNat 0
  else swapped b

theorem decodePacket_frame (h : opcode ev.buffer ≠ 8) :
    decodePacket ev =
      ⟨{ ev with buffer := decoded ev.buffer }, some (payloadAt ev.buffer), lengthOf ev.buffer,
        payloadLen ev.buffer, false⟩ := by
  by_cases hshort : payloadLen ev.buffer < 126
  · have hne : payloadLen ev.buffer ≠ 126 := by omega
    simp [decodePacket, h, hshort, hne, payloadAt, keyAt, lengthOf, decoded, swapped, sizeofOphdr]
  by_cases hmiddle : payloadLen ev.buffer = 126
  · simp [decodePacket, h, hmiddle, payloadAt, keyAt, lengthOf, decoded, swapped, sizeofOphdr,
      sizeofOphdr126]
    rfl
  · simp [decodePacket, h, hshort, hmiddle, payloadAt, keyAt, lengthOf, decoded, swapped, sizeofOphdr,
      sizeofOphdr127]

theorem decoded_apply {j : Nat} (hj : payloadAt b ≤ j) : decoded b j = unmasked b j := by
  have hkey := keyAt_le (b := b)
  have hsame : ∀ i, keyAt b ≤ i → swapped b i = b i := by
    intro i hi
    refine swapped_apply ?_
    by_cases hmiddle : payloadLen b = 126
    · have hfour : keyAt b = 4 := by simp [keyAt, hmiddle]
      omega
    · exact .inr (.inr hmiddle)
  rw [decoded, unmask_apply hkey.1 hj, isMasked_swapped, hsame j (by omega),
    hsame _ (Nat.le_add_right _ _)]
  rfl

namespace Access

theorem decodePacket_eq (h : opcode ev.buffer ≠ 8) :
    decodePacket ev =
      if 0 ≤ lengthOf ev.buffer then do
        let b ← unmask (swapped ev.buffer) (payloadAt ev.buffer) (keyAt ev.buffer)
          (lengthOf ev.buffer).toNat
        .ok ⟨{ ev with buffer := b }, some (payloadAt ev.buffer), lengthOf ev.buffer,
          payloadLen ev.buffer, false⟩
      else .error .negative := by
  have hfirst : get ev.buffer 0 = .ok (ev.buffer 0) := get_of_lt (by decide)
  have hsecond : get ev.buffer 1 = .ok (ev.buffer 1) := get_of_lt (by decide)
  simp only [decodePacket, hfirst, hsecond, ok_bind, h, if_false]
  by_cases hshort : payloadLen ev.buffer < 126
  · have hne : payloadLen ev.buffer ≠ 126 := by omega
    simp [hshort, hne, payloadAt, keyAt, lengthOf, swapped, sizeofOphdr]
    rfl
  by_cases hmiddle : payloadLen ev.buffer = 126
  · have hread : read ev.buffer 2 2 = .ok (WebSocket.read ev.buffer 2 2) := read_of_le (by decide)
    have hwrite : write ev.buffer 2 2 (ntohs (WebSocket.read ev.buffer 2 2)) =
        .ok (WebSocket.write ev.buffer 2 2 (ntohs (WebSocket.read ev.buffer 2 2))) :=
      write_of_le (by decide)
    simp [hmiddle, payloadAt, keyAt, lengthOf, swapped, sizeofOphdr, sizeofOphdr126, hread, hwrite]
    rfl
  · have hread : read ev.buffer 2 8 = .ok (WebSocket.read ev.buffer 2 8) := read_of_le (by decide)
    simp [hshort, hmiddle, payloadAt, keyAt, lengthOf, swapped, sizeofOphdr, sizeofOphdr127, hread,
      toInt]
    split
    · rfl
    · rfl

theorem decodePacket_eq_ok {d : Decoded} :
    decodePacket ev = .ok d ↔
      (opcode ev.buffer = 8 ∨ 0 ≤ lengthOf ev.buffer ∧ (isMasked ev.buffer = true →
        lengthOf ev.buffer = 0 ∨ payloadAt ev.buffer + lengthOf ev.buffer ≤ BUFFER_LENGTH)) ∧
      WebSocket.decodePacket ev = d := by
  by_cases hclose : opcode ev.buffer = 8
  · have hfirst : get ev.buffer 0 = .ok (ev.buffer 0) := get_of_lt (by decide)
    have hsecond : get ev.buffer 1 = .ok (ev.buffer 1) := get_of_lt (by decide)
    rw [decodePacket_close hclose]
    simp [decodePacket, hfirst, hsecond, hclose, pure, Except.pure]
  have hkey := keyAt_le (b := ev.buffer)
  have hkey' : keyAt ev.buffer + 4 ≤ BUFFER_LENGTH := by
    have hsize : BUFFER_LENGTH = 4096 := rfl
    omega
  rw [decodePacket_eq hclose, decodePacket_frame hclose]
  by_cases hlength : 0 ≤ lengthOf ev.buffer
  · rw [if_pos hlength, bind_eq_ok]
    simp only [unmask_eq_ok hkey', Except.ok.injEq]
    have hroom : (isMasked (swapped ev.buffer) = true →
        (lengthOf ev.buffer).toNat = 0 ∨
          payloadAt ev.buffer + (lengthOf ev.buffer).toNat ≤ BUFFER_LENGTH) ↔
        (isMasked ev.buffer = true →
          lengthOf ev.buffer = 0 ∨ payloadAt ev.buffer + lengthOf ev.buffer ≤ BUFFER_LENGTH) := by
      rw [isMasked_swapped]
      refine imp_congr_right fun _ => ?_
      omega
    constructor
    · rintro ⟨b', ⟨hin, rfl⟩, hd⟩
      exact ⟨.inr ⟨hlength, hroom.mp hin⟩, hd⟩
    · rintro ⟨hin, hd⟩
      exact ⟨_, ⟨hroom.mpr (hin.resolve_left hclose).2, rfl⟩, hd⟩
  · rw [if_neg hlength]
    exact ⟨fun h => (nomatch h), fun h => by omega⟩

def headOffset (virtualLen : Nat) : Nat :=
  if virtualLen < 126 then 2 else if virtualLen = 126 then 4 else 10

theorem encodeHead_eq (ev : Ntyevent) (realLen : Int) (virtualLen : Nat) (buf : Option Nat) :
    ∃ head, encodeHead ev.buffer realLen virtualLen = .ok (head, headOffset virtualLen) ∧
      WebSocket.encodePacket ev realLen virtualLen buf =
        if realLen < 0 then none
        else some (buf.elim head fun src =>
          WebSocket.memcpy head (headOffset virtualLen) src realLen.toNat,
          headOffset virtualLen + realLen) := by
  have hhead : ∀ b : Buffer, ∀ off n x, off + n ≤ 10 →
      write b off n x = .ok (WebSocket.write b off n x) := by
    intro b off n x hle
    have hsize : BUFFER_LENGTH = 4096 := rfl
    exact write_of_le (by omega)
  simp only [encodeHead, hhead _ 0 1 _ (by decide), hhead _ 1 1 _ (by decide), ok_bind]
  by_cases hshort : virtualLen < 126
  · refine ⟨_, by simp [hshort, headOffset, sizeofOphdr, pure, Except.pure]; rfl, ?_⟩
    simp [WebSocket.encodePacket, hshort, headOffset, sizeofOphdr]
  by_cases hmiddle : virtualLen = 126
  · refine ⟨_, by simp [hmiddle, headOffset, sizeofOphdr, hhead _ 2 2 _ (by decide), pure,
      Except.pure]; rfl, ?_⟩
    simp [WebSocket.encodePacket, hmiddle, headOffset, sizeofOphdr]
  · refine ⟨_, by simp [hshort, hmiddle, headOffset, sizeofOphdr, hhead _ 2 8 _ (by decide), pure,
      Except.pure]; rfl, ?_⟩
    simp [WebSocket.encodePacket, hshort, hmiddle, headOffset, sizeofOphdr]

theorem encodePacket_eq_ok {realLen : Int} {virtualLen : Nat} {buf : Option Nat}
    {r : Buffer × Int} :
    encodePacket ev realLen virtualLen buf = .ok r ↔
      0 ≤ realLen ∧ (realLen = 0 ∨ ∃ src : Nat, buf = some src ∧ src + realLen ≤ BUFFER_LENGTH ∧
        headOffset virtualLen + realLen ≤ BUFFER_LENGTH) ∧
      WebSocket.encodePacket ev realLen virtualLen buf = some r := by
  obtain ⟨head, hhead, hmodel⟩ := encodeHead_eq ev realLen virtualLen buf
  rw [encodePacket, hhead, ok_bind, hmodel]
  dsimp only
  by_cases hneg : realLen < 0
  · rw [if_pos hneg]
    exact ⟨fun h => (nomatch h), fun h => by omega⟩
  · rw [if_neg hneg, if_neg hneg, bind_eq_ok]
    have hzero : realLen.toNat = 0 ↔ realLen = 0 := by omega
    cases buf with
    | none =>
      simp only [memcpy_null_eq_ok, hzero]
      constructor
      · rintro ⟨_, ⟨rfl, rfl⟩, hr⟩
        exact ⟨Int.le_refl _, .inl rfl, congrArg some (Except.ok.inj hr)⟩
      · rintro ⟨-, rfl | ⟨_, hnone, -⟩, hr⟩
        · exact ⟨_, ⟨rfl, rfl⟩, congrArg Except.ok (Option.some.inj hr)⟩
        · cases hnone
    | some src =>
      have hroom : (realLen.toNat = 0 ∨ src + realLen.toNat ≤ BUFFER_LENGTH ∧
          headOffset virtualLen + realLen.toNat ≤ BUFFER_LENGTH) ↔
          (realLen = 0 ∨ src + realLen ≤ BUFFER_LENGTH ∧
            headOffset virtualLen + realLen ≤ BUFFER_LENGTH) := by omega
      simp only [memcpy_eq_ok, hroom, Option.some.injEq, exists_eq_left']
      constructor
      · rintro ⟨_, ⟨hin, rfl⟩, hr⟩
        exact ⟨Int.not_lt.mp hneg, hin, Except.ok.inj hr⟩
      · rintro ⟨-, hin, hr⟩
        exact ⟨_, ⟨hin, rfl⟩, congrArg Except.ok hr⟩

end Access

-- ---------------------------------------------------------------------------
-- Frames that fit
-- ---------------------------------------------------------------------------

/-- A close frame, or one whose payload ends in the buffer with a NUL in it or behind
it, for it is printed as a string. -/
def FrameFits (b : Buffer) : Prop :=
  opcode b = 8 ∨
    0 ≤ lengthOf b ∧ payloadAt b + lengthOf b ≤ BUFFER_LENGTH ∧
      ∃ j, payloadAt b ≤ j ∧ j < BUFFER_LENGTH ∧ unmasked b j = 0

theorem headOffset_le : Access.headOffset (payloadLen b) ≤ payloadAt b := by
  unfold Access.headOffset payloadAt
  split
  · decide
  · split <;> decide

namespace Access

theorem transmission_eq_ok {r : Ntyevent × Bool} :
    transmission ev = .ok r ↔ FrameFits ev.buffer ∧ WebSocket.transmission ev = some r := by
  by_cases hclose : opcode ev.buffer = 8
  · obtain ⟨head, hhead, hmodel⟩ :=
      encodeHead_eq { ev with stateMachine := .WS_END } 0 (payloadLen ev.buffer) none
    have hdecode : decodePacket ev = .ok (WebSocket.decodePacket ev) :=
      decodePacket_eq_ok.mpr ⟨.inl hclose, rfl⟩
    have hencode := encodePacket_eq_ok.mpr ⟨Int.le_refl 0, .inl rfl, hmodel⟩
    rw [decodePacket_close hclose] at hdecode
    simp only [transmission, hdecode, WebSocket.transmission, decodePacket_close hclose, ok_bind,
      putsPayload, hencode, hmodel, FrameFits, hclose, true_or, true_and]
    exact ⟨fun h => congrArg some (Except.ok.inj h), fun h => congrArg Except.ok (Option.some.inj h)⟩
  · have hpayload := keyAt_le (b := ev.buffer)
    have hoffset := headOffset_le (b := ev.buffer)
    have hsize : BUFFER_LENGTH = 4096 := rfl
    simp only [WebSocket.transmission, decodePacket_frame hclose]
    constructor
    · intro h
      obtain ⟨d, hdecode, h⟩ := bind_eq_ok.mp h
      obtain ⟨-, rfl⟩ := decodePacket_eq_ok.mp hdecode
      simp only [decodePacket_frame hclose, putsPayload] at h
      obtain ⟨_, hputs, h⟩ := bind_eq_ok.mp h
      obtain ⟨⟨buffer, length⟩, hencode, hr⟩ := bind_eq_ok.mp h
      obtain ⟨j, hle, hlt, hzero⟩ := puts_eq_ok.mp hputs
      obtain ⟨hlength, hroom, hmodel⟩ := encodePacket_eq_ok.mp hencode
      rw [decoded_apply hle] at hzero
      rw [hmodel]
      refine ⟨.inr ⟨hlength, ?_, j, hle, by omega, hzero⟩, congrArg some (Except.ok.inj hr)⟩
      obtain hnone | ⟨src, hsrc, hin, -⟩ := hroom
      · omega
      · cases hsrc
        exact hin
    · rintro ⟨hfits, hr⟩
      obtain ⟨hlength, hin, j, hle, hlt, hzero⟩ := hfits.resolve_left hclose
      obtain ⟨⟨buffer, length⟩, hmodel, hr⟩ := Option.bind_eq_some_iff.mp hr
      refine bind_eq_ok.mpr ⟨_, decodePacket_eq_ok.mpr ⟨.inr ⟨hlength, fun _ => .inr hin⟩, rfl⟩, ?_⟩
      simp only [decodePacket_frame hclose, putsPayload]
      refine bind_eq_ok.mpr ⟨(), puts_eq_ok.mpr ⟨j, hle, by omega, ?_⟩, ?_⟩
      · rw [decoded_apply hle]
        exact hzero
      · refine bind_eq_ok.mpr ⟨(buffer, length), encodePacket_eq_ok.mpr ⟨hlength, ?_, hmodel⟩, ?_⟩
        · exact .inr ⟨_, rfl, hin, by omega⟩
        · exact congrArg Except.ok (Option.some.inj hr)

theorem frameCb_eq_ok {len : Nat} {r : Ntyevent × Bool} : frameCb ev len = .ok r ↔
    (∃ j < BUFFER_LENGTH, ev.buffer j = 0) ∧ len < BUFFER_LENGTH ∧
      FrameFits (Function.update ev.buffer len 0) ∧ WebSocket.transmission
        { ev with buffer := Function.update ev.buffer len 0, length := len } = some r := by
  constructor
  · intro h
    obtain ⟨_, hputs, h⟩ := bind_eq_ok.mp h
    obtain ⟨buffer, hset, h⟩ := bind_eq_ok.mp h
    obtain ⟨j, -, hlt, hzero⟩ := puts_eq_ok.mp hputs
    obtain ⟨hlen, rfl⟩ := set_eq_ok.mp hset
    exact ⟨⟨j, by omega, hzero⟩, hlen, transmission_eq_ok.mp h⟩
  · rintro ⟨⟨j, hlt, hzero⟩, hlen, h⟩
    refine bind_eq_ok.mpr ⟨(), puts_eq_ok.mpr ⟨j, by omega, by omega, hzero⟩, ?_⟩
    exact bind_eq_ok.mpr ⟨_, set_of_lt hlen, transmission_eq_ok.mpr h⟩

end Access

/-- Only for a negative length the model has no result. -/
theorem FrameFits.transmission (ev : Ntyevent) (h : FrameFits ev.buffer) :
    ∃ r, WebSocket.transmission ev = some r := by
  by_cases hclose : opcode ev.buffer = 8
  · obtain ⟨head, -, hmodel⟩ :=
      Access.encodeHead_eq { ev with stateMachine := .WS_END } 0 (payloadLen ev.buffer) none
    simp [WebSocket.transmission, decodePacket_close hclose, hmodel]
  · obtain ⟨hlength, -⟩ := h.resolve_left hclose
    obtain ⟨head, -, hmodel⟩ := Access.encodeHead_eq { ev with buffer := decoded ev.buffer }
      (lengthOf ev.buffer) (payloadLen ev.buffer) (some (payloadAt ev.buffer))
    simp [WebSocket.transmission, decodePacket_frame hclose, hmodel, Int.not_lt.mpr hlength]

def FrameSafe (ev : Ntyevent) (len : Nat) : Prop := ∃ r, Access.frameCb ev len = .ok r

/-- The NUL behind what was received has a place, and so has all that the header with
this NUL announces. -/
theorem frame_safe_iff (ev : Ntyevent) (len : Nat) :
    FrameSafe ev len ↔
      (∃ j < BUFFER_LENGTH, ev.buffer j = 0) ∧ len < BUFFER_LENGTH ∧
        FrameFits (Function.update ev.buffer len 0) := by
  simp only [FrameSafe, Access.frameCb_eq_ok, exists_and_left]
  refine and_congr_right fun _ => and_congr_right fun _ => and_iff_left_of_imp fun hfits => ?_
  exact hfits.transmission { ev with buffer := Function.update ev.buffer len 0, length := len }

def announced : List UInt8 := [129, 254, 255, 255, 1, 2, 3, 4, 97]

theorem announced_too_long :
    ¬FrameSafe { received none [] with buffer := load announced } 9 := by
  rintro ⟨r, h⟩
  obtain hclose | ⟨-, hin, -⟩ := (Access.frameCb_eq_ok.mp h).2.2.1
  · exact absurd hclose (by decide)
  · exact absurd hin (by decide)

end LearningCode.WebSocket
