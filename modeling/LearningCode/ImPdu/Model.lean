import LearningCode.Lib.BigEndian
import LearningCode.Lib.Blocks

/-!
# Protocol data units

`CSimpleBuffer` and `CByteStream` of `UtilPdu.cc`, `CImPdu` of `ImPduBase.cc`
and the receive loop of `server.cc`. Memory behind a pointer is a list, and an
access outside it has no result. A `CPduException` is the error of `Throws`.
-/

namespace LearningCode.ImPdu

open LearningCode.Blocks LearningCode.BigEndian

abbrev Byte := UInt8

structure CPduException where
  serviceId : UInt32
  commandId : UInt32
  errorCode : UInt32
  errorMsg : String
deriving Repr, DecidableEq

def CPduException.new (errorCode : UInt32) (errorMsg : String) : CPduException :=
  { serviceId := 0, commandId := 0, errorCode, errorMsg }

/-- Code that may throw, and may touch memory it does not have. -/
abbrev Throws (α : Type) := ExceptT CPduException Option α

@[simp] theorem Throws.lift_some {α : Type} (a : α) :
    (liftM (some a : Option α) : Throws α) = pure a := rfl

theorem Throws.bind_ok {α β : Type} {x : Throws α} {k : α → Throws β} {b : β}
    (h : (x >>= k).run = some (.ok b)) :
    ∃ a, x.run = some (.ok a) ∧ (k a).run = some (.ok b) := by
  obtain ⟨r, hr, hk⟩ := Option.bind_eq_some_iff.mp h
  cases r with
  | error e => cases hk
  | ok a => exact ⟨a, hr, hk⟩

-- --------------------------------------------------------------------------
-- CSimpleBuffer
-- --------------------------------------------------------------------------

/-- `realloc`: the old bytes stay as far as they fit, the others are whatever
the allocator left there. -/
structure Realloc where
  run : List Byte → Nat → List Byte
  length_run : ∀ old n, (run old n).length = n
  take_run : ∀ old n, (run old n).take old.length = old.take n

structure CSimpleBuffer where
  buffer : Option (List Byte)
  allocSize : UInt32
  writeOffset : UInt32
deriving Repr, DecidableEq

namespace CSimpleBuffer

def new : CSimpleBuffer := { buffer := none, allocSize := 0, writeOffset := 0 }

def incWriteOffset (b : CSimpleBuffer) (len : UInt32) : CSimpleBuffer :=
  { b with writeOffset := b.writeOffset + len }

def extend (R : Realloc) (b : CSimpleBuffer) (len : UInt32) : CSimpleBuffer :=
  let size := b.writeOffset + len
  let size := size + size >>> 2
  { b with allocSize := size, buffer := some (R.run (b.buffer.getD []) size.toNat) }

def put (b : CSimpleBuffer) (buf : List Byte) (len : UInt32) : Option CSimpleBuffer := do
  let mem ← b.buffer
  let src ← slice buf 0 len.toNat
  let mem ← overwrite mem b.writeOffset.toNat src
  return { b with buffer := some mem }

/-- `none` is the null pointer: the room is taken and nothing is copied. -/
def write (R : Realloc) (b : CSimpleBuffer) (buf : Option (List Byte)) (len : UInt32) :
    Option CSimpleBuffer := do
  let b := if b.writeOffset + len > b.allocSize then b.extend R len else b
  let b ← match buf with
    | none => some b
    | some src => b.put src len
  return b.incWriteOffset len

/-- The bytes that `buf` receives, or would if it were not null. -/
def read (b : CSimpleBuffer) (len : UInt32) : Option (List Byte × CSimpleBuffer) :=
  if len = 0 then some ([], b)
  else do
    let len := if len > b.writeOffset then b.writeOffset else len
    let mem ← b.buffer
    let out ← slice mem 0 len.toNat
    let left := b.writeOffset - len
    let moved ← slice mem len.toNat left.toNat
    let mem ← overwrite mem 0 moved
    return (out, { b with buffer := some mem, writeOffset := left })

end CSimpleBuffer

-- --------------------------------------------------------------------------
-- CByteStream over a fixed buffer
-- --------------------------------------------------------------------------

/-- `m_pSimpBuf` is null for a stream made of a pointer and a length. -/
structure CByteStream where
  buf : List Byte
  len : UInt32
  pos : UInt32
deriving Repr, DecidableEq

def parseFailed : CPduException := .new 1 "parase packet failed!"

def readUint8 (buf : List Byte) (i : Nat) : Option UInt8 := buf[i]?

def readInt16 (buf : List Byte) (i : Nat) : Option Int16 := do
  return (join2 (← buf[i]?) (← buf[i + 1]?)).toInt16

def readUint16 (buf : List Byte) (i : Nat) : Option UInt16 := do
  return (join2 (← buf[i]?) (← buf[i + 1]?)).toUInt32.toUInt16

def readInt32 (buf : List Byte) (i : Nat) : Option Int32 := do
  return join4 (← buf[i]?) (← buf[i + 1]?) (← buf[i + 2]?) (← buf[i + 3]?)

def readUint32 (buf : List Byte) (i : Nat) : Option UInt32 := do
  return (join4 (← buf[i]?) (← buf[i + 1]?) (← buf[i + 2]?) (← buf[i + 3]?)).toUInt32

def writeUint16 (buf : List Byte) (i : Nat) (data : UInt16) : Option (List Byte) :=
  overwrite buf i (split2 data.toUInt32.toInt32)

def writeInt32 (buf : List Byte) (i : Nat) (data : Int32) : Option (List Byte) :=
  overwrite buf i (split4 data)

namespace CByteStream

def new (buf : List Byte) (len : UInt32) : CByteStream := { buf, len, pos := 0 }

def skip (s : CByteStream) (len : UInt32) : Throws CByteStream :=
  let pos := s.pos + len
  if pos > s.len then throw parseFailed else return { s with pos }

def readByte (s : CByteStream) (len : UInt32) : Throws (List Byte × CByteStream) :=
  if s.pos + len > s.len then throw parseFailed
  else do
    let out ← slice s.buf s.pos.toNat len.toNat
    return (out, { s with pos := s.pos + len })

/-- `_WriteByte`. What does not fit is dropped. -/
def writeByte (s : CByteStream) (data : List Byte) (len : UInt32) : Option CByteStream :=
  if s.pos + len > s.len then some s
  else do
    let src ← slice data 0 len.toNat
    let buf ← overwrite s.buf s.pos.toNat src
    return { s with buf, pos := s.pos + len }

/-- `operator<<` for each type. -/
def putInt8 (s : CByteStream) (data : Int8) : Option CByteStream :=
  s.writeByte [data.toUInt8] 1

def putUint8 (s : CByteStream) (data : UInt8) : Option CByteStream :=
  s.writeByte [data] 1

def putInt16 (s : CByteStream) (data : Int16) : Option CByteStream :=
  s.writeByte (split2 data.toInt32) 2

def putUint16 (s : CByteStream) (data : UInt16) : Option CByteStream :=
  s.writeByte (split2 data.toUInt32.toInt32) 2

def putInt32 (s : CByteStream) (data : Int32) : Option CByteStream :=
  s.writeByte (split4 data) 4

def putUint32 (s : CByteStream) (data : UInt32) : Option CByteStream :=
  s.writeByte (unsignedSplit4 data) 4

def getInt8 (s : CByteStream) : Throws (Int8 × CByteStream) := do
  let (buf, s) ← s.readByte 1
  let b0 ← readUint8 buf 0
  return (b0.toInt8, s)

def getUint8 (s : CByteStream) : Throws (UInt8 × CByteStream) := do
  let (buf, s) ← s.readByte 1
  let b0 ← readUint8 buf 0
  return (b0, s)

def getInt16 (s : CByteStream) : Throws (Int16 × CByteStream) := do
  let (buf, s) ← s.readByte 2
  let data ← readInt16 buf 0
  return (data, s)

def getUint16 (s : CByteStream) : Throws (UInt16 × CByteStream) := do
  let (buf, s) ← s.readByte 2
  let data ← readUint16 buf 0
  return (data, s)

def getInt32 (s : CByteStream) : Throws (Int32 × CByteStream) := do
  let (buf, s) ← s.readByte 4
  let data ← readInt32 buf 0
  return (data, s)

def getUint32 (s : CByteStream) : Throws (UInt32 × CByteStream) := do
  let (buf, s) ← s.readByte 4
  let data ← readUint32 buf 0
  return (data, s)

def writeData (s : CByteStream) (data : List Byte) (len : UInt32) : Option CByteStream := do
  let s ← s.putUint32 len
  s.writeByte data len

def writeChars (s : CByteStream) (str : List Byte) (len : UInt32) : Option CByteStream :=
  s.writeData str len

/-- `WriteString` of a C string: the list holds the terminator too, and
`strlen` counts up to it. The null pointer is the empty string. -/
def writeString (s : CByteStream) (str : Option (List Byte)) : Option CByteStream := do
  let bytes := str.getD []
  let size := UInt32.ofNat (bytes.takeWhile (· ≠ 0)).length
  let s ← s.putUint32 size
  s.writeByte bytes size

def readData (s : CByteStream) : Throws ((UInt32 × UInt32) × CByteStream) := do
  let (len, s) ← s.getUint32
  let pData := s.pos
  let s ← s.skip len
  return ((pData, len), s)

def readString (s : CByteStream) : Throws ((UInt32 × UInt32) × CByteStream) := s.readData

end CByteStream

-- --------------------------------------------------------------------------
-- CImPdu
-- --------------------------------------------------------------------------

def headerLen : UInt32 := 16

structure PduHeader where
  length : UInt32
  version : UInt16
  flag : UInt16
  serviceId : UInt16
  commandId : UInt16
  seqNum : UInt16
  reversed : UInt16
deriving Repr, DecidableEq

structure CImPdu where
  buf : CSimpleBuffer
  pduHeader : PduHeader
deriving Repr, DecidableEq

/-- A message as protobuf serialises it; `ByteSize` is an `int`. -/
structure MessageLite where
  data : List Byte
  byteSize_lt : data.length < 2 ^ 31

def MessageLite.byteSize (msg : MessageLite) : UInt32 := UInt32.ofNat msg.data.length

namespace CImPdu

/-- The constructor leaves `length` as it finds it. -/
def new (length : UInt32) : CImPdu :=
  { buf := .new
    pduHeader :=
      { length, version := 1, flag := 0, serviceId := 7, commandId := 0, seqNum := 0
        reversed := 0 } }

def getBuffer (p : CImPdu) : Option (List Byte) := p.buf.buffer

def getLength (p : CImPdu) : UInt32 := p.buf.writeOffset

def getBodyLength (p : CImPdu) : UInt32 := p.buf.writeOffset - headerLen

def getBodyData (p : CImPdu) : Option (List Byte) := do
  slice (← p.getBuffer) headerLen.toNat p.getBodyLength.toNat

def setField (p : CImPdu) (i : Nat) (data : UInt16) : Option CImPdu := do
  let mem ← writeUint16 (← p.getBuffer) i data
  return { p with buf := { p.buf with buffer := some mem } }

def setVersion (p : CImPdu) (version : UInt16) : Option CImPdu := p.setField 4 version

def setFlag (p : CImPdu) (flag : UInt16) : Option CImPdu := p.setField 6 flag

def setServiceId (p : CImPdu) (serviceId : UInt16) : Option CImPdu := p.setField 8 serviceId

def setCommandId (p : CImPdu) (commandId : UInt16) : Option CImPdu := p.setField 10 commandId

def setSeqNum (p : CImPdu) (seqNum : UInt16) : Option CImPdu := p.setField 12 seqNum

/-- The parameter is 32 bits wide; `WriteUint16` takes the lower half. -/
def setReversed (p : CImPdu) (reversed : UInt32) : Option CImPdu :=
  p.setField 14 reversed.toUInt16

def writeHeader (p : CImPdu) : Option CImPdu := do
  let mem ← writeInt32 (← p.getBuffer) 0 p.getLength.toInt32
  let mem ← writeUint16 mem 4 p.pduHeader.version
  let mem ← writeUint16 mem 6 p.pduHeader.flag
  let mem ← writeUint16 mem 8 p.pduHeader.serviceId
  let mem ← writeUint16 mem 10 p.pduHeader.commandId
  let mem ← writeUint16 mem 12 p.pduHeader.seqNum
  let mem ← writeUint16 mem 14 p.pduHeader.reversed
  return { p with buf := { p.buf with buffer := some mem } }

def write (R : Realloc) (p : CImPdu) (buf : List Byte) (len : UInt32) : Option CImPdu := do
  return { p with buf := ← p.buf.write R (some buf) len }

def setPBMsg (R : Realloc) (p : CImPdu) (msg : MessageLite) : Option CImPdu := do
  let (_, buf) ← p.buf.read p.buf.writeOffset
  let buf ← buf.write R none headerLen
  let buf ← buf.write R (some msg.data) msg.byteSize
  { p with buf := buf }.writeHeader

/-- `ReadPduHeader`; the return code only repeats the test on `len`. -/
def readPduHeader (p : CImPdu) (buf : List Byte) (len : UInt32) : Throws CImPdu :=
  if len ≥ headerLen then do
    let is := CByteStream.new buf len
    let (length, is) ← is.getUint32
    let (version, is) ← is.getUint16
    let (flag, is) ← is.getUint16
    let (serviceId, is) ← is.getUint16
    let (commandId, is) ← is.getUint16
    let (seqNum, is) ← is.getUint16
    let (reversed, _) ← is.getUint16
    return { p with
      pduHeader := { length, version, flag, serviceId, commandId, seqNum, reversed } }
  else return p

/-- The length of the unit at the front of `buf` if all of it is there. -/
def isPduAvailable (buf : Option (List Byte)) (len : UInt32) : Throws (Option UInt32) :=
  if len < headerLen then return none
  else do
    let mem ← buf
    let pduLen ← readUint32 mem 0
    if pduLen > len then return none
    else if pduLen = 0 then throw (.new 1 "pdu_len is 0")
    else return some pduLen

def readPdu (R : Realloc) (buf : Option (List Byte)) (len : UInt32) : Throws (Option CImPdu) := do
  match ← isPduAvailable buf len with
  | none => return none
  | some pduLen => do
    let mem ← buf
    let _ ← readUint16 mem 8
    let _ ← readUint16 mem 10
    let p ← (CImPdu.new 0).write R mem pduLen
    let p ← p.readPduHeader mem headerLen
    return some p

end CImPdu

-- --------------------------------------------------------------------------
-- The receive loop
-- --------------------------------------------------------------------------

def readBufSize : UInt32 := 2048

/-- `recv` stores what arrived behind the data; the length becomes valid data. -/
def recv (b : CSimpleBuffer) (chunk : List Byte) : Option CSimpleBuffer := do
  let mem ← overwrite (← b.buffer) b.writeOffset.toNat chunk
  return { b with buffer := some mem }.incWriteOffset (UInt32.ofNat chunk.length)

/-- The inner `while`: the units handed to the handlers, and the buffer left. -/
def dispatch (R : Realloc) : (turns : Nat) → CSimpleBuffer → Throws (List CImPdu × CSimpleBuffer)
  | 0, _ => ((none : Option _) : Throws _)
  | turns + 1, b => do
    match ← CImPdu.readPdu R b.buffer b.writeOffset with
    | none => return ([], b)
    | some p => do
      let (_, b) ← b.read p.getLength
      let (ps, b) ← dispatch R turns b
      return (p :: ps, b)

def makeRoom (R : Realloc) (b : CSimpleBuffer) : CSimpleBuffer :=
  if b.allocSize - b.writeOffset < readBufSize then b.extend R readBufSize else b

/-- The outer `while`, over what the calls of `recv` return until the peer
closes. -/
def recvLoop (R : Realloc) (turns : Nat) :
    List (List Byte) → CSimpleBuffer → Throws (List CImPdu × CSimpleBuffer)
  | [], b => return ([], makeRoom R b)
  | chunk :: chunks, b => do
    let b ← recv (makeRoom R b) chunk
    let (ps, b) ← dispatch R turns b
    let (qs, b) ← recvLoop R turns chunks b
    return (ps ++ qs, b)

def recvMsg (R : Realloc) (turns : Nat) (chunks : List (List Byte)) :
    Throws (List CImPdu × CSimpleBuffer) :=
  recvLoop R turns chunks .new

end LearningCode.ImPdu
