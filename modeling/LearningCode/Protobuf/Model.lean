import Mathlib.Data.UInt
import LearningCode.Lib.Numeral

/-!
# Generated message classes

`IM.Login.pb.cc` and `IM.Message.pb.cc`, over the inline functions of
`coded_stream.h` and `wire_format_lite.h`. The generated functions differ from
class to class in their fields only, so each is one definition applied to a
table of fields. What the library defines in source files that are not in the
tree is a `Runtime`.
-/

namespace LearningCode.Protobuf

open Varint (encode)

-- ---------------------------------------------------------------------------
-- CodedInputStream
-- ---------------------------------------------------------------------------

/-- Over one array: the bytes from `buffer_` to `buffer_end_`. -/
structure CodedInputStream where
  buffer : List UInt8
  legitimateMessageEnd : Bool
deriving Repr, DecidableEq

def firstByteOrZero : List UInt8 → UInt32
  | [] => 0
  | b :: _ => b.toUInt32

structure Runtime where
  readVarint32Fallback : UInt32 → CodedInputStream → Int64 × CodedInputStream
  readTagFallback : UInt32 → CodedInputStream → UInt32 × CodedInputStream
  /-- Whether it succeeds, and what the string holds after it. -/
  readBytes : CodedInputStream → Bool × List UInt8 × CodedInputStream
  /-- Whether it succeeds, and what it appends to the output. -/
  skipField : CodedInputStream → UInt32 → Bool × List UInt8 × CodedInputStream
  verifyUtf8String : List UInt8 → Bool
  writeUInt32 : Nat → UInt32 → List UInt8
  writeEnum : Nat → Int32 → List UInt8
  writeStringMaybeAliased : Nat → List UInt8 → List UInt8
  writeBytesMaybeAliased : Nat → List UInt8 → List UInt8
  /-- `MessageLite::ParseFromArray`, given what `Clear` leaves of the message and its
  class's `MergePartialFromCodedStream`. -/
  parseFromArray : {μ : Type} → μ → (μ → CodedInputStream → Option (Bool × μ × CodedInputStream)) →
    List UInt8 → Option (Bool × μ)

def readVarint32Slow (rt : Runtime) (s : CodedInputStream) : Bool × UInt32 × CodedInputStream :=
  let (result, s) := rt.readVarint32Fallback (firstByteOrZero s.buffer) s
  (decide (0 ≤ result), result.toUInt64.toUInt32, s)

def readVarint32 (rt : Runtime) (s : CodedInputStream) : Bool × UInt32 × CodedInputStream :=
  match s.buffer with
  | [] => readVarint32Slow rt s
  | v :: rest =>
    if v < 0x80 then (true, v.toUInt32, { s with buffer := rest })
    else readVarint32Slow rt s

def readTagSlow (rt : Runtime) (cutoff : UInt32) (s : CodedInputStream) :
    UInt32 × Bool × CodedInputStream :=
  let (tag, s) := rt.readTagFallback (firstByteOrZero s.buffer) s
  (tag, decide (tag - 1 < cutoff), s)

def readTagWithCutoffNoLastTag (rt : Runtime) (cutoff : UInt32) (s : CodedInputStream) :
    UInt32 × Bool × CodedInputStream :=
  match s.buffer with
  | [] => readTagSlow rt cutoff s
  | b :: rest =>
    if 0 < b.toInt8 then
      (b.toUInt32, decide (0x7f ≤ cutoff ∨ b.toUInt32 ≤ cutoff), { s with buffer := rest })
    else match rest with
      | [] => readTagSlow rt cutoff s
      | c :: rest =>
        if 0x80 ≤ cutoff ∧ 0x80 ≤ b &&& ~~~c then
          let tag := ((1 : UInt32) <<< 7) * c.toUInt32 + (b.toUInt32 - 0x80)
          (tag, decide (((0x7f : UInt32) <<< 7) + 0x7f ≤ cutoff ∨ tag ≤ cutoff),
            { s with buffer := rest })
        else readTagSlow rt cutoff s

-- ---------------------------------------------------------------------------
-- CodedOutputStream and WireFormatLite
-- ---------------------------------------------------------------------------

def writeVarint32ToArray (value : UInt32) : List UInt8 :=
  if 0x80 ≤ value then (value ||| 0x80).toUInt8 :: writeVarint32ToArray (value >>> 7)
  else [value.toUInt8]
termination_by value.toNat
decreasing_by
  rename_i h
  have hlow : (0x80 : UInt32).toNat ≤ value.toNat := UInt32.le_iff_toNat_le.mp h
  simp only [UInt32.reduceToNat] at hlow
  simp only [UInt32.toNat_shiftRight, UInt32.reduceToNat, Nat.reduceMod,
    Nat.shiftRight_eq_div_pow]
  omega

def writeVarint64ToArray (value : UInt64) : List UInt8 :=
  if 0x80 ≤ value then (value ||| 0x80).toUInt8 :: writeVarint64ToArray (value >>> 7)
  else [value.toUInt8]
termination_by value.toNat
decreasing_by
  rename_i h
  have hlow : (0x80 : UInt64).toNat ≤ value.toNat := UInt64.le_iff_toNat_le.mp h
  simp only [UInt64.reduceToNat] at hlow
  simp only [UInt64.toNat_shiftRight, UInt64.reduceToNat, Nat.reduceMod,
    Nat.shiftRight_eq_div_pow]
  omega

def writeVarint32SignExtended (value : Int32) : List UInt8 :=
  writeVarint64ToArray value.toInt64.toUInt64

def varintSize32 (value : UInt32) : Nat :=
  let log2value := Nat.log2 (value ||| 0x1).toNat
  (log2value * 9 + 73) / 64

def varintSize32SignExtended (value : Int32) : Nat :=
  if value < 0 then 10 else varintSize32 value.toUInt32

def wiretypeVarint : UInt32 := 0
def wiretypeLengthDelimited : UInt32 := 2

def makeTag (fieldNumber : Nat) (type : UInt32) : UInt32 := UInt32.ofNat fieldNumber <<< 3 ||| type

def getTagFieldNumber (tag : UInt32) : Nat := (tag >>> 3).toNat

def writeTag (fieldNumber : Nat) (type : UInt32) : List UInt8 :=
  writeVarint32ToArray (makeTag fieldNumber type)

def writeUInt32NoTag (value : UInt32) : List UInt8 := writeVarint32ToArray value

def writeEnumNoTag (value : Int32) : List UInt8 := writeVarint32SignExtended value

def uint32Size (value : UInt32) : Nat := varintSize32 value

def enumSize (value : Int32) : Nat := varintSize32SignExtended value

def lengthDelimitedSize (length : Nat) : Nat := length + varintSize32 (UInt32.ofNat length)

def stringSize (value : List UInt8) : Nat := lengthDelimitedSize value.length

def bytesSize (value : List UInt8) : Nat := lengthDelimitedSize value.length

/-- What the headers say of the functions they leave to the source files. -/
structure Runtime.Documented (rt : Runtime) : Prop where
  /-- A number of up to 64 bits is read whole and cut. -/
  readVarint32 : ∀ v rest e, 128 ≤ v → v < 2 ^ 64 →
    rt.readVarint32Fallback (firstByteOrZero (encode v)) ⟨encode v ++ rest, e⟩ =
      (Int64.ofNat (v % 2 ^ 32), ⟨rest, e⟩)
  readVarint32_length : ∀ b s, (rt.readVarint32Fallback b s).2.buffer.length ≤ s.buffer.length
  readTag : ∀ v rest e, 128 ≤ v → v < 2 ^ 32 →
    rt.readTagFallback (firstByteOrZero (encode v)) ⟨encode v ++ rest, e⟩ =
      (UInt32.ofNat v, ⟨rest, e⟩)
  readTag_end : ∀ e, rt.readTagFallback 0 ⟨[], e⟩ = (0, ⟨[], true⟩)
  readTag_length : ∀ b s, (rt.readTagFallback b s).1 ≠ 0 →
    (rt.readTagFallback b s).2.buffer.length < s.buffer.length
  readBytes : ∀ value rest e, value.length < 2 ^ 31 →
    rt.readBytes ⟨encode value.length ++ value ++ rest, e⟩ = (true, value, ⟨rest, e⟩)
  readBytes_length : ∀ s, (rt.readBytes s).1 = true →
    (rt.readBytes s).2.1.length + (rt.readBytes s).2.2.buffer.length ≤ s.buffer.length
  /-- What is recorded is the field, which can be skipped again. -/
  skipField : ∀ s tag, (rt.skipField s tag).1 = true →
    ∃ value, (rt.skipField s tag).2.1 = encode tag.toNat ++ value ∧ ∀ rest e,
      rt.skipField ⟨value ++ rest, e⟩ tag = (true, encode tag.toNat ++ value, ⟨rest, e⟩)
  skipField_length : ∀ s tag, (rt.skipField s tag).2.2.buffer.length ≤ s.buffer.length
  writeUInt32 : ∀ n value,
    rt.writeUInt32 n value = writeTag n wiretypeVarint ++ writeUInt32NoTag value
  writeEnum : ∀ n value,
    rt.writeEnum n value = writeTag n wiretypeVarint ++ writeEnumNoTag value
  writeString : ∀ n value, value.length < 2 ^ 31 →
    rt.writeStringMaybeAliased n value = writeTag n wiretypeLengthDelimited ++
      (writeVarint32ToArray (UInt32.ofNat value.length) ++ value)
  writeBytes : ∀ n value, value.length < 2 ^ 31 →
    rt.writeBytesMaybeAliased n value = writeTag n wiretypeLengthDelimited ++
      (writeVarint32ToArray (UInt32.ofNat value.length) ++ value)
  /-- Clear, merge, and ask whether that was all. Nothing is required in these
  classes, so `IsInitialized` holds. -/
  parseFromArray : ∀ {μ : Type} (m : μ) merge data, rt.parseFromArray m merge data =
    (merge m ⟨data, false⟩).map fun (ok, m, s) => (ok && s.legitimateMessageEnd, m)

-- ---------------------------------------------------------------------------
-- The generated functions
-- ---------------------------------------------------------------------------

/-- A class of `MessageLite`: its own members, and the field records that
`_internal_metadata_` keeps. -/
@[ext]
structure LiteMessage (κ : Type) where
  members : κ
  unknownFields : List UInt8 := []
deriving Repr, DecidableEq

/-- A field: its `case` of the parser with the tag tested there, and its
statement of the serializer. -/
structure Field (κ : Type) where
  number : Nat
  tag : UInt8
  read : Runtime → CodedInputStream → κ → Bool × κ × CodedInputStream
  write : Runtime → κ → List UInt8

variable {κ : Type}

def stringField (number : Nat) (tag : UInt8) (get : κ → List UInt8) (set : κ → List UInt8 → κ) :
    Field κ where
  number := number
  tag := tag
  read rt s m :=
    let (ok, value, s) := rt.readBytes s
    if ok then (rt.verifyUtf8String (get (set m value)), set m value, s)
    else (false, set m value, s)
  write rt m := if 0 < (get m).length then rt.writeStringMaybeAliased number (get m) else []

def bytesField (number : Nat) (tag : UInt8) (get : κ → List UInt8) (set : κ → List UInt8 → κ) :
    Field κ where
  number := number
  tag := tag
  read rt s m :=
    let (ok, value, s) := rt.readBytes s
    (ok, set m value, s)
  write rt m := if 0 < (get m).length then rt.writeBytesMaybeAliased number (get m) else []

/-- `ReadVarint32` stores into the member itself, also when it fails. -/
def uint32Field (number : Nat) (tag : UInt8) (get : κ → UInt32) (set : κ → UInt32 → κ) :
    Field κ where
  number := number
  tag := tag
  read rt s m :=
    let (ok, value, s) := readVarint32 rt s
    (ok, set m value, s)
  write rt m := if get m ≠ 0 then rt.writeUInt32 number (get m) else []

def enumField (number : Nat) (tag : UInt8) (get : κ → Int32) (set : κ → Int32 → κ) :
    Field κ where
  number := number
  tag := tag
  read rt s m :=
    let (ok, temp, s) := readVarint32 rt s
    if ok then (true, set m temp.toInt32, s) else (false, m, s)
  write rt m := if get m ≠ 0 then rt.writeEnum number (get m) else []

/-- The `switch`: without a field the tag is unusual. -/
def select (fields : List (Field κ)) (tag : UInt32) : Option (Field κ) := do
  let field ← fields.find? fun field => field.number = getTagFieldNumber tag
  if tag.toUInt8 = field.tag then some field else none

def mergePartial (rt : Runtime) (cutoff : UInt32) (fields : List (Field κ)) :
    (turns : Nat) → LiteMessage κ → CodedInputStream →
      Option (Bool × LiteMessage κ × CodedInputStream)
  | 0, _, _ => none
  | turns + 1, m, s =>
    let (tag, known, s) := readTagWithCutoffNoLastTag rt cutoff s
    match if known then select fields tag else none with
    | some field =>
      let (ok, members, s) := field.read rt s m.members
      if ok then mergePartial rt cutoff fields turns { m with members } s
      else some (false, { m with members }, s)
    | none =>
      if tag = 0 then some (true, m, s)
      else
        let (ok, skipped, s) := rt.skipField s tag
        let m := { m with unknownFields := m.unknownFields ++ skipped }
        if ok then mergePartial rt cutoff fields turns m s else some (false, m, s)

def serialize (rt : Runtime) (fields : List (Field κ)) (m : LiteMessage κ) : List UInt8 :=
  (fields.map fun field => field.write rt m.members).flatten ++ m.unknownFields

def parseFromArray [Inhabited κ] (rt : Runtime) (cutoff : UInt32) (fields : List (Field κ))
    (turns : Nat) (data : List UInt8) : Option (Bool × LiteMessage κ) :=
  rt.parseFromArray ⟨default, []⟩ (mergePartial rt cutoff fields turns) data

-- ---------------------------------------------------------------------------
-- IM.Login.pb.cc
-- ---------------------------------------------------------------------------

@[ext]
structure IMLoginReq where
  userName : List UInt8 := []
  password : List UInt8 := []
  onlineStatus : Int32 := 0
  clientType : Int32 := 0
  clientVersion : List UInt8 := []
deriving Repr, DecidableEq

namespace IMLoginReq

instance : Inhabited IMLoginReq := ⟨{}⟩

def userNameField : Field IMLoginReq :=
  stringField 1 10 (·.userName) fun m userName => { m with userName }

def passwordField : Field IMLoginReq :=
  stringField 2 18 (·.password) fun m password => { m with password }

def onlineStatusField : Field IMLoginReq :=
  enumField 3 24 (·.onlineStatus) fun m onlineStatus => { m with onlineStatus }

def clientTypeField : Field IMLoginReq :=
  enumField 4 32 (·.clientType) fun m clientType => { m with clientType }

def clientVersionField : Field IMLoginReq :=
  stringField 5 42 (·.clientVersion) fun m clientVersion => { m with clientVersion }

def fields : List (Field IMLoginReq) :=
  [userNameField, passwordField, onlineStatusField, clientTypeField, clientVersionField]

def mergePartialFromCodedStream (rt : Runtime) := mergePartial rt 127 fields

def parseFromArray (rt : Runtime) := Protobuf.parseFromArray rt 127 fields

def serializeWithCachedSizes (rt : Runtime) (m : LiteMessage IMLoginReq) : List UInt8 :=
  serialize rt fields m

def byteSizeLong (m : LiteMessage IMLoginReq) : Nat :=
  m.unknownFields.length +
    (if 0 < m.members.userName.length then 1 + stringSize m.members.userName else 0) +
    (if 0 < m.members.password.length then 1 + stringSize m.members.password else 0) +
    (if 0 < m.members.clientVersion.length then 1 + stringSize m.members.clientVersion else 0) +
    (if m.members.onlineStatus ≠ 0 then 1 + enumSize m.members.onlineStatus else 0) +
    (if m.members.clientType ≠ 0 then 1 + enumSize m.members.clientType else 0)

def mergeFrom (m other : LiteMessage IMLoginReq) : LiteMessage IMLoginReq where
  unknownFields := m.unknownFields ++ other.unknownFields
  members :=
    let a := m.members
    let b := other.members
    let a := if 0 < b.userName.length then { a with userName := b.userName } else a
    let a := if 0 < b.password.length then { a with password := b.password } else a
    let a := if 0 < b.clientVersion.length then { a with clientVersion := b.clientVersion } else a
    let a := if b.onlineStatus ≠ 0 then { a with onlineStatus := b.onlineStatus } else a
    if b.clientType ≠ 0 then { a with clientType := b.clientType } else a

end IMLoginReq

-- ---------------------------------------------------------------------------
-- IM.Message.pb.cc
-- ---------------------------------------------------------------------------

@[ext]
structure IMMsgData where
  fromUserId : UInt32 := 0
  toSessionId : UInt32 := 0
  msgId : UInt32 := 0
  createTime : UInt32 := 0
  msgType : Int32 := 0
  msgData : List UInt8 := []
  attachData : List UInt8 := []
deriving Repr, DecidableEq

namespace IMMsgData

instance : Inhabited IMMsgData := ⟨{}⟩

def fromUserIdField : Field IMMsgData :=
  uint32Field 1 8 (·.fromUserId) fun m fromUserId => { m with fromUserId }

def toSessionIdField : Field IMMsgData :=
  uint32Field 2 16 (·.toSessionId) fun m toSessionId => { m with toSessionId }

def msgIdField : Field IMMsgData :=
  uint32Field 3 24 (·.msgId) fun m msgId => { m with msgId }

def createTimeField : Field IMMsgData :=
  uint32Field 4 32 (·.createTime) fun m createTime => { m with createTime }

def msgTypeField : Field IMMsgData :=
  enumField 5 40 (·.msgType) fun m msgType => { m with msgType }

def msgDataField : Field IMMsgData :=
  bytesField 6 50 (·.msgData) fun m msgData => { m with msgData }

def attachDataField : Field IMMsgData :=
  bytesField 20 162 (·.attachData) fun m attachData => { m with attachData }

def fields : List (Field IMMsgData) :=
  [fromUserIdField, toSessionIdField, msgIdField, createTimeField, msgTypeField, msgDataField,
    attachDataField]

def mergePartialFromCodedStream (rt : Runtime) := mergePartial rt 16383 fields

def parseFromArray (rt : Runtime) := Protobuf.parseFromArray rt 16383 fields

def serializeWithCachedSizes (rt : Runtime) (m : LiteMessage IMMsgData) : List UInt8 :=
  serialize rt fields m

def byteSizeLong (m : LiteMessage IMMsgData) : Nat :=
  m.unknownFields.length +
    (if 0 < m.members.msgData.length then 1 + bytesSize m.members.msgData else 0) +
    (if 0 < m.members.attachData.length then 2 + bytesSize m.members.attachData else 0) +
    (if m.members.fromUserId ≠ 0 then 1 + uint32Size m.members.fromUserId else 0) +
    (if m.members.toSessionId ≠ 0 then 1 + uint32Size m.members.toSessionId else 0) +
    (if m.members.msgId ≠ 0 then 1 + uint32Size m.members.msgId else 0) +
    (if m.members.createTime ≠ 0 then 1 + uint32Size m.members.createTime else 0) +
    (if m.members.msgType ≠ 0 then 1 + enumSize m.members.msgType else 0)

def mergeFrom (m other : LiteMessage IMMsgData) : LiteMessage IMMsgData where
  unknownFields := m.unknownFields ++ other.unknownFields
  members :=
    let a := m.members
    let b := other.members
    let a := if 0 < b.msgData.length then { a with msgData := b.msgData } else a
    let a := if 0 < b.attachData.length then { a with attachData := b.attachData } else a
    let a := if b.fromUserId ≠ 0 then { a with fromUserId := b.fromUserId } else a
    let a := if b.toSessionId ≠ 0 then { a with toSessionId := b.toSessionId } else a
    let a := if b.msgId ≠ 0 then { a with msgId := b.msgId } else a
    let a := if b.createTime ≠ 0 then { a with createTime := b.createTime } else a
    if b.msgType ≠ 0 then { a with msgType := b.msgType } else a

end IMMsgData

@[ext]
structure IMMsgDataAck where
  userId : UInt32 := 0
  sessionId : UInt32 := 0
  msgId : UInt32 := 0
  sessionType : Int32 := 0
deriving Repr, DecidableEq

namespace IMMsgDataAck

instance : Inhabited IMMsgDataAck := ⟨{}⟩

def userIdField : Field IMMsgDataAck :=
  uint32Field 1 8 (·.userId) fun m userId => { m with userId }

def sessionIdField : Field IMMsgDataAck :=
  uint32Field 2 16 (·.sessionId) fun m sessionId => { m with sessionId }

def msgIdField : Field IMMsgDataAck :=
  uint32Field 3 24 (·.msgId) fun m msgId => { m with msgId }

def sessionTypeField : Field IMMsgDataAck :=
  enumField 4 32 (·.sessionType) fun m sessionType => { m with sessionType }

def fields : List (Field IMMsgDataAck) :=
  [userIdField, sessionIdField, msgIdField, sessionTypeField]

def mergePartialFromCodedStream (rt : Runtime) := mergePartial rt 127 fields

def parseFromArray (rt : Runtime) := Protobuf.parseFromArray rt 127 fields

def serializeWithCachedSizes (rt : Runtime) (m : LiteMessage IMMsgDataAck) : List UInt8 :=
  serialize rt fields m

def byteSizeLong (m : LiteMessage IMMsgDataAck) : Nat :=
  m.unknownFields.length +
    (if m.members.userId ≠ 0 then 1 + uint32Size m.members.userId else 0) +
    (if m.members.sessionId ≠ 0 then 1 + uint32Size m.members.sessionId else 0) +
    (if m.members.msgId ≠ 0 then 1 + uint32Size m.members.msgId else 0) +
    (if m.members.sessionType ≠ 0 then 1 + enumSize m.members.sessionType else 0)

def mergeFrom (m other : LiteMessage IMMsgDataAck) : LiteMessage IMMsgDataAck where
  unknownFields := m.unknownFields ++ other.unknownFields
  members :=
    let a := m.members
    let b := other.members
    let a := if b.userId ≠ 0 then { a with userId := b.userId } else a
    let a := if b.sessionId ≠ 0 then { a with sessionId := b.sessionId } else a
    let a := if b.msgId ≠ 0 then { a with msgId := b.msgId } else a
    if b.sessionType ≠ 0 then { a with sessionType := b.sessionType } else a

end IMMsgDataAck

end LearningCode.Protobuf
