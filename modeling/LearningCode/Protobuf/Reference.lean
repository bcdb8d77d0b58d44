import LearningCode.Protobuf.Wire

/-!
# A runtime

Functions that do what the headers say, to run the model with. Groups are not
skipped, and text is ASCII.
-/

namespace LearningCode.Protobuf

open Varint (encode decode)

namespace Reference

def readVarint32Fallback (_ : UInt32) (s : CodedInputStream) : Int64 × CodedInputStream :=
  match decode s.buffer with
  | some (v, rest) =>
    if v < 2 ^ 64 then (Int64.ofNat (v % 2 ^ 32), { s with buffer := rest }) else (-1, s)
  | none => (-1, s)

def readTagFallback (_ : UInt32) (s : CodedInputStream) : UInt32 × CodedInputStream :=
  if s.buffer = [] then (0, { s with legitimateMessageEnd := true })
  else match decode s.buffer with
    | some (v, rest) => if v < 2 ^ 32 then (UInt32.ofNat v, { s with buffer := rest }) else (0, s)
    | none => (0, s)

def readBytes (s : CodedInputStream) : Bool × List UInt8 × CodedInputStream :=
  match decode s.buffer with
  | some (n, rest) =>
    if n < 2 ^ 31 ∧ n ≤ rest.length then (true, rest.take n, { s with buffer := rest.drop n })
    else (false, [], s)
  | none => (false, [], s)

def splitFixed (n : Nat) (buffer : List UInt8) : Option (List UInt8 × List UInt8) :=
  if n ≤ buffer.length then some (buffer.take n, buffer.drop n) else none

def splitValue (tag : UInt32) (buffer : List UInt8) : Option (List UInt8 × List UInt8) :=
  match tag.toNat % 8 with
  | 0 => (decode buffer).map fun p => (encode p.1, p.2)
  | 1 => splitFixed 8 buffer
  | 2 => (decode buffer).bind fun p =>
    (splitFixed p.1 p.2).map fun q => (encode p.1 ++ q.1, q.2)
  | 5 => splitFixed 4 buffer
  | _ => none

def skipField (s : CodedInputStream) (tag : UInt32) : Bool × List UInt8 × CodedInputStream :=
  match splitValue tag s.buffer with
  | some (value, rest) => (true, encode tag.toNat ++ value, { s with buffer := rest })
  | none => (false, [], s)

def verifyUtf8String (value : List UInt8) : Bool := value.all (· < 128)

def writeVarint (n : Nat) (payload : List UInt8) : List UInt8 := writeTag n wiretypeVarint ++ payload

def writeDelimited (n : Nat) (value : List UInt8) : List UInt8 :=
  writeTag n wiretypeLengthDelimited ++
    (writeVarint32ToArray (UInt32.ofNat value.length) ++ value)

end Reference

def reference : Runtime where
  readVarint32Fallback := Reference.readVarint32Fallback
  readTagFallback := Reference.readTagFallback
  readBytes := Reference.readBytes
  skipField := Reference.skipField
  verifyUtf8String := Reference.verifyUtf8String
  writeUInt32 n value := Reference.writeVarint n (writeUInt32NoTag value)
  writeEnum n value := Reference.writeVarint n (writeEnumNoTag value)
  writeStringMaybeAliased := Reference.writeDelimited
  writeBytesMaybeAliased := Reference.writeDelimited
  parseFromArray m merge data :=
    (merge m ⟨data, false⟩).map fun (ok, m, s) => (ok && s.legitimateMessageEnd, m)

namespace Reference

variable {s : CodedInputStream} {tag : UInt32} {n : Nat} {buffer value rest : List UInt8}

theorem splitFixed_eq (h : splitFixed n buffer = some (value, rest)) :
    value.length = n ∧ buffer = value ++ rest := by
  rw [splitFixed, Option.ite_none_right_eq_some, Option.some.injEq, Prod.mk.injEq] at h
  obtain ⟨hle, rfl, rfl⟩ := h
  exact ⟨List.length_take_of_le hle, (List.take_append_drop n buffer).symm⟩

theorem splitFixed_append (hlen : value.length = n) (more : List UInt8) :
    splitFixed n (value ++ more) = some (value, more) := by
  subst hlen
  simp [splitFixed]

theorem splitValue_again (h : splitValue tag buffer = some (value, rest)) (more : List UInt8) :
    splitValue tag (value ++ more) = some (value, more) := by
  unfold splitValue at h ⊢
  split at h
  · obtain ⟨⟨v, tail⟩, hdecode, hpair⟩ := Option.map_eq_some_iff.mp h
    rw [Prod.mk.injEq] at hpair
    rw [← hpair.1, Varint.decode_encode, Option.map_some]
  · exact splitFixed_append (splitFixed_eq h).1 more
  · obtain ⟨⟨v, tail⟩, hdecode, hsplit⟩ := Option.bind_eq_some_iff.mp h
    obtain ⟨⟨data, behind⟩, hfixed, hpair⟩ := Option.map_eq_some_iff.mp hsplit
    rw [Prod.mk.injEq] at hpair
    rw [← hpair.1, List.append_assoc, Varint.decode_encode, Option.bind_some,
      splitFixed_append (splitFixed_eq hfixed).1, Option.map_some]
  · exact splitFixed_append (splitFixed_eq h).1 more
  · cases h

theorem splitFixed_length (h : splitFixed n buffer = some (value, rest)) :
    rest.length ≤ buffer.length := by
  rw [(splitFixed_eq h).2, List.length_append]
  exact Nat.le_add_left _ _

theorem splitValue_length (h : splitValue tag buffer = some (value, rest)) :
    rest.length ≤ buffer.length := by
  unfold splitValue at h
  split at h
  · obtain ⟨⟨v, tail⟩, hdecode, hpair⟩ := Option.map_eq_some_iff.mp h
    rw [Prod.mk.injEq] at hpair
    rw [← hpair.2]
    exact Nat.le_of_lt (Varint.decode_length hdecode)
  · exact splitFixed_length h
  · obtain ⟨⟨v, tail⟩, hdecode, hsplit⟩ := Option.bind_eq_some_iff.mp h
    obtain ⟨⟨data, behind⟩, hfixed, hpair⟩ := Option.map_eq_some_iff.mp hsplit
    rw [Prod.mk.injEq] at hpair
    rw [← hpair.2]
    exact (splitFixed_length hfixed).trans (Nat.le_of_lt (Varint.decode_length hdecode))
  · exact splitFixed_length h
  · cases h

theorem readVarint32_length (b : UInt32) (s : CodedInputStream) :
    (readVarint32Fallback b s).2.buffer.length ≤ s.buffer.length := by
  unfold readVarint32Fallback
  split
  · rename_i hdecode
    split
    · exact Nat.le_of_lt (Varint.decode_length hdecode)
    · exact Nat.le_refl _
  · exact Nat.le_refl _

theorem readTag_length (b : UInt32) (s : CodedInputStream) (h : (readTagFallback b s).1 ≠ 0) :
    (readTagFallback b s).2.buffer.length < s.buffer.length := by
  unfold readTagFallback at h ⊢
  split at h
  · exact absurd rfl h
  · rename_i hne
    rw [if_neg hne]
    split at h
    · rename_i hdecode
      split at h
      · rename_i hlt
        rw [if_pos hlt]
        exact Varint.decode_length hdecode
      · exact absurd rfl h
    · exact absurd rfl h

theorem readBytes_encode (e : Bool) (hlen : value.length < 2 ^ 31) :
    readBytes ⟨encode value.length ++ value ++ rest, e⟩ = (true, value, ⟨rest, e⟩) := by
  unfold readBytes
  simp only [List.append_assoc, Varint.decode_encode, hlen, List.length_append,
    Nat.le_add_right, and_self, if_true, List.take_left', List.drop_left']

theorem readBytes_length (s : CodedInputStream) (h : (readBytes s).1 = true) :
    (readBytes s).2.1.length + (readBytes s).2.2.buffer.length ≤ s.buffer.length := by
  unfold readBytes at h ⊢
  split at h
  · rename_i n rest hdecode
    split at h
    · rename_i hle
      rw [if_pos hle, List.length_take_of_le hle.2, List.length_drop, Nat.add_sub_cancel' hle.2]
      exact Nat.le_of_lt (Varint.decode_length hdecode)
    · cases h
  · cases h

theorem skipField_eq (s : CodedInputStream) (tag : UInt32) (h : (skipField s tag).1 = true) :
    ∃ value, (skipField s tag).2.1 = encode tag.toNat ++ value ∧ ∀ rest e,
      skipField ⟨value ++ rest, e⟩ tag = (true, encode tag.toNat ++ value, ⟨rest, e⟩) := by
  unfold skipField at h ⊢
  split at h
  · rename_i value rest hsplit
    refine ⟨value, rfl, fun more e => ?_⟩
    simp only [splitValue_again hsplit]
  · cases h

theorem skipField_length (s : CodedInputStream) (tag : UInt32) :
    (skipField s tag).2.2.buffer.length ≤ s.buffer.length := by
  unfold skipField
  split
  · rename_i hsplit
    exact splitValue_length hsplit
  · exact Nat.le_refl _

end Reference

theorem reference_documented : reference.Documented where
  readVarint32 v rest e _ hv := by
    simp only [reference, Reference.readVarint32Fallback, Varint.decode_encode, hv, if_true]
  readVarint32_length := Reference.readVarint32_length
  readTag v rest e _ hv := by
    have hne : encode v ++ rest ≠ [] :=
      List.append_ne_nil_of_left_ne_nil (List.ne_nil_of_length_pos Varint.length_encode_pos) _
    simp only [reference, Reference.readTagFallback, hne, if_false, Varint.decode_encode, hv, if_true]
  readTag_end _ := rfl
  readTag_length := Reference.readTag_length
  readBytes _ _ e hlen := Reference.readBytes_encode e hlen
  readBytes_length := Reference.readBytes_length
  skipField := Reference.skipField_eq
  skipField_length := Reference.skipField_length
  writeUInt32 _ _ := rfl
  writeEnum _ _ := rfl
  writeString _ _ _ := rfl
  writeBytes _ _ _ := rfl
  parseFromArray _ _ _ := rfl

end LearningCode.Protobuf

/-!
## `ByteSizeLong`

The size that is computed without writing is the number of bytes that are
written, so an array of that size has room for them.
-/

namespace LearningCode.Protobuf

open Varint (encode)

variable {κ : Type} {rt : Runtime} {m : κ} {number : Nat} {tag : UInt8} {type : UInt32} {n : Nat}

theorem length_writeVarint32 (value : UInt32) :
    (writeVarint32ToArray value).length = varintSize32 value := by
  rw [writeVarint32ToArray_eq, varintSize32_eq]

theorem length_writeVarint32SignExtended (value : Int32) :
    (writeVarint32SignExtended value).length = varintSize32SignExtended value := by
  rw [writeVarint32SignExtended, writeVarint64ToArray_eq, varintSize32SignExtended_eq]

theorem length_writeTag_one (h : (makeTag number type).toNat < 128) :
    (writeTag number type).length = 1 := by
  rw [writeTag, writeVarint32ToArray_eq, Varint.encode_small h]
  rfl

theorem length_writeTag_two (h : 128 ≤ (makeTag number type).toNat)
    (hlt : (makeTag number type).toNat / 128 < 128) : (writeTag number type).length = 2 := by
  rw [writeTag, writeVarint32ToArray_eq, Varint.encode_large h, Varint.encode_small hlt]
  rfl

section
variable (hrt : rt.Documented)
include hrt

theorem length_uint32 {get : κ → UInt32} {set : κ → UInt32 → κ}
    (htag : (writeTag number wiretypeVarint).length = n) :
    ((uint32Field number tag get set).write rt m).length =
      if get m ≠ 0 then n + uint32Size (get m) else 0 := by
  simp only [uint32Field, apply_ite List.length, hrt.writeUInt32, List.length_append, htag,
    writeUInt32NoTag, length_writeVarint32, List.length_nil, uint32Size]

theorem length_enum {get : κ → Int32} {set : κ → Int32 → κ}
    (htag : (writeTag number wiretypeVarint).length = n) :
    ((enumField number tag get set).write rt m).length =
      if get m ≠ 0 then n + enumSize (get m) else 0 := by
  simp only [enumField, apply_ite List.length, hrt.writeEnum, List.length_append, htag,
    writeEnumNoTag, length_writeVarint32SignExtended, List.length_nil, enumSize]

theorem length_bytes {get : κ → List UInt8} {set : κ → List UInt8 → κ}
    (htag : (writeTag number wiretypeLengthDelimited).length = n)
    (hlen : (get m).length < 2 ^ 31) :
    ((bytesField number tag get set).write rt m).length =
      if 0 < (get m).length then n + bytesSize (get m) else 0 := by
  simp only [bytesField, apply_ite List.length, hrt.writeBytes number _ hlen, List.length_append,
    htag, length_writeVarint32, List.length_nil, bytesSize, lengthDelimitedSize,
    Nat.add_comm (varintSize32 _)]

theorem length_string {get : κ → List UInt8} {set : κ → List UInt8 → κ}
    (htag : (writeTag number wiretypeLengthDelimited).length = n)
    (hlen : (get m).length < 2 ^ 31) :
    ((stringField number tag get set).write rt m).length =
      if 0 < (get m).length then n + stringSize (get m) else 0 := by
  simp only [stringField, apply_ite List.length, hrt.writeString number _ hlen,
    List.length_append, htag, length_writeVarint32, List.length_nil, stringSize,
    lengthDelimitedSize, Nat.add_comm (varintSize32 _)]

theorem IMLoginReq.length_serialize (b : LiteMessage IMLoginReq)
    (huser : b.members.userName.length < 2 ^ 31) (hpassword : b.members.password.length < 2 ^ 31)
    (hversion : b.members.clientVersion.length < 2 ^ 31) :
    (serializeWithCachedSizes rt b).length = byteSizeLong b := by
  have h1 : (userNameField.write rt b.members).length = _ :=
    length_string hrt (length_writeTag_one (by decide)) huser
  have h2 : (passwordField.write rt b.members).length = _ :=
    length_string hrt (length_writeTag_one (by decide)) hpassword
  have h3 : (onlineStatusField.write rt b.members).length = _ :=
    length_enum hrt (length_writeTag_one (by decide))
  have h4 : (clientTypeField.write rt b.members).length = _ :=
    length_enum hrt (length_writeTag_one (by decide))
  have h5 : (clientVersionField.write rt b.members).length = _ :=
    length_string hrt (length_writeTag_one (by decide)) hversion
  simp only [serializeWithCachedSizes, serialize, fields, List.map_cons, List.map_nil,
    List.flatten_cons, List.flatten_nil, List.length_append, List.length_nil, h1, h2, h3, h4, h5,
    byteSizeLong]
  ac_rfl

theorem IMMsgData.length_serialize (b : LiteMessage IMMsgData)
    (hdata : b.members.msgData.length < 2 ^ 31) (hattach : b.members.attachData.length < 2 ^ 31) :
    (serializeWithCachedSizes rt b).length = byteSizeLong b := by
  have h1 : (fromUserIdField.write rt b.members).length = _ :=
    length_uint32 hrt (length_writeTag_one (by decide))
  have h2 : (toSessionIdField.write rt b.members).length = _ :=
    length_uint32 hrt (length_writeTag_one (by decide))
  have h3 : (msgIdField.write rt b.members).length = _ :=
    length_uint32 hrt (length_writeTag_one (by decide))
  have h4 : (createTimeField.write rt b.members).length = _ :=
    length_uint32 hrt (length_writeTag_one (by decide))
  have h5 : (msgTypeField.write rt b.members).length = _ :=
    length_enum hrt (length_writeTag_one (by decide))
  have h6 : (msgDataField.write rt b.members).length = _ :=
    length_bytes hrt (length_writeTag_one (by decide)) hdata
  have h7 : (attachDataField.write rt b.members).length = _ :=
    length_bytes hrt (length_writeTag_two (by decide) (by decide)) hattach
  simp only [serializeWithCachedSizes, serialize, fields, List.map_cons, List.map_nil,
    List.flatten_cons, List.flatten_nil, List.length_append, List.length_nil, h1, h2, h3, h4, h5,
    h6, h7, byteSizeLong]
  ac_rfl

theorem IMMsgDataAck.length_serialize (b : LiteMessage IMMsgDataAck) :
    (serializeWithCachedSizes rt b).length = byteSizeLong b := by
  have h1 : (userIdField.write rt b.members).length = _ :=
    length_uint32 hrt (length_writeTag_one (by decide))
  have h2 : (sessionIdField.write rt b.members).length = _ :=
    length_uint32 hrt (length_writeTag_one (by decide))
  have h3 : (msgIdField.write rt b.members).length = _ :=
    length_uint32 hrt (length_writeTag_one (by decide))
  have h4 : (sessionTypeField.write rt b.members).length = _ :=
    length_enum hrt (length_writeTag_one (by decide))
  simp only [serializeWithCachedSizes, serialize, fields, List.map_cons, List.map_nil,
    List.flatten_cons, List.flatten_nil, List.length_append, List.length_nil, h1, h2, h3, h4,
    byteSizeLong]
  ac_rfl

/-- `ByteSizeLong` is the number of bytes that `SerializeWithCachedSizes` writes. -/
theorem byteSize_written :
    (∀ b : LiteMessage IMLoginReq, b.members.userName.length < 2 ^ 31 →
      b.members.password.length < 2 ^ 31 → b.members.clientVersion.length < 2 ^ 31 →
      (IMLoginReq.serializeWithCachedSizes rt b).length = IMLoginReq.byteSizeLong b) ∧
    (∀ b : LiteMessage IMMsgData, b.members.msgData.length < 2 ^ 31 →
      b.members.attachData.length < 2 ^ 31 →
      (IMMsgData.serializeWithCachedSizes rt b).length = IMMsgData.byteSizeLong b) ∧
    ∀ b : LiteMessage IMMsgDataAck,
      (IMMsgDataAck.serializeWithCachedSizes rt b).length = IMMsgDataAck.byteSizeLong b :=
  ⟨IMLoginReq.length_serialize hrt, IMMsgData.length_serialize hrt,
    IMMsgDataAck.length_serialize hrt⟩

end

/-- A negative status takes ten bytes behind its tag. -/
theorem byteSize_written_negative :
    (IMLoginReq.serializeWithCachedSizes reference ⟨{ onlineStatus := -1 }, []⟩).length = 11 :=
  ((byteSize_written reference_documented).1 _ (by decide) (by decide) (by decide)).trans
    (by decide)

end LearningCode.Protobuf
