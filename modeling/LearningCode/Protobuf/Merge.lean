import LearningCode.Protobuf.Fields
import LearningCode.Protobuf.Reference

/-!
# Parsing what was serialized

The bytes of a message, parsed into another one, are `MergeFrom`; parsed into an
empty one they are the message again.
-/

namespace LearningCode.Protobuf

variable {rt : Runtime}

section
variable {κ : Type} {cutoff : UInt32} {fields : List (Field κ)}

/-- The parser keeps these bytes as unknown fields, as they are. -/
def Recorded (rt : Runtime) (cutoff : UInt32) (fields : List (Field κ)) (bytes : List UInt8) :
    Prop :=
  Consumes rt cutoff fields bytes fun m => { m with unknownFields := m.unknownFields ++ bytes }

theorem ite_length (v : List UInt8) : (if 0 < v.length then v else []) = v := by
  cases v with
  | nil => rfl
  | cons b v => rfl

theorem ite_ne_zero {ι : Type} [OfNat ι 0] [DecidableEq ι] (v : ι) :
    (if v ≠ 0 then v else 0) = v := by
  split
  · rfl
  · rename_i h
    exact (not_not.mp h).symm

theorem Recorded.nil : Recorded rt cutoff fields [] := by
  have hid : (fun m : LiteMessage κ => { m with unknownFields := m.unknownFields ++ [] }) = id := by
    funext m
    rw [List.append_nil]
    rfl
  rw [Recorded, hid]
  exact Consumes.nil

end

-- ---------------------------------------------------------------------------
-- IMLoginReq
-- ---------------------------------------------------------------------------

namespace IMLoginReq

def strings (m : IMLoginReq) : List (List UInt8) := [m.userName, m.password, m.clientVersion]

/-- Strings that protobuf can hold, and unknown fields that a parser has left. -/
structure Sized (rt : Runtime) (m : LiteMessage IMLoginReq) : Prop where
  strings : ∀ v ∈ m.members.strings, v.length < 2 ^ 31
  unknownFields : Recorded rt 127 fields m.unknownFields

variable {b : LiteMessage IMLoginReq} {turns : Nat}

/-- The parser meets the fields in the order of their numbers; `MergeFrom` has
the strings first. -/
theorem settles (hrt : rt.Documented) (hb : Sized rt b) :
    Settles rt 127 fields (∀ v ∈ b.members.strings, Text rt v) (serializeWithCachedSizes rt b)
      fun m => mergeFrom m b := by
  have hlen := hb.strings
  simp only [strings, List.forall_mem_cons] at hlen
  have huser := settles_string (b := b.members) hrt
    (⟨rfl, by decide, by decide⟩ : Entry 127 fields userNameField _) (fun _ _ => rfl) hlen.1
  have hpassword := settles_string (b := b.members) hrt
    (⟨rfl, by decide, by decide⟩ : Entry 127 fields passwordField _) (fun _ _ => rfl) hlen.2.1
  have hstatus := consumes_enum (b := b.members) hrt
    (⟨rfl, by decide, by decide⟩ : Entry 127 fields onlineStatusField _)
  have htype := consumes_enum (b := b.members) hrt
    (⟨rfl, by decide, by decide⟩ : Entry 127 fields clientTypeField _)
  have hversion := settles_string (b := b.members) hrt
    (⟨rfl, by decide, by decide⟩ : Entry 127 fields clientVersionField _) (fun _ _ => rfl)
    hlen.2.2.1
  have hwritten := huser.append (hpassword.append (hstatus.settles.append (htype.settles.append
    (hversion.append Consumes.nil.settles))))
  refine (hwritten.append (Consumes.settles hb.unknownFields)).congr ?_ fun m => ?_
  · simp only [strings, List.forall_mem_cons, List.not_mem_nil, false_imp_iff, implies_true,
      true_and, and_true]
  · simp only [mergeFrom, Function.comp_apply, onMembers, id_eq, LiteMessage.mk.injEq,
      IMLoginReq.ext_iff, apply_ite userName, apply_ite password, apply_ite onlineStatus,
      apply_ite clientType, apply_ite clientVersion, ite_self, and_self]

theorem mergeFrom_default (b : LiteMessage IMLoginReq) : mergeFrom ⟨default, []⟩ b = b := by
  change mergeFrom ⟨{}, []⟩ b = b
  simp only [mergeFrom, LiteMessage.ext_iff, IMLoginReq.ext_iff, apply_ite userName,
    apply_ite password, apply_ite onlineStatus, apply_ite clientType, apply_ite clientVersion,
    ite_self, ite_length, ite_ne_zero, List.nil_append, and_self]

/-- A login request is parsed if and only if its strings are valid, and then it is
the one that was sent. -/
theorem login_parse (hrt : rt.Documented) (hb : Sized rt b)
    (hturns : (serializeWithCachedSizes rt b).length < turns) :
    ∃ ok m, parseFromArray rt turns (serializeWithCachedSizes rt b) = some (ok, m) ∧
      (ok = true ↔ ∀ v ∈ b.members.strings, Text rt v) ∧ (ok = true → m = b) := by
  obtain ⟨ok, m, hrun, hok, hm⟩ := (settles hrt hb).parse hrt rfl hturns
  exact ⟨ok, m, hrun, hok, fun h => (hm h).trans (mergeFrom_default b)⟩

/-- Two strings and a negative status. -/
theorem login_parse_two :
    let b : LiteMessage IMLoginReq :=
      ⟨{ userName := [108, 105], password := [49], onlineStatus := -1 }, []⟩
    parseFromArray reference ((serializeWithCachedSizes reference b).length + 1)
      (serializeWithCachedSizes reference b) = some (true, b) := by
  intro b
  have htext : ∀ v ∈ b.members.strings, Text reference v := by
    simp only [b, strings, List.forall_mem_cons]
    exact ⟨.inr rfl, .inr rfl, .inl rfl, nofun⟩
  obtain ⟨ok, m, hrun, hok, hm⟩ := login_parse (b := b) reference_documented
    ⟨by decide, Recorded.nil⟩ (Nat.lt_succ_self _)
  obtain rfl := hok.mpr htext
  rw [hrun, hm rfl]

end IMLoginReq

-- ---------------------------------------------------------------------------
-- IMMsgData
-- ---------------------------------------------------------------------------

namespace IMMsgData

structure Sized (rt : Runtime) (m : LiteMessage IMMsgData) : Prop where
  msgData : m.members.msgData.length < 2 ^ 31
  attachData : m.members.attachData.length < 2 ^ 31
  unknownFields : Recorded rt 16383 fields m.unknownFields

variable {a b : LiteMessage IMMsgData} {turns : Nat} {e : Bool}

theorem consumes (hrt : rt.Documented) (hb : Sized rt b) :
    Consumes rt 16383 fields (serializeWithCachedSizes rt b) fun m => mergeFrom m b := by
  have hfrom := consumes_uint32 (b := b.members) hrt
    (⟨rfl, by decide, by decide⟩ : Entry 16383 fields fromUserIdField _)
  have hto := consumes_uint32 (b := b.members) hrt
    (⟨rfl, by decide, by decide⟩ : Entry 16383 fields toSessionIdField _)
  have hid := consumes_uint32 (b := b.members) hrt
    (⟨rfl, by decide, by decide⟩ : Entry 16383 fields msgIdField _)
  have htime := consumes_uint32 (b := b.members) hrt
    (⟨rfl, by decide, by decide⟩ : Entry 16383 fields createTimeField _)
  have htype := consumes_enum (b := b.members) hrt
    (⟨rfl, by decide, by decide⟩ : Entry 16383 fields msgTypeField _)
  have hdata := consumes_bytes (b := b.members) hrt
    (⟨rfl, by decide, by decide⟩ : Entry 16383 fields msgDataField _) hb.msgData
  have hattach := consumes_bytes (b := b.members) hrt
    (⟨rfl, by decide, by decide⟩ : Entry 16383 fields attachDataField _) hb.attachData
  have hwritten := hfrom.append (hto.append (hid.append (htime.append (htype.append
    (hdata.append (hattach.append Consumes.nil))))))
  refine cast (congrArg _ (funext fun m => ?_)) (hwritten.append hb.unknownFields)
  simp only [mergeFrom, Function.comp_apply, onMembers, id_eq, LiteMessage.mk.injEq,
    IMMsgData.ext_iff, apply_ite fromUserId, apply_ite toSessionId, apply_ite msgId,
    apply_ite createTime, apply_ite msgType, apply_ite msgData, apply_ite attachData, ite_self,
    and_self]

theorem mergeFrom_default (b : LiteMessage IMMsgData) : mergeFrom ⟨default, []⟩ b = b := by
  change mergeFrom ⟨{}, []⟩ b = b
  simp only [mergeFrom, LiteMessage.ext_iff, IMMsgData.ext_iff, apply_ite fromUserId,
    apply_ite toSessionId, apply_ite msgId, apply_ite createTime, apply_ite msgType,
    apply_ite msgData, apply_ite attachData, ite_self, ite_length, ite_ne_zero, List.nil_append,
    and_self]

/-- Parsing the bytes of a message into another is merging it. -/
theorem msgData_merge (hrt : rt.Documented) (hb : Sized rt b)
    (hturns : (serializeWithCachedSizes rt b).length < turns) :
    mergePartialFromCodedStream rt turns a ⟨serializeWithCachedSizes rt b, e⟩ =
      some (true, mergeFrom a b, ⟨[], true⟩) :=
  (consumes hrt hb).run hrt rfl hturns a e

/-- The new text replaces the old, and what is not sent stays. -/
theorem msgData_merge_text :
    let a : LiteMessage IMMsgData := ⟨{ fromUserId := 123, msgData := [1, 2] }, []⟩
    let b : LiteMessage IMMsgData := ⟨{ msgData := [3], attachData := [4, 5] }, []⟩
    mergePartialFromCodedStream reference ((serializeWithCachedSizes reference b).length + 1) a
        ⟨serializeWithCachedSizes reference b, false⟩ =
      some (true, ⟨{ fromUserId := 123, msgData := [3], attachData := [4, 5] }, []⟩, ⟨[], true⟩) :=
  msgData_merge (a := ⟨{ fromUserId := 123, msgData := [1, 2] }, []⟩) reference_documented
    ⟨by decide, by decide, Recorded.nil⟩ (Nat.lt_succ_self _)

end IMMsgData

-- ---------------------------------------------------------------------------
-- IMMsgDataAck
-- ---------------------------------------------------------------------------

namespace IMMsgDataAck

variable {b : LiteMessage IMMsgDataAck}

theorem consumes (hrt : rt.Documented) (hb : Recorded rt 127 fields b.unknownFields) :
    Consumes rt 127 fields (serializeWithCachedSizes rt b) fun m => mergeFrom m b := by
  have huser := consumes_uint32 (b := b.members) hrt
    (⟨rfl, by decide, by decide⟩ : Entry 127 fields userIdField _)
  have hsession := consumes_uint32 (b := b.members) hrt
    (⟨rfl, by decide, by decide⟩ : Entry 127 fields sessionIdField _)
  have hid := consumes_uint32 (b := b.members) hrt
    (⟨rfl, by decide, by decide⟩ : Entry 127 fields msgIdField _)
  have htype := consumes_enum (b := b.members) hrt
    (⟨rfl, by decide, by decide⟩ : Entry 127 fields sessionTypeField _)
  have hwritten := huser.append (hsession.append (hid.append (htype.append Consumes.nil)))
  refine cast (congrArg _ (funext fun m => ?_)) (hwritten.append hb)
  simp only [mergeFrom, Function.comp_apply, onMembers, id_eq]

theorem mergeFrom_default (b : LiteMessage IMMsgDataAck) : mergeFrom ⟨default, []⟩ b = b := by
  change mergeFrom ⟨{}, []⟩ b = b
  simp only [mergeFrom, LiteMessage.ext_iff, IMMsgDataAck.ext_iff, apply_ite userId,
    apply_ite sessionId, apply_ite msgId, apply_ite sessionType, ite_self, ite_ne_zero,
    List.nil_append, and_self]

end IMMsgDataAck

end LearningCode.Protobuf
