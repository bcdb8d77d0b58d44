import LearningCode.Protobuf.Merge

/-!
# What the parser accepts

On any bytes the loop ends, and a message that it accepts can be serialized and
parsed again without a change.
-/

namespace LearningCode.Protobuf

open Varint (encode)

variable {rt : Runtime}

section
variable {κ : Type} {cutoff tag : UInt32} {fields : List (Field κ)} {P : κ → Prop} {field : Field κ}

theorem select_mem (h : select fields tag = some field) : field ∈ fields := by
  obtain ⟨found, hfound, hif⟩ := Option.bind_eq_some_iff.mp h
  rw [Option.ite_none_right_eq_some] at hif
  obtain rfl := Option.some.inj hif.2
  exact List.mem_of_find?_eq_some hfound

/-- Reading the field takes from the input, and keeps what is asked of the members. -/
def KeptBy (rt : Runtime) (P : κ → Prop) (field : Field κ) : Prop :=
  ∀ s k, s.buffer.length < 2 ^ 31 → P k → (field.read rt s k).1 = true →
    P (field.read rt s k).2.1 ∧ (field.read rt s k).2.2.buffer.length ≤ s.buffer.length

theorem kept_string {number : Nat} {t : UInt8} {get : κ → List UInt8} {set : κ → List UInt8 → κ}
    (hrt : rt.Documented)
    (hset : ∀ k v, P k → v.length < 2 ^ 31 → rt.verifyUtf8String (get (set k v)) = true →
      P (set k v)) :
    KeptBy rt P (stringField number t get set) := by
  intro s k hs hk hok
  have hlen := hrt.readBytes_length s
  simp only [stringField] at hok ⊢
  cases hread : (rt.readBytes s).1 with
  | false =>
    rw [hread] at hok
    simp only [Bool.false_eq_true, if_false] at hok
  | true =>
    rw [hread] at hok
    simp only [if_true] at hok ⊢
    have hle := hlen hread
    exact ⟨hset k _ hk (Nat.lt_of_le_of_lt (Nat.le_trans (Nat.le_add_right _ _) hle) hs) hok,
      Nat.le_trans (Nat.le_add_left _ _) hle⟩

theorem kept_bytes {number : Nat} {t : UInt8} {get : κ → List UInt8} {set : κ → List UInt8 → κ}
    (hrt : rt.Documented) (hset : ∀ k v, P k → v.length < 2 ^ 31 → P (set k v)) :
    KeptBy rt P (bytesField number t get set) := by
  intro s k hs hk hok
  have hle := hrt.readBytes_length s hok
  exact ⟨hset k _ hk (Nat.lt_of_le_of_lt (Nat.le_trans (Nat.le_add_right _ _) hle) hs),
    Nat.le_trans (Nat.le_add_left _ _) hle⟩

theorem kept_uint32 {number : Nat} {t : UInt8} {get : κ → UInt32} {set : κ → UInt32 → κ}
    (hrt : rt.Documented) (hset : ∀ k v, P k → P (set k v)) :
    KeptBy rt P (uint32Field number t get set) := fun _ k _ hk _ =>
  ⟨hset k _ hk, readVarint32_length hrt⟩

theorem kept_enum {number : Nat} {t : UInt8} {get : κ → Int32} {set : κ → Int32 → κ}
    (hrt : rt.Documented) (hset : ∀ k v, P k → P (set k v)) :
    KeptBy rt P (enumField number t get set) := by
  intro s k _ hk hok
  have hlen : (readVarint32 rt s).2.2.buffer.length ≤ s.buffer.length := readVarint32_length hrt
  simp only [enumField] at hok ⊢
  cases hread : (readVarint32 rt s).1 with
  | false =>
    rw [hread] at hok
    simp only [Bool.false_eq_true, if_false] at hok
  | true =>
    simp only [if_true]
    exact ⟨hset k _ hk, hlen⟩

theorem recorded_skip (hrt : rt.Documented) {s : CodedInputStream} (hne : tag ≠ 0)
    (hsel : (if decide (tag ≤ cutoff) = true then select fields tag else none) = none)
    (hskip : (rt.skipField s tag).1 = true) :
    Recorded rt cutoff fields (rt.skipField s tag).2.1 := by
  obtain ⟨value, hvalue, hagain⟩ := hrt.skipField s tag hskip
  have hpos : 0 < tag.toNat := Nat.pos_of_ne_zero fun h => hne (UInt32.toNat_inj.mp h)
  rw [hvalue]
  refine ⟨1, ?_, fun turns rest e m => ?_⟩
  · rw [List.length_append]
    exact Nat.le_add_right_of_le Varint.length_encode_pos
  · have hread := readTag_encode cutoff (value ++ rest) (e := e) hrt hpos
      tag.toNat_lt
    simp only [UInt32.ofNat_toNat, ← UInt32.le_iff_toNat_le] at hread
    rw [List.append_assoc, mergePartial, hread]
    simp only [hsel, hne, if_false, hagain, if_true]

theorem Recorded.append {bs cs : List UInt8} (hb : Recorded rt cutoff fields bs)
    (hc : Recorded rt cutoff fields cs) : Recorded rt cutoff fields (bs ++ cs) := by
  unfold Recorded at hb hc ⊢
  refine cast (congrArg _ (funext fun m => ?_)) (hb.append hc)
  rw [Function.comp_apply, List.append_assoc]

/-- The induction on the turns: every turn takes a tag from the input. -/
theorem mergePartial_any (hrt : rt.Documented) (hzero : select fields 0 = none)
    (hkept : ∀ field ∈ fields, KeptBy rt P field) (turns : Nat) :
    ∀ (m : LiteMessage κ) (s : CodedInputStream), s.buffer.length < turns →
      s.buffer.length < 2 ^ 31 → P m.members → Recorded rt cutoff fields m.unknownFields →
      ∃ ok m' s', mergePartial rt cutoff fields turns m s = some (ok, m', s') ∧
        (ok = true → P m'.members ∧ Recorded rt cutoff fields m'.unknownFields) := by
  induction turns with
  | zero => exact fun _ _ h => absurd h (Nat.not_lt_zero _)
  | succ turns ih =>
    intro m s hturns hs hP hrec
    rcases hread : readTagWithCutoffNoLastTag rt cutoff s with ⟨tag, known, s₁⟩
    rw [mergePartial, hread]
    rcases Decidable.em (tag = 0) with rfl | hne
    · simp only [hzero, ite_self, if_true]
      exact ⟨true, m, s₁, rfl, fun _ => ⟨hP, hrec⟩⟩
    obtain ⟨rfl, hless⟩ := readTag_any hrt hread hne
    have hs₁ : s₁.buffer.length < 2 ^ 31 := hless.trans hs
    have hturns₁ : s₁.buffer.length < turns :=
      Nat.lt_of_lt_of_le hless (Nat.le_of_lt_succ hturns)
    rcases hsel : (if decide (tag ≤ cutoff) = true then select fields tag else none) with _ | field
    · have hlen := hrt.skipField_length s₁ tag
      have hskip := recorded_skip (s := s₁) hrt hne hsel
      rcases hrun : rt.skipField s₁ tag with ⟨ok, skipped, s₂⟩
      rw [hrun] at hlen hskip
      simp only [hsel, hne, if_false, hrun]
      cases ok with
      | false => exact ⟨false, _, s₂, rfl, fun hok => absurd hok Bool.false_ne_true⟩
      | true =>
        exact ih _ s₂ (Nat.lt_of_le_of_lt hlen hturns₁) (Nat.lt_of_le_of_lt hlen hs₁) hP
          (hrec.append (hskip rfl))
    · have hmem : field ∈ fields := by
        rw [Option.ite_none_right_eq_some] at hsel
        exact select_mem hsel.2
      have hfield := hkept field hmem s₁ m.members hs₁ hP
      rcases hrun : field.read rt s₁ m.members with ⟨ok, members, s₂⟩
      rw [hrun] at hfield
      simp only [hsel, hrun]
      cases ok with
      | false => exact ⟨false, _, s₂, rfl, fun hok => absurd hok Bool.false_ne_true⟩
      | true =>
        obtain ⟨hP₂, hlen⟩ := hfield rfl
        exact ih _ s₂ (Nat.lt_of_le_of_lt hlen hturns₁) (Nat.lt_of_le_of_lt hlen hs₁) hP₂ hrec

variable (cutoff) in
theorem parse_any [Inhabited κ] (hrt : rt.Documented) (hzero : select fields 0 = none)
    (hkept : ∀ field ∈ fields, KeptBy rt P field) (hP : P default) {turns : Nat} {data : List UInt8}
    (hturns : data.length < turns) (hdata : data.length < 2 ^ 31) :
    ∃ ok m, parseFromArray rt cutoff fields turns data = some (ok, m) ∧
      (ok = true → P m.members ∧ Recorded rt cutoff fields m.unknownFields) := by
  obtain ⟨ok, m, s, hrun, hm⟩ := mergePartial_any hrt hzero hkept turns ⟨default, []⟩
    ⟨data, false⟩ hturns hdata hP Recorded.nil
  refine ⟨ok && s.legitimateMessageEnd, m, ?_, fun h => hm (Bool.and_eq_true_iff.mp h).1⟩
  rw [parseFromArray, hrt.parseFromArray, hrun]
  rfl

theorem Consumes.parse [Inhabited κ] {bytes : List UInt8} {f : LiteMessage κ → LiteMessage κ}
    (hrt : rt.Documented) (hzero : select fields 0 = none)
    (h : Consumes rt cutoff fields bytes f) {turns : Nat} (hturns : bytes.length < turns) :
    parseFromArray rt cutoff fields turns bytes = some (true, f ⟨default, []⟩) := by
  rw [parseFromArray, hrt.parseFromArray, h.run hrt hzero hturns]
  rfl

end

/-- Parsing ends on any bytes, and what it accepts comes back when it is
serialized and parsed again. -/
def Stable {κ : Type} (parseFromArray : Nat → List UInt8 → Option (Bool × LiteMessage κ))
    (serializeWithCachedSizes : LiteMessage κ → List UInt8) : Prop :=
  ∀ turns data, data.length < turns → data.length < 2 ^ 31 →
    ∃ ok m, parseFromArray turns data = some (ok, m) ∧ (ok = true →
      ∀ turns, (serializeWithCachedSizes m).length < turns →
        parseFromArray turns (serializeWithCachedSizes m) = some (true, m))

def Read (rt : Runtime) (v : List UInt8) : Prop := v.length < 2 ^ 31 ∧ Text rt v

theorem read_default : Read rt [] := ⟨by decide, .inl rfl⟩

theorem IMLoginReq.stable (hrt : rt.Documented) :
    Stable (parseFromArray rt) (serializeWithCachedSizes rt) := by
  intro turns data hturns hdata
  have hkept : ∀ field ∈ fields, KeptBy rt
      (fun k => Read rt k.userName ∧ Read rt k.password ∧ Read rt k.clientVersion) field := by
    simp only [fields, List.forall_mem_cons, List.not_mem_nil, false_imp_iff, implies_true, and_true]
    exact ⟨kept_string hrt fun _ _ hk hlen htext => ⟨⟨hlen, .inr htext⟩, hk.2⟩,
      kept_string hrt fun _ _ hk hlen htext => ⟨hk.1, ⟨hlen, .inr htext⟩, hk.2.2⟩,
      kept_enum hrt fun _ _ hk => hk, kept_enum hrt fun _ _ hk => hk,
      kept_string hrt fun _ _ hk hlen htext => ⟨hk.1, hk.2.1, hlen, .inr htext⟩⟩
  obtain ⟨ok, m, hrun, hm⟩ := parse_any 127 hrt rfl hkept
    ⟨read_default, read_default, read_default⟩ hturns hdata
  refine ⟨ok, m, hrun, fun hok again hagain => ?_⟩
  obtain ⟨⟨huser, hpassword, hversion⟩, hunknown⟩ := hm hok
  have hsized : Sized rt m := ⟨by
    simp only [strings, List.forall_mem_cons, List.not_mem_nil, false_imp_iff, implies_true, and_true]
    exact ⟨huser.1, hpassword.1, hversion.1⟩, hunknown⟩
  have htext : ∀ v ∈ m.members.strings, Text rt v := by
    simp only [strings, List.forall_mem_cons, List.not_mem_nil, false_imp_iff, implies_true, and_true]
    exact ⟨huser.2, hpassword.2, hversion.2⟩
  have hparse := ((settles hrt hsized).consumes htext).parse hrt rfl hagain
  rwa [mergeFrom_default] at hparse

theorem IMMsgData.stable (hrt : rt.Documented) :
    Stable (parseFromArray rt) (serializeWithCachedSizes rt) := by
  intro turns data hturns hdata
  have hkept : ∀ field ∈ fields, KeptBy rt
      (fun k => k.msgData.length < 2 ^ 31 ∧ k.attachData.length < 2 ^ 31) field := by
    simp only [fields, List.forall_mem_cons, List.not_mem_nil, false_imp_iff, implies_true, and_true]
    exact ⟨kept_uint32 hrt fun _ _ hk => hk, kept_uint32 hrt fun _ _ hk => hk,
      kept_uint32 hrt fun _ _ hk => hk, kept_uint32 hrt fun _ _ hk => hk,
      kept_enum hrt fun _ _ hk => hk, kept_bytes hrt fun _ _ hk hlen => ⟨hlen, hk.2⟩,
      kept_bytes hrt fun _ _ hk hlen => ⟨hk.1, hlen⟩⟩
  obtain ⟨ok, m, hrun, hm⟩ := parse_any 16383 hrt rfl hkept
    ⟨by decide, by decide⟩ hturns hdata
  refine ⟨ok, m, hrun, fun hok again hagain => ?_⟩
  obtain ⟨⟨hdata, hattach⟩, hunknown⟩ := hm hok
  have hparse := (consumes hrt ⟨hdata, hattach, hunknown⟩).parse hrt rfl hagain
  rwa [mergeFrom_default] at hparse

theorem IMMsgDataAck.stable (hrt : rt.Documented) :
    Stable (parseFromArray rt) (serializeWithCachedSizes rt) := by
  intro turns data hturns hdata
  have hkept : ∀ field ∈ fields, KeptBy rt (fun _ => True) field := by
    simp only [fields, List.forall_mem_cons, List.not_mem_nil, false_imp_iff, implies_true, and_true]
    exact ⟨kept_uint32 hrt fun _ _ hk => hk, kept_uint32 hrt fun _ _ hk => hk,
      kept_uint32 hrt fun _ _ hk => hk, kept_enum hrt fun _ _ hk => hk⟩
  obtain ⟨ok, m, hrun, hm⟩ := parse_any 127 hrt rfl hkept trivial hturns hdata
  refine ⟨ok, m, hrun, fun hok again hagain => ?_⟩
  have hparse := (consumes hrt (hm hok).2).parse hrt rfl hagain
  rwa [mergeFrom_default] at hparse

/-- The three classes of the messenger. -/
theorem accepted_stable (hrt : rt.Documented) :
    Stable (IMLoginReq.parseFromArray rt) (IMLoginReq.serializeWithCachedSizes rt) ∧
      Stable (IMMsgData.parseFromArray rt) (IMMsgData.serializeWithCachedSizes rt) ∧
      Stable (IMMsgDataAck.parseFromArray rt) (IMMsgDataAck.serializeWithCachedSizes rt) :=
  ⟨IMLoginReq.stable hrt, IMMsgData.stable hrt, IMMsgDataAck.stable hrt⟩

/-- Of a field that comes twice the second value is kept, and sent on once. -/
theorem accepted_stable_twice :
    let m : LiteMessage IMMsgDataAck := ⟨{ userId := 2 }, []⟩
    IMMsgDataAck.parseFromArray reference 5 [8, 1, 8, 2] = some (true, m) ∧
      ∀ turns, (IMMsgDataAck.serializeWithCachedSizes reference m).length < turns →
        IMMsgDataAck.parseFromArray reference turns
          (IMMsgDataAck.serializeWithCachedSizes reference m) = some (true, m) := by
  intro m
  have hparse : IMMsgDataAck.parseFromArray reference 5 [8, 1, 8, 2] = some (true, m) := by decide
  obtain ⟨ok, m', hrun, hagain⟩ :=
    (accepted_stable reference_documented).2.2 5 [8, 1, 8, 2] (by decide) (by decide)
  rw [hparse, Option.some.injEq, Prod.mk.injEq] at hrun
  obtain ⟨rfl, rfl⟩ := hrun
  exact ⟨hparse, hagain rfl⟩

end LearningCode.Protobuf
