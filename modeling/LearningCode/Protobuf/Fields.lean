import LearningCode.Protobuf.Wire

/-!
# The parser's loop

What the loop makes of a piece of the input, whatever is behind it: it takes
the piece and changes the message, or it fails in it. Pieces are put together
one behind the other. Then a field as the serializer writes it.
-/

namespace LearningCode.Protobuf

open Varint (encode)

variable {κ : Type} {rt : Runtime} {cutoff : UInt32} {fields : List (Field κ)}
  {bytes bs cs payload : List UInt8} {f g : LiteMessage κ → LiteMessage κ}

/-- The loop takes `bytes` in so many turns and goes on with the message changed. -/
def Consumes (rt : Runtime) (cutoff : UInt32) (fields : List (Field κ)) (bytes : List UInt8)
    (f : LiteMessage κ → LiteMessage κ) : Prop :=
  ∃ n, n ≤ bytes.length ∧ ∀ turns rest e m,
    mergePartial rt cutoff fields (turns + n) m ⟨bytes ++ rest, e⟩ =
      mergePartial rt cutoff fields turns (f m) ⟨rest, e⟩

def Fails (rt : Runtime) (cutoff : UInt32) (fields : List (Field κ)) (bytes : List UInt8) : Prop :=
  ∃ n, n ≤ bytes.length ∧ ∀ turns rest e m, ∃ m' s',
    mergePartial rt cutoff fields (turns + n) m ⟨bytes ++ rest, e⟩ = some (false, m', s')

theorem Consumes.nil : Consumes rt cutoff fields [] id :=
  ⟨0, Nat.le_refl 0, fun _ _ _ _ => rfl⟩

theorem Consumes.append (hb : Consumes rt cutoff fields bs f) (hc : Consumes rt cutoff fields cs g) :
    Consumes rt cutoff fields (bs ++ cs) (g ∘ f) := by
  obtain ⟨n, hn, hb⟩ := hb
  obtain ⟨k, hk, hc⟩ := hc
  refine ⟨k + n, ?_, fun turns rest e m => ?_⟩
  · rw [List.length_append, Nat.add_comm]
    exact Nat.add_le_add hn hk
  · rw [← Nat.add_assoc, List.append_assoc, hb, hc]
    rfl

theorem Consumes.fails (hb : Consumes rt cutoff fields bs f) (hc : Fails rt cutoff fields cs) :
    Fails rt cutoff fields (bs ++ cs) := by
  obtain ⟨n, hn, hb⟩ := hb
  obtain ⟨k, hk, hc⟩ := hc
  refine ⟨k + n, ?_, fun turns rest e m => ?_⟩
  · rw [List.length_append, Nat.add_comm]
    exact Nat.add_le_add hn hk
  · rw [← Nat.add_assoc, List.append_assoc, hb]
    exact hc turns rest e (f m)

theorem Fails.append (hb : Fails rt cutoff fields bs) : Fails rt cutoff fields (bs ++ cs) := by
  obtain ⟨n, hn, hb⟩ := hb
  refine ⟨n, ?_, fun turns rest e m => ?_⟩
  · rw [List.length_append]
    exact Nat.le_add_right_of_le hn
  · rw [List.append_assoc]
    exact hb turns (cs ++ rest) e m

/-- Whether the loop takes `bytes` is a matter of `ok`. -/
structure Settles (rt : Runtime) (cutoff : UInt32) (fields : List (Field κ)) (ok : Prop)
    (bytes : List UInt8) (f : LiteMessage κ → LiteMessage κ) : Prop where
  consumes : ok → Consumes rt cutoff fields bytes f
  fails : ¬ ok → Fails rt cutoff fields bytes

variable {p q : Prop}

theorem Consumes.settles (h : Consumes rt cutoff fields bytes f) :
    Settles rt cutoff fields True bytes f :=
  ⟨fun _ => h, fun h => absurd trivial h⟩

/-- The first piece that the loop does not take decides. -/
theorem Settles.append (hb : Settles rt cutoff fields p bs f)
    (hc : Settles rt cutoff fields q cs g) :
    Settles rt cutoff fields (p ∧ q) (bs ++ cs) (g ∘ f) where
  consumes h := (hb.consumes h.1).append (hc.consumes h.2)
  fails h := by
    rcases Classical.em p with hp | hp
    · exact (hb.consumes hp).fails (hc.fails fun hq => h ⟨hp, hq⟩)
    · exact (hb.fails hp).append

theorem Settles.congr (h : Settles rt cutoff fields p bytes f) (hpq : p ↔ q)
    (hfg : ∀ m, f m = g m) : Settles rt cutoff fields q bytes g := by
  obtain rfl : f = g := funext hfg
  exact ⟨fun hq => h.consumes (hpq.mpr hq), fun hq => h.fails (mt hpq.mp hq)⟩

-- ---------------------------------------------------------------------------
-- The ends of a run
-- ---------------------------------------------------------------------------

theorem mergePartial_end (hrt : rt.Documented) (turns : Nat) (m : LiteMessage κ) (e : Bool)
    (hzero : select fields 0 = none) :
    mergePartial rt cutoff fields (turns + 1) m ⟨[], e⟩ = some (true, m, ⟨[], true⟩) := by
  obtain ⟨known, hread⟩ := readTag_end cutoff (e := e) hrt
  rw [mergePartial, hread]
  simp only [hzero, ite_self, if_true]

theorem Consumes.run (hrt : rt.Documented) (hzero : select fields 0 = none)
    (h : Consumes rt cutoff fields bytes f) {turns : Nat} (hturns : bytes.length < turns)
    (m : LiteMessage κ) (e : Bool) :
    mergePartial rt cutoff fields turns m ⟨bytes, e⟩ = some (true, f m, ⟨[], true⟩) := by
  obtain ⟨n, hn, h⟩ := h
  obtain ⟨k, rfl⟩ : ∃ k, turns = k + 1 + n := ⟨turns - 1 - n, by omega⟩
  have hstep := h (k + 1) [] e m
  rw [List.append_nil] at hstep
  rw [hstep, mergePartial_end hrt k (f m) e hzero]

theorem Fails.run (h : Fails rt cutoff fields bytes) {turns : Nat} (hturns : bytes.length < turns)
    (m : LiteMessage κ) (e : Bool) :
    ∃ m' s', mergePartial rt cutoff fields turns m ⟨bytes, e⟩ = some (false, m', s') := by
  obtain ⟨n, hn, h⟩ := h
  obtain ⟨k, rfl⟩ : ∃ k, turns = k + n := ⟨turns - n, by omega⟩
  have hstep := h k [] e m
  rwa [List.append_nil] at hstep

theorem Settles.run (hrt : rt.Documented) (hzero : select fields 0 = none)
    (h : Settles rt cutoff fields p bytes f) {turns : Nat} (hturns : bytes.length < turns)
    (m : LiteMessage κ) (e : Bool) :
    ∃ ok m' s', mergePartial rt cutoff fields turns m ⟨bytes, e⟩ = some (ok, m', s') ∧
      (ok = true ↔ p) ∧ (ok = true → m' = f m ∧ s' = ⟨[], true⟩) := by
  rcases Classical.em p with hp | hp
  · exact ⟨_, _, _, (h.consumes hp).run hrt hzero hturns m e, iff_of_true rfl hp,
      fun _ => ⟨rfl, rfl⟩⟩
  · obtain ⟨m', s', hrun⟩ := (h.fails hp).run hturns m e
    exact ⟨_, m', s', hrun, iff_of_false Bool.false_ne_true hp, nofun⟩

theorem Settles.parse [Inhabited κ] (hrt : rt.Documented) (hzero : select fields 0 = none)
    (h : Settles rt cutoff fields p bytes f) {turns : Nat} (hturns : bytes.length < turns) :
    ∃ ok m, parseFromArray rt cutoff fields turns bytes = some (ok, m) ∧ (ok = true ↔ p) ∧
      (ok = true → m = f ⟨default, []⟩) := by
  obtain ⟨ok, m, s, hrun, hok, hm⟩ := h.run hrt hzero hturns ⟨default, []⟩ false
  refine ⟨ok && s.legitimateMessageEnd, m, ?_, ?_, ?_⟩
  · rw [parseFromArray, hrt.parseFromArray, hrun]
    rfl
  · cases ok with
    | true => rw [(hm rfl).2, Bool.true_and, ← hok]
    | false => exact hok
  · intro h
    exact (hm (Bool.and_eq_true_iff.mp h).1).1

-- ---------------------------------------------------------------------------
-- One field
-- ---------------------------------------------------------------------------

/-- The field is the one that the parser selects at the tag it is written with. -/
structure Entry (cutoff : UInt32) (fields : List (Field κ)) (field : Field κ) (type : UInt32) :
    Prop where
  select : select fields (makeTag field.number type) = some field
  pos : 0 < (makeTag field.number type).toNat
  le : makeTag field.number type ≤ cutoff

variable {field : Field κ} {type : UInt32} {put : κ → κ}

def onMembers (put : κ → κ) (m : LiteMessage κ) : LiteMessage κ :=
  { m with members := put m.members }

theorem mergePartial_entry (hrt : rt.Documented) (h : Entry cutoff fields field type) (turns : Nat)
    (m : LiteMessage κ) (rest : List UInt8) (e : Bool) :
    mergePartial rt cutoff fields (turns + 1) m ⟨writeTag field.number type ++ rest, e⟩ =
      let (ok, members, s) := field.read rt ⟨rest, e⟩ m.members
      if ok then mergePartial rt cutoff fields turns { m with members } s
      else some (false, { m with members }, s) := by
  have hread := readTag_encode cutoff rest (e := e) hrt h.pos
    (makeTag field.number type).toNat_lt
  rw [UInt32.ofNat_toNat, decide_eq_true (UInt32.le_iff_toNat_le.mp h.le)] at hread
  rw [mergePartial, writeTag, writeVarint32ToArray_eq, hread]
  simp only [if_true, h.select]

theorem length_writeTag_pos (n : Nat) (type : UInt32) : 0 < (writeTag n type).length := by
  rw [writeTag, writeVarint32ToArray_eq]
  exact Varint.length_encode_pos

theorem consumes_entry (hrt : rt.Documented) (h : Entry cutoff fields field type)
    (hbytes : bytes = writeTag field.number type ++ payload)
    (hread : ∀ rest e a, field.read rt ⟨payload ++ rest, e⟩ a = (true, put a, ⟨rest, e⟩)) :
    Consumes rt cutoff fields bytes (onMembers put) := by
  subst hbytes
  refine ⟨1, ?_, fun turns rest e m => ?_⟩
  · rw [List.length_append]
    exact Nat.le_add_right_of_le (length_writeTag_pos _ _)
  · rw [List.append_assoc, mergePartial_entry hrt h, hread]
    rfl

theorem fails_entry (hrt : rt.Documented) (h : Entry cutoff fields field type)
    (hbytes : bytes = writeTag field.number type ++ payload)
    (hread : ∀ rest e a, (field.read rt ⟨payload ++ rest, e⟩ a).1 = false) :
    Fails rt cutoff fields bytes := by
  subst hbytes
  refine ⟨1, ?_, fun turns rest e m => ?_⟩
  · rw [List.length_append]
    exact Nat.le_add_right_of_le (length_writeTag_pos _ _)
  · rw [List.append_assoc, mergePartial_entry hrt h]
    simp only [hread rest e m.members, Bool.false_eq_true, if_false]
    exact ⟨_, _, rfl⟩

theorem consumes_absent (hput : ∀ a, put a = a) : Consumes rt cutoff fields [] (onMembers put) := by
  have hid : onMembers put = (id : LiteMessage κ → LiteMessage κ) := by
    funext m
    rw [onMembers, hput]
    rfl
  rw [hid]
  exact Consumes.nil

-- ---------------------------------------------------------------------------
-- The kinds of fields
-- ---------------------------------------------------------------------------

/-- What may be sent as a string: the parser verifies what the serializer only reports. -/
def Text (rt : Runtime) (value : List UInt8) : Prop :=
  value = [] ∨ rt.verifyUtf8String value = true

section
variable {number : Nat} {tag : UInt8} {b : κ}

theorem read_delimited (hrt : rt.Documented) {value : List UInt8} (hlen : value.length < 2 ^ 31)
    (rest : List UInt8) (e : Bool) :
    rt.readBytes ⟨(writeVarint32ToArray (UInt32.ofNat value.length) ++ value) ++ rest, e⟩ =
      (true, value, ⟨rest, e⟩) := by
  rw [writeVarint32ToArray_eq, UInt32.toNat_ofNat_of_lt' (hlen.trans (by decide))]
  exact hrt.readBytes value rest e hlen

theorem consumes_string {get : κ → List UInt8} {set : κ → List UInt8 → κ} (hrt : rt.Documented)
    (h : Entry cutoff fields (stringField number tag get set) wiretypeLengthDelimited)
    (hset : ∀ a v, get (set a v) = v) (hlen : (get b).length < 2 ^ 31) (htext : Text rt (get b)) :
    Consumes rt cutoff fields ((stringField number tag get set).write rt b)
      (onMembers fun a => if 0 < (get b).length then set a (get b) else a) := by
  rcases Nat.eq_zero_or_pos (get b).length with hzero | hpos
  · simp only [stringField, hzero, Nat.lt_irrefl, if_false]
    exact consumes_absent fun _ => rfl
  · have hverify : rt.verifyUtf8String (get b) = true :=
      htext.resolve_left (List.ne_nil_of_length_pos hpos)
    simp only [hpos, if_true]
    refine consumes_entry hrt h ((if_pos hpos).trans (hrt.writeString number _ hlen))
      fun rest e a => ?_
    simp only [stringField, read_delimited hrt hlen, hset, hverify, if_true]

theorem fails_string {get : κ → List UInt8} {set : κ → List UInt8 → κ} (hrt : rt.Documented)
    (h : Entry cutoff fields (stringField number tag get set) wiretypeLengthDelimited)
    (hset : ∀ a v, get (set a v) = v) (hlen : (get b).length < 2 ^ 31) (htext : ¬ Text rt (get b)) :
    Fails rt cutoff fields ((stringField number tag get set).write rt b) := by
  obtain ⟨hne, hverify⟩ := not_or.mp htext
  refine fails_entry hrt h
    ((if_pos (List.length_pos_of_ne_nil hne)).trans (hrt.writeString number _ hlen))
    fun rest e a => ?_
  simp only [stringField, read_delimited hrt hlen, hset, if_true]
  exact eq_false_of_ne_true hverify

theorem settles_string {get : κ → List UInt8} {set : κ → List UInt8 → κ} (hrt : rt.Documented)
    (h : Entry cutoff fields (stringField number tag get set) wiretypeLengthDelimited)
    (hset : ∀ a v, get (set a v) = v) (hlen : (get b).length < 2 ^ 31) :
    Settles rt cutoff fields (Text rt (get b)) ((stringField number tag get set).write rt b)
      (onMembers fun a => if 0 < (get b).length then set a (get b) else a) :=
  ⟨consumes_string hrt h hset hlen, fails_string hrt h hset hlen⟩

theorem consumes_bytes {get : κ → List UInt8} {set : κ → List UInt8 → κ} (hrt : rt.Documented)
    (h : Entry cutoff fields (bytesField number tag get set) wiretypeLengthDelimited)
    (hlen : (get b).length < 2 ^ 31) :
    Consumes rt cutoff fields ((bytesField number tag get set).write rt b)
      (onMembers fun a => if 0 < (get b).length then set a (get b) else a) := by
  rcases Nat.eq_zero_or_pos (get b).length with hzero | hpos
  · simp only [bytesField, hzero, Nat.lt_irrefl, if_false]
    exact consumes_absent fun _ => rfl
  · simp only [hpos, if_true]
    refine consumes_entry hrt h ((if_pos hpos).trans (hrt.writeBytes number _ hlen))
      fun rest e a => ?_
    simp only [bytesField, read_delimited hrt hlen]

theorem consumes_uint32 {get : κ → UInt32} {set : κ → UInt32 → κ} (hrt : rt.Documented)
    (h : Entry cutoff fields (uint32Field number tag get set) wiretypeVarint) :
    Consumes rt cutoff fields ((uint32Field number tag get set).write rt b)
      (onMembers fun a => if get b ≠ 0 then set a (get b) else a) := by
  rcases Decidable.em (get b = 0) with hzero | hne
  · simp only [uint32Field, hzero, ne_eq, not_true_eq_false, if_false]
    exact consumes_absent fun _ => rfl
  · have hlt := (get b).toNat_lt
    simp only [ne_eq, hne, not_false_eq_true, if_true]
    refine consumes_entry hrt h ((if_pos hne).trans (hrt.writeUInt32 number (get b)))
      fun rest e a => ?_
    rw [writeUInt32NoTag, writeVarint32ToArray_eq]
    simp only [uint32Field, readVarint32_encode hrt (hlt.trans (by decide)),
      Nat.mod_eq_of_lt hlt, UInt32.ofNat_toNat]

/-- A negative number is written in 64 bits and read as its lower half. -/
theorem consumes_enum {get : κ → Int32} {set : κ → Int32 → κ} (hrt : rt.Documented)
    (h : Entry cutoff fields (enumField number tag get set) wiretypeVarint) :
    Consumes rt cutoff fields ((enumField number tag get set).write rt b)
      (onMembers fun a => if get b ≠ 0 then set a (get b) else a) := by
  rcases Decidable.em (get b = 0) with hzero | hne
  · simp only [enumField, hzero, ne_eq, not_true_eq_false, if_false]
    exact consumes_absent fun _ => rfl
  · simp only [ne_eq, hne, not_false_eq_true, if_true]
    refine consumes_entry hrt h ((if_pos hne).trans (hrt.writeEnum number (get b)))
      fun rest e a => ?_
    rw [writeEnumNoTag, writeVarint32SignExtended, writeVarint64ToArray_eq]
    simp only [enumField, readVarint32_encode hrt (signExtended_lt (get b)),
      signExtended_mod, UInt32.ofNat_toNat, if_true]
    rfl

end

end LearningCode.Protobuf
