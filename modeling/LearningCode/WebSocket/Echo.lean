import Mathlib.Data.List.GetD
import Mathlib.Tactic.Ring
import LearningCode.Lib.Rfc6455
import LearningCode.WebSocket.Model

/-!
# The echo of a text frame

The reply is a frame around the bytes that `decode_packet` takes for the payload.
These are the payload when the frame has a mask and its length fits into two
bytes; without a mask they begin four bytes too late.
-/

namespace LearningCode.WebSocket

open Rfc6455

variable {b : Buffer} {ev : Ntyevent} {mask : Option Key} {payload l : List UInt8} {n : Nat}

def textFrame (mask : Option Key) (payload : List UInt8) : Frame := ⟨true, 0, 1, mask, payload⟩

/-- `ev->buffer[0..ev->length)` is a frame with the payload, and without a mask. -/
def Echoes (ev : Ntyevent) (payload : List UInt8) : Prop :=
  ∃ ev' closed, transmission ev = some (ev', closed) ∧
    decode (contents ev'.buffer 0 ev'.length.toNat) = some (textFrame none payload)

-- ---------------------------------------------------------------------------
-- Memory
-- ---------------------------------------------------------------------------

@[simp] theorem length_contents (b : Buffer) (off n : Nat) : (contents b off n).length = n := by
  simp [contents]

theorem getElem_contents {off i : Nat} (h : i < (contents b off n).length) :
    (contents b off n)[i] = b (off + i) := by simp [contents]

theorem contents_succ (off : Nat) :
    contents b off (n + 1) = b off :: contents b (off + 1) n := by
  simp only [contents, List.range_succ_eq_map, List.map_cons, List.map_map, Nat.add_zero,
    List.cons.injEq, true_and]
  exact List.map_congr_left fun i _ => by simp [Nat.add_assoc, Nat.add_comm 1]

theorem contents_congr {b' : Buffer} {off off' : Nat}
    (h : ∀ i < n, b' (off' + i) = b (off + i)) : contents b' off' n = contents b off n :=
  List.map_congr_left fun i hi => h i (List.mem_range.mp hi)

theorem write_apply (off : Nat) (n x j : Nat) : write b off n x j =
    if off ≤ j ∧ j < off + n then UInt8.ofNat (x / 256 ^ (j - off)) else b j := by
  induction n generalizing b off x with
  | zero =>
    rw [if_neg (by omega)]
    rfl
  | succ n ih =>
    rw [write, ih]
    by_cases hj : j = off
    · subst hj
      rw [if_neg (by omega), if_pos (by omega)]
      simp
    · rw [Function.update_of_ne hj]
      by_cases hin : off + 1 ≤ j ∧ j < off + 1 + n
      · rw [if_pos hin, if_pos (by omega), Nat.div_div_eq_div_mul]
        congr 2
        rw [← Nat.pow_succ', Nat.sub_add_eq]
        congr 1
        omega
      · rw [if_neg hin, if_neg (by omega)]

theorem umask_apply {p k : Nat} (hkp : k + 4 ≤ p) (n i j : Nat) : umask b p k n i j =
    if p + i ≤ j ∧ j < p + i + n then b j ^^^ b (k + (j - p) % 4) else b j := by
  induction n generalizing b i with
  | zero =>
    rw [if_neg (by omega)]
    rfl
  | succ n ih =>
    have hkey (m : Nat) : k + m % 4 ≠ p + i := by
      have hm : m % 4 < 4 := Nat.mod_lt _ (by decide)
      omega
    rw [umask, ih]
    by_cases hj : j = p + i
    · subst hj
      rw [if_neg (by omega), if_pos (by omega), Function.update_self, Nat.add_sub_cancel_left]
    · rw [Function.update_of_ne hj, Function.update_of_ne (hkey _)]
      by_cases hin : p + (i + 1) ≤ j ∧ j < p + (i + 1) + n
      · rw [if_pos hin, if_pos (by omega)]
      · rw [if_neg hin, if_neg (by omega)]

theorem contents_memcpy (b : Buffer) (dst src n : Nat) :
    contents (memcpy b dst src n) dst n = contents b src n := by
  refine contents_congr fun i hi => ?_
  rw [memcpy, if_pos (by omega), Nat.add_sub_cancel_left]

theorem contents_add (b : Buffer) (off m n : Nat) :
    contents b off (m + n) = contents b off m ++ contents b (off + m) n := by
  simp only [contents, List.range_add, List.map_append, List.map_map]
  congr 1
  exact List.map_congr_left fun i _ => by simp [Nat.add_assoc]

-- ---------------------------------------------------------------------------
-- encode_packet
-- ---------------------------------------------------------------------------

theorem contents_reply {src off v : Nat} (ext : Buffer) (hoff : 2 ≤ off) (hsrc : off ≤ src)
    (hext : ∀ j, j < 2 ∨ off ≤ j → ext j = write (write b 0 1 (128 + 1)) 1 1 v j) :
    contents (memcpy ext off src n) 0 (off + n) =
      129 :: UInt8.ofNat v :: (contents ext 2 (off - 2) ++ contents b src n) := by
  have hpayload : contents (memcpy ext off src n) off n = contents b src n := by
    rw [contents_memcpy]
    refine contents_congr fun i _ => ?_
    rw [hext _ (.inr (by omega)), write_apply, write_apply, if_neg (by omega), if_neg (by omega)]
  have hhead : contents (memcpy ext off src n) 0 off = contents ext 0 off := by
    refine contents_congr fun i hi => ?_
    rw [memcpy, if_neg (by omega)]
  obtain ⟨k, rfl⟩ : ∃ k, off = k + 2 := ⟨off - 2, by omega⟩
  rw [contents_add, Nat.zero_add, hpayload, hhead, contents_succ, contents_succ]
  simp [hext 0 (.inl (by decide)), hext 1 (.inl (by decide)), write_apply]

variable {src : Nat}

theorem encodePacket_short (ev : Ntyevent) (hn : n < 126) (hsrc : 2 ≤ src) : ∃ b',
    encodePacket ev n n (some src) = some (b', ((2 + n : Nat) : Int)) ∧
      contents b' 0 (2 + n) = encode (textFrame none (contents ev.buffer src n)) := by
  refine ⟨memcpy (write (write ev.buffer 0 1 (128 + 1)) 1 1 n) 2 src n, ?_, ?_⟩
  · simp [encodePacket, hn, sizeofOphdr]
  · rw [contents_reply (b := ev.buffer) (v := n) _ (Nat.le_refl 2) hsrc fun _ _ => rfl]
    simp [encode, textFrame, encodeLength, hn, applyMask, contents]

theorem ntohs_div (n : Nat) : ntohs n / 256 = n % 256 := by
  unfold ntohs
  omega

theorem ntohs_mod (n : Nat) : ntohs n % 256 = n / 256 % 256 := by
  unfold ntohs
  omega

theorem contents_write_ntohs (b : Buffer) (off n : Nat) :
    contents (write b off 2 (ntohs n)) off 2 = bytesOf 2 n := by
  have hhigh : UInt8.ofNat (ntohs n) = UInt8.ofNat (n / 256) := by
    apply UInt8.toNat_inj.mp
    simp [ntohs_mod]
  have hlow : UInt8.ofNat (ntohs n / 256) = UInt8.ofNat n := by
    apply UInt8.toNat_inj.mp
    simp [ntohs_div]
  rw [contents_succ, contents_succ]
  simp only [write_apply, Nat.le_refl, Nat.lt_add_right_iff_pos, Nat.sub_self, Nat.pow_zero,
    Nat.div_one, hhigh, Nat.le_add_right, Nat.add_lt_add_iff_left, Nat.add_sub_cancel_left,
    Nat.pow_one, hlow]
  rfl

theorem encodePacket_middle (ev : Ntyevent) (hn : 126 ≤ n) (hn' : n < 65536) (hsrc : 4 ≤ src) : ∃ b',
    encodePacket ev n 126 (some src) = some (b', ((4 + n : Nat) : Int)) ∧
      contents b' 0 (4 + n) = encode (textFrame none (contents ev.buffer src n)) := by
  refine ⟨memcpy (write (write (write ev.buffer 0 1 (128 + 1)) 1 1 126) 2 2 (ntohs n)) 4 src n,
    ?_, ?_⟩
  · simp [encodePacket, sizeofOphdr, Nat.mod_eq_of_lt hn']
  · rw [contents_reply (b := ev.buffer) (v := 126) _ (by decide) hsrc fun j hj => ?_]
    · simp [encode, textFrame, encodeLength_middle hn hn', applyMask, contents_write_ntohs]
    · rw [write_apply, if_neg (by omega)]

theorem encodePacket_long (ev : Ntyevent) (realLen : Int) (hsrc : 10 ≤ src) :
    encodePacket ev realLen 127 (some src) = none ∨ ∃ b' l,
      encodePacket ev realLen 127 (some src) = some (b', 10 + realLen) ∧ 0 ≤ realLen ∧
        contents b' 0 (10 + realLen.toNat) = 129 :: 127 :: l := by
  by_cases hneg : realLen < 0
  · exact .inl (by simp [encodePacket, hneg])
  · have hcontents := contents_reply (b := ev.buffer) (n := realLen.toNat) (v := 127)
      (write (write (write ev.buffer 0 1 (128 + 1)) 1 1 127) 2 8 (BitVec.ofInt 64 realLen).toNat)
      (by decide) hsrc fun j hj => by rw [write_apply, if_neg (by omega)]
    refine .inr ⟨_, _, ?_, Int.not_lt.mp hneg, hcontents⟩
    simp [encodePacket, sizeofOphdr, hneg]

-- ---------------------------------------------------------------------------
-- decode_packet
-- ---------------------------------------------------------------------------

theorem load_append (l m : List UInt8) (i : Nat) :
    load (l ++ m) (l.length + i) = load m i := by
  rw [load, load, List.getD_append_right _ _ _ _ (Nat.le_add_right ..), Nat.add_sub_cancel_left]

def shifted (payload : List UInt8) : List UInt8 := contents (load payload) 4 payload.length

theorem contents_load_self (l : List UInt8) : contents (load l) 0 l.length = l := by
  refine List.ext_getElem (by simp) fun i h _ => ?_
  rw [getElem_contents, Nat.zero_add, load, List.getD_eq_getElem]

theorem shifted_eq_iff : shifted payload = payload ↔ ∀ c ∈ payload, c = 0 := by
  constructor
  · intro h
    -- from the end of the payload towards its front
    have hzero : ∀ k i, payload.length ≤ i + k → load payload i = 0 := by
      intro k
      induction k using Nat.strongRecOn with
      | ind k ih =>
        intro i hi
        by_cases hlt : i < payload.length
        · have heq : load payload i = load payload (4 + i) := by
            have hget := congrArg (fun l => l.getD i 0) h
            simp only [shifted] at hget
            rw [List.getD_eq_getElem _ _ (by simpa using hlt), getElem_contents] at hget
            exact hget.symm
          rw [heq]
          by_cases hend : payload.length ≤ 4 + i
          · simp [load, hend]
          · exact ih (k - 4) (by omega) _ (by omega)
        · simp [load, Nat.not_lt.mp hlt]
    intro c hc
    obtain ⟨i, hi, rfl⟩ := List.mem_iff_getElem.mp hc
    have h0 := hzero payload.length i (by omega)
    rwa [load, List.getD_eq_getElem] at h0
  · intro h
    have hload (i : Nat) : load payload i = 0 := by
      rw [load]
      by_cases hi : i < payload.length
      · rw [List.getD_eq_getElem _ _ hi]
        exact h _ (List.getElem_mem hi)
      · exact List.getD_eq_default _ _ (Nat.not_lt.mp hi)
    rw [shifted, ← contents_load_self payload, length_contents]
    exact contents_congr fun i _ => by rw [hload, contents_load_self, hload]

variable {off : Nat} {k : Key}

/-- A payload without a mask, read from four bytes too far on. -/
theorem contents_unmasked (h : ∀ i, b (off + i) = load payload i) :
    contents b (off + 4) payload.length = shifted payload :=
  contents_congr fun i _ => by rw [Nat.add_assoc, h]

theorem key_at (k : Key) (m : List UInt8) (i : Nat) : load (k.bytes ++ m) (i % 4) = k.at i := by
  have hlt : i % 4 < 4 := Nat.mod_lt _ (by decide)
  rw [load, List.getD_append _ _ _ _ hlt, Key.at]
  match i % 4, hlt with
  | 0, _ => rfl
  | 1, _ => rfl
  | 2, _ => rfl
  | 3, _ => rfl

theorem contents_umask
    (h : ∀ i, b (off + i) = load (k.bytes ++ applyMask (some k) payload) i) :
    contents (umask b (off + 4) off payload.length 0) (off + 4) payload.length = payload := by
  refine List.ext_getElem (by simp) fun i hi hi' => ?_
  have hpayload : b (off + (4 + i)) = (applyMask (some k) payload).getD i 0 := by
    rw [h]
    exact load_append k.bytes _ i
  rw [getElem_contents, umask_apply (Nat.le_refl _), if_pos (by omega), Nat.add_sub_cancel_left, h,
    key_at, Nat.add_assoc, hpayload, List.getD_eq_getElem _ _ (by simpa using hi')]
  simp only [applyMask, List.getElem_mapIdx, UInt8.xor_assoc, UInt8.xor_self, UInt8.xor_zero]

def taken : Option Key → List UInt8 → List UInt8
  | none, payload => shifted payload
  | some _, payload => payload

theorem contents_taken (b : Buffer) (off : Nat) (mask : Option Key)
    (h : ∀ i, b (off + i) = load (mask.elim [] Key.bytes ++ applyMask mask payload) i) :
    contents (if mask.isSome then umask b (off + 4) off payload.length 0 else b) (off + 4)
      payload.length = taken mask payload := by
  cases mask with
  | none => exact contents_unmasked h
  | some k => exact contents_umask h

theorem encode_textFrame (mask : Option Key) (payload : List UInt8) :
    encode (textFrame mask payload) = ([129,
      UInt8.ofNat (mask.isSome.toNat * 128 + (encodeLength payload.length).1)] ++
        (encodeLength payload.length).2) ++
          (mask.elim [] Key.bytes ++ applyMask mask payload) := by
  simp [encode, textFrame]

theorem header_fields (hb : b = load (encode (textFrame mask payload))) : opcode b = 1 ∧
    payloadLen b = (encodeLength payload.length).1 ∧ isMasked b = mask.isSome := by
  subst hb
  have hfst := encodeLength_fst_lt payload.length
  have hmask := mask.isSome.toNat_le
  have h1 : (load (encode (textFrame mask payload)) 1).toNat =
      mask.isSome.toNat * 128 + (encodeLength payload.length).1 := by
    have hread : load (encode (textFrame mask payload)) 1 =
        UInt8.ofNat (mask.isSome.toNat * 128 + (encodeLength payload.length).1) := by
      simp [encode_textFrame, load]
    rw [hread, UInt8.toNat_ofNat', Nat.mod_eq_of_lt]
    omega
  refine ⟨by simp [opcode, encode_textFrame, load], ?_, ?_⟩
  · rw [payloadLen, h1]
    omega
  · rw [isMasked, h1]
    cases mask.isSome
    · exact decide_eq_false (by simp; omega)
    · exact decide_eq_true (by simp)

theorem decodePacket_short (hb : ev.buffer = load (encode (textFrame mask payload)))
    (hn : payload.length < 126) : ∃ b',
    decodePacket ev = ⟨{ ev with buffer := b' }, some 6, payload.length, payload.length, false⟩ ∧
      contents b' 6 payload.length = taken mask payload := by
  obtain ⟨hopcode, hlen, hmask⟩ := header_fields hb
  have hlength := encodeLength_short hn
  refine ⟨_, ?_, contents_taken ev.buffer 2 mask fun i => ?_⟩
  · rw [hlength] at hlen
    simp [decodePacket, hopcode, hlen, hmask, hn, sizeofOphdr]
  · rw [hb, encode_textFrame, hlength]
    exact load_append _ _ i

theorem read_length (hn : payload.length < 65536) (hn' : 126 ≤ payload.length) :
    ntohs (read (load (encode (textFrame mask payload))) 2 2) = payload.length := by
  have hlength := encodeLength_middle hn' hn
  have h2 : load (encode (textFrame mask payload)) 2 = UInt8.ofNat (payload.length / 256) := by
    simp [encode_textFrame, hlength, load, bytesOf]
  have h3 : load (encode (textFrame mask payload)) 3 = UInt8.ofNat payload.length := by
    simp [encode_textFrame, hlength, load, bytesOf]
  have hvalue : read (load (encode (textFrame mask payload))) 2 2 =
      payload.length / 256 + 256 * (payload.length % 256) := by
    simp only [read, h2, h3, UInt8.toNat_ofNat', Nat.reducePow]
    omega
  have hlow : (payload.length / 256 + 256 * (payload.length % 256)) % 256 = payload.length / 256 := by
    omega
  have hhigh : (payload.length / 256 + 256 * (payload.length % 256)) / 256 = payload.length % 256 := by
    omega
  rw [hvalue, ntohs, hlow, hhigh]
  omega

theorem decodePacket_middle (hb : ev.buffer = load (encode (textFrame mask payload)))
    (hn : 126 ≤ payload.length) (hn' : payload.length < 65536) : ∃ b',
    decodePacket ev = ⟨{ ev with buffer := b' }, some 8, payload.length, 126, false⟩ ∧
      contents b' 8 payload.length = taken mask payload := by
  obtain ⟨hopcode, hlen, hmask⟩ := header_fields hb
  have hlength := encodeLength_middle hn hn'
  refine ⟨_, ?_, contents_taken (write ev.buffer 2 2 payload.length) 4 mask fun i => ?_⟩
  · have hread : ntohs (read ev.buffer 2 2) = payload.length := hb ▸ read_length hn' hn
    rw [hlength] at hlen
    have hmask' (b' : Nat) : isMasked (write ev.buffer 2 2 b') = mask.isSome := by
      rw [← hmask, isMasked, isMasked, write_apply, if_neg (by omega)]
    simp [decodePacket, hopcode, hlen, hmask', sizeofOphdr, sizeofOphdr126, hread]
  · rw [write_apply, if_neg (by omega), hb, encode_textFrame, hlength]
    exact load_append _ _ i

theorem toInt_lt (x : Nat) : toInt x < 2 ^ 31 := BitVec.toInt_lt

/-- The low half of the length as it is read is its high half. -/
theorem read_long (hn : 65536 ≤ payload.length) (hn' : payload.length < 2 ^ 32) :
    toInt (read (load (encode (textFrame mask payload))) 2 8) = 0 := by
  have hlength := encodeLength_long hn
  have hhigh : payload.length / 256 / 256 / 256 / 256 = 0 := by omega
  have hzero : ∀ i < 4, load (encode (textFrame mask payload)) (2 + i) = 0 := by
    intro i hi
    rw [encode_textFrame, hlength]
    match i, hi with
    | 0, _ => simp [load, bytesOf, hhigh]
    | 1, _ => simp [load, bytesOf, hhigh]
    | 2, _ => simp [load, bytesOf, hhigh]
    | 3, _ => simp [load, bytesOf, hhigh]
  have hread : read (load (encode (textFrame mask payload))) 2 8 =
      2 ^ 32 * read (load (encode (textFrame mask payload))) 6 4 := by
    simp only [read, hzero 0 (by decide), hzero 1 (by decide), hzero 2 (by decide),
      hzero 3 (by decide)]
    simp only [UInt8.toNat_zero, Nat.reduceAdd]
    ring
  rw [hread, toInt, BitVec.ofNat_mul]
  simp

theorem decodePacket_long (hb : ev.buffer = load (encode (textFrame mask payload)))
    (hn : 65536 ≤ payload.length) : ∃ b' realLen,
    decodePacket ev = ⟨{ ev with buffer := b' }, some 18, realLen, 127, false⟩ ∧
      realLen ≠ payload.length := by
  obtain ⟨hopcode, hlen, -⟩ := header_fields hb
  have hlength := encodeLength_long hn
  rw [hlength] at hlen
  have hcall : decodePacket ev = ⟨{ ev with
      buffer := if isMasked ev.buffer then
        umask ev.buffer 18 10 (toInt (read ev.buffer 2 8)).toNat 0 else ev.buffer }, some 18,
      toInt (read ev.buffer 2 8), 127, false⟩ := by
    simp [decodePacket, hopcode, hlen, sizeofOphdr, sizeofOphdr127]
  refine ⟨_, _, hcall, ?_⟩
  intro heq
  have hlt := toInt_lt (read ev.buffer 2 8)
  rw [heq] at hlt
  rw [hb, read_long hn (by omega)] at heq
  omega

-- ---------------------------------------------------------------------------
-- transmission
-- ---------------------------------------------------------------------------

theorem decode_reply (l : List UInt8) (hl : l.length < 2 ^ 63) :
    decode (encode (textFrame none l)) = some (textFrame none payload) ↔ l = payload := by
  rw [decode_encode ⟨(by decide : 0 < 8), (by decide : 1 < 16), hl⟩]
  simp [textFrame]

theorem taken_eq_iff :
    taken mask payload = payload ↔ mask.isSome ∨ ∀ c ∈ payload, c = 0 := by
  cases mask with
  | none => simp [taken, shifted_eq_iff]
  | some k => simp [taken]

theorem taken_length : (taken mask payload).length = payload.length := by
  cases mask with
  | none => simp [taken, shifted]
  | some k => rfl

/-- When a complete text frame, with nothing behind it in the buffer, is echoed. -/
theorem transmission_echoes_iff (ev : Ntyevent) (mask : Option Key) (payload : List UInt8)
    (hlength : payload.length < 2 ^ 63)
    (hb : ev.buffer = load (encode (textFrame mask payload))) :
    Echoes ev payload ↔
      payload.length < 65536 ∧ (mask.isSome ∨ ∀ c ∈ payload, c = 0) := by
  have hreply {off : Nat} {b b' : Buffer} {src v : Nat} (hdecode : decodePacket ev =
      ⟨{ ev with buffer := b }, some src, payload.length, v, false⟩)
      (htaken : contents b src payload.length = taken mask payload)
      (hencode : encodePacket { ev with buffer := b } payload.length v (some src) =
        some (b', ((off + payload.length : Nat) : Int)))
      (hcontents : contents b' 0 (off + payload.length) =
        encode (textFrame none (contents b src payload.length))) :
      Echoes ev payload ↔ mask.isSome ∨ ∀ c ∈ payload, c = 0 := by
    have hcall : transmission ev = some ({ ev with
        buffer := b', length := ((off + payload.length : Nat) : Int) }, false) := by
      simp only [transmission, hdecode, hencode, Option.bind_eq_bind, Option.bind_some]
    have hlen : (taken mask payload).length < 2 ^ 63 := by rwa [taken_length]
    rw [← taken_eq_iff, ← decode_reply _ hlen]
    constructor
    · rintro ⟨ev', closed, hcall', hreply⟩
      cases hcall.symm.trans hcall'
      rwa [Int.toNat_natCast, hcontents, htaken] at hreply
    · intro hreply
      refine ⟨_, _, hcall, ?_⟩
      rwa [Int.toNat_natCast, hcontents, htaken]
  by_cases hshort : payload.length < 126
  · obtain ⟨b, hdecode, htaken⟩ := decodePacket_short hb hshort
    obtain ⟨b', hencode, hcontents⟩ := encodePacket_short { ev with buffer := b } hshort
      (by decide : 2 ≤ 6)
    rw [hreply hdecode htaken hencode hcontents]
    exact (and_iff_right (Nat.lt_trans hshort (by decide))).symm
  have hshort : 126 ≤ payload.length := Nat.not_lt.mp hshort
  by_cases hmiddle : payload.length < 65536
  · obtain ⟨b, hdecode, htaken⟩ := decodePacket_middle hb hshort hmiddle
    obtain ⟨b', hencode, hcontents⟩ := encodePacket_middle { ev with buffer := b } hshort
      hmiddle (by decide : 4 ≤ 8)
    rw [hreply hdecode htaken hencode hcontents]
    exact (and_iff_right hmiddle).symm
  · obtain ⟨b, realLen, hdecode, hne⟩ := decodePacket_long hb (Nat.not_lt.mp hmiddle)
    refine iff_of_false ?_ fun h => hmiddle h.1
    rintro ⟨ev', closed, hcall, hreply⟩
    rcases encodePacket_long { ev with buffer := b } realLen (by decide : 10 ≤ 18) with
      hnone | ⟨b', l, hencode, hpos, hcontents⟩
    · simp only [transmission, hdecode, hnone, Option.bind_eq_bind, Option.bind_none] at hcall
      cases hcall
    · simp only [transmission, hdecode, hencode, Option.bind_eq_bind, Option.bind_some,
        Option.some.injEq, Prod.mk.injEq] at hcall
      obtain ⟨rfl, -⟩ := hcall
      have hlen : (10 + realLen).toNat = 10 + realLen.toNat := by omega
      simp only [hlen, hcontents] at hreply
      have htotal := congrArg List.length hcontents
      have hframe := decode_long hreply
      simp only [length_contents, List.length_cons, textFrame] at htotal hframe
      omega

def received (mask : Option Key) (payload : List UInt8) : Ntyevent :=
  ⟨0, EPOLLIN, .recvCb, 1, load (encode (textFrame mask payload)), 0, .WS_TRANSMISSION⟩

theorem transmission_echoes_masked :
    Echoes (received (some ⟨1, 2, 3, 4⟩) [72, 101, 108, 108, 111]) [72, 101, 108, 108, 111] :=
  (transmission_echoes_iff _ (some ⟨1, 2, 3, 4⟩) _ (by decide) rfl).mpr ⟨by decide, .inl rfl⟩

/-- One byte without a mask comes back as a NUL. -/
theorem transmission_unmasked : ¬ ∀ (ev : Ntyevent) (mask : Option Key) (payload : List UInt8),
    payload.length < 2 ^ 63 → ev.buffer = load (encode (textFrame mask payload)) →
      Echoes ev payload := by
  intro h
  obtain ⟨ev', closed, hcall, hreply⟩ := h (received none [72]) none [72] (by decide) rfl
  cases hcall
  revert hreply
  decide

end LearningCode.WebSocket
