import LearningCode.Lib.InternetChecksum
import LearningCode.UdpIcmpArp.Model
import LearningCode.WebSocket.Echo

/-!
# When a reply is well formed

The replies are built from structures of a fixed size, with the lengths of the
request. All of a reply is as it should be exactly if the request has that size: no
data for UDP, 32 bytes of it for ICMP.
-/

namespace LearningCode.UdpIcmpArp

open InternetChecksum (Valid littleEndian littleEndian_append littleEndian_sum_le complement fold
  valid_complement)
open WebSocket (Buffer contents load ntohs write_apply contents_congr contents_add
  contents_succ length_contents)

variable {b stream rt src : Buffer} {f g k : Field} {n : Nat}

-- ---------------------------------------------------------------------------
-- fields
-- ---------------------------------------------------------------------------

def Field.Apart (f g : Field) : Prop := f.off + f.size ≤ g.off ∨ g.off + g.size ≤ f.off

instance (f g : Field) : Decidable (f.Apart g) := inferInstanceAs (Decidable (_ ∨ _))

theorem bytes_assign_self (h : f.size = g.size) : f.bytes (f.assign b g src) = g.bytes src := by
  rw [Field.bytes, Field.bytes, ← h]
  refine contents_congr fun i hi => ?_
  rw [Field.assign, if_pos (by omega), Nat.add_sub_cancel_left]

theorem bytes_assign_apart (h : f.Apart g) : f.bytes (g.assign b k src) = f.bytes b :=
  contents_congr fun i hi => if_neg (by unfold Field.Apart at h; omega)

theorem bytes_set_apart (h : f.Apart g) (x : Nat) : f.bytes (g.set b x) = f.bytes b :=
  contents_congr fun i hi => by
    rw [Field.set, write_apply, if_neg (by unfold Field.Apart at h; omega)]

theorem bytes_copyPkt {size : Nat} (h : f.off + f.size ≤ size) :
    f.bytes (copyPkt rt b size) = f.bytes b :=
  contents_congr fun i hi => if_pos (by omega)

theorem bytes_update {j : Nat} (h : f.off + f.size ≤ j) (x : UInt8) :
    f.bytes (Function.update b j x) = f.bytes b :=
  contents_congr fun i hi => Function.update_of_ne (by omega) ..

theorem bytes_load {size : Nat} (h : f.off + f.size ≤ size) :
    f.bytes (load (contents b 0 size)) = f.bytes b :=
  contents_congr fun i hi => by
    rw [load, List.getD_eq_getElem _ _ (by rw [length_contents]; omega)]
    simp [contents]

-- ---------------------------------------------------------------------------
-- the checksum
-- ---------------------------------------------------------------------------

theorem inCksumSum_eq (b : Buffer) (w nleft sum : Nat) :
    inCksumSum b w nleft sum = sum + (littleEndian (contents b w nleft)).sum := by
  induction nleft using Nat.twoStepInduction generalizing w sum with
  | zero => rfl
  | one => simp [inCksumSum, contents, littleEndian]
  | more nleft ih _ =>
    rw [inCksumSum, ih, contents_succ, contents_succ, littleEndian, List.sum_cons]
    simp only [WebSocket.read, Nat.mul_zero, Nat.add_zero]
    rw [Nat.add_assoc w 1 1, Nat.add_assoc]

theorem inCksum_eq (b : Buffer) (addr len : Nat) :
    inCksum b addr len = complement (littleEndian (contents b addr len)).sum := by
  have hshift (s : Nat) : s >>> 16 = s / 65536 := Nat.shiftRight_eq_div_pow s 16
  have hand (s : Nat) : s &&& 0xffff = s % 65536 := Nat.and_two_pow_sub_one_eq_mod s 16
  simp only [inCksum, inCksumSum_eq, hshift, hand, Nat.zero_add, complement, fold]

theorem valid_inCksum (addr before behind : Nat) (heven : before % 2 = 0)
    (hzero : b (addr + before) = 0 ∧ b (addr + before + 1) = 0) (hshort : before + 2 + behind ≤ 65536) :
    Valid (contents (Field.set ⟨addr + before, 2⟩ b (inCksum b addr (before + 2 + behind))) addr
      (before + 2 + behind)) := by
  have hcut (b : Buffer) : contents b addr (before + 2 + behind) = contents b addr before ++
      b (addr + before) :: b (addr + before + 1) :: contents b (addr + before + 2) behind := by
    rw [contents_add, contents_add, contents_succ, contents_succ, List.append_assoc]
    rfl
  have hold := hcut b
  rw [hzero.1, hzero.2] at hold
  have hbound := littleEndian_sum_le (contents b addr (before + 2 + behind))
  rw [length_contents] at hbound
  have hnew := valid_complement (by rwa [length_contents]) 
    (congrArg (fun l => (littleEndian l).sum) hold.symm) (by omega)
  rw [inCksum_eq, hcut]
  generalize complement (littleEndian (contents b addr (before + 2 + behind))).sum = c at hnew ⊢
  have happly (i : Nat) := write_apply (b := b) (addr + before) 2 c i
  have hbefore : contents (Field.set ⟨addr + before, 2⟩ b c) addr before = contents b addr before :=
    contents_congr fun i hi => (happly _).trans (if_neg (by omega))
  have hbehind : contents (Field.set ⟨addr + before, 2⟩ b c) (addr + before + 2) behind =
      contents b (addr + before + 2) behind :=
    contents_congr fun i hi => (happly _).trans (if_neg (by omega))
  rw [hbefore, hbehind]
  simp only [Field.set, happly]
  rw [if_pos (by omega), if_pos (by omega), Nat.sub_self, Nat.add_sub_cancel_left]
  simpa using hnew

-- ---------------------------------------------------------------------------
-- requests and replies
-- ---------------------------------------------------------------------------

/-- A datagram over IPv4 without options, with `n` bytes of data behind a header of 8
bytes. Its checksums and what is behind it do not matter. -/
structure Datagram (stream : Buffer) (type n : Nat) : Prop where
  proto : ntohs (h_proto.get stream) = PROTO_IP
  version : hdrlenVersion.get stream = 0x45
  ipType : ipType.get stream = type
  totlen : ntohs (totlen.get stream) = 28 + n

structure UdpDatagram (stream : Buffer) (n : Nat) : Prop extends Datagram stream PROTP_UPD n where
  length : ntohs (udpLength.get stream) = 8 + n

structure EchoRequest (stream : Buffer) (n : Nat) : Prop extends Datagram stream PROTO_ICMP n where
  icmpType : icmpType.get stream = 8
  icmpCode : icmpCode.get stream = 0

/-- The reply has the addresses swapped, the length the request says, and its data. -/
structure Replies (stream : Buffer) (n : Nat) (reply : List UInt8) : Prop where
  length : reply.length = 14 + ntohs (totlen.get stream)
  macs : h_dst.bytes (load reply) = h_src.bytes stream ∧ h_src.bytes (load reply) = h_dst.bytes stream
  addresses : sip.bytes (load reply) = dip.bytes stream ∧ dip.bytes (load reply) = sip.bytes stream
  data : reply.drop dataOff = contents stream dataOff n

structure UdpReplies (stream : Buffer) (n : Nat) (reply : List UInt8) : Prop
    extends Replies stream n reply where
  ports : sport.bytes (load reply) = dport.bytes stream ∧ dport.bytes (load reply) = sport.bytes stream

structure EchoReplies (stream : Buffer) (n : Nat) (reply : List UInt8) : Prop
    extends Replies stream n reply where
  checksum : Valid ((reply.drop 34).take (ntohs (totlen.get stream) - 20))

-- ---------------------------------------------------------------------------
-- UDP
-- ---------------------------------------------------------------------------

theorem echoUdpPkt_swaps (udp rt : Buffer) :
    h_dst.bytes (echoUdpPkt udp rt) = h_src.bytes udp ∧
      h_src.bytes (echoUdpPkt udp rt) = h_dst.bytes udp ∧
      sip.bytes (echoUdpPkt udp rt) = dip.bytes udp ∧
      dip.bytes (echoUdpPkt udp rt) = sip.bytes udp ∧
      sport.bytes (echoUdpPkt udp rt) = dport.bytes udp ∧
      dport.bytes (echoUdpPkt udp rt) = sport.bytes udp := by
  unfold echoUdpPkt
  refine ⟨?_, ?_, ?_, ?_, ?_, ?_⟩ <;>
    simp (disch := decide) only [bytes_assign_apart, bytes_assign_self]

theorem inject_udp (h : UdpDatagram stream n) (rt : Buffer) : inject stream rt =
    some (contents (echoUdpPkt (Function.update stream (dataOff + n) 0) rt) 0 sizeofUdppkt) := by
  have hend : dataOff + (8 + n) - 8 = dataOff + n := by omega
  rw [inject, if_pos h.proto, if_pos h.ipType]
  simp only [h.length, hend]

theorem udpReplies_iff (h : UdpDatagram stream n) (rt : Buffer) :
    ∃ reply, inject stream rt = some reply ∧ (UdpReplies stream n reply ↔ n = 0) := by
  refine ⟨_, inject_udp h rt, fun hreply => ?_, ?_⟩
  · have hlen := hreply.length
    rw [length_contents, h.totlen] at hlen
    simp only [sizeofUdppkt] at hlen
    omega
  · rintro rfl
    obtain ⟨hdst, hsrc, hsip, hdip, hsport, hdport⟩ :=
      echoUdpPkt_swaps (Function.update stream dataOff 0) rt
    simp (disch := decide) only [bytes_update] at hdst hsrc hsip hdip hsport hdport
    refine ⟨⟨?_, ?_, ?_, ?_⟩, ?_⟩
    · rw [length_contents, h.totlen]
      rfl
    · simp (disch := decide) only [Nat.add_zero, bytes_load, hdst, hsrc, and_self]
    · simp (disch := decide) only [Nat.add_zero, bytes_load, hsip, hdip, and_self]
    · rfl
    · simp (disch := decide) only [Nat.add_zero, bytes_load, hsport, hdport, and_self]

-- ---------------------------------------------------------------------------
-- ICMP
-- ---------------------------------------------------------------------------

def icmpData : Field := ⟨dataOff, 32⟩

theorem echoIcmpPkt_swaps (icmp rt : Buffer) :
    h_dst.bytes (echoIcmpPkt icmp rt) = h_src.bytes icmp ∧
      h_src.bytes (echoIcmpPkt icmp rt) = h_dst.bytes icmp ∧
      sip.bytes (echoIcmpPkt icmp rt) = dip.bytes icmp ∧
      dip.bytes (echoIcmpPkt icmp rt) = sip.bytes icmp ∧
      icmpData.bytes (echoIcmpPkt icmp rt) = icmpData.bytes icmp := by
  simp only [echoIcmpPkt]
  refine ⟨?_, ?_, ?_, ?_, ?_⟩ <;>
    simp (disch := decide) only [bytes_set_apart, bytes_assign_apart, bytes_assign_self, bytes_copyPkt]

theorem echoIcmpPkt_valid (icmp rt : Buffer) :
    Valid (contents (echoIcmpPkt icmp rt) icmpType.off sizeofIcmphdr) := by
  refine valid_inCksum 34 2 36 rfl ?_ (by decide)
  simp [Field.assign, Field.set, write_apply, h_src, h_dst, sip, dip, icmpCheck]

theorem inject_echo (h : EchoRequest stream n) (rt : Buffer) :
    inject stream rt = some (contents (echoIcmpPkt stream (load [])) 0 sizeofIcmppkt) := by
  have hudp : ¬ ipType.get stream = PROTP_UPD := by
    rw [h.ipType]
    decide
  rw [inject, if_pos h.proto, if_neg hudp, if_pos h.ipType, if_pos h.icmpType]

theorem drop_contents (b : Buffer) (m n : Nat) : (contents b 0 (m + n)).drop m = contents b m n := by
  rw [contents_add, Nat.zero_add]
  exact List.drop_left' (length_contents ..)

theorem echoReplies_iff (h : EchoRequest stream n) (rt : Buffer) :
    ∃ reply, inject stream rt = some reply ∧ (EchoReplies stream n reply ↔ n = 32) := by
  refine ⟨_, inject_echo h rt, fun hreply => ?_, ?_⟩
  · have hlen := hreply.length
    rw [length_contents, h.totlen] at hlen
    simp only [sizeofIcmppkt] at hlen
    omega
  · rintro rfl
    obtain ⟨hdst, hsrc, hsip, hdip, hdata⟩ := echoIcmpPkt_swaps stream (load [])
    refine ⟨⟨?_, ?_, ?_, ?_⟩, ?_⟩
    · rw [length_contents, h.totlen]
      rfl
    · simp (disch := decide) only [bytes_load, hdst, hsrc, and_self]
    · simp (disch := decide) only [bytes_load, hsip, hdip, and_self]
    · exact (drop_contents _ dataOff 32).trans hdata
    · have hmessage : (contents (echoIcmpPkt stream (load [])) 0 sizeofIcmppkt).drop 34 =
          contents (echoIcmpPkt stream (load [])) icmpType.off sizeofIcmphdr := drop_contents _ 34 40
      rw [h.totlen, hmessage, List.take_of_length_le (by rw [length_contents]; decide)]
      exact echoIcmpPkt_valid stream (load [])

-- ---------------------------------------------------------------------------
-- both
-- ---------------------------------------------------------------------------

theorem replies_iff (stream rt : Buffer) (n : Nat) :
    (UdpDatagram stream n →
      ∃ reply, inject stream rt = some reply ∧ (UdpReplies stream n reply ↔ n = 0)) ∧
    (EchoRequest stream n →
      ∃ reply, inject stream rt = some reply ∧ (EchoReplies stream n reply ↔ n = 32)) :=
  ⟨fun h => udpReplies_iff h rt, fun h => echoReplies_iff h rt⟩

/-- The headers of Ethernet and IP, with the checksum of the latter, in front of a message. -/
def frame (type totlen high low : UInt8) (message : List UInt8) : Buffer :=
  load ([0, 12, 41, 27, 24, 32, 0, 80, 86, 192, 0, 8, 8, 0, 0x45, 0, 0, totlen, 0, 1, 0, 0, 64, type,
    high, low, 192, 168, 109, 1, 192, 168, 109, 100] ++ message)

def datagram : Buffer := frame 17 28 31 26 [4, 0, 31, 144, 0, 8, 128, 151]

def ping (totlen high low : UInt8) : Buffer := frame 1 totlen high low [8, 0, 247, 253, 0, 1, 0, 1]

theorem replies_to_frames :
    (Valid (contents datagram 14 20) ∧
      ∃ reply, inject datagram (load []) = some reply ∧ UdpReplies datagram 0 reply) ∧
    Valid (contents (ping 60 31 10) 14 20) ∧ Valid (contents (ping 60 31 10) 34 40) ∧
      ∃ reply, inject (ping 60 31 10) (load []) = some reply ∧
        EchoReplies (ping 60 31 10) 32 reply := by
  obtain ⟨reply, hinject, hudp⟩ := (replies_iff datagram (load []) 0).1 ⟨⟨rfl, rfl, rfl, rfl⟩, rfl⟩
  obtain ⟨reply', hinject', hecho⟩ := (replies_iff (ping 60 31 10) (load []) 32).2
    ⟨⟨rfl, rfl, rfl, rfl⟩, rfl, rfl⟩
  exact ⟨⟨rfl, reply, hinject, hudp.mpr rfl⟩, rfl, rfl, reply', hinject',
    hecho.mpr rfl⟩

/-- A request with 56 bytes of data gets a reply with 32 of them. -/
theorem reply_cut : ¬ ∀ (stream rt : Buffer) (n : Nat),
    (UdpDatagram stream n → ∃ reply, inject stream rt = some reply ∧ UdpReplies stream n reply) ∧
      (EchoRequest stream n → ∃ reply, inject stream rt = some reply ∧ EchoReplies stream n reply) := by
  intro h
  have hrequest : EchoRequest (ping 84 30 242) 56 := ⟨⟨rfl, rfl, rfl, rfl⟩, rfl, rfl⟩
  obtain ⟨reply, hinject, hreply⟩ := (h (ping 84 30 242) (load []) 56).2 hrequest
  obtain rfl := Option.some.inj (hinject.symm.trans (inject_echo hrequest _))
  exact absurd hreply.length (by rw [length_contents, hrequest.totlen]; decide)

end LearningCode.UdpIcmpArp

/-!
## The checksum of any buffer

`in_cksum` once more, with an addition of `int` that overflows for a fault. Up to 65535
bytes it does not, and what it returns is the ones' complement of the sum of the words.
-/

namespace LearningCode.UdpIcmpArp

open WebSocket (Buffer ascii contents load length_contents write_apply)
open InternetChecksum (sum littleEndian complement fold)

variable {b : Buffer} {addr w len nleft s k : Nat}

/-- `+` of two non-negative `int`. -/
def addInt (x y : Nat) : Option Nat := if x + y < 2 ^ 31 then some (x + y) else none

def inCksumSumInt (b : Buffer) (w : Nat) : (nleft sum : Nat) → Option Nat
  | 0, sum => some sum
  | 1, sum => addInt sum (b w).toNat
  | nleft + 2, sum => do inCksumSumInt b (w + 2) nleft (← addInt sum (WebSocket.read b w 2))

def inCksumInt (b : Buffer) (addr len : Nat) : Option Nat := do
  let sum ← inCksumSumInt b addr len 0
  let sum ← addInt (sum >>> 16) (sum &&& 0xffff)
  let sum ← addInt sum (sum >>> 16)
  some (65535 - sum % 65536)

/-- A word is zeroed, and gets the checksum of the buffer, as in `echo_icmp_pkt`. -/
def storeCksum (b : Buffer) (addr len k : Nat) : Option Buffer := do
  let b := Field.set ⟨addr + k, 2⟩ b 0
  some (Field.set ⟨addr + k, 2⟩ b (← inCksumInt b addr len))

theorem addInt_of_lt {x y : Nat} (h : x + y < 2 ^ 31) : addInt x y = some (x + y) := if_pos h

theorem read_two_le (b : Buffer) (w : Nat) : WebSocket.read b w 2 ≤ 65535 := by
  have hlow := (b w).toNat_lt
  have hhigh := (b (w + 1)).toNat_lt
  simp only [WebSocket.read, Nat.mul_zero, Nat.add_zero]
  omega

/-- Each word adds 65535 at most, and the odd byte less. -/
theorem inCksumSumInt_eq (h : s + 65535 * ((nleft + 1) / 2) < 2 ^ 31) :
    inCksumSumInt b w nleft s = some (inCksumSum b w nleft s) ∧ inCksumSum b w nleft s < 2 ^ 31 := by
  induction nleft using Nat.twoStepInduction generalizing w s with
  | zero => exact ⟨rfl, h⟩
  | one =>
    have hbyte := (b w).toNat_lt
    have hlt : s + (b w).toNat < 2 ^ 31 := by omega
    exact ⟨addInt_of_lt hlt, hlt⟩
  | more nleft ih _ =>
    have hword := read_two_le b w
    rw [inCksumSumInt, inCksumSum, addInt_of_lt (by omega), Option.bind_eq_bind, Option.bind_some]
    exact ih (by omega)

theorem inCksumInt_eq (h : len ≤ 65535) : inCksumInt b addr len = some (inCksum b addr len) := by
  have hbound : 0 + 65535 * ((len + 1) / 2) < 2 ^ 31 := by omega
  obtain ⟨hsum, hlt⟩ := inCksumSumInt_eq (b := b) (w := addr) hbound
  have hshift (s : Nat) : s >>> 16 = s / 65536 := Nat.shiftRight_eq_div_pow s 16
  have hand (s : Nat) : s &&& 0xffff = s % 65536 := Nat.and_two_pow_sub_one_eq_mod s 16
  rw [inCksumInt, inCksum, hsum, Option.bind_eq_bind, Option.bind_some]
  generalize inCksumSum b addr len 0 = s at hlt
  simp only [hshift, hand]
  rw [addInt_of_lt (by omega), Option.bind_some, addInt_of_lt (by omega), Option.bind_some]

theorem sum_contents_lt (h : len ≤ 65535) :
    (littleEndian (contents b addr len)).sum < 65536 * 65536 := by
  have hle := InternetChecksum.littleEndian_sum_le (contents b addr len)
  rw [length_contents] at hle
  omega

theorem inCksum_complement (h : len ≤ 65535) :
    inCksum b addr len = 65535 - sum (littleEndian (contents b addr len)) := by
  rw [inCksum_eq]
  exact InternetChecksum.complement_sum (InternetChecksum.words_lt _).2 (sum_contents_lt h)

theorem inCksum_stored (b : Buffer) (addr : Nat) (h : len ≤ 65535) (heven : k % 2 = 0) (hk : k + 2 ≤ len) :
    ∃ b', storeCksum b addr len k = some b' ∧ inCksum b' addr len = 0 := by
  refine ⟨Field.set ⟨addr + k, 2⟩ (Field.set ⟨addr + k, 2⟩ b 0)
    (inCksum (Field.set ⟨addr + k, 2⟩ b 0) addr len), ?_, ?_⟩
  · rw [storeCksum, inCksumInt_eq h]
    rfl
  · obtain ⟨behind, rfl⟩ := Nat.exists_eq_add_of_le hk
    have hzero (i : Nat) (hi : i < 2) : Field.set ⟨addr + k, 2⟩ b 0 (addr + k + i) = 0 := by
      refine (write_apply (addr + k) 2 0 (addr + k + i)).trans ((if_pos (by omega)).trans ?_)
      simp
    obtain ⟨hne, hmod⟩ := InternetChecksum.valid_iff_littleEndian.mp
      (valid_inCksum addr k behind heven ⟨hzero 0 (by decide), hzero 1 (by decide)⟩ (by omega))
    rw [inCksum_eq]
    exact InternetChecksum.complement_eq_zero (sum_contents_lt h) hne hmod

/-- For a buffer of up to 65535 bytes: no `int` overflows, the result is the complement of
the sum of the words, and stored in any word that was zeroed it makes the checksum 0. -/
theorem inCksumInt_checks (b : Buffer) (addr len : Nat) (h : len ≤ 65535) :
    inCksumInt b addr len = some (65535 - sum (littleEndian (contents b addr len))) ∧
      ∀ k, k % 2 = 0 → k + 2 ≤ len →
        ∃ b', storeCksum b addr len k = some b' ∧ inCksumInt b' addr len = some 0 := by
  refine ⟨by rw [inCksumInt_eq h, inCksum_complement h], fun k heven hk => ?_⟩
  obtain ⟨b', hstore, hzero⟩ := inCksum_stored b addr h heven hk
  exact ⟨b', hstore, by rw [inCksumInt_eq h, hzero]⟩

/-- Three words, of which the last is half a one. -/
theorem inCksumInt_checks_odd :
    inCksumInt (load (ascii "ab__c")) 0 5 =
        some (65535 - sum (littleEndian (contents (load (ascii "ab__c")) 0 5))) ∧
      ∀ k, k % 2 = 0 → k + 2 ≤ 5 → ∃ b', storeCksum (load (ascii "ab__c")) 0 5 k = some b' ∧
        inCksumInt b' 0 5 = some 0 :=
  inCksumInt_checks (load (ascii "ab__c")) 0 5 (by decide)

end LearningCode.UdpIcmpArp
