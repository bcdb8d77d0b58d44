import LearningCode.WebSocket.Model

/-!
# Replies of the user-space network

`udp_icmp_arp.c`. Packets are memory from the start of the Ethernet header on, with
the fields of the packed structures at their offsets; what is behind a received
frame is whatever the ring holds there. A field is assigned by copying its bytes, and
`unsigned short` is read with the low byte first.
-/

namespace LearningCode.UdpIcmpArp

open WebSocket (Buffer ascii contents load ntohs read write)

structure Field where
  off : Nat
  size : Nat

def PROTO_IP : Nat := 0x0800
def PROTO_ARP : Nat := 0x0806
def PROTP_UPD : Nat := 17
def PROTO_ICMP : Nat := 1

-- ethhdr
def h_dst : Field := ⟨0, 6⟩
def h_src : Field := ⟨6, 6⟩
def h_proto : Field := ⟨12, 2⟩

-- iphdr, of which one byte is the version and the length of the header
def hdrlenVersion : Field := ⟨14, 1⟩
def totlen : Field := ⟨16, 2⟩
def ipType : Field := ⟨23, 1⟩
def sip : Field := ⟨26, 4⟩
def dip : Field := ⟨30, 4⟩

-- udphdr
def sport : Field := ⟨34, 2⟩
def dport : Field := ⟨36, 2⟩
def udpLength : Field := ⟨38, 2⟩

-- icmphdr
def icmpType : Field := ⟨34, 1⟩
def icmpCode : Field := ⟨35, 1⟩
def icmpCheck : Field := ⟨36, 2⟩

-- arphdr
def h_addrlen : Field := ⟨18, 1⟩
def h_protolen : Field := ⟨19, 1⟩
def oper : Field := ⟨20, 2⟩
def smac : Field := ⟨22, 6⟩
def arpSip : Field := ⟨28, 4⟩
def dmac : Field := ⟨32, 6⟩
def arpDip : Field := ⟨38, 4⟩

def sizeofUdppkt : Nat := 42

def sizeofArppkt : Nat := 42

def sizeofIcmphdr : Nat := 40

def sizeofIcmppkt : Nat := 74

def dataOff : Nat := 42

def Field.get (f : Field) (b : Buffer) : Nat := read b f.off f.size

def Field.bytes (f : Field) (b : Buffer) : List UInt8 := contents b f.off f.size

/-- `f = g`, where `g` is a field of another packet. -/
def Field.assign (f : Field) (b : Buffer) (g : Field) (src : Buffer) : Buffer := fun i =>
  if f.off ≤ i ∧ i < f.off + f.size then src (g.off + (i - f.off)) else b i

def Field.set (f : Field) (b : Buffer) (x : Nat) : Buffer := write b f.off f.size x

def copyPkt (dst src : Buffer) (size : Nat) : Buffer := fun i => if i < size then src i else dst i

-- ---------------------------------------------------------------------------
-- UDP and ICMP
-- ---------------------------------------------------------------------------

def echoUdpPkt (udp udpRt : Buffer) : Buffer :=
  let rt := copyPkt udpRt udp sizeofUdppkt
  let rt := h_dst.assign rt h_src udp
  let rt := h_src.assign rt h_dst udp
  let rt := sip.assign rt dip udp
  let rt := dip.assign rt sip udp
  let rt := sport.assign rt dport udp
  dport.assign rt sport udp

def inCksumSum (b : Buffer) (w : Nat) : (nleft sum : Nat) → Nat
  | 0, sum => sum
  | 1, sum => sum + (b w).toNat
  | nleft + 2, sum => inCksumSum b (w + 2) nleft (sum + read b w 2)

def inCksum (b : Buffer) (addr len : Nat) : Nat :=
  let sum := inCksumSum b addr len 0
  let sum := (sum >>> 16) + (sum &&& 0xffff)
  let sum := sum + (sum >>> 16)
  65535 - sum % 65536

def echoIcmpPkt (icmp icmpRt : Buffer) : Buffer :=
  let rt := copyPkt icmpRt icmp sizeofIcmppkt
  let rt := icmpType.set rt 0
  let rt := icmpCode.set rt 0
  let rt := icmpCheck.set rt 0
  let rt := sip.assign rt dip icmp
  let rt := dip.assign rt sip icmp
  let rt := h_dst.assign rt h_src icmp
  let rt := h_src.assign rt h_dst icmp
  icmpCheck.set rt (inCksum rt icmpType.off sizeofIcmphdr)

-- ---------------------------------------------------------------------------
-- ARP
-- ---------------------------------------------------------------------------

def hexDigit (c : UInt8) : Option UInt8 :=
  if 48 ≤ c ∧ c ≤ 57 then some (c - 48)
  else if 97 ≤ c ∧ c ≤ 102 then some (c - 97 + 10)
  else if 65 ≤ c ∧ c ≤ 70 then some (c - 65 + 10)
  else none

/-- `str2mac` from the address of `mac[i]` on. It ends at a character that is neither
a colon nor a digit, such as the NUL. -/
def str2mac (mac : Buffer) (i : Nat) (value : UInt8) : (str : List UInt8) → Buffer
  | [] => Function.update mac i value
  | c :: str =>
    if c = 58 then str2mac (Function.update mac i value) (i + 1) 0 str
    else
      match hexDigit c with
      | some d => str2mac mac i (value <<< 4 ||| d) str
      | none => Function.update mac i value

def echoArpPkt (arp arpRt : Buffer) (mac : List UInt8) : Buffer :=
  let rt := copyPkt arpRt arp sizeofArppkt
  let rt := h_dst.assign rt h_src arp
  let rt := str2mac rt h_src.off 0 mac
  let rt := h_proto.assign rt h_proto arp
  let rt := h_addrlen.set rt 6
  let rt := h_protolen.set rt 4
  let rt := oper.set rt (ntohs 2)
  let rt := str2mac rt smac.off 0 mac
  let rt := arpSip.assign rt arpDip arp
  let rt := dmac.assign rt smac arp
  arpDip.assign rt arpSip arp

-- ---------------------------------------------------------------------------
-- the main loop
-- ---------------------------------------------------------------------------

/-- `inet_addr("192.168.109.100")` -/
def ownAddress : Nat := 192 + 256 * (168 + 256 * (109 + 256 * 100))

/-- What the main loop injects for a frame, if anything; `rt` is what the stack holds
where the reply is built. -/
def inject (stream rt : Buffer) : Option (List UInt8) :=
  if ntohs (h_proto.get stream) = PROTO_IP then
    if ipType.get stream = PROTP_UPD then
      -- udp->data[udplength - 8] = '\0'
      let stream := Function.update stream (dataOff + ntohs (udpLength.get stream) - 8) 0
      some (contents (echoUdpPkt stream rt) 0 sizeofUdppkt)
    else if ipType.get stream = PROTO_ICMP then
      if icmpType.get stream = 8 then some (contents (echoIcmpPkt stream (load [])) 0 sizeofIcmppkt)
      else none
    else none
  else if ntohs (h_proto.get stream) = PROTO_ARP then
    if arpDip.get stream = ownAddress then
      some (contents (echoArpPkt stream rt (ascii "00:0c:29:1b:18:20")) 0 sizeofArppkt)
    else none
  else none

end LearningCode.UdpIcmpArp
