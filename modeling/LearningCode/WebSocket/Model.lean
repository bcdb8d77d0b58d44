import Mathlib.Data.UInt
import Mathlib.Logic.Function.Basic

/-!
# The WebSocket server

`websocket_reactor.c`. A buffer is memory without an end, except that a received
request fits into `BUFFER_LENGTH`; structures over it are read and written byte by
byte, the bit-fields from the low end on, as on the machine the code is for.
`memcpy` within the buffer copies as `memmove` does. SHA1 and base64 are OpenSSL's;
what a `strcpy` onto itself leaves is the C library's.
-/

namespace LearningCode.WebSocket

abbrev Buffer := Nat → UInt8

def BUFFER_LENGTH : Nat := 4096

def load (l : List UInt8) : Buffer := fun i => l.getD i 0

def contents (b : Buffer) (off n : Nat) : List UInt8 := (List.range n).map fun i => b (off + i)

inductive StateMachine
  | WS_HANDSHAKE
  | WS_TRANSMISSION
  | WS_END
  deriving DecidableEq

inductive Callback
  | none
  | recvCb
  | sendCb
  deriving DecidableEq

def EPOLLIN : Nat := 1

def EPOLLOUT : Nat := 4

structure Ntyevent where
  fd : Int
  events : Nat
  callback : Callback
  status : Int
  buffer : Buffer
  length : Int
  stateMachine : StateMachine

-- ---------------------------------------------------------------------------
-- handshake
-- ---------------------------------------------------------------------------

/-- What the code uses of OpenSSL, and what it makes of the C library. -/
structure Libraries where
  SHA1 : List UInt8 → List UInt8
  base64Encode : List UInt8 → List UInt8
  /-- The string at `p` after `strcpy(p, p + off)`, where the two overlap. -/
  strcpyOverlap (line : List UInt8) (off : Nat) : List UInt8

def ascii (s : String) : List UInt8 := s.toList.map fun c => UInt8.ofNat c.toNat

def GUID : List UInt8 := ascii "258EAFA5-E914-47DA-95CA-C5AB0DC85B11"

def cString (l : List UInt8) : List UInt8 := l.takeWhile (· ≠ 0)

/-- The line, and what is behind its end, unless the line has none. -/
def readline : List UInt8 → List UInt8 × Option (List UInt8)
  | [] => ([], none)
  | [c] => ([c], none)
  | c :: c' :: text =>
    if c = 13 ∧ c' = 10 then ([], some text)
    else
      let (line, rest) := readline (c' :: text)
      (c :: line, rest)

def strstr (line key : List UInt8) : Bool := line.tails.any key.isPrefixOf

/-- The loop of `handshake`. It ends for want of lines, as each is shorter than
the text; a line that does not fit into `line_buffer` has no result. -/
def findKey : (fuel : Nat) → List UInt8 → Option (Option (List UInt8))
  | 0, _ => some none
  | fuel + 1, text =>
    let (line, rest) := readline text
    if line.length ≥ 1024 then none
    else
      match rest with
      | none => some none
      | some text =>
        if strstr line (ascii "Sec-WebSocket-Key") then some (some line) else findKey fuel text

/-- `strcpy(line, line + off)`. The string and its NUL are copied right as long as
they do not reach up to where they are read from; behind that C says nothing. -/
def Libraries.strcpyDown (libs : Libraries) (line : List UInt8) (off : Nat) : List UInt8 :=
  if (line.drop off).length < off then line.drop off else libs.strcpyOverlap line off

def response (secKey : List UInt8) : List UInt8 :=
  ascii "HTTP/1.1 101 Switching Protocols\r\nUpgrade: websocket\r\nConnection: Upgrade\r\n" ++
    ascii "Sec-WebSocket-Accept: " ++ secKey ++ ascii "\r\n\r\n"

def handshake (libs : Libraries) (ev : Ntyevent) : Option (Ntyevent × Int) := do
  let text := cString (contents ev.buffer 0 BUFFER_LENGTH)
  match ← findKey (text.length + 1) text with
  | none => some (ev, -1)
  | some line =>
    let key := libs.strcpyDown line (ascii "Sec-WebSocket-Key: ").length ++ GUID
    if key.length ≥ 1024 then none
    else
      let secKey := libs.base64Encode (cString (libs.SHA1 key))
      some ({ ev with buffer := load (response secKey), length := (response secKey).length }, 0)

-- ---------------------------------------------------------------------------
-- transmission
-- ---------------------------------------------------------------------------

def read (b : Buffer) (off : Nat) : (n : Nat) → Nat
  | 0 => 0
  | n + 1 => (b off).toNat + 256 * read b (off + 1) n

def write (b : Buffer) (off : Nat) : (n x : Nat) → Buffer
  | 0, _ => b
  | n + 1, x => write (Function.update b off (UInt8.ofNat x)) (off + 1) n (x / 256)

def ntohs (x : Nat) : Nat := x % 256 * 256 + x / 256 % 256

def toInt (x : Nat) : Int := (BitVec.ofNat 32 x).toInt

def umask (b : Buffer) (payload maskKey : Nat) : (n i : Nat) → Buffer
  | 0, _ => b
  | n + 1, i =>
    umask (Function.update b (payload + i) (b (payload + i) ^^^ b (maskKey + i % 4))) payload maskKey
      n (i + 1)

def memcpy (b : Buffer) (dst src n : Nat) : Buffer := fun j =>
  if dst ≤ j ∧ j < dst + n then b (src + (j - dst)) else b j

def sizeofOphdr : Nat := 2

def sizeofOphdr126 : Nat := 6

def sizeofOphdr127 : Nat := 16

def opcode (b : Buffer) : Nat := (b 0).toNat % 16

def payloadLen (b : Buffer) : Nat := (b 1).toNat % 128

def isMasked (b : Buffer) : Bool := 128 ≤ (b 1).toNat

/-- What `decode_packet` leaves: the payload, NULL for none, and whether it closed
the descriptor. -/
structure Decoded where
  ev : Ntyevent
  payload : Option Nat
  realLen : Int
  virtualLen : Nat
  closed : Bool

def decodePacket (ev : Ntyevent) : Decoded :=
  let b := ev.buffer
  let virtualLen := payloadLen b
  if opcode b = 8 then ⟨{ ev with stateMachine := .WS_END }, none, 0, virtualLen, true⟩
  else if virtualLen < 126 then
    let payload := sizeofOphdr + 4
    let b := if isMasked b then umask b payload 2 virtualLen 0 else b
    ⟨{ ev with buffer := b }, some payload, virtualLen, virtualLen, false⟩
  else if virtualLen = 126 then
    let payload := sizeofOphdr + sizeofOphdr126
    let length := ntohs (read b sizeofOphdr 2)
    let b := write b sizeofOphdr 2 length
    let b := if isMasked b then umask b payload (sizeofOphdr + 2) length 0 else b
    ⟨{ ev with buffer := b }, some payload, length, virtualLen, false⟩
  else
    let payload := sizeofOphdr + sizeofOphdr127
    let length := toInt (read b sizeofOphdr 8)
    let b := if isMasked b then umask b payload (sizeofOphdr + 8) length.toNat 0 else b
    ⟨{ ev with buffer := b }, some payload, length, virtualLen, false⟩

/-- `encode_packet`; to copy a negative number of bytes has no result. -/
def encodePacket (ev : Ntyevent) (realLen : Int) (virtualLen : Nat) (buf : Option Nat) :
    Option (Buffer × Int) :=
  let head := write (write ev.buffer 0 1 (128 + 1)) 1 1 virtualLen
  let (b, headOffset) :=
    if virtualLen < 126 then (head, sizeofOphdr)
    else if virtualLen = 126 then
      (write head sizeofOphdr 2 (ntohs (realLen.toNat % 65536)), sizeofOphdr + 2)
    else (write head sizeofOphdr 8 (BitVec.ofInt 64 realLen).toNat, sizeofOphdr + 8)
  if realLen < 0 then none
  else
    some (buf.elim b fun src => memcpy b headOffset src realLen.toNat, headOffset + realLen)

/-- With whether the descriptor was closed. -/
def transmission (ev : Ntyevent) : Option (Ntyevent × Bool) := do
  let d := decodePacket ev
  let (buffer, length) ← encodePacket d.ev d.realLen d.virtualLen d.payload
  some ({ d.ev with buffer := buffer, length := length }, d.closed)

end LearningCode.WebSocket
