import LearningCode.Lib.Rfc1035

/-!
# Decoding a DNS response

`async_dns_client_noblock.c`, and `sync_dns_client.c` with the same functions. The
buffer is a list of bytes, `ptr` an offset into it. Reading behind the buffer and
writing behind an array have no result, nor has a loop that is given too few
turns; what is only printed is left out. `calloc` has the memory.
-/

namespace LearningCode.Dns

open Rfc1035 (word)

abbrev Buffer := List UInt8

def DNS_HOST : Nat := 1

def DNS_CNAME : Nat := 5

structure DnsItem where
  domain : List UInt8
  ip : List UInt8
  deriving DecidableEq

/-- `char buffer[1024] = {0}`, and then what was received. -/
def received (m : List UInt8) : Buffer := m ++ List.replicate (1024 - m.length) 0

def isPointer (flag : UInt8) : Bool := flag &&& 0xC0 == 0xC0

def bytesAt (chunk : Buffer) (ptr n : Nat) : Option (List UInt8) :=
  let l := (chunk.drop ptr).take n
  if l.length = n then some l else none

/-- Behind the `*len` bytes that are in `char out[128]`. -/
def put (out l : List UInt8) : Option (List UInt8) :=
  if (out ++ l).length ≤ 128 then some (out ++ l) else none

def putDot (next : UInt8) (out : List UInt8) : Option (List UInt8) :=
  if next ≠ 0 then put out [46] else some out

/-- After a pointer the rest of the name is left to another call, which goes on
with the same `out` and `len`. -/
def dnsParseName (chunk : Buffer) : (turns ptr : Nat) → (out : List UInt8) → Option (List UInt8)
  | 0, _, _ => none
  | turns + 1, ptr, out => do
    let flag ← chunk[ptr]?
    if flag = 0 then some out
    else if isPointer flag then do
      let n ← chunk[ptr + 1]?
      dnsParseName chunk turns n.toNat out
    else do
      let ptr := ptr + 1
      let out ← put out (← bytesAt chunk ptr flag.toNat)
      let ptr := ptr + flag.toNat
      let out ← putDot (← chunk[ptr]?) out
      dnsParseName chunk turns ptr out

/-- `char out[128]` read as a string: a NUL ends it. -/
def cString (out : List UInt8) : Option (List UInt8) :=
  let l := out.takeWhile (· ≠ 0)
  if l.length < 128 then some l else none

def inetNtop (netip : List UInt8) : List UInt8 :=
  List.intercalate [46]
    (netip.map fun b => (Nat.toDigits 10 b.toNat).map fun c => UInt8.ofNat c.toNat)

/-- The inner loop over a question. -/
def skipName (chunk : Buffer) : (turns ptr : Nat) → Option Nat
  | 0, _ => none
  | turns + 1, ptr => do
    let flag ← chunk[ptr]?
    let ptr := ptr + (flag.toNat + 1)
    if flag = 0 then some ptr else skipName chunk turns ptr

def skipQuestions (chunk : Buffer) (turns : Nat) : (querys ptr : Nat) → Option Nat
  | 0, ptr => some ptr
  | querys + 1, ptr => do
    let ptr ← skipName chunk turns ptr
    skipQuestions chunk turns querys (ptr + 4)

/-- The answer behind its owner: the cursor, and the list with the entry it adds. -/
def parseData (chunk : Buffer) (turns : Nat) (aname : List UInt8) (type datalen ptr : Nat)
    (list : List DnsItem) : Option (Nat × List DnsItem) :=
  if type = DNS_CNAME then do
    let _ ← dnsParseName chunk turns ptr []
    some (ptr + datalen, list)
  else if type = DNS_HOST then
    if datalen = 4 then do
      let netip ← bytesAt chunk ptr datalen
      let domain ← cString aname
      some (ptr + datalen, list ++ [⟨domain, inetNtop netip⟩])
    else some (ptr + datalen, list)
  else some (ptr, list)

def parseAnswer (chunk : Buffer) (turns ptr : Nat) (list : List DnsItem) :
    Option (Nat × List DnsItem) := do
  let aname ← dnsParseName chunk turns ptr []
  let ptr := ptr + 2
  let type ← word chunk ptr
  let ptr := ptr + 4
  let _ttl ← word chunk ptr
  let ptr := ptr + 4
  let datalen ← word chunk ptr
  let ptr := ptr + 2
  parseData chunk turns aname type datalen ptr list

def parseAnswers (chunk : Buffer) (turns : Nat) :
    (answers ptr : Nat) → List DnsItem → Option (List DnsItem)
  | 0, _, list => some list
  | answers + 1, ptr, list => do
    let (ptr, list) ← parseAnswer chunk turns ptr list
    parseAnswers chunk turns answers ptr list

/-- The list, whose length is the count that is returned. -/
def dnsParseResponse (turns : Nat) (buffer : Buffer) : Option (List DnsItem) := do
  let ptr := 4
  let querys ← word buffer ptr
  let ptr := ptr + 2
  let answers ← word buffer ptr
  let ptr := ptr + 6
  let ptr ← skipQuestions buffer turns querys ptr
  parseAnswers buffer turns answers ptr []

end LearningCode.Dns
