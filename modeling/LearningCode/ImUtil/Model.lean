import LearningCode.WebSocket.Model

/-!
# The helpers of the instant messenger

From `util.cc`: the search for a substring, the split at a separator, the
placeholders of a statement, and the encoding of URLs. Strings are their bytes, without
the NUL of those that end with one; a read outside of what there is has no result.
-/

namespace LearningCode.ImUtil

open WebSocket (ascii cString toInt)

-- ---------------------------------------------------------------------------
-- memfind
-- ---------------------------------------------------------------------------

def memcmp (src : List UInt8) (i : Nat) (sub : List UInt8) (n : Nat) : Option Bool :=
  if i + n ≤ src.length ∧ n ≤ sub.length then some ((src.drop i).take n == sub.take n) else none

/-- From `i` on, with `left` for `src_len - sub_len - i`; `i` is an `int`. -/
def forward (src sub : List UInt8) (n : Nat) : (left i : Nat) → Option (Option Nat)
  | 0, _ => some none
  | left + 1, i => do
    if ← memcmp src i sub n then return some i
    else if i + 1 < 2 ^ 31 then forward src sub n left (i + 1)
    else none

def backward (src sub : List UInt8) (n : Nat) : (left : Nat) → Option (Option Nat)
  | 0 => some none
  | i + 1 => do
    if ← memcmp src i sub n then return some i
    else backward src sub n i

/-- `sub_len` of the string at `sub_str`, which ends with a NUL if `sub_len` is 0. -/
def subLength (subStr : List UInt8) (subLen : Nat) : Option Nat :=
  if subLen = 0 then if 0 ∈ subStr then some (cString subStr).length else none else some subLen

def memfind (src subStr : List UInt8) (subLen : Nat) (flag : Bool) : Option (Option Nat) := do
  if src.length = 0 then return none
  else if src.length < subLen then return none
  else
    let n ← subLength subStr subLen
    if src.length = n then return if ← memcmp src 0 subStr n then some 0 else none
    else
      -- `size_t`
      let bound := (src.length + 2 ^ 64 - n) % 2 ^ 64
      if flag then forward src subStr n bound 0
      else backward src subStr n (toInt bound + 1).toNat

-- ---------------------------------------------------------------------------
-- CStrExplode
-- ---------------------------------------------------------------------------

structure CStrExplode where
  m_item_cnt : Nat
  /-- An item that is not assigned is none. -/
  m_item_list : List (Option (List UInt8))

/-- `new char [len + 1]`, `strncpy` and the NUL, with `uint32_t len` for the length of the piece. -/
def newItem (piece : List UInt8) : Option (List UInt8) :=
  let len := piece.length % 2 ^ 32
  if len + 1 < 2 ^ 32 then some (piece.take len) else none

def assign (items : List (Option (List UInt8))) (idx : Nat) (piece : List UInt8) :
    Option (List (Option (List UInt8))) := do
  let item ← newItem piece
  if idx < items.length then return items.set idx (some item) else none

/-- The second loop and what is behind it, with the bytes from `start` to `pos` in `piece`;
`idx` is an `int`. -/
def fill (seperator : UInt8) : (rest piece : List UInt8) → (idx : Nat) →
    (items : List (Option (List UInt8))) → Option (List (Option (List UInt8)))
  | [], piece, idx, items =>
    if piece.length % 2 ^ 32 ≠ 0 then assign items idx piece else some items
  | c :: rest, piece, idx, items =>
    if piece ≠ [] ∧ c = seperator then do
      let items ← assign items idx piece
      if idx + 1 < 2 ^ 31 then fill seperator rest [] (idx + 1) items else none
    else fill seperator rest (piece ++ [c]) idx items

def cStrExplode (str : List UInt8) (seperator : UInt8) : Option CStrExplode := do
  let cnt := (1 + str.count seperator) % 2 ^ 32
  let items ← fill seperator str [] 0 (List.replicate cnt none)
  return ⟨cnt, items⟩

-- ---------------------------------------------------------------------------
-- replace_mark
-- ---------------------------------------------------------------------------

def findMark (str : List UInt8) (beginPos : Nat) : Option Nat :=
  ((str.drop beginPos).idxOf? 63).map (beginPos + ·)

/-- What both overloads do with the text of their value; `begin_pos` is a `uint32_t`. -/
def replaceWith (text : List UInt8) (str : List UInt8) (beginPos : Nat) : List UInt8 × Nat :=
  match findMark str beginPos with
  | none => (str, beginPos)
  | some pos => (str.take pos ++ text ++ str.drop (pos + 1), (pos + text.length) % 2 ^ 32)

inductive Value
  | string (newValue : List UInt8)
  | number (newValue : UInt32)

def Value.text : Value → List UInt8
  | .string newValue => ascii "'" ++ newValue ++ ascii "'"
  | .number newValue => ascii (toString newValue.toNat)

def replaceMark (newValue : Value) (str : List UInt8) (beginPos : Nat) : List UInt8 × Nat :=
  replaceWith newValue.text str beginPos

/-- One value after the other, with one `begin_pos`. -/
def replaceMarks : (values : List Value) → (str : List UInt8) → (beginPos : Nat) → List UInt8
  | [], str, _ => str
  | value :: values, str, beginPos =>
    let (str, beginPos) := replaceMark value str beginPos
    replaceMarks values str beginPos

-- ---------------------------------------------------------------------------
-- URLs
-- ---------------------------------------------------------------------------

def isdigit (c : UInt8) : Bool := 48 ≤ c && c ≤ 57

def isalnum (c : UInt8) : Bool := isdigit c || 65 ≤ c && c ≤ 90 || 97 ≤ c && c ≤ 122

def toHex (x : UInt8) : UInt8 := if x > 9 then x - 10 + 65 else x + 48

def fromHex (x : UInt8) : UInt8 := if isdigit x then x - 48 else x - 65 + 10

def encodeByte (c : UInt8) : List UInt8 :=
  if isalnum c then [c, 0, 0, 0] else [37, toHex (c >>> 4), toHex (c % 16), 0]

def urlEncode (sIn : List UInt8) : List UInt8 := sIn.flatMap fun c => cString (encodeByte c)

/-- `sIn[ix]`, which is a NUL at `size()`. -/
def charAt (sIn : List UInt8) (ix : Nat) : Option UInt8 :=
  if ix ≤ sIn.length then some (sIn.getD ix 0) else none

def urlDecodeFrom (sIn : List UInt8) (ix : Nat) : Option (List UInt8) :=
  if ix < sIn.length then do
    let c ← charAt sIn ix
    if c = 37 then
      let high ← charAt sIn (ix + 1)
      let low ← charAt sIn (ix + 2)
      let sOut ← urlDecodeFrom sIn (ix + 3)
      return (fromHex high <<< 4 ||| fromHex low) :: sOut
    else
      let sOut ← urlDecodeFrom sIn (ix + 1)
      return (if c = 43 then 32 else c) :: sOut
  else some []
termination_by sIn.length - ix

def urlDecode (sIn : List UInt8) : Option (List UInt8) := urlDecodeFrom sIn 0

end LearningCode.ImUtil
