import LearningCode.Lib.Base64
import LearningCode.WebSocket.Echo
import LearningCode.WebSocket.States
import Mathlib.Data.List.TakeWhile

/-!
# The accept key

`handshake` finds the key and answers, but it moves the key onto itself with `strcpy`
and it takes the digest for a string: what is encoded is the digest of what the copy
leaves, up to its first NUL.
-/

namespace LearningCode.WebSocket

variable {ev ev' : Ntyevent} {line l value : List UInt8}

/-- `base64_encode`. The BIO writes the encoding and a newline, which is overwritten
with the NUL. -/
def base64Encode (inStr : List UInt8) : List UInt8 :=
  cString ((Base64.encode inStr ++ [10]).dropLast ++ [0])

def IsLine (line : List UInt8) : Prop := ¬[13, 10] <:+: line

instance (line : List UInt8) : Decidable (IsLine line) := inferInstanceAs (Decidable (¬_))

def keyName : List UInt8 := ascii "Sec-WebSocket-Key"

def keyHeader : List UInt8 := ascii "Sec-WebSocket-Key: "

structure Request where
  earlier : List (List UInt8)
  key : List UInt8
  rest : List UInt8
  isLine : ∀ line ∈ earlier, IsLine line ∧ line.length < 900
  noKey : ∀ line ∈ earlier, ¬strstr line keyName
  keyLine : IsLine (keyHeader ++ key) ∧ (keyHeader ++ key).length < 900

def Request.text (req : Request) : List UInt8 :=
  req.earlier.flatMap (fun line => line ++ [13, 10]) ++ (keyHeader ++ req.key ++ 13 :: 10 :: req.rest)

/-- The value of the header that is sent. -/
def Accepts (ev : Ntyevent) (value : List UInt8) : Prop :=
  ev.length = (response value).length ∧
    contents ev.buffer 0 (response value).length = response value

theorem IsLine.tail {c : UInt8} (h : IsLine (c :: line)) : IsLine line :=
  fun hwithin => h (hwithin.trans (List.suffix_cons c line).isInfix)

theorem readline_line {rest : List UInt8} (h : IsLine line) :
    readline (line ++ 13 :: 10 :: rest) = (line, some rest) := by
  induction line with
  | nil => simp [readline]
  | cons c line ih =>
    have hrest := ih h.tail
    cases line with
    | nil => simp [readline]
    | cons c' line =>
      have hend : ¬(c = 13 ∧ c' = 10) := by
        rintro ⟨rfl, rfl⟩
        exact h (List.prefix_append [13, 10] line).isInfix
      rw [List.cons_append] at hrest
      rw [List.cons_append, List.cons_append, readline, if_neg hend, hrest]

/-- Induction on the lines in front of the key. -/
theorem findKey_lines {earlier : List (List UInt8)} {fuel : Nat} {rest : List UInt8}
    (hearlier : ∀ line ∈ earlier, (IsLine line ∧ line.length < 900) ∧ ¬strstr line keyName)
    (hline : IsLine line ∧ line.length < 900) (hkey : strstr line keyName)
    (hfuel : earlier.length < fuel) :
    findKey fuel (earlier.flatMap (fun line => line ++ [13, 10]) ++ (line ++ 13 :: 10 :: rest)) =
      some (some line) := by
  induction earlier generalizing fuel with
  | nil =>
    obtain ⟨fuel, rfl⟩ := Nat.exists_eq_add_of_lt hfuel
    have hshort : ¬line.length ≥ 1024 := by have := hline.2; omega
    simp only [List.flatMap_nil, List.nil_append, findKey, readline_line hline.1, if_neg hshort]
    exact if_pos hkey
  | cons first earlier ih =>
    obtain ⟨⟨hfirst, hlength⟩, hname⟩ := hearlier first (List.mem_cons_self ..)
    have hshort : ¬first.length ≥ 1024 := by omega
    cases fuel with
    | zero => cases hfuel
    | succ fuel =>
      have hlater := ih (fun line hmem => hearlier line (List.mem_cons_of_mem _ hmem))
        (Nat.lt_of_succ_lt_succ hfuel)
      have hsplit : (first :: earlier).flatMap (fun line => line ++ [13, 10]) ++
          (line ++ 13 :: 10 :: rest) = first ++ 13 :: 10 ::
            (earlier.flatMap (fun line => line ++ [13, 10]) ++ (line ++ 13 :: 10 :: rest)) := by
        simp
      rw [hsplit, findKey, readline_line hfirst]
      simp only [if_neg hshort]
      exact (if_neg hname).trans hlater

theorem length_lines (earlier : List (List UInt8)) :
    earlier.length ≤ (earlier.flatMap fun line => line ++ [13, 10]).length := by
  induction earlier with
  | nil => exact Nat.le_refl _
  | cons line earlier ih =>
    simp only [List.flatMap_cons, List.length_append, List.length_cons]
    omega

theorem findKey_text (req : Request) :
    findKey (req.text.length + 1) req.text = some (some (keyHeader ++ req.key)) := by
  refine findKey_lines (fun line hmem => ⟨req.isLine line hmem, req.noKey line hmem⟩) req.keyLine
    ?_ ?_
  · exact strstr_iff.mpr ⟨[], [58, 32] ++ req.key, by rfl⟩
  · have hle := length_lines req.earlier
    rw [Request.text, List.length_append]
    omega

/-- What is left of the key when it has been moved to the front of its line. -/
def Request.copied (req : Request) (libs : Libraries) : List UInt8 :=
  libs.strcpyDown (keyHeader ++ req.key) keyHeader.length

theorem Request.copied_eq (req : Request) (libs : Libraries) (hshort : req.key.length < 19) :
    req.copied libs = req.key := by
  have hdrop : (keyHeader ++ req.key).drop keyHeader.length = req.key := List.drop_left
  rw [copied, Libraries.strcpyDown, hdrop]
  exact if_pos hshort

theorem handshake_request (libs : Libraries) (ev : Ntyevent) (req : Request)
    (hbuffer : cString (contents ev.buffer 0 BUFFER_LENGTH) = req.text) :
    handshake libs ev =
      if (req.copied libs ++ GUID).length ≥ 1024 then none
      else
        let value := libs.base64Encode (cString (libs.SHA1 (req.copied libs ++ GUID)))
        some ({ ev with buffer := load (response value), length := (response value).length }, 0) := by
  simp only [handshake, hbuffer, findKey_text, Option.bind_eq_bind, Option.bind_some]
  rfl

-- ---------------------------------------------------------------------------
-- What is accepted
-- ---------------------------------------------------------------------------

theorem cString_eq_self_iff : cString l = l ↔ 0 ∉ l := by
  rw [cString, List.takeWhile_eq_self_iff]
  constructor
  · intro h hzero
    simpa using h 0 hzero
  · intro h b hb
    have hne : b ≠ 0 := fun hzero => h (hzero ▸ hb)
    simpa using hne

theorem zero_notMem_encode : 0 ∉ Base64.encode l := by
  have hpad : (0 : UInt8) ≠ Base64.pad := by decide
  have hsymbol := fun v => (Base64.symbol_ne_zero v).symm
  induction l using Base64.encode.induct with
  | case1 => simp [Base64.encode]
  | case2 a => simp [Base64.encode, hpad, hsymbol]
  | case3 a b => simp [Base64.encode, hpad, hsymbol]
  | case4 a b c l ih => simp [Base64.encode, hsymbol, ih]

theorem base64Encode_eq : base64Encode l = Base64.encode l := by
  have hself := cString_eq_self_iff.mpr (zero_notMem_encode (l := l))
  rw [base64Encode, List.dropLast_concat, cString, List.takeWhile_append, ← cString, hself,
    if_pos rfl]
  simp

theorem response_injective {value' : List UInt8} (h : response value = response value') :
    value = value' := by
  unfold response at h
  exact List.append_cancel_left (List.append_cancel_right h)

theorem accepts_value_iff {value' : List UInt8} (ev : Ntyevent) :
    Accepts { ev with buffer := load (response value), length := (response value).length } value' ↔
      value = value' := by
  constructor
  · rintro ⟨hlength, hbytes⟩
    have hlength' : (response value).length = (response value').length := Int.ofNat_inj.mp hlength
    dsimp only at hbytes
    rw [← hlength', contents_load_self] at hbytes
    exact response_injective hbytes
  · rintro rfl
    exact ⟨rfl, contents_load_self _⟩

def sampleRequest : Request where
  earlier := [ascii "GET / HTTP/1.1"]
  key := ascii "dGhlIHNhbXBsZSBub25jZQ=="
  rest := [13, 10]
  isLine := by decide
  noKey := by decide
  keyLine := by decide

/-- A key whose digest has a NUL as its second byte. -/
def cutRequest : Request where
  earlier := [ascii "GET / HTTP/1.1"]
  key := ascii "MDEyMzQ1Njc4OWFiY2RlZg=="
  rest := [13, 10]
  isLine := by decide
  noKey := by decide
  keyLine := by decide

def cutDigest : List UInt8 → List UInt8 := fun _ =>
  [4, 0, 146, 112, 34, 79, 54, 172, 179, 249, 64, 104, 168, 193, 252, 245, 89, 148, 70, 128]

end LearningCode.WebSocket
