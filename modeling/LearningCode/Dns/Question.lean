import LearningCode.Lib.Blocks
import LearningCode.Lib.Fuel
import LearningCode.Lib.Rfc1035
import LearningCode.Lib.Tokens

/-!
# Building a DNS question

`async_dns_client_noblock.c`, and `sync_dns_client.c` with the same functions. A byte
of memory that has not been written is `none`. A string is its bytes in front of the
NUL. `malloc` has the memory, and a write outside it has no result.
-/

namespace LearningCode.Dns

open Tokens (strtok tokens spread)

abbrev Memory := List (Option UInt8)

def htons (v : UInt16) : List UInt8 := [(v >>> 8).toUInt8, v.toUInt8]

structure DnsHeader where
  id : UInt8 × UInt8
  flags : UInt8 × UInt8
  qdcount : UInt8 × UInt8
  ancount : UInt8 × UInt8
  nscount : UInt8 × UInt8
  arcount : UInt8 × UInt8

namespace DnsHeader

def fields (header : DnsHeader) : List (UInt8 × UInt8) :=
  [header.id, header.flags, header.qdcount, header.ancount, header.nscount, header.arcount]

def bytes (header : DnsHeader) : List UInt8 := header.fields.flatMap fun field => [field.1, field.2]

end DnsHeader

structure DnsQuestion where
  /-- An `int`. -/
  length : Int32
  qtype : List UInt8
  qclass : List UInt8
  qname : Memory
  deriving DecidableEq

/-- The loop over the tokens. The length of a token is cut to a byte; `strncpy` copies
the token and the NUL behind it, over which the next length is written. -/
def copyTokens : (turns : Nat) → (hostnameDup : List UInt8) → (qname : Memory) → (qnameP : Nat) →
    Option Memory
  | 0, _, _, _ => none
  | turns + 1, hostnameDup, qname, qnameP =>
    match strtok 46 hostnameDup with
    | none => some qname
    | some (token, hostnameDup) => do
      let len := token.length
      let qname ← Blocks.overwrite qname qnameP [some (UInt8.ofNat len)]
      let qnameP := qnameP + 1
      let qname ← Blocks.overwrite qname qnameP (token.map some ++ [some 0])
      let qnameP := qnameP + len
      copyTokens turns hostnameDup qname qnameP

/-- `strlen(hostname) + 2`, which the `int` cuts to 32 bits. -/
def dnsCreateQuestion (turns : Nat) (hostname : List UInt8) : Option DnsQuestion := do
  let qname := List.replicate (hostname.length + 2) none
  let length := Int32.ofNat (hostname.length + 2)
  let qname ← copyTokens turns hostname qname 0
  return { length, qtype := htons 1, qclass := htons 1, qname }

/-- An `int` as `memcpy` takes it: what is negative is more than any memory has. -/
def size (length : Int32) : Option Nat := if 0 ≤ length then some length.toNatClampNeg else none

def dnsBuildRequest (header : DnsHeader) (question : DnsQuestion) (request : Memory) :
    Option (Int32 × Memory) := do
  let headerS : Int32 := 12
  let questionS := question.length + 2 + 2
  let length := questionS + headerS
  let offset := 0
  let request ← Blocks.overwrite request offset (header.bytes.map some)
  let offset := offset + 12
  let n ← size question.length
  let request ← Blocks.overwrite request offset (← Blocks.slice question.qname 0 n)
  let offset := offset + n
  let request ← Blocks.overwrite request offset (question.qtype.map some)
  let offset := offset + 2
  let request ← Blocks.overwrite request offset (question.qclass.map some)
  return (length, request)

-- ---------------------------------------------------------------------------
-- What the loop writes
-- ---------------------------------------------------------------------------

variable {hostname : List UInt8} {l : List (List UInt8)} {p q : Memory} {n : Nat}

def written : List (List UInt8) → List UInt8
  | [] => []
  | l => Rfc1035.Name.wire l

theorem length_wire : (Rfc1035.Name.wire l).length = spread l + 1 := by
  induction l with
  | nil => rfl
  | cons t l ih =>
    rw [Rfc1035.Name.wire_cons, List.length_cons, List.length_append, ih, Tokens.spread_cons]
    omega

@[simp] theorem written_nil : written [] = [] := rfl

theorem written_cons {t : List UInt8} : written (t :: l) = Rfc1035.Name.wire (t :: l) := rfl

theorem length_written_le : (written l).length ≤ spread l + 1 := by
  cases l with
  | nil => exact Nat.zero_le _
  | cons t l => exact Nat.le_of_eq length_wire

theorem written_over {t : List UInt8} :
    (written l).map some ++ (some 0 :: q.drop (t.length + 2)).drop (written l).length =
      (Rfc1035.Name.wire l).map some ++ q.drop (t.length + 1 + (spread l + 1)) := by
  cases l with
  | nil => simp [Rfc1035.Name.wire]
  | cons t' l =>
    rw [written_cons, length_wire, List.drop_succ_cons, List.drop_drop]
    congr 2
    omega

/-- Induction on the tokens: each is written over the NUL of the one before. -/
theorem copyTokens_returns (hl : tokens 46 hostname = l) (hroom : spread l + 1 ≤ q.length) :
    Returns (fun turns => copyTokens turns hostname (p ++ q) p.length)
      (p ++ ((written l).map some ++ q.drop (written l).length)) := by
  induction l generalizing hostname p q with
  | nil =>
    have hnone := Tokens.strtok_eq_none_iff.mpr hl
    exact .last fun turns => by simp [copyTokens, hnone]
  | cons t l ih =>
    obtain ⟨⟨t', rest⟩, hsome⟩ : ∃ r, strtok 46 hostname = some r := by
      refine Option.ne_none_iff_exists'.mp fun hnone => ?_
      cases (Tokens.strtok_eq_none_iff.mp hnone).symm.trans hl
    obtain ⟨htokens, -⟩ := Tokens.strtok_eq_some hsome
    obtain ⟨rfl, hrest⟩ := List.cons.inj (htokens.symm.trans hl)
    rw [Tokens.spread_cons] at hroom
    have hlen := Blocks.overwrite_append (p := p) (b := [some (UInt8.ofNat t'.length)]) rfl
      (show 1 ≤ q.length by omega)
    rw [← List.append_assoc, List.length_singleton] at hlen
    have hcopy := Blocks.overwrite_append (i := p.length + 1)
      (p := p ++ [some (UInt8.ofNat t'.length)]) (q := q.drop 1) (b := t'.map some ++ [some 0])
      (by simp) (by simp only [List.length_append, List.length_map, List.length_drop,
        List.length_singleton]; omega)
    have hlater := ih (p := p ++ some (UInt8.ofNat t'.length) :: t'.map some)
      (q := some 0 :: q.drop (t'.length + 2)) hrest
      (by simp only [List.length_cons, List.length_drop]; omega)
    rw [written_over] at hlater
    have hresult : p ++ some (UInt8.ofNat t'.length) :: t'.map some ++
        ((Rfc1035.Name.wire l).map some ++ q.drop (t'.length + 1 + (spread l + 1))) =
        p ++ ((written (t' :: l)).map some ++ q.drop (written (t' :: l)).length) := by
      rw [written_cons, length_wire, Rfc1035.Name.wire_cons, Tokens.spread_cons]
      simp [Nat.add_assoc]
    rw [← hresult]
    refine hlater.turn fun turns => ?_
    have hnext : (p ++ some (UInt8.ofNat t'.length) :: t'.map some).length =
        p.length + 1 + t'.length := by
      simp only [List.length_append, List.length_cons, List.length_map]
      omega
    have hmemory : p ++ [some (UInt8.ofNat t'.length)] ++ (t'.map some ++ [some 0] ++
        (q.drop 1).drop (t'.map some ++ [some 0]).length) =
        p ++ some (UInt8.ofNat t'.length) :: t'.map some ++ some 0 :: q.drop (t'.length + 2) := by
      simp [Nat.add_comm, Nat.add_left_comm]
    rw [copyTokens, hsome, ← hmemory, hnext]
    simp only [Option.bind_eq_bind, hlen, hcopy, Option.bind_some]

/-- What is left of the memory stays as `malloc` gave it. -/
theorem dnsCreateQuestion_returns (hostname : List UInt8) :
    Returns (fun turns => dnsCreateQuestion turns hostname)
      { length := Int32.ofNat (hostname.length + 2), qtype := htons 1, qclass := htons 1,
        qname := (written (tokens 46 hostname)).map some ++
          List.replicate (hostname.length + 2 - (written (tokens 46 hostname)).length) none } := by
  have hroom : spread (tokens 46 hostname) + 1 ≤
      (List.replicate (hostname.length + 2) (none : Option UInt8)).length := by
    rw [List.length_replicate]
    exact Nat.succ_le_succ Tokens.spread_tokens_le
  have hcopy := copyTokens_returns (p := []) rfl hroom
  rw [List.drop_replicate] at hcopy
  refine (hcopy.map fun qname => DnsQuestion.mk (Int32.ofNat (hostname.length + 2)) (htons 1)
    (htons 1) qname).congr fun turns => ?_
  simp [dnsCreateQuestion, Option.map_eq_bind]

end LearningCode.Dns
