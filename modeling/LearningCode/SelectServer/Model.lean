import Mathlib.Data.Finset.Card
import Mathlib.Data.UInt
import LearningCode.Lib.Transition

/-!
# The server with select

The loop of `select.cpp`, call by call. All clients share `buff` and `n`. The
kernel decides which descriptors are ready, what `accept` returns and what `recv`
does; what went over a connection is kept beside the variables of the program.
-/

namespace LearningCode.SelectServer

def MAX_LEN : Nat := 4096

def FD_SETSIZE : Nat := 1024

/-- Where the loop is: before `select`, behind it, and in the scan of the descriptors. -/
inductive Control
  | select
  | listen
  | scan (i : Nat)
  deriving DecidableEq

structure Server where
  control : Control
  rfds : Finset Nat
  wfds : Finset Nat
  rset : Finset Nat
  wset : Finset Nat
  nready : Int
  maxFd : Nat
  buff : List UInt8
  n : Int
  opened : Finset Nat
  /-- What `recv` returned on a connection. -/
  received : Nat → List UInt8
  /-- What was passed to `send` on a connection. -/
  sent : Nat → List UInt8
  /-- The descriptor of the last `recv`, if it returned bytes. -/
  last : Option Nat

inductive Action
  /-- `select` returns with these descriptors ready. -/
  | ready (rset wset : Finset Nat)
  /-- `select` returns -1. -/
  | failed
  | accept (connfd : Nat)
  /-- `recv` returns these bytes, or -1. -/
  | recv (data : Option (List UInt8))
  | send
  /-- No call to the kernel: the test of a descriptor, or of the end of the scan. -/
  | next

def afterRecv (s : Server) (i : Nat) : Server :=
  if s.nready - 1 = 0 then { s with nready := s.nready - 1, control := .select }
  else { s with nready := s.nready - 1, control := .scan (i + 1) }

/-- `recv` on a descriptor that is ready, with the NUL behind what it wrote. There
is no room for it behind `MAX_LEN` bytes. -/
def recv (s : Server) (i : Nat) : Option (List UInt8) → Option Server
  | none => some (afterRecv { s with n := -1, last := none } i)
  | some [] =>
    some (afterRecv { s with
      n := 0, last := none, rfds := s.rfds.erase i, opened := s.opened.erase i } i)
  | some data =>
    if data.length < MAX_LEN then
      some (afterRecv { s with
        buff := data ++ 0 :: s.buff.drop (data.length + 1)
        n := data.length
        last := some i
        received := Function.update s.received i (s.received i ++ data)
        wfds := insert i s.wfds } i)
    else none

/-- To send a negative number of bytes has no result. -/
def send (s : Server) (i : Nat) : Option Server :=
  if s.n < 0 then none
  else
    some { s with
      sent := Function.update s.sent i (s.sent i ++ s.buff.take s.n.toNat)
      rfds := insert i s.rfds
      wfds := s.wfds.erase i
      control := .scan (i + 1) }

def accept (listenfd : Nat) (s : Server) (connfd : Nat) : Server :=
  { s with
    opened := insert connfd s.opened
    received := Function.update s.received connfd []
    sent := Function.update s.sent connfd []
    rfds := insert connfd s.rfds
    maxFd := max connfd s.maxFd
    nready := s.nready - 1
    control := if s.nready - 1 = 0 then .select else .scan (listenfd + 1) }

def step (listenfd : Nat) (s : Server) : Action → Option Server
  | .ready rset wset =>
    if s.control = .select ∧ rset ⊆ s.rfds ∧ wset ⊆ s.wfds ∧ 0 < rset.card + wset.card then
      some { s with
        rset := rset, wset := wset, nready := rset.card + wset.card, control := .listen }
    else none
  | .failed =>
    -- the sets stay as they were
    if s.control = .select then
      some { s with rset := s.rfds, wset := s.wfds, nready := -1, control := .listen }
    else none
  | .accept connfd =>
    if s.control = .listen ∧ listenfd ∈ s.rset ∧ connfd ∉ s.opened ∧ connfd < FD_SETSIZE then
      some (accept listenfd s connfd)
    else none
  | .recv data =>
    match s.control with
    | .scan i =>
      -- only an open connection has bytes
      if i ≤ s.maxFd ∧ i ∈ s.rset ∧ (i ∈ s.opened ∨ data = none) ∧ (data.getD []).length ≤ MAX_LEN
      then recv s i data
      else none
    | _ => none
  | .send =>
    match s.control with
    | .scan i => if i ≤ s.maxFd ∧ i ∉ s.rset ∧ i ∈ s.wset then send s i else none
    | _ => none
  | .next =>
    match s.control with
    | .select => none
    | .listen => if listenfd ∈ s.rset then none else some { s with control := .scan (listenfd + 1) }
    | .scan i =>
      if s.maxFd < i then some { s with control := .select }
      else if i ∈ s.rset ∨ i ∈ s.wset then none
      else some { s with control := .scan (i + 1) }

/-- `main` before the loop; `buff` and `n` are not initialised. -/
structure Started (listenfd : Nat) (s : Server) : Prop where
  control : s.control = .select
  rfds : s.rfds = {listenfd}
  wfds : s.wfds = ∅
  maxFd : s.maxFd = listenfd
  buff : s.buff.length = MAX_LEN
  listens : listenfd ∈ s.opened
  received : ∀ i, s.received i = []
  sent : ∀ i, s.sent i = []
  last : s.last = none

def server (listenfd : Nat) : Transition Server Action where
  init := Started listenfd
  step s i s' := step listenfd s i = some s'

/-- A client is not read from while it waits for what it was sent before, and what
it is sent was received by the last `recv`. -/
def Alternating (s : Server) : Action → Prop
  | .recv (some (_ :: _)) => ∀ i, s.control = .scan i → i ∉ s.wfds
  | .send => ∀ i, s.control = .scan i → s.last = some i
  | _ => True

end LearningCode.SelectServer
