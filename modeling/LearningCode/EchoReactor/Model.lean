import Mathlib.Data.UInt
import LearningCode.Lib.Transition

/-!
# The reactor with three callbacks

`epoll_reactor_mulcb.c`: one record for each descriptor, with the callbacks and the
buffers of whichever connection has the descriptor. The kernel's part is which
descriptors are open, what `epoll` watches them for, and what went over each
connection in both directions.
-/

namespace LearningCode.EchoReactor

def BUFFER_LENGTH : Nat := 1024

def MAX_EPOLL_EVENT : Nat := 1024

def EPOLLIN : Nat := 1

def EPOLLOUT : Nat := 4

inductive Event
  | NOSET_CB
  | READ_CB
  | WRITE_CB
  | ACCEPT_CB
  deriving DecidableEq

inductive NtyCallBack
  | null
  | acceptCallback
  | readCallback
  | writeCallback
  deriving DecidableEq

structure Nitem where
  events : Event
  readCb : NtyCallBack
  writeCb : NtyCallBack
  acceptCb : NtyCallBack
  sbuffer : List UInt8
  slength : Int
  rbuffer : List UInt8

/-- What `recv` returned and `send` took on a connection, since its `accept`. -/
structure Wire where
  received : List UInt8
  accepted : List UInt8
  /-- Whether a `send` took some of its bytes and not all of them. -/
  short : Bool

def Wire.silent : Wire := ⟨[], [], false⟩

structure Reactor where
  items : Nat → Nitem
  /-- What `epoll` watches a descriptor for, if it does. -/
  interest : Nat → Option Nat
  opened : Nat → Bool
  wire : Nat → Wire

def Reactor.put (r : Reactor) (fd : Nat) (item : Nitem) : Reactor :=
  { r with items := Function.update r.items fd item }

def Nitem.setCb (item : Nitem) (cb : NtyCallBack) : Event → Nitem
  | .NOSET_CB => item
  | .READ_CB => { item with readCb := cb }
  | .WRITE_CB => { item with writeCb := cb }
  | .ACCEPT_CB => { item with acceptCb := cb }

def Event.toEpoll : Event → Nat
  | .NOSET_CB => 0
  | .READ_CB => EPOLLIN
  | .WRITE_CB => EPOLLOUT
  | .ACCEPT_CB => EPOLLIN

/-- `EPOLL_CTL_ADD` wants a descriptor that is not watched, `EPOLL_CTL_MOD` one that is. -/
def reactorSetEvent (r : Reactor) (fd : Nat) (cb : NtyCallBack) (event : Event) : Reactor :=
  let item := (r.items fd).setCb cb event
  let registered : Reactor :=
    { r.put fd { item with events := event } with
      interest := Function.update r.interest fd (some event.toEpoll) }
  if item.events = .NOSET_CB then
    if (r.interest fd).isSome then r.put fd item else registered
  else if item.events ≠ event then
    if (r.interest fd).isNone then r.put fd item else registered
  else r.put fd item

def reactorDelEvent (r : Reactor) (fd : Nat) : Reactor :=
  { r.put fd { r.items fd with events := .NOSET_CB } with
    interest := Function.update r.interest fd none }

def Reactor.close (r : Reactor) (fd : Nat) : Reactor :=
  { r with
    opened := Function.update r.opened fd false
    interest := Function.update r.interest fd none }

def acceptCallback (r : Reactor) (connfd : Nat) : Reactor :=
  let r := { r with
    opened := Function.update r.opened connfd true
    wire := Function.update r.wire connfd Wire.silent }
  reactorSetEvent r connfd .readCallback .READ_CB

/-- What `recv` does to the records: the bytes go to the start of `rbuffer`, and
`memcpy` takes them to the start of `sbuffer`. -/
def Nitem.receive (item : Nitem) (data : List UInt8) : Nitem :=
  let rbuffer := data ++ item.rbuffer.drop data.length
  { item with
    rbuffer := rbuffer
    sbuffer := rbuffer.take data.length ++ item.sbuffer.drop data.length
    slength := data.length }

def Wire.receive (w : Wire) (data : List UInt8) : Wire := { w with received := w.received ++ data }

/-- `read_callback`, with the bytes `recv` returned, or nothing for an error. -/
def readCallback (r : Reactor) (fd : Nat) : Option (List UInt8) → Reactor
  | none => r
  | some [] => (reactorDelEvent r fd).close fd
  | some data =>
    let r := r.put fd ((r.items fd).receive data)
    let r := { r with wire := Function.update r.wire fd ((r.wire fd).receive data) }
    reactorSetEvent r fd .writeCallback .WRITE_CB

def Wire.send (w : Wire) (sbuffer : List UInt8) (slength ret : Int) : Wire :=
  { w with
    accepted := w.accepted ++ sbuffer.take ret.toNat
    short := w.short || decide (0 < ret ∧ ret < slength) }

def writeCallback (r : Reactor) (fd : Nat) (ret : Int) : Reactor :=
  let item := r.items fd
  let r := { r with wire := Function.update r.wire fd ((r.wire fd).send item.sbuffer item.slength ret) }
  if ret < item.slength then reactorSetEvent r fd .writeCallback .WRITE_CB
  else reactorSetEvent r fd .readCallback .READ_CB

inductive Action
  | accept (connfd : Nat)
  | recv (fd : Nat) (data : Option (List UInt8))
  | send (fd : Nat) (ret : Int)

/-- `reactor_loop` calls the callback in the record of a descriptor that is ready.
There are records for `MAX_EPOLL_EVENT` descriptors; `recv` returns at most
`BUFFER_LENGTH` bytes, and `send` takes between 1 byte and all of them or fails. -/
def step (listenfd : Nat) (r : Reactor) : Action → Option Reactor
  | .accept connfd =>
    if r.interest listenfd = some EPOLLIN ∧ (r.items listenfd).acceptCb = .acceptCallback ∧
        r.opened connfd = false ∧ connfd < MAX_EPOLL_EVENT then some (acceptCallback r connfd)
    else none
  | .recv fd data =>
    if fd ≠ listenfd ∧ r.interest fd = some EPOLLIN ∧ (r.items fd).readCb = .readCallback ∧
        (data.getD []).length ≤ BUFFER_LENGTH then some (readCallback r fd data)
    else none
  | .send fd ret =>
    if fd ≠ listenfd ∧ r.interest fd = some EPOLLOUT ∧ (r.items fd).writeCb = .writeCallback ∧
        (ret = -1 ∨ 1 ≤ ret ∧ ret ≤ (r.items fd).slength) then some (writeCallback r fd ret)
    else none

/-- The records are zeroed when they are allocated. -/
def zeroed : Nitem :=
  ⟨.NOSET_CB, .null, .null, .null, List.replicate BUFFER_LENGTH 0, 0, List.replicate BUFFER_LENGTH 0⟩

def start (listenfd : Nat) (opened : Nat → Bool) : Reactor :=
  reactorSetEvent ⟨fun _ => zeroed, fun _ => none, opened, fun _ => Wire.silent⟩ listenfd
    .acceptCallback .ACCEPT_CB

def reactor (listenfd : Nat) : Transition Reactor Action where
  init r := ∃ opened, opened listenfd = true ∧ r = start listenfd opened
  step r i r' := step listenfd r i = some r'

def Whole (fd : Nat) (r : Reactor) : Action → Prop
  | .send fd' ret => fd' = fd → ¬ (0 < ret ∧ ret < (r.items fd').slength)
  | _ => True

end LearningCode.EchoReactor
