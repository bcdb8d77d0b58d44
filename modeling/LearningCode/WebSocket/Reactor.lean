import LearningCode.Lib.Transition
import LearningCode.WebSocket.Model

/-!
# The reactor of the WebSocket server

The callbacks of `websocket_reactor.c` and the record each descriptor has, whichever
connection it belongs to. The kernel's part is which descriptors are open and
which `epoll` watches; `accept` returns one that is not open.
-/

namespace LearningCode.WebSocket

inductive Entry
  /-- `accept_cb` is through, with the state it leaves in the record. -/
  | accepted (fd : Int) (state : StateMachine)
  /-- A buffer went to `handshake`, which returned this. -/
  | handshake (fd : Int) (ret : Int)
  /-- A buffer was treated as a frame. -/
  | frame (fd : Int)

structure Reactor where
  /-- `ntyreactor_find_event_idx` -/
  event : Int → Ntyevent
  opened : Int → Bool
  watched : Int → Bool
  /-- Newest first. -/
  log : List Entry

def Reactor.put (r : Reactor) (fd : Int) (ev : Ntyevent) : Reactor :=
  { r with event := Function.update r.event fd ev }

def Reactor.record (r : Reactor) (e : Entry) : Reactor := { r with log := e :: r.log }

/-- `close` also ends the watch. -/
def Reactor.close (r : Reactor) (fd : Int) : Reactor :=
  { r with opened := Function.update r.opened fd false, watched := Function.update r.watched fd false }

def ntyEventSet (ev : Ntyevent) (fd : Int) (callback : Callback) : Ntyevent :=
  { ev with fd := fd, callback := callback, events := 0 }

/-- `EPOLL_CTL_ADD` watches a descriptor that is open, `EPOLL_CTL_MOD` one that is watched. -/
def ntyEventAdd (r : Reactor) (ev : Ntyevent) (events : Nat) : Reactor × Ntyevent :=
  if ev.status = 1 then (r, { ev with events := events })
  else
    ({ r with watched := Function.update r.watched ev.fd (r.opened ev.fd) },
      { ev with events := events, status := 1 })

def ntyEventDel (r : Reactor) (ev : Ntyevent) : Reactor × Ntyevent :=
  if ev.status ≠ 1 then (r, ev)
  else ({ r with watched := Function.update r.watched ev.fd false }, { ev with status := 0 })

def websocketRequest (libs : Libraries) (ev : Ntyevent) : Option (Ntyevent × Option Entry × Bool) :=
  match ev.stateMachine with
  | .WS_HANDSHAKE => do
    let (ev', ret) ← handshake libs ev
    some ({ ev' with stateMachine := .WS_TRANSMISSION }, some (.handshake ev.fd ret), false)
  | .WS_TRANSMISSION => do
    let (ev', closed) ← transmission ev
    some (ev', some (.frame ev.fd), closed)
  | .WS_END => some (ev, none, false)

def Reactor.recordIf (r : Reactor) : Option Entry → Reactor
  | none => r
  | some e => r.record e

/-- `recv_cb`, with what the loop around `recv` has received. -/
def recvCb (libs : Libraries) (r : Reactor) (fd : Int) (data : List UInt8) : Option Reactor := do
  let ev := { r.event fd with buffer := load data }
  let (r, ev) := ntyEventDel r ev
  if data.length > 0 then
    let (ev, entry, closed) ← websocketRequest libs { ev with length := data.length }
    let r := if closed then (r.recordIf entry).close ev.fd else r.recordIf entry
    let (r, ev) := ntyEventAdd r (ntyEventSet ev fd .sendCb) EPOLLOUT
    some (r.put fd ev)
  else some ((r.put fd ev).close ev.fd)

def sendCb (r : Reactor) (fd : Int) (len : Int) : Reactor :=
  let (r, ev) := ntyEventDel r (r.event fd)
  if len > 0 then
    let (r, ev) := ntyEventAdd r (ntyEventSet ev fd .recvCb) EPOLLIN
    r.put fd ev
  else (r.put fd ev).close ev.fd

def acceptCb (r : Reactor) (clientfd : Int) (nonblocking : Bool) : Reactor :=
  let r := { r with opened := Function.update r.opened clientfd true }
  if nonblocking then
    let event := ntyEventSet (r.event clientfd) clientfd .recvCb
    -- the field is `status`, and WS_HANDSHAKE is 0
    let event := { event with status := 0 }
    let (r, event) := ntyEventAdd r event EPOLLIN
    (r.put clientfd event).record (.accepted clientfd event.stateMachine)
  else r

inductive Action
  | accept (clientfd : Int) (nonblocking : Bool)
  | recv (fd : Int) (data : List UInt8)
  | send (fd : Int) (len : Int)

/-- `ntyreactor_run` calls the callback of a record whose descriptor is ready. -/
def step (libs : Libraries) (r : Reactor) : Action → Option Reactor
  | .accept clientfd nonblocking =>
    if r.opened clientfd then none else some (acceptCb r clientfd nonblocking)
  | .recv fd data =>
    if r.watched fd ∧ (r.event fd).events = EPOLLIN ∧ (r.event fd).callback = .recvCb ∧
        data.length < BUFFER_LENGTH then recvCb libs r fd data
    else none
  | .send fd len =>
    if r.watched fd ∧ (r.event fd).events = EPOLLOUT ∧ (r.event fd).callback = .sendCb then
      some (sendCb r fd len)
    else none

/-- The records are zeroed when they are allocated. -/
def zeroed : Ntyevent := ⟨0, 0, .none, 0, fun _ => 0, 0, .WS_HANDSHAKE⟩

def reactor (libs : Libraries) : Transition Reactor Action where
  init r := (∀ fd, r.event fd = zeroed) ∧ (∀ fd, r.watched fd = false) ∧ r.log = []
  step r i r' := step libs r i = some r'

/-- Since its last `accept`, a buffer of the descriptor made `handshake` return 0. -/
def Shaken (fd : Int) : List Entry → Prop
  | [] => False
  | .accepted fd' _ :: log => fd' ≠ fd ∧ Shaken fd log
  | .handshake fd' ret :: log => fd' = fd ∧ ret = 0 ∨ Shaken fd log
  | .frame _ :: log => Shaken fd log

/-- A frame only after the handshake, and every connection starts with it. -/
def Proper : List Entry → Prop
  | [] => True
  | .accepted _ state :: log => state = .WS_HANDSHAKE ∧ Proper log
  | .handshake _ _ :: log => Proper log
  | .frame fd :: log => Shaken fd log ∧ Proper log

def Keyed (text : List UInt8) : Prop := ∃ a b c, text = a ++ ascii "Sec-WebSocket-Key" ++ b ++ 13 :: 10 :: c

/-- `accept` returns a descriptor whose record is as it was allocated, and what
comes first on it has the key. -/
def Unspoilt (r : Reactor) : Action → Prop
  | .accept clientfd _ => (r.event clientfd).stateMachine = .WS_HANDSHAKE
  | .recv fd data =>
    (r.event fd).stateMachine = .WS_HANDSHAKE → data ≠ [] → Keyed (cString data)
  | .send _ _ => True

end LearningCode.WebSocket
