import LearningCode.Lib.Transition
import LearningCode.WebSocket.Model

/-!
# The HTTP server

`httpserver.c`, with the buffers and the C strings of the WebSocket server. The
record of a descriptor is never cleared: the connections that get the descriptor
use it one after the other, and a function assigns some of its fields. The
kernel's part is which descriptors are open and which `epoll` watches, and the files.
-/

namespace LearningCode.HttpServer

open WebSocket (Buffer BUFFER_LENGTH EPOLLIN EPOLLOUT ascii cString contents load readline strstr)

def HTTP_METHOD_GET : Int := 0

inductive Callback
  | none
  | recvCb
  | sendCb
  deriving DecidableEq

structure Ntyevent where
  fd : Nat
  events : Nat
  callback : Callback
  status : Int
  buffer : Buffer
  length : Int
  method : Int
  resource : List UInt8
  retCode : Int
  contentType : List UInt8

-- ---------------------------------------------------------------------------
-- requests
-- ---------------------------------------------------------------------------

/-- The URI of a request line. It is looked for behind `sizeof("GET ")`, which counts
the NUL, up to the next blank; without a blank the search leaves `line_buffer`. -/
def uri (line : List UInt8) : Option (List UInt8) :=
  let rest := line.drop ((ascii "GET ").length + 1)
  if 32 ∈ rest then some (rest.takeWhile (· ≠ 32)) else none

def suffix (uri : List UInt8) : List UInt8 := (uri.dropWhile (· ≠ 46)).tail

/-- `sprintf` to `Content_Type`; a suffix the server does not know leaves it as it is. -/
def contentType (uri old : List UInt8) : List UInt8 :=
  if 46 ∈ uri then
    let type := suffix uri
    if type = ascii "html" ∨ type = ascii "css" then ascii "text/" ++ type
    else if type = ascii "jpg" ∨ type = ascii "png" ∨ type = ascii "ico" then ascii "image/" ++ type
    else old
  else ascii "text/html"

def requestLine (b : Buffer) : List UInt8 := (readline (cString (contents b 0 BUFFER_LENGTH))).1

/-- A line that does not fit into `line_buffer` with its NUL has no result. -/
def httpRequest (ev : Ntyevent) : Option Ntyevent :=
  let line := requestLine ev.buffer
  if line.length ≥ 1024 then none
  else if strstr line (ascii "GET") then do
    let u ← uri line
    some { ev with
      method := HTTP_METHOD_GET
      resource := ascii "./html/" ++ u
      contentType := contentType u ev.contentType }
  else some ev

-- ---------------------------------------------------------------------------
-- responses
-- ---------------------------------------------------------------------------

/-- What `open` and `fstat` say of a path. -/
inductive File
  | directory
  | regular (size : Nat)
  | other

abbrev FileSystem := List UInt8 → Option File

def notFound (type : List UInt8) : List UInt8 :=
  ascii "HTTP/1.1 404 Not Found\r\n" ++ (ascii "Content-Type: " ++ type ++ ascii ";charset=utf-8\r\n") ++
    ascii "Content-Length: 83\r\n\r\n" ++
    ascii "<html><head><title>404 Not Found</title></head><body><H1>404</H1></body></html>\r\n\r\n"

def found (type : List UInt8) (size : Nat) : List UInt8 :=
  ascii "HTTP/1.1 200 OK\r\n" ++ (ascii "Content-Type: " ++ type ++ ascii ";charset=utf-8\r\n") ++
    (ascii "Content-Length: " ++ ascii (toString size) ++ ascii "\r\n\r\n")

def Ntyevent.print (ev : Ntyevent) (retCode : Int) (text : List UInt8) : Ntyevent :=
  { ev with retCode := retCode, buffer := load text, length := text.length }

/-- A path that is neither a directory nor a regular file gets no text. -/
def httpResponse (files : FileSystem) (ev : Ntyevent) : Ntyevent :=
  match files ev.resource with
  | none => ev.print 404 (notFound ev.contentType)
  | some .directory => ev.print 404 (notFound ev.contentType)
  | some (.regular size) => ev.print 200 (found ev.contentType size)
  | some .other => { ev with buffer := load [] }

-- ---------------------------------------------------------------------------
-- the reactor
-- ---------------------------------------------------------------------------

structure Reactor where
  /-- `ntyreactor_find_event_idx` -/
  event : Nat → Ntyevent
  opened : Nat → Bool
  watched : Nat → Bool

def Reactor.put (r : Reactor) (fd : Nat) (ev : Ntyevent) : Reactor :=
  { r with event := Function.update r.event fd ev }

/-- `close` also ends the watch. -/
def Reactor.close (r : Reactor) (fd : Nat) : Reactor :=
  { r with opened := Function.update r.opened fd false, watched := Function.update r.watched fd false }

def ntyEventSet (ev : Ntyevent) (fd : Nat) (callback : Callback) : Ntyevent :=
  { ev with fd := fd, callback := callback, events := 0 }

/-- `EPOLL_CTL_ADD` watches a descriptor that is open, `EPOLL_CTL_MOD` one that is watched. -/
def ntyEventAdd (r : Reactor) (ev : Ntyevent) (events : Nat) : Reactor × Ntyevent :=
  if ev.status = 1 then (r, { ev with events := events })
  else
    ({ r with watched := Function.update r.watched ev.fd (r.opened ev.fd) },
      { ev with events := events, status := 1 })

def ntyEventDel (r : Reactor) (ev : Ntyevent) : Reactor × Ntyevent :=
  if ev.status ≠ 1 then (r, ev)
  else ({ r with watched := Function.update r.watched ev.fd false }, { ev with status := 0 })

/-- `recv` and the NUL behind what it wrote. Behind a full buffer the NUL is written
to the low byte of `length`, where a 0 is already. -/
def receive (b : Buffer) (data : List UInt8) : Buffer := fun i =>
  if i < data.length then data.getD i 0 else if i = data.length then 0 else b i

def received (ev : Ntyevent) (data : List UInt8) : Ntyevent :=
  { ev with length := data.length, buffer := receive ev.buffer data }

/-- `recv_cb`, with what `recv` wrote; nothing also for an error. -/
def recvCb (r : Reactor) (fd : Nat) (data : List UInt8) : Option Reactor := do
  let (r, ev) := ntyEventDel r (r.event fd)
  if data.length > 0 then
    let ev ← httpRequest (received ev data)
    let (r, ev) := ntyEventAdd r (ntyEventSet ev fd .sendCb) EPOLLOUT
    some (r.put fd ev)
  else some ((r.put fd ev).close ev.fd)

/-- `send_cb`, with what `send` returned. The loop around `sendfile` changes nothing here. -/
def sendCb (files : FileSystem) (r : Reactor) (fd : Nat) (resHeadLen : Int) : Reactor :=
  let ev := httpResponse files (r.event fd)
  let (r, ev) := ntyEventDel r ev
  if resHeadLen > 0 then
    let (r, ev) := ntyEventAdd r (ntyEventSet ev fd .recvCb) EPOLLIN
    r.put fd ev
  else (r.put fd ev).close ev.fd

def acceptCb (r : Reactor) (clientfd : Nat) (nonblocking : Bool) : Reactor :=
  let r := { r with opened := Function.update r.opened clientfd true }
  if nonblocking then
    let (r, event) := ntyEventAdd r (ntyEventSet (r.event clientfd) clientfd .recvCb) EPOLLIN
    r.put clientfd event
  else r

inductive Action
  | accept (clientfd : Nat) (nonblocking : Bool)
  | recv (fd : Nat) (data : List UInt8)
  | send (fd : Nat) (files : FileSystem) (resHeadLen : Int)

def Action.fd : Action → Nat
  | .accept clientfd _ => clientfd
  | .recv fd _ => fd
  | .send fd _ _ => fd

def Reactor.Reads (r : Reactor) (fd : Nat) : Prop :=
  r.watched fd ∧ (r.event fd).events = EPOLLIN ∧ (r.event fd).callback = .recvCb

def Reactor.Writes (r : Reactor) (fd : Nat) : Prop :=
  r.watched fd ∧ (r.event fd).events = EPOLLOUT ∧ (r.event fd).callback = .sendCb

instance (r : Reactor) (fd : Nat) : Decidable (r.Reads fd) := inferInstanceAs (Decidable (_ ∧ _))

instance (r : Reactor) (fd : Nat) : Decidable (r.Writes fd) := inferInstanceAs (Decidable (_ ∧ _))

def step (r : Reactor) : Action → Option Reactor
  | .accept clientfd nonblocking =>
    if r.opened clientfd then none else some (acceptCb r clientfd nonblocking)
  | .recv fd data =>
    if r.Reads fd ∧ data.length ≤ BUFFER_LENGTH then recvCb r fd data else none
  | .send fd files resHeadLen => if r.Writes fd then some (sendCb files r fd resHeadLen) else none

/-- The records are zeroed when they are allocated. -/
def zeroed : Ntyevent := ⟨0, 0, .none, 0, load [], 0, 0, [], 0, []⟩

def reactor : Transition Reactor Action where
  init r := (∀ fd, r.event fd = zeroed) ∧ ∀ fd, r.watched fd = false
  step r i r' := step r i = some r'

-- ---------------------------------------------------------------------------
-- what a client gets
-- ---------------------------------------------------------------------------

/-- The answer to a request, without its length and the file behind it. -/
structure Answer where
  /-- The path `open` gets. -/
  path : List UInt8
  statusLine : List UInt8
  contentTypeLine : List UInt8
  deriving DecidableEq

def answer (files : FileSystem) (ev : Ntyevent) : Answer :=
  let sent := contents (httpResponse files ev).buffer 0 (httpResponse files ev).length.toNat
  ⟨ev.resource, (readline sent).1, (readline ((readline sent).2.getD [])).1⟩

/-- The answer of the `send_cb` that follows when a descriptor receives these bytes. -/
def respond (files : FileSystem) (r : Reactor) (fd : Nat) (data : List UInt8) : Option Answer := do
  let r ← recvCb r fd data
  some (answer files (r.event fd))

end LearningCode.HttpServer
