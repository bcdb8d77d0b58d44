import LearningCode.ImPdu.Model
import LearningCode.Protobuf.Model

/-!
# The chat client and its server

What `start` of `client.cc` sends, turn by turn, and what `recv_msg` of
`server.cc` with its two handlers prints for it. `std::cout` and `printf` write
to one stream, so the output is one list of bytes.
-/

namespace LearningCode.ImChat

open ImPdu Protobuf

def text (s : String) : List UInt8 := s.toUTF8.data.toList

def decimal (n : Nat) : List UInt8 := text (toString n)

def hexadecimal (n : Nat) : List UInt8 := text (String.ofList (Nat.toDigits 16 n))

-- --------------------------------------------------------------------------
-- IM.BaseDefine.pb.h
-- --------------------------------------------------------------------------

def sidLogin : UInt16 := 1
def sidMsg : UInt16 := 3
def cidLoginReqUserlogin : UInt16 := 259
def cidMsgData : UInt16 := 769
def userStatusOnline : Int32 := 1
def clientTypeWindows : Int32 := 1
def clientTypeAndroid : Int32 := 18
def msgTypeSingleText : Int32 := 1

-- --------------------------------------------------------------------------
-- server.cc
-- --------------------------------------------------------------------------

def parsePbMsgFailed : List UInt8 := text "parse pb msg failed.\n"

def printLoginRequest (login : IMLoginReq) : List UInt8 :=
  text "\nhandle_login_request:\n" ++
  text "user_name: " ++ login.userName ++ text "\n" ++
  text "password: " ++ login.password ++ text "\n" ++
  (if login.clientType = clientTypeWindows then text "client_type: CLIENT_TYPE_WINDOWS\n" else []) ++
  (if login.clientType = clientTypeAndroid then text "client_type: CLIENT_TYPE_ANDROID\n" else []) ++
  text "client_version: " ++ login.clientVersion ++ text "\n"

def handleLoginRequest (rt : Runtime) (turns : Nat) (pPdu : CImPdu) : Option (List UInt8) := do
  let (ret, login) ← IMLoginReq.parseFromArray rt turns (← pPdu.getBodyData)
  if ret = false then return parsePbMsgFailed
  return printLoginRequest login.members

/-- `uint8_t` is a character type, and is printed as one. -/
def printClientMsgData (msg : IMMsgData) : List UInt8 :=
  if msg.msgData.length = 0 then
    text "discard an empty message, uid=" ++ decimal msg.fromUserId.toNat ++ text " "
  else
    let msgType := msg.msgType.toUInt32.toUInt8
    text "\nhandle_client_msg_data:\n" ++
    text "to_session_id: " ++ decimal msg.toSessionId.toNat ++ text "\n" ++
    text "msg_id: " ++ decimal msg.msgId.toNat ++ text "\n" ++
    text "msg_type: " ++ [msgType] ++ text "\n" ++
    text "msg_data: " ++ msg.msgData ++ text "\n"

def handleClientMsgData (rt : Runtime) (turns : Nat) (pPdu : CImPdu) : Option (List UInt8) := do
  let (ret, msg) ← IMMsgData.parseFromArray rt turns (← pPdu.getBodyData)
  if ret = false then return parsePbMsgFailed
  return printClientMsgData msg.members

def printHandle (tempFd : Int32) : List UInt8 :=
  text "handle = " ++ decimal tempFd.toUInt32.toNat ++ text ", "

def printRecvInto (tempFd : Int32) : List UInt8 := printHandle tempFd ++ text "recv into\n"

def printPduLen (tempFd : Int32) (pduLen : UInt32) : List UInt8 :=
  printHandle tempFd ++ text "pdu_len into = " ++ decimal pduLen.toNat ++ text "\n"

def printCantHandle (tempFd : Int32) (commandId : UInt16) : List UInt8 :=
  printHandle tempFd ++ text "can't handle the pdu, cmd = 0x" ++ hexadecimal commandId.toNat ++
    text "\n"

def printClose (tempFd : Int32) : List UInt8 :=
  text "client fd:" ++ text (toString tempFd.toInt) ++ text " close\n"

def handleCommand (rt : Runtime) (turns : Nat) (tempFd : Int32) (pPdu : CImPdu) :
    Option (List UInt8) :=
  if pPdu.pduHeader.commandId = cidLoginReqUserlogin then handleLoginRequest rt turns pPdu
  else if pPdu.pduHeader.commandId = cidMsgData then handleClientMsgData rt turns pPdu
  else some (printCantHandle tempFd pPdu.pduHeader.commandId)

/-- The inner loop up to `m_in_buf.Read`: what one unit is answered with. -/
def handlePdu (rt : Runtime) (turns : Nat) (tempFd : Int32) (pPdu : CImPdu) :
    Option (List UInt8) := do
  return printPduLen tempFd pPdu.getLength ++ (← handleCommand rt turns tempFd pPdu)

section
variable (rt : Runtime) (R : Realloc) (tempFd : Int32) (turns : Nat)

/-- The inner `while`: what is printed, and the buffer left. -/
def handlePdus : (left : Nat) → CSimpleBuffer → Throws (List UInt8 × CSimpleBuffer)
  | 0, _ => ((none : Option _) : Throws _)
  | left + 1, b => do
    match ← CImPdu.readPdu R b.buffer b.writeOffset with
    | none => return ([], b)
    | some pPdu => do
      let out ← handlePdu rt turns tempFd pPdu
      let (_, b) ← b.read pPdu.getLength
      let (more, b) ← handlePdus left b
      return (out ++ more, b)

/-- The outer `while`, over what `recv` returns until the peer closes. -/
def serve : List (List UInt8) → CSimpleBuffer → Throws (List UInt8 × CSimpleBuffer)
  | [], b => return (printRecvInto tempFd ++ printClose tempFd, makeRoom R b)
  | chunk :: chunks, b => do
    let b ← recv (makeRoom R b) chunk
    let (out, b) ← handlePdus rt R tempFd turns turns b
    let (more, b) ← serve chunks b
    return (printRecvInto tempFd ++ out ++ more, b)

def recvMsg (chunks : List (List UInt8)) : Throws (List UInt8 × CSimpleBuffer) :=
  serve rt R tempFd turns chunks .new

end

-- --------------------------------------------------------------------------
-- client.cc
-- --------------------------------------------------------------------------

/-- `SetPBMsg` of a message that protobuf can serialize, the three setters, and
the bytes given to `send`. -/
def sendPdu (R : Realloc) (length : UInt32) (data : List UInt8) (serviceId commandId : UInt16)
    (nSeqNo : UInt32) : Option (List UInt8) := do
  if h : data.length < 2 ^ 31 then
    let cPdu ← (CImPdu.new length).setPBMsg R ⟨data, h⟩
    let cPdu ← cPdu.setServiceId serviceId
    let cPdu ← cPdu.setCommandId commandId
    let cPdu ← cPdu.setSeqNum nSeqNo.toUInt16
    Blocks.slice (← cPdu.getBuffer) 0 cPdu.getLength.toNat
  else none

def loginMessage : LiteMessage IMLoginReq where
  members :=
    { userName := text "liaoqingfu"
      password := text "123456"
      onlineStatus := userStatusOnline
      clientType := clientTypeWindows
      clientVersion := text "1.0" }

def textMessage (time : UInt32) : LiteMessage IMMsgData where
  members :=
    { fromUserId := 123
      toSessionId := 67
      msgId := 0
      createTime := time
      msgType := msgTypeSingleText
      msgData := text "今天主要讲protobuf" }

structure Client where
  loginMsg : UInt32
  sSeqNo : UInt32
deriving Repr, DecidableEq

/-- What a turn finds: `time(NULL)`, and the `length` of a fresh unit, which
the constructor does not set. -/
structure Turn where
  time : UInt32
  length : UInt32

/-- One turn of the `while`. The second test counts `login_msg` up again. -/
def turn (rt : Runtime) (R : Realloc) (c : Client) (t : Turn) :
    Option (Option (List UInt8) × Client) := do
  let first := c.loginMsg
  let c := { c with loginMsg := c.loginMsg + 1 }
  if first % 2 = 0 then
    let pdu ← sendPdu R t.length (IMLoginReq.serializeWithCachedSizes rt loginMessage)
      sidLogin cidLoginReqUserlogin c.sSeqNo
    return (some pdu, { c with sSeqNo := c.sSeqNo + 1 })
  else
    let second := c.loginMsg
    let c := { c with loginMsg := c.loginMsg + 1 }
    if second % 3 = 0 then
      let pdu ← sendPdu R t.length (IMMsgData.serializeWithCachedSizes rt (textMessage t.time))
        sidMsg cidMsgData c.sSeqNo
      return (some pdu, { c with sSeqNo := c.sSeqNo + 1 })
    else return (none, c)

def run (rt : Runtime) (R : Realloc) : List Turn → Client → Option (List (List UInt8))
  | [], _ => some []
  | t :: ts, c => do
    let (sent, c) ← turn rt R c t
    return sent.toList ++ (← run rt R ts c)

def start (rt : Runtime) (R : Realloc) (ts : List Turn) : Option (List (List UInt8)) :=
  run rt R ts { loginMsg := 0, sSeqNo := 0 }

end LearningCode.ImChat
