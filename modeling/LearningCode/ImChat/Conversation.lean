import LearningCode.ImChat.Model
import LearningCode.ImPdu.Receive
import LearningCode.Protobuf.Reference
import LearningCode.Protobuf.Merge

/-!
# Requests and answers

The requests that clients send, each in its unit, and what the server prints for
them. However the stream is cut and wherever it ends, each unit is answered
once, in order, in the turn of the loop that brings its last byte.
-/

namespace LearningCode.ImChat

open ImPdu Protobuf Framing

variable {rt : Runtime} {R : Realloc} {tempFd : Int32} {turns : Nat} {b : CSimpleBuffer}
  {p : CImPdu} {l later : List UInt8}

instance {value : List UInt8} : Decidable (Text rt value) := inferInstanceAs (Decidable (_ ∨ _))

-- ---------------------------------------------------------------------------
-- Requests
-- ---------------------------------------------------------------------------

inductive Request where
  | login (m : LiteMessage IMLoginReq)
  | msgData (m : LiteMessage IMMsgData)
  /-- A command that the server does not know. -/
  | other (commandId : UInt16) (data : List UInt8)

namespace Request

def commandId : Request → UInt16
  | login _ => cidLoginReqUserlogin
  | msgData _ => cidMsgData
  | other commandId _ => commandId

def data (rt : Runtime) : Request → List UInt8
  | login m => IMLoginReq.serializeWithCachedSizes rt m
  | msgData m => IMMsgData.serializeWithCachedSizes rt m
  | other _ data => data

def Sized (rt : Runtime) : Request → Prop
  | login m => IMLoginReq.Sized rt m
  | msgData m => IMMsgData.Sized rt m
  | other commandId _ => commandId ≠ cidLoginReqUserlogin ∧ commandId ≠ cidMsgData

def answer (rt : Runtime) (tempFd : Int32) : Request → List UInt8
  | login m =>
    if ∀ v ∈ m.members.strings, Text rt v then printLoginRequest m.members else parsePbMsgFailed
  | msgData m => printClientMsgData m.members
  | other commandId _ => printCantHandle tempFd commandId

end Request

structure Sent (rt : Runtime) where
  request : Request
  header : PduHeader
  sized : request.Sized rt
  small : (request.data rt).length < 2 ^ 31
  commandId : header.commandId = request.commandId
  length : header.length.toNat = 16 + (request.data rt).length

namespace Sent

def bytes (s : Sent rt) : List UInt8 := headerBytes s.header ++ s.request.data rt

def answer (tempFd : Int32) (s : Sent rt) : List UInt8 :=
  printPduLen tempFd s.header.length ++ s.request.answer rt tempFd

theorem length_bytes (s : Sent rt) : s.bytes.length = 16 + (s.request.data rt).length := by
  rw [bytes, List.length_append, length_headerBytes]

theorem isPdu (s : Sent rt) : IsPdu s.header (s.request.data rt) s.bytes :=
  ⟨rfl, by rw [s.length, s.length_bytes]⟩

end Sent

def stream (sent : List (Sent rt)) : List UInt8 := (sent.map Sent.bytes).flatten

@[simp] theorem stream_nil : stream ([] : List (Sent rt)) = [] := rfl

@[simp] theorem stream_append (ss ts : List (Sent rt)) :
    stream (ss ++ ts) = stream ss ++ stream ts := by
  rw [stream, List.map_append, List.flatten_append, stream, stream]

theorem units_of_sent (sent : List (Sent rt)) : Units (sent.map Sent.bytes) := by
  intro f hf
  obtain ⟨s, -, rfl⟩ := List.mem_map.mp hf
  exact ⟨_, _, s.isPdu⟩

-- ---------------------------------------------------------------------------
-- One unit
-- ---------------------------------------------------------------------------

theorem headerBytes_injective {g h : PduHeader} {t u : List UInt8}
    (heq : headerBytes g ++ t = headerBytes h ++ u) : g = h := by
  have hread := readPduHeader_spec (h := g) (t := t) (CImPdu.new 0)
  rw [heq, readPduHeader_spec] at hread
  have hsome : (some (.ok { CImPdu.new 0 with pduHeader := h }) :
      Option (Except CPduException CImPdu)) = some (.ok { CImPdu.new 0 with pduHeader := g }) := hread
  simpa using hsome.symm

theorem handed_header {s : Sent rt} (hp : Handed s.bytes p) : p.pduHeader = s.header := by
  obtain ⟨body, hpdu⟩ := hp.isPdu
  exact headerBytes_injective (hpdu.eq.symm.trans rfl)

theorem handed_body {s : Sent rt} (hp : Handed s.bytes p) : p.getBodyData = some (s.request.data rt) :=
  CSimpleBuffer.Holds.getBodyData hp.holds

theorem handleLoginRequest_sent (hrt : rt.Documented) {m : LiteMessage IMLoginReq}
    (hm : IMLoginReq.Sized rt m)
    (hbody : p.getBodyData = some (IMLoginReq.serializeWithCachedSizes rt m))
    (hturns : (IMLoginReq.serializeWithCachedSizes rt m).length < turns) :
    handleLoginRequest rt turns p = some ((Request.login m).answer rt tempFd) := by
  obtain ⟨ok, login, hparse, hok, hlogin⟩ := (IMLoginReq.settles hrt hm).parse hrt rfl hturns
  rw [IMLoginReq.mergeFrom_default] at hlogin
  simp only [handleLoginRequest, hbody, Option.bind_eq_bind, Option.bind_some,
    IMLoginReq.parseFromArray, hparse, Request.answer, ← hok]
  cases ok with
  | true => rw [hlogin rfl]; rfl
  | false => rfl

theorem handleClientMsgData_sent (hrt : rt.Documented) {m : LiteMessage IMMsgData}
    (hm : IMMsgData.Sized rt m)
    (hbody : p.getBodyData = some (IMMsgData.serializeWithCachedSizes rt m))
    (hturns : (IMMsgData.serializeWithCachedSizes rt m).length < turns) :
    handleClientMsgData rt turns p = some ((Request.msgData m).answer rt tempFd) := by
  obtain ⟨ok, msg, hparse, hok, hmsg⟩ :=
    (IMMsgData.consumes hrt hm).settles.parse hrt rfl hturns
  obtain rfl := hok.mpr trivial
  rw [IMMsgData.mergeFrom_default] at hmsg
  simp only [handleClientMsgData, hbody, Option.bind_eq_bind, Option.bind_some,
    IMMsgData.parseFromArray, hparse, hmsg, Request.answer]
  rfl

theorem handleCommand_sent (hrt : rt.Documented) {s : Sent rt} (hp : Handed s.bytes p)
    (hturns : s.bytes.length ≤ turns) :
    handleCommand rt turns tempFd p = some (s.request.answer rt tempFd) := by
  have hbody := handed_body hp
  have hsized := s.sized
  have hdata : (s.request.data rt).length < turns := by
    rw [s.length_bytes] at hturns
    omega
  rw [handleCommand, handed_header hp, s.commandId]
  cases hrequest : s.request with
  | login m =>
    rw [hrequest] at hbody hdata hsized
    exact (if_pos rfl).trans (handleLoginRequest_sent hrt hsized hbody hdata)
  | msgData m =>
    rw [hrequest] at hbody hdata hsized
    have hne : cidMsgData ≠ cidLoginReqUserlogin := by decide
    exact (if_neg hne).trans ((if_pos rfl).trans (handleClientMsgData_sent hrt hsized hbody hdata))
  | other commandId data =>
    rw [hrequest] at hsized
    exact (if_neg hsized.1).trans (if_neg hsized.2)

variable (tempFd) in
theorem handlePdu_sent (hrt : rt.Documented) {s : Sent rt} (hp : Handed s.bytes p)
    (hturns : s.bytes.length ≤ turns) : handlePdu rt turns tempFd p = some (s.answer tempFd) := by
  have hlength : p.getLength = s.header.length := by
    rw [← UInt32.toNat_inj, s.length, ← s.length_bytes]
    exact hp.holds.offset
  rw [handlePdu, handleCommand_sent hrt hp hturns, hlength]
  rfl

-- ---------------------------------------------------------------------------
-- The inner loop
-- ---------------------------------------------------------------------------

variable (tempFd) in
theorem handlePdus_of_dispatch (hrt : rt.Documented) {left : Nat} {ss : List (Sent rt)}
    {ps : List CImPdu} {c : CSimpleBuffer} (hrun : dispatch R left b = pure (ps, c))
    (hps : List.Forall₂ (fun s p => Handed s.bytes p) ss ps)
    (hturns : ∀ s ∈ ss, s.bytes.length ≤ turns) :
    handlePdus rt R tempFd turns left b = pure (ss.flatMap (·.answer tempFd), c) := by
  induction left generalizing b ss ps with
  | zero => cases hrun
  | succ left ih =>
    obtain ⟨r, hread, hrest⟩ := Throws.bind_ok (show (dispatch R (left + 1) b).run = _ from hrun)
    have hread : CImPdu.readPdu R b.buffer b.writeOffset = pure r := hread
    cases r with
    | none =>
      cases hrest
      cases hps
      simp only [handlePdus, hread, pure_bind]
      rfl
    | some q =>
      obtain ⟨⟨out, d⟩, hskip, hrest⟩ := Throws.bind_ok hrest
      obtain ⟨⟨qs, e⟩, hdispatch, hrest⟩ := Throws.bind_ok hrest
      have hskip : (liftM (b.read q.getLength) : Throws _) = pure (out, d) := hskip
      cases hrest
      cases hps with
      | @cons s _ ss _ hq hqs =>
        have hout := handlePdu_sent tempFd hrt hq (hturns s List.mem_cons_self)
        have hmore := ih hdispatch hqs fun s hs => hturns s (List.mem_cons_of_mem _ hs)
        simp only [handlePdus, hread, pure_bind, hout, Throws.lift_some, hskip, hmore,
          List.flatMap_cons]

-- ---------------------------------------------------------------------------
-- The outer loop
-- ---------------------------------------------------------------------------

/-- What is printed while `groups` of units become whole, one group a turn. -/
def printed (tempFd : Int32) (groups : List (List (Sent rt))) : List UInt8 :=
  (groups.flatMap fun group => printRecvInto tempFd ++ group.flatMap (·.answer tempFd)) ++
    (printRecvInto tempFd ++ printClose tempFd)

/-- `pending` bytes are there before the first turn. Each turn answers the units
that are whole after it, and no other. -/
structure Prompt (pending : Nat) (sent : List (Sent rt)) (chunks : List (List UInt8))
    (groups : List (List (Sent rt))) : Prop where
  turns : groups.length = chunks.length
  order : groups.flatten <+: sent
  whole : ∀ i, (stream (groups.take i).flatten).length ≤ pending + (chunks.take i).flatten.length
  due : ∀ i s, (groups.take i).flatten ++ [s] <+: sent →
    pending + (chunks.take i).flatten.length < (stream ((groups.take i).flatten ++ [s])).length

variable {sent group : List (Sent rt)} {chunk rest : List UInt8} {chunks : List (List UInt8)}
  {groups : List (List (Sent rt))}

theorem short_head (hshort : Short l (sent.map Sent.bytes)) {s : Sent rt} (hs : [s] <+: sent) :
    l.length < s.bytes.length := by
  obtain ⟨ts, rfl⟩ := hs
  exact hshort s.bytes rfl

theorem Prompt.nil (hshort : Short l (sent.map Sent.bytes)) : Prompt l.length sent [] [] where
  turns := rfl
  order := List.nil_prefix
  whole i := by simp
  due i s hs := by
    have hlt := short_head hshort (by simpa using hs)
    simpa [stream] using hlt

theorem Prompt.cons (hcut : l ++ chunk = stream group ++ rest)
    (hshort : Short l ((group ++ sent).map Sent.bytes))
    (h : Prompt rest.length sent chunks groups) :
    Prompt l.length (group ++ sent) (chunk :: chunks) (group :: groups) where
  turns := congrArg Nat.succ h.turns
  order := by
    rw [List.flatten_cons]
    exact (List.prefix_append_right_inj group).mpr h.order
  whole i := by
    have hlen := congrArg List.length hcut
    cases i with
    | zero => simp
    | succ i =>
      have hwhole := h.whole i
      simp only [List.length_append] at hlen
      simp only [List.take_succ_cons, List.flatten_cons, stream_append, List.length_append]
      omega
  due i s hs := by
    have hlen := congrArg List.length hcut
    cases i with
    | zero =>
      have hlt := short_head hshort (by simpa using hs)
      simpa [stream] using hlt
    | succ i =>
      simp only [List.take_succ_cons, List.flatten_cons, List.append_assoc,
        List.prefix_append_right_inj] at hs
      have hdue := h.due i s hs
      simp only [List.length_append] at hlen
      simp only [List.take_succ_cons, List.flatten_cons, stream_append, List.length_append]
        at hdue ⊢
      omega

theorem Prompt.flatten (h : Prompt 0 sent chunks groups) (hall : chunks.flatten = stream sent) :
    groups.flatten = sent := by
  obtain ⟨ts, hts⟩ := h.order
  cases ts with
  | nil => rwa [List.append_nil] at hts
  | cons s ts =>
    have hdue := h.due chunks.length s
    rw [List.take_of_length_le (Nat.le_of_eq h.turns), List.take_length] at hdue
    have hlt := hdue ⟨ts, by simpa using hts⟩
    rw [hall, ← hts] at hlt
    simp only [stream_append, List.length_append] at hlt
    simp [stream] at hlt

theorem pending_lt (hshort : Short l (sent.map Sent.bytes)) (hstream : l ++ later = stream sent) :
    l.length < 2 ^ 31 + 16 := by
  cases sent with
  | nil =>
    obtain ⟨rfl, -⟩ := List.append_eq_nil_iff.mp hstream
    decide
  | cons s sent =>
    have hlt := short_head hshort ⟨sent, rfl⟩
    have hsmall := s.small
    rw [s.length_bytes] at hlt
    omega

variable (R tempFd later) in
theorem serve_sent (hrt : rt.Documented) (hb : b.Holds l)
    (hstream : l ++ (chunks.flatten ++ later) = stream sent)
    (hshort : Short l (sent.map Sent.bytes)) (hchunks : ∀ chunk ∈ chunks, chunk.length ≤ 2048) :
    ∃ groups c, Prompt l.length sent chunks groups ∧
      Returns (fun turns => (serve rt R tempFd turns chunks b).run)
        (.ok (printed tempFd groups, c)) := by
  induction chunks generalizing l b sent with
  | nil => exact ⟨[], makeRoom R b, .nil hshort, .const fun _ => rfl⟩
  | cons chunk chunks ih =>
    have hpending := pending_lt hshort hstream
    have hchunk := hchunks chunk List.mem_cons_self
    obtain ⟨c, hrecv, hc⟩ := recv_spec (R := R) hb (by unfold Roomy; omega) hchunk
    have hcut : (l ++ chunk) ++ (chunks.flatten ++ later) = (sent.map Sent.bytes).flatten := by
      rw [List.flatten_cons, List.append_assoc, ← List.append_assoc l] at hstream
      exact hstream
    have hframes : ∀ f ∈ sent.map Sent.bytes, wire.IsFrame f := by
      intro f hf
      obtain ⟨h, body, hpdu⟩ := units_of_sent sent f hf
      exact hpdu.isFrame
    obtain ⟨done, todo, rest, hsplit, hcuts, heq, hrest⟩ := cuts_prefix hframes hcut
    obtain ⟨group, sent, rfl, rfl, rfl⟩ := List.map_eq_append_iff.mp hsplit
    obtain ⟨ps, d, ⟨n, hn⟩, hhanded, hd⟩ := dispatch_handed (R := R) hcuts hc
      (units_of_sent group) (by rw [List.length_append]; unfold Roomy; omega)
    obtain ⟨groups, e, hprompt, m, hm⟩ := ih hd heq hrest fun chunk h =>
      hchunks chunk (List.mem_cons_of_mem _ h)
    refine ⟨group :: groups, e, .cons hcuts.flatten_append hshort hprompt,
      max (max n m) (stream group).length, fun turns hle => ?_⟩
    obtain ⟨hnm, hturns⟩ := Nat.max_le.mp hle
    have hlong : ∀ s ∈ group, s.bytes.length ≤ turns := fun s hs =>
      Nat.le_trans (List.Sublist.length_le (List.sublist_flatten_of_mem
        (List.mem_map_of_mem hs))) hturns
    have hfirst := handlePdus_of_dispatch tempFd hrt
      (hn turns (Nat.le_trans (Nat.le_max_left n m) hnm))
      (List.forall₂_map_left_iff.mp hhanded) hlong
    have hmore : serve rt R tempFd turns chunks d = pure (printed tempFd groups, e) :=
      hm turns (Nat.le_trans (Nat.le_max_right n m) hnm)
    simp only [serve, hrecv, Throws.lift_some, pure_bind, hfirst, hmore, printed,
      List.flatMap_cons, List.append_assoc]
    rfl

-- ---------------------------------------------------------------------------
-- The two messages
-- ---------------------------------------------------------------------------

variable (rt) in
theorem loginMessage_sized : IMLoginReq.Sized rt loginMessage := ⟨by decide, Recorded.nil⟩

theorem length_loginMessage (hrt : rt.Documented) :
    (IMLoginReq.serializeWithCachedSizes rt loginMessage).length = 29 := by
  rw [IMLoginReq.length_serialize hrt loginMessage (by decide) (by decide) (by decide)]
  decide

theorem loginMessage_small (hrt : rt.Documented) :
    (IMLoginReq.serializeWithCachedSizes rt loginMessage).length < 2 ^ 31 := by
  rw [length_loginMessage hrt]
  decide

variable (rt) in
theorem textMessage_sized (time : UInt32) : IMMsgData.Sized rt (textMessage time) :=
  ⟨show (textMessage 0).members.msgData.length < 2 ^ 31 by decide,
    show (textMessage 0).members.attachData.length < 2 ^ 31 by decide, Recorded.nil⟩

theorem varintSize32_le (value : UInt32) : varintSize32 value ≤ 5 := by
  have hlog : Nat.log 2 value.toNat < 32 := Nat.log_lt_of_lt_pow' (by decide) value.toNat_lt
  rw [varintSize32_eq, Varint.length_encode]
  omega

theorem textMessage_small (hrt : rt.Documented) (time : UInt32) :
    (IMMsgData.serializeWithCachedSizes rt (textMessage time)).length < 2 ^ 31 := by
  have hsized := textMessage_sized rt time
  have hzero : IMMsgData.byteSizeLong (textMessage 0) < 100 := by decide
  have htime : (if time ≠ 0 then 1 + uint32Size time else 0) ≤ 6 := by
    have hle := varintSize32_le time
    unfold uint32Size
    split <;> omega
  have hsize : IMMsgData.byteSizeLong (textMessage time) =
      IMMsgData.byteSizeLong (textMessage 0) + if time ≠ 0 then 1 + uint32Size time else 0 :=
    Nat.add_right_comm _ _ _
  rw [IMMsgData.length_serialize hrt _ hsized.msgData hsized.attachData, hsize]
  omega

theorem short_nil (sent : List (Sent rt)) : Short [] (sent.map Sent.bytes) := by
  intro f hf
  obtain ⟨h, body, hpdu⟩ := units_of_sent sent f (List.mem_of_mem_head? hf)
  exact List.length_pos_iff.mpr hpdu.ne_nil

/-- However the bytes are cut, and wherever the connection ends, the server
answers each request that has come whole, in order, as soon as it has. -/
theorem recvMsg_answers (hrt : rt.Documented) (sent : List (Sent rt)) (chunks : List (List UInt8))
    (hstart : chunks.flatten <+: stream sent) (hchunks : ∀ chunk ∈ chunks, chunk.length ≤ 2048) :
    ∃ groups c, Prompt 0 sent chunks groups ∧
      Returns (fun turns => (recvMsg rt R tempFd turns chunks).run)
        (.ok (printed tempFd groups, c)) := by
  obtain ⟨later, hlater⟩ := hstart
  exact serve_sent R tempFd later hrt CSimpleBuffer.Holds.new hlater (short_nil sent) hchunks

def unknown : Sent reference where
  request := .other 5 []
  header := ⟨16, 1, 0, 7, 5, 0, 0⟩
  sized := ⟨by decide, by decide⟩
  small := by decide
  commandId := rfl
  length := rfl

def loggedIn : Sent reference where
  request := .login loginMessage
  header := ⟨45, 1, 0, 1, 259, 0, 0⟩
  sized := loginMessage_sized reference
  small := loginMessage_small reference_documented
  commandId := rfl
  length := congrArg (16 + ·) (length_loginMessage reference_documented).symm

def wrote : Sent reference where
  request := .msgData (textMessage 5)
  header := ⟨49, 1, 0, 3, 769, 1, 0⟩
  sized := textMessage_sized reference 5
  small := textMessage_small reference_documented 5
  commandId := rfl
  length := by
    rw [Request.data, IMMsgData.length_serialize reference_documented _
      (textMessage_sized reference 5).msgData (textMessage_sized reference 5).attachData]
    decide

/-- Each piece ends within the next unit, and the connection in the third. -/
theorem recvMsg_answers_three :
    let bytes := stream [loggedIn, wrote, unknown]
    let chunks := [bytes.take 40, (bytes.drop 40).take 50, (bytes.drop (40 + 50)).take 15]
    ∃ groups c, Prompt 0 [loggedIn, wrote, unknown] chunks groups ∧
      Returns (fun turns => (recvMsg reference zeroed 4 turns chunks).run)
        (.ok (printed 4 groups, c)) := by
  intro bytes chunks
  have hflat : chunks.flatten = bytes.take (40 + 50 + 15) := by
    rw [List.take_add, List.take_add, List.append_assoc]
    simp [chunks]
  have hshort : ∀ chunk ∈ chunks, chunk.length ≤ 2048 := by
    simp only [chunks, List.forall_mem_cons, List.length_take]
    refine ⟨?_, ?_, ?_, fun _ h => absurd h List.not_mem_nil⟩ <;> omega
  exact recvMsg_answers reference_documented _ chunks (hflat ▸ List.take_prefix _ _) hshort

end LearningCode.ImChat

/-!
## The client's session

`login_msg` is counted up once in a turn that logs in and twice in any other, so
it stays odd behind the first turn: the client logs in once. From then on it is
twice the number of turns, less one, and the text is sent when three divides it.
-/

namespace LearningCode.ImChat

open ImPdu Protobuf

variable {rt : Runtime} {R : Realloc} {length nSeqNo : UInt32} {serviceId commandId : UInt16}
  {data : List UInt8}

-- ---------------------------------------------------------------------------
-- The units
-- ---------------------------------------------------------------------------

variable (R length nSeqNo serviceId commandId) in
theorem sendPdu_spec (hdata : data.length < 2 ^ 31) :
    ∃ h, sendPdu R length data serviceId commandId nSeqNo = some (headerBytes h ++ data) ∧
      h.commandId = commandId ∧ h.seqNum = nSeqNo.toUInt16 ∧
      h.length.toNat = 16 + data.length := by
  obtain ⟨p, hp, -, hcarries⟩ :=
    setPBMsg_spec (R := R) (p := CImPdu.new length) ⟨data, hdata⟩ CSimpleBuffer.Holds.new
  obtain ⟨q, hq, hcarries, -⟩ := hcarries.set .serviceId serviceId
  obtain ⟨r, hr, hcarries, -⟩ := hcarries.set .commandId commandId
  obtain ⟨s, hs, hcarries, -⟩ := hcarries.set .seqNum nSeqNo.toUInt16
  have hsent := contents_of_holds hcarries.holds hcarries.isPdu.ne_nil
  have hlength := hcarries.isPdu.length
  rw [List.length_append, length_headerBytes] at hlength
  refine ⟨_, ?_, rfl, rfl, hlength⟩
  have hq : p.setServiceId serviceId = some q := hq
  have hr : q.setCommandId commandId = some r := hr
  have hs : r.setSeqNum nSeqNo.toUInt16 = some s := hs
  simp only [sendPdu, dif_pos hdata, hp, hq, hr, hs, Option.bind_eq_bind, Option.bind_some]
  exact hsent

variable (R length nSeqNo serviceId) in
theorem sendPdu_sent (request : Request) (hsized : request.Sized rt)
    (hsmall : (request.data rt).length < 2 ^ 31) :
    ∃ s : Sent rt, sendPdu R length (request.data rt) serviceId request.commandId nSeqNo =
        some s.bytes ∧ s.request = request ∧ s.header.seqNum = nSeqNo.toUInt16 := by
  obtain ⟨h, hsend, hcommand, hseq, hlength⟩ := sendPdu_spec R length nSeqNo serviceId
    request.commandId hsmall
  exact ⟨⟨request, h, hsized, hsmall, hcommand, hlength⟩, hsend, rfl, hseq⟩

-- ---------------------------------------------------------------------------
-- The turns
-- ---------------------------------------------------------------------------

def said : (i : Nat) → List Turn → List Request
  | _, [] => []
  | 0, _ :: ts => .login loginMessage :: said 1 ts
  | i + 1, t :: ts =>
    if 2 * (i + 1) % 2 ^ 32 % 3 = 0 then .msgData (textMessage t.time) :: said (i + 2) ts
    else said (i + 2) ts

/-- The client before its `i`-th turn, when it has sent `k` units. -/
def Client.at (i k : Nat) : Client := ⟨UInt32.ofNat (2 * i - 1), UInt32.ofNat k⟩

theorem turn_first (hrt : rt.Documented) (t : Turn) (k : Nat) :
    ∃ s : Sent rt, turn rt R (.at 0 k) t = some (some s.bytes, .at 1 (k + 1)) ∧
      s.request = .login loginMessage ∧ s.header.seqNum = UInt16.ofNat k := by
  obtain ⟨s, hsend, hrequest, hseq⟩ := sendPdu_sent R t.length
    (UInt32.ofNat k) sidLogin (.login loginMessage)
    (loginMessage_sized rt) (loginMessage_small hrt)
  refine ⟨s, ?_, hrequest, by simpa using hseq⟩
  have hsend : sendPdu R t.length (IMLoginReq.serializeWithCachedSizes rt loginMessage) sidLogin
      cidLoginReqUserlogin (UInt32.ofNat k) = some s.bytes := hsend
  have heven : UInt32.ofNat (2 * 0 - 1) % 2 = 0 := by decide
  simp only [turn, Client.at, heven, if_true, hsend, Option.bind_eq_bind, Option.bind_some]
  simp [UInt32.ofNat_add]

theorem turn_later (hrt : rt.Documented) (t : Turn) (i k : Nat) :
    if 2 * (i + 1) % 2 ^ 32 % 3 = 0 then
      ∃ s : Sent rt, turn rt R (.at (i + 1) k) t = some (some s.bytes, .at (i + 2) (k + 1)) ∧
        s.request = .msgData (textMessage t.time) ∧ s.header.seqNum = UInt16.ofNat k
    else turn rt R (.at (i + 1) k) t = some (none, .at (i + 2) k) := by
  have hodd : ¬UInt32.ofNat (2 * (i + 1) - 1) % 2 = 0 := by
    intro h
    have hnat := congrArg UInt32.toNat h
    simp only [UInt32.toNat_mod, UInt32.toNat_ofNat', UInt32.reduceToNat] at hnat
    omega
  have hnext : UInt32.ofNat (2 * (i + 1) - 1) + 1 = UInt32.ofNat (2 * (i + 1)) := by
    have heq : 2 * (i + 1) = 2 * (i + 1) - 1 + 1 := by omega
    rw [heq, UInt32.ofNat_add, ← heq]
    rfl
  have hthree : UInt32.ofNat (2 * (i + 1)) % 3 = 0 ↔ 2 * (i + 1) % 2 ^ 32 % 3 = 0 := by
    rw [← UInt32.toNat_inj, UInt32.toNat_mod, UInt32.toNat_ofNat']
    rfl
  have hafter : UInt32.ofNat (2 * (i + 1)) + 1 = UInt32.ofNat (2 * (i + 2) - 1) := by
    rw [show 2 * (i + 2) - 1 = 2 * (i + 1) + 1 by omega, UInt32.ofNat_add]
    rfl
  obtain ⟨s, hsend, hrequest, hseq⟩ := sendPdu_sent R t.length
    (UInt32.ofNat k) sidMsg (.msgData (textMessage t.time))
    (textMessage_sized rt t.time) (textMessage_small hrt t.time)
  have hsend : sendPdu R t.length (IMMsgData.serializeWithCachedSizes rt (textMessage t.time)) sidMsg
      cidMsgData (UInt32.ofNat k) = some s.bytes := hsend
  split
  next h =>
    refine ⟨s, ?_, hrequest, by simpa using hseq⟩
    simp only [turn, Client.at, hodd, if_false, hnext, hthree.mpr h, if_true, hsend, hafter,
      Option.bind_eq_bind, Option.bind_some]
    simp [UInt32.ofNat_add]
  next h =>
    simp only [turn, Client.at, hodd, if_false, hnext, mt hthree.mp h, hafter]
    rfl

def Numbered (k : Nat) (sent : List (Sent rt)) : Prop :=
  sent.map (·.header.seqNum) = (List.range' k sent.length).map UInt16.ofNat

theorem Numbered.cons {k : Nat} {s : Sent rt} {sent : List (Sent rt)}
    (hs : s.header.seqNum = UInt16.ofNat k) (h : Numbered (k + 1) sent) :
    Numbered k (s :: sent) := by
  unfold Numbered at *
  rw [List.map_cons, hs, h, List.length_cons, List.range'_succ, List.map_cons]

theorem run_spec (hrt : rt.Documented) (ts : List Turn) (i k : Nat) :
    ∃ sent : List (Sent rt), run rt R ts (.at i k) = some (sent.map Sent.bytes) ∧
      sent.map (·.request) = said i ts ∧ Numbered k sent := by
  induction ts generalizing i k with
  | nil => exact ⟨[], rfl, by cases i <;> rfl, rfl⟩
  | cons t ts ih =>
    cases i with
    | zero =>
      obtain ⟨s, hturn, hrequest, hseq⟩ := turn_first (R := R) hrt t k
      obtain ⟨sent, hrun, hsaid, hnumbered⟩ := ih 1 (k + 1)
      refine ⟨s :: sent, ?_, ?_, .cons hseq hnumbered⟩
      · simp only [run, hturn, hrun, Option.bind_eq_bind, Option.bind_some]
        rfl
      · rw [List.map_cons, hrequest, hsaid, said]
    | succ i =>
      have hstep := turn_later (R := R) hrt t i k
      by_cases hthree : 2 * (i + 1) % 2 ^ 32 % 3 = 0
      · rw [if_pos hthree] at hstep
        obtain ⟨s, hturn, hrequest, hseq⟩ := hstep
        obtain ⟨sent, hrun, hsaid, hnumbered⟩ := ih (i + 2) (k + 1)
        refine ⟨s :: sent, ?_, ?_, .cons hseq hnumbered⟩
        · simp only [run, hturn, hrun, Option.bind_eq_bind, Option.bind_some]
          rfl
        · rw [List.map_cons, hrequest, hsaid, said, if_pos hthree]
      · rw [if_neg hthree] at hstep
        obtain ⟨sent, hrun, hsaid, hnumbered⟩ := ih (i + 2) k
        refine ⟨sent, ?_, ?_, hnumbered⟩
        · simp only [run, hstep, hrun, Option.bind_eq_bind, Option.bind_some]
          rfl
        · rw [hsaid, said, if_neg hthree]

-- ---------------------------------------------------------------------------
-- What is shown
-- ---------------------------------------------------------------------------

def shown : Request → List UInt8
  | .login m => printLoginRequest m.members
  | .msgData m => printClientMsgData m.members
  | .other _ _ => []

theorem mem_said {request : Request} {ts : List Turn} {i : Nat} (h : request ∈ said i ts) :
    request = .login loginMessage ∨ ∃ time, request = .msgData (textMessage time) := by
  induction ts generalizing i with
  | nil => cases i <;> cases h
  | cons t ts ih =>
    cases i with
    | zero =>
      obtain rfl | h := List.mem_cons.mp h
      · exact .inl rfl
      · exact ih h
    | succ i =>
      rw [said] at h
      split at h
      · obtain rfl | h := List.mem_cons.mp h
        · exact .inr ⟨t.time, rfl⟩
        · exact ih h
      · exact ih h

theorem forall_of_all {v : List UInt8} (h : v.all (· < 128) = true) : ∀ b ∈ v, b < 128 :=
  fun b hb => of_decide_eq_true (List.all_eq_true.mp h b hb)

theorem answer_said {tempFd : Int32}
    (hascii : ∀ v, (∀ b ∈ v, b < 128) → rt.verifyUtf8String v = true) {request : Request}
    {ts : List Turn} {i : Nat} (h : request ∈ said i ts) :
    request.answer rt tempFd = shown request := by
  obtain rfl | ⟨time, rfl⟩ := mem_said h
  · have htext : ∀ v ∈ loginMessage.members.strings, Text rt v := by
      simp only [loginMessage, IMLoginReq.strings, List.forall_mem_cons]
      exact ⟨.inr (hascii _ (forall_of_all rfl)), .inr (hascii _ (forall_of_all rfl)),
        .inr (hascii _ (forall_of_all rfl)), by simp⟩
    exact if_pos htext
  · rfl

/-- The client logs in once, sends its text in the turns that three divides, and
the server shows just that, however the bytes arrive. -/
theorem session {R' : Realloc} {tempFd : Int32} (hrt : rt.Documented)
    (hascii : ∀ v, (∀ b ∈ v, b < 128) → rt.verifyUtf8String v = true) (ts : List Turn) :
    ∃ sent : List (Sent rt), start rt R ts = some (sent.map Sent.bytes) ∧
      sent.map (·.request) = said 0 ts ∧ Numbered 0 sent ∧
      (∀ s ∈ sent, s.answer tempFd = printPduLen tempFd s.header.length ++ shown s.request) ∧
      ∀ chunks, chunks.flatten = stream sent → (∀ chunk ∈ chunks, chunk.length ≤ 2048) →
        ∃ groups c, Prompt 0 sent chunks groups ∧ groups.flatten = sent ∧
          Returns (fun turns => (recvMsg rt R' tempFd turns chunks).run)
            (.ok (printed tempFd groups, c)) := by
  obtain ⟨sent, hrun, hsaid, hnumbered⟩ := run_spec (R := R) hrt ts 0 0
  refine ⟨sent, hrun, hsaid, hnumbered, fun s hs => ?_, fun chunks hflat hchunks => ?_⟩
  · have hmem : s.request ∈ said 0 ts := hsaid ▸ List.mem_map_of_mem hs
    rw [Sent.answer, answer_said hascii hmem]
  · obtain ⟨groups, c, hprompt, hrun⟩ := serve_sent R' tempFd [] hrt
      CSimpleBuffer.Holds.new (by simpa using hflat) (short_nil sent) hchunks
    exact ⟨groups, c, hprompt, hprompt.flatten hflat, hrun⟩

/-- Of four turns the first and the last send, and the bytes come one at a time. -/
theorem session_four :
    ∃ sent : List (Sent reference),
      start reference zeroed (List.replicate 4 ⟨5, 0⟩) = some (sent.map Sent.bytes) ∧
      sent.map (·.request) = [.login loginMessage, .msgData (textMessage 5)] ∧
      ∃ groups c, groups.flatten = sent ∧
        Returns (fun turns => (recvMsg reference zeroed 4 turns ((stream sent).map ([·]))).run)
          (.ok (printed 4 groups, c)) := by
  obtain ⟨sent, hstart, hsaid, -, -, hserve⟩ := @session reference zeroed zeroed 4
    reference_documented (fun v hv => List.all_eq_true.mpr (by simpa using hv))
    (List.replicate 4 ⟨5, 0⟩)
  obtain ⟨groups, c, -, hgroups, hrun⟩ := hserve ((stream sent).map ([·]))
    (by simp [← List.flatMap_def]) (by simp)
  exact ⟨sent, hstart, hsaid, groups, c, hgroups, hrun⟩

end LearningCode.ImChat
