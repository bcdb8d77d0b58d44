import Mathlib.Data.List.GetD
import LearningCode.WebSocket.Reactor

/-!
# The states of a connection

`handshake` fails on a text without the key, and the state is set to
`WS_TRANSMISSION` all the same; `accept_cb` leaves the state of the last connection.
Where neither happens, the record of a descriptor is in `WS_TRANSMISSION` only
after a handshake of its connection.
-/

namespace LearningCode.WebSocket

open Transition

variable {r r' : Reactor} {libs : Libraries} {ev ev' : Ntyevent} {line text data : List UInt8} {ret : Int}

-- ---------------------------------------------------------------------------
-- handshake
-- ---------------------------------------------------------------------------

theorem readline_some {rest : List UInt8} (h : readline text = (line, some rest)) :
    text = line ++ 13 :: 10 :: rest := by
  induction text generalizing line with
  | nil => cases h
  | cons c text ih =>
    cases text with
    | nil => cases h
    | cons c' text =>
      rw [readline] at h
      split_ifs at h with hend
      · obtain ⟨rfl, rfl⟩ := hend
        cases h
        rfl
      · cases hline : readline (c' :: text) with
        | mk line' rest' =>
          simp only [hline, Prod.mk.injEq] at h
          obtain ⟨rfl, rfl⟩ := h
          rw [ih hline]
          rfl

theorem readline_none (h : (readline text).2 = none) (a c : List UInt8) :
    text ≠ a ++ 13 :: 10 :: c := by
  induction text generalizing a with
  | nil => simp
  | cons x text ih =>
    intro heq
    cases text with
    | nil =>
      have hlen := congrArg List.length heq
      simp only [List.length_cons, List.length_nil, List.length_append] at hlen
      omega
    | cons y text =>
      rw [readline] at h
      split_ifs at h with hend
      cases a with
      | nil =>
        simp only [List.nil_append, List.cons.injEq] at heq
        exact hend ⟨heq.1, heq.2.1⟩
      | cons x' a => exact ih h a (List.cons.inj heq).2

theorem strstr_iff {key : List UInt8} : strstr line key = true ↔ ∃ a b, line = a ++ key ++ b := by
  simp only [strstr, List.any_eq_true, List.mem_tails, List.isPrefixOf_iff_prefix]
  constructor
  · rintro ⟨t, ⟨a, ha⟩, b, hb⟩
    exact ⟨a, b, by rw [← ha, ← hb, List.append_assoc]⟩
  · rintro ⟨a, b, h⟩
    exact ⟨key ++ b, ⟨a, by rw [h, List.append_assoc]⟩, b, rfl⟩

/-- What has neither of the bytes that end a line is not across two lines. -/
theorem infix_behind {key a t : List UInt8} (hcr : 13 ∉ key) (hlf : 10 ∉ key)
    (hline : ¬ strstr line key) (h : line ++ 13 :: 10 :: text = a ++ key ++ t) :
    ∃ a', text = a' ++ key ++ t := by
  rw [strstr_iff] at hline
  rcases List.append_eq_append_iff.mp h with ⟨d, hd, hrest⟩ | ⟨d, hd, -⟩
  · rcases List.append_eq_append_iff.mp hd with ⟨e, rfl, rfl⟩ | ⟨e, rfl, rfl⟩
    · cases d with
      | nil => exact absurd ⟨a, [], by simp⟩ hline
      | cons x d =>
        obtain rfl : 13 = x := (List.cons.inj hrest).1
        simp at hcr
    · cases key with
      | nil => exact absurd ⟨[], line, rfl⟩ hline
      | cons x key =>
        match e, hrest with
        | [], hrest =>
          obtain rfl : 13 = x := (List.cons.inj hrest).1
          simp at hcr
        | [_], hrest =>
          obtain rfl : 10 = x := (List.cons.inj (List.cons.inj hrest).2).1
          simp at hlf
        | _ :: _ :: e, hrest => exact ⟨e, (List.cons.inj (List.cons.inj hrest).2).2⟩
  · exact absurd ⟨a, d, hd⟩ hline

theorem keyed_behind (hline : ¬ strstr line (ascii "Sec-WebSocket-Key"))
    (h : Keyed (line ++ 13 :: 10 :: text)) : Keyed text := by
  obtain ⟨a, b, c, h⟩ := h
  rw [List.append_assoc (a ++ _) b] at h
  obtain ⟨a', h⟩ := infix_behind (by decide) (by decide) hline h
  exact ⟨a', b, c, by rw [h, List.append_assoc (a' ++ _) b]⟩

theorem findKey_some {fuel : Nat} (h : findKey fuel text = some (some line)) : Keyed text := by
  induction fuel generalizing text with
  | zero => cases h
  | succ fuel ih =>
    rcases hread : readline text with ⟨line', rest⟩
    cases rest with
    | none =>
      simp only [findKey, hread] at h
      split_ifs at h
      cases h
    | some rest =>
      simp only [findKey, hread] at h
      obtain rfl := readline_some hread
      split_ifs at h with _ hkey
      · obtain ⟨a, b, rfl⟩ := strstr_iff.mp hkey
        exact ⟨a, b, rest, rfl⟩
      · obtain ⟨a, b, c, rfl⟩ := ih h
        exact ⟨line' ++ 13 :: 10 :: a, b, c, by simp⟩

theorem findKey_none {fuel : Nat} (hfuel : text.length < fuel) (h : findKey fuel text = some none) :
    ¬ Keyed text := by
  induction fuel generalizing text with
  | zero => exact absurd hfuel (Nat.not_lt_zero _)
  | succ fuel ih =>
    rcases hread : readline text with ⟨line, rest⟩
    cases rest with
    | none =>
      rintro ⟨a, b, c, heq⟩
      exact readline_none (congrArg Prod.snd hread) _ _ heq
    | some rest =>
      simp only [findKey, hread] at h
      obtain rfl := readline_some hread
      split_ifs at h with _ hkey
      · cases h
      simp only [List.length_append, List.length_cons] at hfuel
      exact fun hkeyed => ih (by omega) h (keyed_behind hkey hkeyed)

theorem handshake_iff (h : handshake libs ev = some (ev', ret)) :
    ret = 0 ↔ Keyed (cString (contents ev.buffer 0 BUFFER_LENGTH)) := by
  simp only [handshake, Option.bind_eq_bind, Option.bind_eq_some_iff] at h
  obtain ⟨found, hfound, h⟩ := h
  cases found with
  | none =>
    simp only [Option.some.injEq, Prod.mk.injEq] at h
    obtain ⟨-, rfl⟩ := h
    simpa using findKey_none (Nat.lt_succ_self _) hfound
  | some line =>
    simp only at h
    split_ifs at h
    simp only [Option.some.injEq, Prod.mk.injEq] at h
    obtain ⟨-, rfl⟩ := h
    simpa using findKey_some hfound

theorem cString_load (h : data.length < BUFFER_LENGTH) :
    cString (contents (load data) 0 BUFFER_LENGTH) = cString data := by
  have hpad : contents (load data) 0 BUFFER_LENGTH =
      data ++ List.replicate (BUFFER_LENGTH - data.length) 0 := by
    refine List.ext_getElem (by simp [contents]; omega) fun i _ hi => ?_
    simp only [contents, List.getElem_map, List.getElem_range, Nat.zero_add, load,
      List.getElem_append, List.getElem_replicate]
    split_ifs with hlt
    · exact List.getD_eq_getElem _ _ hlt
    · exact List.getD_eq_default _ _ (by omega)
  rw [hpad, cString, cString, List.takeWhile_append]
  split_ifs with hall
  · rw [(List.takeWhile_prefix _).eq_of_length hall]
    simp
  · rfl

-- ---------------------------------------------------------------------------
-- The callbacks
-- ---------------------------------------------------------------------------

@[simp] theorem event_close (fd : Int) : (r.close fd).event = r.event := rfl
@[simp] theorem log_close (fd : Int) : (r.close fd).log = r.log := rfl
@[simp] theorem event_put (fd : Int) : (r.put fd ev).event = Function.update r.event fd ev := rfl
@[simp] theorem log_put (fd : Int) : (r.put fd ev).log = r.log := rfl

theorem ntyEventAdd_frame (r : Reactor) (ev : Ntyevent) (events : Nat) :
    (ntyEventAdd r ev events).1.event = r.event ∧ (ntyEventAdd r ev events).1.log = r.log ∧
      (ntyEventAdd r ev events).2.fd = ev.fd ∧
      (ntyEventAdd r ev events).2.stateMachine = ev.stateMachine := by
  unfold ntyEventAdd
  split <;> exact ⟨rfl, rfl, rfl, rfl⟩

theorem ntyEventDel_frame (r : Reactor) (ev : Ntyevent) :
    (ntyEventDel r ev).1.event = r.event ∧ (ntyEventDel r ev).1.log = r.log ∧
      (ntyEventDel r ev).2.fd = ev.fd ∧ (ntyEventDel r ev).2.buffer = ev.buffer ∧
      (ntyEventDel r ev).2.stateMachine = ev.stateMachine := by
  unfold ntyEventDel
  split <;> exact ⟨rfl, rfl, rfl, rfl, rfl⟩

structure Inv (r : Reactor) : Prop where
  own : ∀ fd, (r.event fd).callback ≠ .none → (r.event fd).fd = fd
  shaken : ∀ fd, (r.event fd).stateMachine = .WS_TRANSMISSION → Shaken fd r.log
  proper : Proper r.log

theorem Inv.put (h : Inv r) {fd : Int} (hfd : ev.fd = fd)
    (hev : ev.stateMachine = .WS_TRANSMISSION → Shaken fd r.log) : Inv (r.put fd ev) := by
  refine ⟨fun fd' hcb => ?_, fun fd' hstate => ?_, h.proper⟩
  · rw [event_put] at hcb ⊢
    rcases eq_or_ne fd' fd with rfl | hne
    · rwa [Function.update_self]
    · rw [Function.update_of_ne hne] at hcb ⊢
      exact h.own fd' hcb
  · rw [event_put] at hstate
    rcases eq_or_ne fd' fd with rfl | hne
    · rw [Function.update_self] at hstate
      exact hev hstate
    · rw [Function.update_of_ne hne] at hstate
      exact h.shaken fd' hstate

theorem Inv.congr (h : Inv r) (hevent : r'.event = r.event) (hlog : r'.log = r.log) : Inv r' := by
  obtain ⟨hown, hshaken, hproper⟩ := h
  exact ⟨hevent ▸ hown, by rwa [hevent, hlog], hlog ▸ hproper⟩

theorem Inv.frame (h : Inv r) {fd : Int} (hfd : Shaken fd r.log) : Inv (r.record (.frame fd)) :=
  ⟨h.own, h.shaken, hfd, h.proper⟩

theorem Inv.handshake (h : Inv r) (fd ret : Int) : Inv (r.record (.handshake fd ret)) :=
  ⟨h.own, fun fd' hstate => .inr (h.shaken fd' hstate), h.proper⟩

theorem Inv.accepted (h : Inv r) {fd : Int} (hstate : (r.event fd).stateMachine = .WS_HANDSHAKE) :
    Inv (r.record (.accepted fd .WS_HANDSHAKE)) := by
  refine ⟨h.own, fun fd' htrans => ⟨?_, h.shaken fd' htrans⟩, rfl, h.proper⟩
  rintro rfl
  rw [show (r.record _).event = r.event from rfl, hstate] at htrans
  cases htrans

/-- One case for each state; only a handshake that returned 0 leads to `WS_TRANSMISSION`. -/
theorem Inv.websocketRequest (h : Inv r) {entry : Option Entry} {closed : Bool}
    (hreq : websocketRequest libs ev = some (ev', entry, closed))
    (hstate : ev.stateMachine = (r.event ev.fd).stateMachine)
    (hkeyed : ev.stateMachine = .WS_HANDSHAKE →
      Keyed (cString (contents ev.buffer 0 BUFFER_LENGTH))) :
    Inv (r.recordIf entry) ∧
      (ev'.stateMachine = .WS_TRANSMISSION → Shaken ev.fd (r.recordIf entry).log) := by
  cases hs : ev.stateMachine with
  | WS_HANDSHAKE =>
    simp only [WebSocket.websocketRequest, hs, Option.bind_eq_bind, Option.bind_eq_some_iff,
      Option.some.injEq, Prod.mk.injEq] at hreq
    obtain ⟨⟨ev₁, ret⟩, hshake, -, rfl, -⟩ := hreq
    have hret : ret = 0 := (handshake_iff hshake).mpr (hkeyed hs)
    exact ⟨h.handshake _ _, fun _ => .inl ⟨rfl, hret⟩⟩
  | WS_TRANSMISSION =>
    simp only [WebSocket.websocketRequest, hs, Option.bind_eq_bind, Option.bind_eq_some_iff,
      Option.some.injEq, Prod.mk.injEq] at hreq
    obtain ⟨-, -, -, rfl, -⟩ := hreq
    have hshaken : Shaken ev.fd r.log := h.shaken _ (hstate ▸ hs)
    exact ⟨h.frame hshaken, fun _ => hshaken⟩
  | WS_END =>
    simp only [WebSocket.websocketRequest, hs, Option.some.injEq, Prod.mk.injEq] at hreq
    obtain ⟨rfl, rfl, -⟩ := hreq
    refine ⟨h, fun htrans => ?_⟩
    rw [hs] at htrans
    cases htrans

theorem Inv.recvCb (h : Inv r) {fd : Int} (hcb : (r.event fd).callback = .recvCb)
    (hlen : data.length < BUFFER_LENGTH)
    (hkeyed : (r.event fd).stateMachine = .WS_HANDSHAKE → data ≠ [] → Keyed (cString data))
    (hrecv : recvCb libs r fd data = some r') : Inv r' := by
  have hfd : (r.event fd).fd = fd := h.own fd (by rw [hcb]; nofun)
  obtain ⟨hevent, hlog, hdelfd, hbuffer, hdelstate⟩ :=
    ntyEventDel_frame r { r.event fd with buffer := load data }
  have hinv := h.congr hevent hlog
  simp only [WebSocket.recvCb] at hrecv
  generalize hdel : ntyEventDel r { r.event fd with buffer := load data } = del at *
  obtain ⟨r₁, ev₁⟩ := del
  simp only at *
  rw [hfd] at hdelfd
  split_ifs at hrecv with hpos
  · simp only [Option.bind_eq_bind, Option.bind_eq_some_iff, Option.some.injEq] at hrecv
    obtain ⟨⟨ev₂, entry, closed⟩, hreq, rfl⟩ := hrecv
    have hstate : ev₁.stateMachine = (r₁.event ev₁.fd).stateMachine := by
      rw [hdelstate, hevent, hdelfd]
    have htext : ev₁.stateMachine = .WS_HANDSHAKE →
        Keyed (cString (contents ev₁.buffer 0 BUFFER_LENGTH)) := by
      intro hs
      rw [hbuffer, cString_load hlen]
      exact hkeyed (hdelstate ▸ hs) (List.ne_nil_of_length_pos hpos)
    obtain ⟨hrecord, htrans⟩ := hinv.websocketRequest hreq hstate htext
    rw [hdelfd] at htrans
    have hclosed : Inv (if closed then (r₁.recordIf entry).close ev₂.fd else r₁.recordIf entry) ∧
        (if closed then (r₁.recordIf entry).close ev₂.fd else r₁.recordIf entry).log =
          (r₁.recordIf entry).log := by
      cases closed
      · exact ⟨hrecord, rfl⟩
      · exact ⟨hrecord.congr rfl rfl, rfl⟩
    obtain ⟨hclosed, hsame⟩ := hclosed
    obtain ⟨haddevent, haddlog, haddfd, haddstate⟩ := ntyEventAdd_frame
      (if closed then (r₁.recordIf entry).close ev₂.fd else r₁.recordIf entry)
      (ntyEventSet ev₂ fd .sendCb) EPOLLOUT
    refine (hclosed.congr haddevent haddlog).put haddfd fun hs => ?_
    rw [haddlog, hsame]
    exact htrans (haddstate ▸ hs)
  · simp only [Option.some.injEq] at hrecv
    subst hrecv
    refine Inv.congr (r := r₁.put fd ev₁) (hinv.put hdelfd fun hs => ?_) rfl rfl
    exact hinv.shaken fd (by rw [hevent, ← hdelstate, hs])

theorem Inv.sendCb (h : Inv r) {fd len : Int} (hcb : (r.event fd).callback = .sendCb) :
    Inv (sendCb r fd len) := by
  have hfd : (r.event fd).fd = fd := h.own fd (by rw [hcb]; nofun)
  obtain ⟨hevent, hlog, hdelfd, -, hdelstate⟩ := ntyEventDel_frame r (r.event fd)
  have hinv := h.congr hevent hlog
  simp only [WebSocket.sendCb]
  generalize hdel : ntyEventDel r (r.event fd) = del at *
  obtain ⟨r₁, ev₁⟩ := del
  simp only at *
  have hshaken (hs : ev₁.stateMachine = .WS_TRANSMISSION) : Shaken fd r₁.log :=
    hinv.shaken fd (by rw [hevent, ← hdelstate, hs])
  split_ifs
  · obtain ⟨haddevent, haddlog, haddfd, haddstate⟩ :=
      ntyEventAdd_frame r₁ (ntyEventSet ev₁ fd .recvCb) EPOLLIN
    refine (hinv.congr haddevent haddlog).put haddfd fun hs => ?_
    rw [haddlog]
    exact hshaken (haddstate ▸ hs)
  · exact Inv.congr (hinv.put (hdelfd.trans hfd) hshaken) rfl rfl

theorem Inv.acceptCb (h : Inv r) {fd : Int} (nonblocking : Bool)
    (hstate : (r.event fd).stateMachine = .WS_HANDSHAKE) : Inv (acceptCb r fd nonblocking) := by
  cases nonblocking with
  | false => exact h.congr rfl rfl
  | true =>
    obtain ⟨haddevent, haddlog, haddfd, haddstate⟩ := ntyEventAdd_frame
      { r with opened := Function.update r.opened fd true }
      { ntyEventSet (r.event fd) fd .recvCb with status := 0 } EPOLLIN
    have hnew := haddstate.trans hstate
    simp only [WebSocket.acceptCb, if_true]
    rw [hnew]
    refine Inv.accepted ((h.congr haddevent haddlog).put haddfd fun hs => ?_) ?_
    · rw [hnew] at hs
      cases hs
    · exact (congrArg Ntyevent.stateMachine (Function.update_self ..)).trans hnew

theorem Inv.step (h : Inv r) {i : Action} (hg : Unspoilt r i) (hstep : step libs r i = some r') :
    Inv r' := by
  cases i with
  | accept fd nonblocking =>
    simp only [WebSocket.step, Option.ite_none_left_eq_some, Option.some.injEq] at hstep
    obtain ⟨-, rfl⟩ := hstep
    exact h.acceptCb nonblocking hg
  | recv fd data =>
    simp only [WebSocket.step, Option.ite_none_right_eq_some] at hstep
    obtain ⟨⟨-, -, hcb, hlen⟩, hrecv⟩ := hstep
    exact h.recvCb hcb hlen hg hrecv
  | send fd len =>
    simp only [WebSocket.step, Option.ite_none_right_eq_some, Option.some.injEq] at hstep
    obtain ⟨⟨-, -, hcb⟩, rfl⟩ := hstep
    exact h.sendCb hcb

/-- While `accept` finds only fresh records and every connection begins with its
key, a buffer is a frame only after the handshake. -/
theorem frames_after_handshake (h : Reach (reactor libs) Unspoilt r) : Proper r.log := by
  suffices hinv : Inv r from hinv.proper
  refine h.invariant (P := Inv) ?_ fun r i r' hr hg hstep => hr.step hg hstep
  rintro r ⟨hzero, -, hlog⟩
  refine ⟨fun fd hcb => ?_, fun fd hs => ?_, hlog ▸ trivial⟩
  · rw [hzero] at hcb
    exact absurd rfl hcb
  · rw [hzero] at hs
    cases hs

-- ---------------------------------------------------------------------------
-- Two runs
-- ---------------------------------------------------------------------------

theorem step_first {fd : Int} (hready : r.watched fd ∧ (r.event fd).events = EPOLLIN ∧
      (r.event fd).callback = .recvCb ∧ data.length < BUFFER_LENGTH) (hne : data ≠ [])
    (hstate : (ntyEventDel r { r.event fd with buffer := load data }).2.stateMachine = .WS_HANDSHAKE)
    (hshake : handshake libs { (ntyEventDel r { r.event fd with buffer := load data }).2 with
      length := data.length } = some (ev, ret)) :
    step libs r (.recv fd data) =
      let del := ntyEventDel r { r.event fd with buffer := load data }
      let add := ntyEventAdd (del.1.record (.handshake del.2.fd ret))
        (ntyEventSet { ev with stateMachine := .WS_TRANSMISSION } fd .sendCb) EPOLLOUT
      some (add.1.put fd add.2) := by
  rw [step, if_pos hready, recvCb]
  generalize ntyEventDel r { r.event fd with buffer := load data } = del at *
  obtain ⟨r₁, ev₁⟩ := del
  simp only at *
  rw [hstate] at hshake
  rw [if_pos (List.length_pos_of_ne_nil hne), websocketRequest, hstate]
  simp only [hshake]
  rfl

theorem transmission_short (ev : Ntyevent) (hlen : payloadLen ev.buffer < 126) :
    ∃ ev' closed, transmission ev = some (ev', closed) := by
  have hnonneg : ∃ n : Nat, (decodePacket ev).realLen = n := by
    unfold decodePacket
    simp only [hlen, if_true]
    split
    · exact ⟨0, rfl⟩
    · exact ⟨_, rfl⟩
  obtain ⟨n, hn⟩ := hnonneg
  simp only [transmission, encodePacket, hn]
  rw [if_neg (by omega)]
  exact ⟨_, _, rfl⟩

theorem reach_frame {guard : Reactor → Action → Prop} (h : Reach (reactor libs) guard r) (fd : Int)
    (hready : r.watched fd ∧ (r.event fd).events = EPOLLIN ∧ (r.event fd).callback = .recvCb ∧
      data.length < BUFFER_LENGTH) (hne : data ≠ [])
    (hstate : (r.event fd).stateMachine = .WS_TRANSMISSION) (hlen : payloadLen (load data) < 126)
    (hguard : guard r (.recv fd data)) :
    ∃ r', Reach (reactor libs) guard r' ∧ r'.log = .frame (r.event fd).fd :: r.log := by
  suffices hstep : ∃ r', step libs r (.recv fd data) = some r' ∧
      r'.log = .frame (r.event fd).fd :: r.log by
    obtain ⟨r', hstep, hlog⟩ := hstep
    exact ⟨r', h.step hguard hstep, hlog⟩
  rw [step, if_pos hready, recvCb]
  obtain ⟨-, hlog, hdelfd, hbuffer, hdelstate⟩ :=
    ntyEventDel_frame r { r.event fd with buffer := load data }
  generalize ntyEventDel r { r.event fd with buffer := load data } = del at *
  obtain ⟨r₁, ev₁⟩ := del
  simp only at *
  obtain ⟨ev₂, closed, htrans⟩ := transmission_short { ev₁ with length := data.length } (by
    rwa [hbuffer])
  rw [if_pos (List.length_pos_of_ne_nil hne), websocketRequest, hdelstate, hstate]
  rw [hdelstate, hstate] at htrans
  simp only [htrans]
  refine ⟨_, rfl, ?_⟩
  rw [log_put, (ntyEventAdd_frame _ _ _).2.1, ← hlog, ← hdelfd]
  cases closed <;> rfl

def request : List UInt8 :=
  ascii "GET / HTTP/1.1\r\nSec-WebSocket-Key: dGhlIHNhbXBsZSBub25jZQ==\r\n\r\n"

/-- OpenSSL on the key of the request and `GUID`. The key is short enough for the
`strcpy` of glibc to copy it right. -/
def libraries : Libraries where
  SHA1 _ := [179, 122, 79, 44, 192, 98, 79, 22, 144, 246, 70, 6, 207, 56, 89, 69, 178, 190, 196, 234]
  base64Encode _ := ascii "s3pPLMBiTxaQ9kYGzzhZRbK+xOo="
  strcpyOverlap line off := line.drop off

theorem frames_after_handshake_keyed : ∃ r : Reactor,
    r.log = [.frame 5, .handshake 5 0, .accepted 5 .WS_HANDSHAKE] ∧ Proper r.log := by
  have h0 : Reach (reactor libraries) Unspoilt ⟨fun _ => zeroed, fun _ => false, fun _ => false, []⟩ :=
    .init ⟨fun _ => rfl, fun _ => rfl, rfl⟩
  have h1 := h0.step (i := Action.accept 5 true) rfl rfl
  have hkeyed : Keyed (cString request) :=
    ⟨ascii "GET / HTTP/1.1\r\n", ascii ": dGhlIHNhbXBsZSBub25jZQ==", ascii "\r\n", by decide⟩
  let reply := response (ascii "s3pPLMBiTxaQ9kYGzzhZRbK+xOo=")
  have hshake (ev : Ntyevent) (hbuffer : ev.buffer = load request) : handshake libraries ev =
      some ({ ev with buffer := load reply, length := reply.length }, 0) := by
    rw [handshake, hbuffer, cString_load (by decide)]
    rfl
  have h2 := h1.step (i := Action.recv 5 request) (fun _ _ => hkeyed)
    (step_first ⟨rfl, rfl, rfl, by decide⟩ (by decide) rfl (hshake _ rfl))
  have h3 := h2.step (i := Action.send 5 1) trivial rfl
  have hshort : payloadLen (load (ascii "a")) < 126 := by decide
  obtain ⟨r₄, h4, hlog⟩ := reach_frame h3 5 ⟨rfl, rfl, rfl, by decide⟩ (by decide) rfl hshort nofun
  exact ⟨r₄, hlog, frames_after_handshake h4⟩

/-- A request without a key, and then a frame. -/
theorem frame_without_handshake : ¬ ∀ r, Reach (reactor libraries) free r → Proper r.log := by
  intro h
  have h0 : Reach (reactor libraries) free ⟨fun _ => zeroed, fun _ => false, fun _ => false, []⟩ :=
    .init ⟨fun _ => rfl, fun _ => rfl, rfl⟩
  have h1 := h0.step (i := Action.accept 5 true) trivial rfl
  have hshake (ev : Ntyevent) (hbuffer : ev.buffer = load (ascii "a")) :
      handshake libraries ev = some (ev, -1) := by
    rw [handshake, hbuffer, cString_load (by decide)]
    rfl
  have h2 := h1.step (i := Action.recv 5 (ascii "a")) trivial
    (step_first ⟨rfl, rfl, rfl, by decide⟩ (by decide) rfl (hshake _ rfl))
  have h3 := h2.step (i := Action.send 5 1) trivial rfl
  have hshort : payloadLen (load (ascii "a")) < 126 := by decide
  obtain ⟨r₄, h4, hlog⟩ := reach_frame h3 5 ⟨rfl, rfl, rfl, by decide⟩ (by decide) rfl hshort trivial
  have hproper : Proper [.frame 5, .handshake 5 (-1), .accepted 5 .WS_HANDSHAKE] := hlog ▸ h _ h4
  simp [Proper, Shaken] at hproper

end LearningCode.WebSocket
