import LearningCode.HttpServer.Model
import LearningCode.WebSocket.Echo

/-!
# What an answer depends on

A request overwrites what its answer reads, or leaves some of it to the requests
before: the path if its line has no `GET`, the type if the suffix is unknown. The
first have an answer of their own, the others that of the history, for which the
two shortest are enough.
-/

namespace LearningCode.HttpServer

open Transition (Reach free)
open WebSocket (Buffer BUFFER_LENGTH EPOLLIN EPOLLOUT ascii cString contents load readline strstr
  contents_add contents_congr)

variable {r r' : Reactor} {ev ev' : Ntyevent} {fd : Nat} {data line u old : List UInt8}
  {files : FileSystem}

/-- The requests of two histories get the same answer, if their last bytes are these. -/
def Isolated (fd : Nat) (data : List UInt8) : Prop :=
  ∀ (files : FileSystem) (r r' : Reactor), Reach reactor free r → r.Reads fd →
    Reach reactor free r' → r'.Reads fd →
    ∃ a, respond files r fd data = some a ∧ respond files r' fd data = some a

def Known (u : List UInt8) : Prop :=
  46 ∈ u → suffix u ∈ [ascii "html", ascii "css", ascii "jpg", ascii "png", ascii "ico"]

/-- The request line fits, it is one of `GET`, and its URI ends and has a type. -/
def Clean (line : List UInt8) : Prop :=
  line.length < 1024 ∧ strstr line (ascii "GET") = true ∧ ∃ u, uri line = some u ∧ Known u

-- ---------------------------------------------------------------------------
-- the request
-- ---------------------------------------------------------------------------

theorem requestLine_receive (b : Buffer) (h : data.length ≤ BUFFER_LENGTH) :
    requestLine (receive b data) = (readline (cString data)).1 := by
  obtain ⟨k, hk⟩ := Nat.exists_eq_add_of_le h
  have hdata : contents (receive b data) 0 data.length = data := by
    refine List.ext_getElem (by simp [contents]) fun i _ hi => ?_
    simp [contents, receive, hi]
  have hcut : cString (contents (receive b data) 0 BUFFER_LENGTH) = cString data := by
    rw [hk, contents_add, hdata, cString, cString, List.takeWhile_append]
    split_ifs with hall
    · rw [(List.takeWhile_prefix _).eq_of_length hall]
      cases k with
      | zero => simp [contents]
      | succ k => rw [WebSocket.contents_succ]; simp [receive]
    · rfl
  rw [requestLine, hcut]

theorem contentType_known (h : Known u) (old old' : List UInt8) :
    contentType u old = contentType u old' := by
  by_cases hdot : 46 ∈ u
  · have htype := h hdot
    simp only [List.mem_cons, List.not_mem_nil, or_false] at htype
    simp only [contentType, if_pos hdot]
    by_cases htext : suffix u = ascii "html" ∨ suffix u = ascii "css"
    · rw [if_pos htext, if_pos htext]
    · have himage := (or_assoc.mpr htype).resolve_left htext
      rw [if_neg htext, if_neg htext, if_pos himage, if_pos himage]
  · simp only [contentType, if_neg hdot]

theorem contentType_unknown (h : ¬ Known u) (old : List UInt8) : contentType u old = old := by
  obtain ⟨hdot, hsuffix⟩ := Classical.not_imp.mp h
  simp only [List.mem_cons, List.not_mem_nil, or_false, not_or] at hsuffix
  obtain ⟨hhtml, hcss, hjpg, hpng, hico⟩ := hsuffix
  rw [contentType, if_pos hdot, if_neg (not_or.mpr ⟨hhtml, hcss⟩),
    if_neg (not_or.mpr ⟨hjpg, not_or.mpr ⟨hpng, hico⟩⟩)]

theorem httpRequest_get (ev : Ntyevent) (hline : requestLine ev.buffer = line) (hfit : line.length < 1024)
    (hget : strstr line (ascii "GET") = true) (hu : uri line = some u) :
    httpRequest ev = some { ev with
      method := HTTP_METHOD_GET
      resource := ascii "./html/" ++ u
      contentType := contentType u ev.contentType } := by
  simp only [httpRequest, hline, hget, hu]
  rw [if_neg (by omega)]
  rfl

theorem httpRequest_other (hline : requestLine ev.buffer = line) (hfit : line.length < 1024)
    (hget : ¬ strstr line (ascii "GET") = true) : httpRequest ev = some ev := by
  simp only [httpRequest, hline]
  rw [if_neg (by omega), if_neg hget]

-- ---------------------------------------------------------------------------
-- the answer
-- ---------------------------------------------------------------------------

theorem answer_congr (hres : ev.resource = ev'.resource) (htype : ev.contentType = ev'.contentType)
    (hlen : ev.length = ev'.length) : answer files ev = answer files ev' := by
  unfold answer httpResponse
  rw [hres, htype]
  cases files ev'.resource with
  | none => rfl
  | some file =>
    cases file with
    | directory => rfl
    | regular size => rfl
    | other => simp only [hlen]

theorem httpResponse_fields (files : FileSystem) (ev : Ntyevent) :
    (httpResponse files ev).status = ev.status ∧
      (httpResponse files ev).resource = ev.resource ∧
      (httpResponse files ev).contentType = ev.contentType := by
  unfold httpResponse
  split <;> exact ⟨rfl, rfl, rfl⟩

theorem ntyEventDel_fields (r : Reactor) (ev : Ntyevent) :
    (ntyEventDel r ev).2.resource = ev.resource ∧
      (ntyEventDel r ev).2.contentType = ev.contentType ∧
      (ntyEventDel r ev).2.buffer = ev.buffer := by
  unfold ntyEventDel
  split_ifs <;> exact ⟨rfl, rfl, rfl⟩

theorem ntyEventAdd_fields (r : Reactor) (ev : Ntyevent) (events : Nat) :
    (ntyEventAdd r ev events).2.resource = ev.resource ∧
      (ntyEventAdd r ev events).2.contentType = ev.contentType ∧
      (ntyEventAdd r ev events).2.length = ev.length := by
  unfold ntyEventAdd
  split_ifs <;> exact ⟨rfl, rfl, rfl⟩

/-- `nty_event_set` and `nty_event_add`. -/
def register (r : Reactor) (ev : Ntyevent) (fd events : Nat) (callback : Callback) : Reactor :=
  (ntyEventAdd r (ntyEventSet ev fd callback) events).1.put fd
    (ntyEventAdd r (ntyEventSet ev fd callback) events).2

theorem recvCb_eq (hne : data ≠ []) : recvCb r fd data =
    (httpRequest (received (ntyEventDel r (r.event fd)).2 data)).map fun ev =>
      register (ntyEventDel r (r.event fd)).1 ev fd EPOLLOUT .sendCb := by
  have hpos : data.length > 0 := List.length_pos_of_ne_nil hne
  simp only [recvCb, if_pos hpos]
  cases httpRequest (received (ntyEventDel r (r.event fd)).2 data) <;> rfl

theorem sendCb_eq {resHeadLen : Int} (h : resHeadLen > 0) : sendCb files r fd resHeadLen =
    register (ntyEventDel r (httpResponse files (r.event fd))).1
      (ntyEventDel r (httpResponse files (r.event fd))).2 fd EPOLLIN .recvCb := by
  simp only [sendCb, if_pos h]
  rfl

theorem event_of_step {i : Action} (hi : fd ≠ i.fd) (h : step r i = some r') :
    r'.event fd = r.event fd := by
  have hadd (r : Reactor) (ev : Ntyevent) (events : Nat) :
      (ntyEventAdd r ev events).1.event = r.event := by unfold ntyEventAdd; split_ifs <;> rfl
  have hdel (r : Reactor) (ev : Ntyevent) : (ntyEventDel r ev).1.event = r.event := by
    unfold ntyEventDel; split_ifs <;> rfl
  have hput (r : Reactor) (ev : Ntyevent) : (r.put i.fd ev).event fd = r.event fd :=
    Function.update_of_ne hi ..
  cases i with
  | accept clientfd nonblocking =>
    simp only [step] at h
    split_ifs at h
    obtain rfl := Option.some.inj h
    unfold acceptCb
    split_ifs
    · exact (hput _ _).trans (congrFun (hadd _ _ _) fd)
    · rfl
  | recv fd' data =>
    simp only [step] at h
    split_ifs at h
    by_cases hne : data = []
    · simp only [recvCb, hne, List.length_nil, gt_iff_lt, lt_self_iff_false, if_false] at h
      obtain rfl := Option.some.inj h
      exact (hput _ _).trans (congrFun (hdel _ _) fd)
    · rw [recvCb_eq hne] at h
      obtain ⟨ev, -, rfl⟩ := Option.map_eq_some_iff.mp h
      exact (hput _ _).trans ((congrFun (hadd _ _ _) fd).trans (congrFun (hdel _ _) fd))
  | send fd' files resHeadLen =>
    simp only [step] at h
    split_ifs at h
    obtain rfl := Option.some.inj h
    by_cases hpos : resHeadLen > 0
    · rw [sendCb_eq hpos]
      exact (hput _ _).trans ((congrFun (hadd _ _ _) fd).trans (congrFun (hdel _ _) fd))
    · simp only [sendCb, if_neg hpos]
      exact (hput _ _).trans (congrFun (hdel _ _) fd)

theorem respond_some (hne : data ≠ [])
    (h : httpRequest (received (ntyEventDel r (r.event fd)).2 data) = some ev) :
    respond files r fd data = some (answer files ev) := by
  obtain ⟨hres, htype, hlength⟩ := ntyEventAdd_fields (ntyEventDel r (r.event fd)).1
    (ntyEventSet ev fd .sendCb) EPOLLOUT
  have hput (s : Reactor) (ev : Ntyevent) : (s.put fd ev).event fd = ev := Function.update_self ..
  rw [respond, recvCb_eq hne, h]
  simp only [Option.map_some, Option.bind_eq_bind, Option.bind_some, register, hput]
  exact congrArg some (answer_congr hres htype hlength)

theorem respond_none (hne : data ≠ [])
    (h : httpRequest (received (ntyEventDel r (r.event fd)).2 data) = none) :
    respond files r fd data = none := by
  rw [respond, recvCb_eq hne, h]
  rfl

-- ---------------------------------------------------------------------------
-- histories
-- ---------------------------------------------------------------------------

structure Registered (r : Reactor) (fd events : Nat) (callback : Callback) : Prop where
  opened : r.opened fd = true
  watched : r.watched fd = true
  own : (r.event fd).fd = fd
  status : (r.event fd).status = 1
  events : (r.event fd).events = events
  callback : (r.event fd).callback = callback

theorem Registered.reads (h : Registered r fd EPOLLIN .recvCb) : r.Reads fd :=
  ⟨h.watched, h.events, h.callback⟩

theorem Registered.writes (h : Registered r fd EPOLLOUT .sendCb) : r.Writes fd :=
  ⟨h.watched, h.events, h.callback⟩

theorem registered_register (events : Nat) (callback : Callback) (hopened : r.opened fd = true)
    (hstatus : ev.status = 0) : Registered (register r ev fd events callback) fd events callback ∧
      ((register r ev fd events callback).event fd).resource = ev.resource ∧
      ((register r ev fd events callback).event fd).contentType = ev.contentType := by
  have hadd : ¬ (ntyEventSet ev fd callback).status = 1 := by simp [ntyEventSet, hstatus]
  simp only [register, ntyEventAdd, if_neg hadd]
  refine ⟨⟨?_, ?_, ?_, ?_, ?_, ?_⟩, ?_, ?_⟩ <;> simp [Reactor.put, ntyEventSet, hopened]

theorem ntyEventDel_registered (hstatus : ev.status = 1) :
    (ntyEventDel r ev).1.opened = r.opened ∧ (ntyEventDel r ev).2.status = 0 := by
  rw [ntyEventDel, if_neg (by simp [hstatus])]
  exact ⟨rfl, rfl⟩

theorem step_recv (hreg : Registered r fd EPOLLIN .recvCb) (hne : data ≠ [])
    (hlen : data.length ≤ BUFFER_LENGTH)
    (hreq : httpRequest (received (ntyEventDel r (r.event fd)).2 data) = some ev)
    (hstatus : ev.status = (ntyEventDel r (r.event fd)).2.status) :
    ∃ r', step r (.recv fd data) = some r' ∧ Registered r' fd EPOLLOUT .sendCb ∧
      (r'.event fd).resource = ev.resource ∧ (r'.event fd).contentType = ev.contentType := by
  obtain ⟨hopened, hzero⟩ := ntyEventDel_registered (r := r) hreg.status
  refine ⟨_, ?_, registered_register EPOLLOUT .sendCb (hopened ▸ hreg.opened) (hstatus.trans hzero)⟩
  rw [step, if_pos ⟨hreg.reads, hlen⟩, recvCb_eq hne, hreq]
  rfl

theorem step_send (hreg : Registered r fd EPOLLOUT .sendCb) (files : FileSystem) :
    ∃ r', step r (.send fd files 1) = some r' ∧ Registered r' fd EPOLLIN .recvCb ∧
      (r'.event fd).resource = (r.event fd).resource ∧
      (r'.event fd).contentType = (r.event fd).contentType := by
  obtain ⟨hstatus, hres, htype⟩ := httpResponse_fields files (r.event fd)
  obtain ⟨hopened, hzero⟩ := ntyEventDel_registered (r := r) (hstatus.trans hreg.status)
  obtain ⟨hres', htype', -⟩ := ntyEventDel_fields r (httpResponse files (r.event fd))
  obtain ⟨hin, hres₁, htype₁⟩ := registered_register EPOLLIN .recvCb
    (hopened ▸ hreg.opened) hzero
  refine ⟨_, ?_, hin, hres₁.trans (hres'.trans hres), htype₁.trans (htype'.trans htype)⟩
  rw [step, if_pos hreg.writes, sendCb_eq Int.one_pos]

theorem reach_accepted (fd : Nat) : ∃ r, Reach reactor free r ∧ Registered r fd EPOLLIN .recvCb ∧
    (r.event fd).resource = [] ∧ (r.event fd).contentType = [] := by
  have h0 : Reach reactor free ⟨fun _ => zeroed, fun _ => false, fun _ => false⟩ :=
    .init ⟨fun _ => rfl, fun _ => rfl⟩
  have hopened : Function.update (fun _ => false) fd true fd = true := Function.update_self ..
  have hzero : zeroed.status = 0 := rfl
  exact ⟨_, h0.step (i := Action.accept fd true) trivial rfl, registered_register
    (r := ⟨fun _ => zeroed, Function.update (fun _ => false) fd true, fun _ => false⟩)
    EPOLLIN .recvCb hopened hzero⟩

theorem reach_answered (h : Reach reactor free r) (hreg : Registered r fd EPOLLIN .recvCb)
    (hne : data ≠ []) (hlen : data.length ≤ BUFFER_LENGTH)
    (hline : (readline (cString data)).1 = line) (hfit : line.length < 1024)
    (hget : strstr line (ascii "GET") = true) (hu : uri line = some u) :
    ∃ r', Reach reactor free r' ∧ Registered r' fd EPOLLIN .recvCb ∧
      (r'.event fd).resource = ascii "./html/" ++ u ∧
      (r'.event fd).contentType = contentType u (r.event fd).contentType := by
  obtain ⟨-, htype, -⟩ := ntyEventDel_fields r (r.event fd)
  have hreq := httpRequest_get (received (ntyEventDel r (r.event fd)).2 data)
    ((requestLine_receive _ hlen).trans hline) hfit hget hu
  obtain ⟨r₁, hrecv, hout, hres₁, htype₁⟩ := step_recv hreg hne hlen hreq rfl
  obtain ⟨r₂, hsend, hin, hres₂, htype₂⟩ := step_send hout fun _ => none
  refine ⟨r₂, (h.step (i := Action.recv fd data) trivial hrecv).step
    (i := Action.send fd (fun _ => none) 1) trivial hsend, hin, hres₂.trans hres₁, ?_⟩
  rw [htype₂, htype₁]
  exact congrArg (contentType u) htype

def imageRequest : List UInt8 := ascii "GET /a.png HTTP/1.1\r\n\r\n"

theorem reach_image (fd : Nat) : ∃ r, Reach reactor free r ∧ r.Reads fd ∧
    (r.event fd).resource = ascii "./html/a.png" ∧ (r.event fd).contentType = ascii "image/png" := by
  obtain ⟨r₀, h0, hreg, -, htype₀⟩ := reach_accepted fd
  have hline : (readline (cString imageRequest)).1 = ascii "GET /a.png HTTP/1.1" := by decide
  have huri : uri (ascii "GET /a.png HTTP/1.1") = some (ascii "a.png") := by decide
  obtain ⟨r₁, h1, hreg₁, hres₁, htype₁⟩ := reach_answered h0 hreg (by decide) (by decide) hline
    (by decide) (by decide) huri
  refine ⟨r₁, h1, hreg₁.reads, hres₁.trans (by decide), ?_⟩
  rw [htype₁, htype₀]
  decide

-- ---------------------------------------------------------------------------
-- isolation
-- ---------------------------------------------------------------------------

theorem respond_of_clean (hne : data ≠ []) (hlen : data.length ≤ BUFFER_LENGTH)
    (hline : (readline (cString data)).1 = line) (hfit : line.length < 1024)
    (hget : strstr line (ascii "GET") = true) (hu : uri line = some u) (hknown : Known u) :
    respond files r fd data = some (answer files { received zeroed data with
      resource := ascii "./html/" ++ u
      contentType := contentType u [] }) := by
  rw [respond_some hne (httpRequest_get _ ((requestLine_receive _ hlen).trans hline) hfit hget hu)]
  exact congrArg some (answer_congr rfl (contentType_known hknown _ _) rfl)

/-- Without a `GET` the path of the answer is an earlier one. -/
theorem respond_other (files : FileSystem) (r : Reactor) (fd : Nat) (hne : data ≠ [])
    (hlen : data.length ≤ BUFFER_LENGTH) (hline : (readline (cString data)).1 = line)
    (hfit : line.length < 1024) (hget : ¬ strstr line (ascii "GET") = true) :
    (respond files r fd data).map Answer.path = some (r.event fd).resource := by
  rw [respond_some hne (httpRequest_other ((requestLine_receive _ hlen).trans hline) hfit hget)]
  exact congrArg some (ntyEventDel_fields r (r.event fd)).1

/-- With a type that is unknown the type of the answer is an earlier one. -/
theorem respond_unknown (r : Reactor) (fd : Nat) (hne : data ≠ []) (hlen : data.length ≤ BUFFER_LENGTH)
    (hline : (readline (cString data)).1 = line) (hfit : line.length < 1024)
    (hget : strstr line (ascii "GET") = true) (hu : uri line = some u) (hknown : ¬ Known u) :
    (respond (fun _ => none) r fd data).map Answer.contentTypeLine = some
      (readline ((readline (notFound (r.event fd).contentType)).2.getD [])).1 := by
  rw [respond_some hne (httpRequest_get _ ((requestLine_receive _ hlen).trans hline) hfit hget hu)]
  refine congrArg some ?_
  simp only [answer, httpResponse, Ntyevent.print, Int.toNat_natCast, WebSocket.contents_load_self]
  rw [contentType_unknown hknown]
  exact congrArg (fun type => (readline ((readline (notFound type)).2.getD [])).1)
    (ntyEventDel_fields r (r.event fd)).2.1

theorem respond_fault (hne : data ≠ []) (hlen : data.length ≤ BUFFER_LENGTH)
    (hline : (readline (cString data)).1 = line)
    (h : line.length ≥ 1024 ∨ strstr line (ascii "GET") = true ∧ uri line = none) :
    respond files r fd data = none := by
  refine respond_none hne ?_
  have hreq := (requestLine_receive (ntyEventDel r (r.event fd)).2.buffer hlen).trans hline
  simp only [httpRequest, received, hreq]
  split_ifs with hlong hget
  · rfl
  · rw [(h.resolve_left hlong).2]
    rfl
  · exact absurd (h.resolve_left hlong).1 hget

theorem Isolated.histories (h : Isolated fd data) (files : FileSystem) : ∃ r r' a,
    respond files r fd data = some a ∧ respond files r' fd data = some a ∧
    (r.event fd).resource = [] ∧ (r.event fd).contentType = [] ∧
    (r'.event fd).resource = ascii "./html/a.png" ∧
    (r'.event fd).contentType = ascii "image/png" := by
  obtain ⟨r, hr, hreg, hres, htype⟩ := reach_accepted fd
  obtain ⟨r', hr', hreads', hres', htype'⟩ := reach_image fd
  obtain ⟨a, ha, ha'⟩ := h files r r' hr hreg.reads hr' hreads'
  exact ⟨r, r', a, ha, ha', hres, htype, hres', htype'⟩

theorem clean_of_isolated (hne : data ≠ []) (hlen : data.length ≤ BUFFER_LENGTH)
    (hline : (readline (cString data)).1 = line) (h : Isolated fd data) : Clean line := by
  obtain ⟨r, r', a, ha, ha', hres, htype, hres', htype'⟩ := h.histories fun _ => none
  by_cases hfit : line.length < 1024
  · by_cases hget : strstr line (ascii "GET") = true
    · cases hu : uri line with
      | none =>
        rw [respond_fault hne hlen hline (.inr ⟨hget, hu⟩)] at ha
        exact nomatch ha
      | some u =>
        refine ⟨hfit, hget, u, hu, by_contra fun hknown => ?_⟩
        have hline₁ := respond_unknown r fd hne hlen hline hfit hget hu hknown
        have hline₂ := respond_unknown r' fd hne hlen hline hfit hget hu hknown
        rw [ha, htype] at hline₁
        rw [ha', htype'] at hline₂
        exact absurd (Option.some.inj (hline₁.symm.trans hline₂)) (by decide)
    · have hpath₁ := respond_other (fun _ => none) r fd hne hlen hline hfit hget
      have hpath₂ := respond_other (fun _ => none) r' fd hne hlen hline hfit hget
      rw [ha, hres] at hpath₁
      rw [ha', hres'] at hpath₂
      exact absurd (Option.some.inj (hpath₁.symm.trans hpath₂)) (by decide)
  · rw [respond_fault hne hlen hline (.inl (Nat.le_of_not_lt hfit))] at ha
    exact nomatch ha

theorem isolated_iff (fd : Nat) (data : List UInt8) (hne : data ≠ [])
    (hlen : data.length ≤ BUFFER_LENGTH) :
    Isolated fd data ↔ Clean (readline (cString data)).1 := by
  refine ⟨clean_of_isolated hne hlen rfl, ?_⟩
  rintro ⟨hfit, hget, u, hu, hknown⟩ files r r' - - - -
  exact ⟨_, respond_of_clean hne hlen rfl hfit hget hu hknown,
    respond_of_clean hne hlen rfl hfit hget hu hknown⟩

theorem isolated_page : Isolated 7 (ascii "GET /index.html HTTP/1.1\r\n\r\n") :=
  (isolated_iff 7 _ (by decide) (by decide)).mpr
    ⟨by decide, by decide, ascii "index.html", by decide, by unfold Known; decide⟩

/-- A script after an image is sent as that image. -/
theorem script_not_isolated : ¬ ∀ (fd : Nat) (data : List UInt8), data ≠ [] →
    data.length ≤ BUFFER_LENGTH → Isolated fd data := by
  intro h
  obtain ⟨-, -, u, hu, hknown⟩ := clean_of_isolated (by decide) (by decide) rfl
    (h 7 (ascii "GET /app.js HTTP/1.1\r\n\r\n") (by decide) (by decide))
  have happ : uri (readline (cString (ascii "GET /app.js HTTP/1.1\r\n\r\n"))).1 =
      some (ascii "app.js") := by decide
  obtain rfl := Option.some.inj (hu.symm.trans happ)
  exact absurd (hknown (by decide)) (by decide)

end LearningCode.HttpServer
