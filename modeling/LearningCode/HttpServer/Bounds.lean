import Mathlib.Data.List.TakeWhile
import LearningCode.Lib.Scan
import LearningCode.HttpServer.Isolation

/-!
# Where a request is read and written

`recv_cb` and `http_request` once more, in which an access outside the event's
buffer, outside `line_buffer` or outside `resource` stops the run. A function that
gets a string reads it up to its NUL.
-/

namespace LearningCode.HttpServer

open WebSocket (Buffer BUFFER_LENGTH ascii cString contents load strstr contents_succ contents_congr)

inductive Fault
  | buffer
  | lineBuffer
  | resource
  deriving DecidableEq

def LINE_LENGTH : Nat := 1024

def sizeofGet : Nat := (ascii "GET ").length + 1

namespace Access

open Scan (get set find)

def atEnd (allbuf : Buffer) (idx : Nat) : Except Fault Bool := do
  if (← get BUFFER_LENGTH .buffer allbuf idx) ≠ 13 then return false
  else return (← get BUFFER_LENGTH .buffer allbuf (idx + 1)) == 10

/-- `readline` with `n` bytes left in front of the NUL; the next byte of the line goes to `k`. -/
def readline (allbuf : Buffer) : (n idx : Nat) → (linebuf : Buffer) → (k : Nat) →
    Except Fault Buffer
  | 0, _, linebuf, _ => .ok linebuf
  | n + 1, idx, linebuf, k => do
    if ← atEnd allbuf idx then return linebuf
    else
      let c ← get BUFFER_LENGTH .buffer allbuf idx
      readline allbuf n (idx + 1) (← set LINE_LENGTH .lineBuffer linebuf k c) (k + 1)

def string (size : Nat) (fault : Fault) (b : Buffer) (i : Nat) : Except Fault (List UInt8) := do
  let j ← find (· == 0) fault b (size - i) i
  return contents b i (j - i)

/-- `sprintf(ev->resource, "./%s/%s", HTTP_WEBSERVER_HTML_ROOT, uri)`, with its NUL. -/
def resource (uri : List UInt8) : Except Fault (List UInt8) :=
  let path := ascii "./html/" ++ uri
  if path.length + 1 ≤ BUFFER_LENGTH then .ok path else .error .resource

def uri (line : Buffer) : Except Fault (List UInt8) := do
  let blank ← find (· == 32) .lineBuffer line (LINE_LENGTH - sizeofGet) sizeofGet
  let line ← set LINE_LENGTH .lineBuffer line blank 0
  string LINE_LENGTH .lineBuffer line sizeofGet

def httpRequest (ev : Ntyevent) : Except Fault Ntyevent := do
  let text ← string BUFFER_LENGTH .buffer ev.buffer 0
  let line ← readline ev.buffer text.length 0 (load []) 0
  if strstr (← string LINE_LENGTH .lineBuffer line 0) (ascii "GET") then
    let u ← uri line
    return { ev with
      method := HTTP_METHOD_GET
      resource := ← resource u
      contentType := contentType u ev.contentType }
  else return ev

/-- What `recv` leaves, which is told the size of the buffer. -/
def recv (b : Buffer) (data : List UInt8) : Buffer := fun i =>
  if i < data.length then data.getD i 0 else b i

def recvCb (ev : Ntyevent) (data : List UInt8) : Except Fault Ntyevent := do
  let buffer ← set BUFFER_LENGTH .buffer (recv ev.buffer data) data.length 0
  let _ ← string BUFFER_LENGTH .buffer buffer 0
  httpRequest { ev with length := data.length, buffer := buffer }

-- ---------------------------------------------------------------------------
-- Strings
-- ---------------------------------------------------------------------------

variable {b : Buffer} {i j k n idx size left : Nat} {fault : Fault} {l pre text line u : List UInt8}

theorem find_contents {p : UInt8 → Bool} (h : find p fault b left i = .ok j) :
    contents b i (j - i) = (contents b i left).takeWhile fun c => !p c := by
  induction left generalizing i with
  | zero => cases h
  | succ left ih =>
    rw [find] at h
    rw [contents_succ]
    split at h
    · rename_i hi
      cases h
      simp [contents, hi]
    · rename_i hi
      have hij : i + 1 ≤ j := (Scan.find_eq_ok.mp h).1
      obtain ⟨d, rfl⟩ := Nat.exists_eq_add_of_le hij
      have hd : i + 1 + d - i = i + 1 + d - (i + 1) + 1 := by omega
      rw [List.takeWhile_cons_of_pos (by simpa using hi), ← ih h, ← contents_succ, hd]

theorem mem_contents {c : UInt8} : c ∈ contents b i n ↔ ∃ j, i ≤ j ∧ j < i + n ∧ b j = c := by
  simp only [contents, List.mem_map, List.mem_range]
  constructor
  · rintro ⟨m, hm, rfl⟩
    exact ⟨i + m, by omega, by omega, rfl⟩
  · rintro ⟨j, hle, hlt, rfl⟩
    exact ⟨j - i, by omega, by rw [Nat.add_sub_cancel' hle]⟩

theorem string_eq_ok : string size fault b i = .ok l ↔
    0 ∈ contents b i (size - i) ∧ cString (contents b i (size - i)) = l := by
  have hcut : (fun c : UInt8 => !c == 0) = fun c => decide (c ≠ 0) := by
    exact funext fun c => Bool.eq_iff_iff.mpr (by simp)
  rw [string, Scan.bind_eq_ok, mem_contents]
  constructor
  · rintro ⟨j, hj, hl⟩
    obtain ⟨hle, hlt, hzero, -⟩ := Scan.find_eq_ok.mp hj
    refine ⟨⟨j, hle, hlt, by simpa using hzero⟩, ?_⟩
    rw [cString, ← hcut, ← find_contents hj]
    exact Except.ok.inj hl
  · rintro ⟨hzero, rfl⟩
    have hexists : ∃ j, Scan.find (· == 0) fault b (size - i) i = .ok j :=
      Scan.exists_find.mpr (by simpa using hzero)
    obtain ⟨j, hj⟩ := hexists
    refine ⟨j, hj, ?_⟩
    rw [cString, ← hcut, ← find_contents hj]
    rfl

theorem string_spec (h : string size fault b i = .ok l) :
    i + l.length < size ∧ b (i + l.length) = 0 ∧ contents b i l.length = l := by
  obtain ⟨j, hj, hl⟩ := Scan.bind_eq_ok.mp h
  obtain rfl : contents b i (j - i) = l := Except.ok.inj hl
  obtain ⟨hle, hlt, hzero, -⟩ := Scan.find_eq_ok.mp hj
  rw [WebSocket.length_contents, Nat.add_sub_cancel' hle]
  exact ⟨by omega, by simpa using hzero, rfl⟩

theorem string_of_nul (hroom : i + l.length < size) (hl : contents b i l.length = l)
    (hzero : 0 ∉ l) (hnul : b (i + l.length) = 0) : string size fault b i = .ok l := by
  obtain ⟨d, hd⟩ : ∃ d, size - i = l.length + (d + 1) := ⟨size - i - l.length - 1, by omega⟩
  rw [string_eq_ok, hd, WebSocket.contents_add, hl, contents_succ, hnul]
  refine ⟨by simp, ?_⟩
  rw [cString, List.takeWhile_append_of_pos]
  · simp
  · intro c hc
    have hne : c ≠ 0 := by
      rintro rfl
      exact hzero hc
    simpa using hne

-- ---------------------------------------------------------------------------
-- The line
-- ---------------------------------------------------------------------------

theorem atEnd_eq (h : idx + 1 < BUFFER_LENGTH) :
    atEnd b idx = .ok (b idx == 13 && b (idx + 1) == 10) := by
  unfold atEnd
  rw [Scan.get_of_lt (by omega), Scan.get_of_lt h, Scan.ok_bind, Scan.ok_bind]
  by_cases hc : b idx = 13
  · rw [hc]
    rfl
  · rw [if_pos hc, beq_eq_false_iff_ne.mpr hc]
    rfl

theorem update_load (c : UInt8) : Function.update (load pre) pre.length c = load (pre ++ [c]) := by
  funext i
  by_cases hi : i = pre.length
  · subst hi
    simp [load]
  · rw [Function.update_of_ne hi]
    rcases Nat.lt_or_gt_of_ne hi with hlt | hgt
    · simp [load, List.getElem?_append_left hlt]
    · rw [load, load, List.getD_eq_default _ _ (Nat.le_of_lt hgt), List.getD_eq_default]
      simpa using Nat.succ_le_of_lt hgt

theorem readline_cons {c : UInt8} (h : ¬ (c = 13 ∧ text.head? = some 10)) :
    (WebSocket.readline (c :: text)).1 = c :: (WebSocket.readline text).1 := by
  cases text with
  | nil => rfl
  | cons c' text =>
    rw [WebSocket.readline, if_neg (by simpa using h)]

theorem readline_eq_ok (hnul : b (idx + n) = 0) (hroom : idx + n < BUFFER_LENGTH)
    (hpre : pre.length ≤ LINE_LENGTH) (linebuf : Buffer) :
    readline b n idx (load pre) pre.length = .ok linebuf ↔
      (pre ++ (WebSocket.readline (contents b idx n)).1).length ≤ LINE_LENGTH ∧
        load (pre ++ (WebSocket.readline (contents b idx n)).1) = linebuf := by
  induction n generalizing idx pre with
  | zero =>
    have hline : (WebSocket.readline (contents b idx 0)).1 = [] := rfl
    rw [readline, hline, List.append_nil, Except.ok.injEq]
    exact ⟨fun h => ⟨hpre, h⟩, fun h => h.2⟩
  | succ n ih =>
    have hhead : (contents b (idx + 1) n).head? = some 10 ↔ n ≠ 0 ∧ b (idx + 1) = 10 := by
      cases n with
      | zero => simp [contents]
      | succ n => simp [contents_succ]
    rw [readline, atEnd_eq (by omega), Scan.ok_bind]
    by_cases hend : b idx = 13 ∧ b (idx + 1) = 10
    · obtain ⟨hcr, hlf⟩ := hend
      have hn : n ≠ 0 := by
        rintro rfl
        cases hlf.symm.trans hnul
      have hline : (WebSocket.readline (contents b idx (n + 1))).1 = [] := by
        obtain ⟨m, rfl⟩ := Nat.exists_eq_succ_of_ne_zero hn
        rw [contents_succ, contents_succ, hcr, hlf]
        rfl
      rw [if_pos (by simp [hcr, hlf]), hline, List.append_nil]
      exact ⟨fun h => ⟨hpre, Except.ok.inj h⟩, fun h => congrArg Except.ok h.2⟩
    · have hline : (WebSocket.readline (contents b idx (n + 1))).1 =
          b idx :: (WebSocket.readline (contents b (idx + 1) n)).1 := by
        rw [contents_succ, readline_cons]
        exact fun h => hend ⟨h.1, (hhead.mp h.2).2⟩
      rw [if_neg (by simpa using hend), Scan.get_of_lt (by omega), Scan.ok_bind, hline,
        List.append_cons]
      by_cases hfull : pre.length < LINE_LENGTH
      · rw [Scan.set_of_lt hfull, Scan.ok_bind, update_load]
        have hlen : pre.length + 1 = (pre ++ [b idx]).length := by simp
        rw [hlen, ih (by rwa [Nat.add_right_comm]) (by omega)
          (by simpa using Nat.succ_le_of_lt hfull)]
      · have hset : set LINE_LENGTH Fault.lineBuffer (load pre) pre.length (b idx) =
            .error .lineBuffer := if_neg hfull
        rw [hset]
        refine ⟨by rintro ⟨⟩, fun h => ?_⟩
        simp only [List.length_append, List.length_cons] at h
        omega

-- ---------------------------------------------------------------------------
-- The URI
-- ---------------------------------------------------------------------------

theorem load_mem (h : load l j ≠ 0) : j < l.length ∧ load l j ∈ l := by
  by_cases hj : j < l.length
  · refine ⟨hj, ?_⟩
    rw [load, List.getD_eq_getElem _ _ hj]
    exact List.getElem_mem hj
  · exact absurd (List.getD_eq_default _ _ (Nat.le_of_not_lt hj)) h

theorem contents_load (h : i + n ≤ l.length) : contents (load l) i n = (l.drop i).take n := by
  refine List.ext_getElem (by simp; omega) fun k hk _ => ?_
  rw [WebSocket.getElem_contents, List.getElem_take, List.getElem_drop, load, List.getD_eq_getElem]

theorem uri_of_find (hzero : 0 ∉ line)
    (hj : find (· == 32) Fault.lineBuffer (load line) (LINE_LENGTH - sizeofGet) sizeofGet = .ok j) :
    ∃ u, uri (load line) = .ok u ∧ HttpServer.uri line = some u := by
  obtain ⟨hle, hlt, hblank, hnone⟩ := Scan.find_eq_ok.mp hj
  have hblank : load line j = 32 := by simpa using hblank
  have hjl : j < line.length := (load_mem (by simp [hblank])).1
  have hsize : j < LINE_LENGTH := by
    have hge : sizeofGet ≤ LINE_LENGTH := by decide
    omega
  obtain ⟨d, rfl⟩ := Nat.exists_eq_add_of_le hle
  have hu : contents (load line) sizeofGet d = (line.drop sizeofGet).take d :=
    contents_load (by omega)
  refine ⟨(line.drop sizeofGet).take d, ?_, ?_⟩
  · have hlen : ((line.drop sizeofGet).take d).length = d := by
      simp
      omega
    rw [uri, hj, Scan.ok_bind, Scan.set_of_lt hsize, Scan.ok_bind]
    refine string_of_nul (by omega) ?_ ?_ ?_
    · rw [hlen, ← hu]
      exact contents_congr fun k hk => Function.update_of_ne (by omega) _ _
    · exact fun hmem => hzero (List.mem_of_mem_drop (List.mem_of_mem_take hmem))
    · rw [hlen, Function.update_self]
  · have hrest : line.drop sizeofGet =
        (line.drop sizeofGet).take d ++ 32 :: (line.drop sizeofGet).drop (d + 1) := by
      have hlt : d < (line.drop sizeofGet).length := by
        rw [List.length_drop]
        omega
      have hget : (line.drop sizeofGet)[d] = 32 := by
        rw [List.getElem_drop, ← hblank, load, List.getD_eq_getElem]
      rw [← hget, List.getElem_cons_drop, List.take_append_drop]
    have hpath : ∀ c ∈ (line.drop sizeofGet).take d, c ≠ 32 := by
      rw [← hu]
      intro c hc
      obtain ⟨k, hik, hkj, rfl⟩ := mem_contents.mp hc
      simpa using hnone k hik hkj
    have hcut : (line.drop sizeofGet).takeWhile (· ≠ 32) = (line.drop sizeofGet).take d := by
      conv_lhs => rw [hrest]
      rw [List.takeWhile_append_of_pos (by simpa using hpath)]
      simp
    have hmem : 32 ∈ line.drop sizeofGet := by
      rw [hrest]
      simp
    exact (if_pos hmem).trans (congrArg some hcut)

theorem uri_eq_ok (hzero : 0 ∉ line) (hfit : line.length < LINE_LENGTH) :
    uri (load line) = .ok u ↔ HttpServer.uri line = some u := by
  by_cases hblank : 32 ∈ line.drop sizeofGet
  · obtain ⟨k, hk, hget⟩ := List.mem_iff_getElem.mp hblank
    rw [List.getElem_drop] at hget
    rw [List.length_drop] at hk
    have hexists : ∃ j, Scan.find (· == 32) Fault.lineBuffer (load line)
        (LINE_LENGTH - sizeofGet) sizeofGet = .ok j := by
      refine Scan.exists_find.mpr ⟨sizeofGet + k, Nat.le_add_right .., by omega, ?_⟩
      rw [load, List.getD_eq_getElem _ _ (by omega), hget]
      rfl
    obtain ⟨j, hj⟩ := hexists
    obtain ⟨u', haccess, hmodel⟩ := uri_of_find hzero hj
    rw [haccess, hmodel]
    simp
  · have hmodel : HttpServer.uri line = none := if_neg hblank
    rw [hmodel]
    refine ⟨fun h => ?_, by rintro ⟨⟩⟩
    obtain ⟨j, hj, -⟩ := Scan.bind_eq_ok.mp h
    obtain ⟨u', -, hsome⟩ := uri_of_find hzero hj
    cases hmodel.symm.trans hsome

-- ---------------------------------------------------------------------------
-- The request
-- ---------------------------------------------------------------------------

variable {ev ev' : Ntyevent} {data : List UInt8}

theorem readline_subset {c : UInt8} (h : c ∈ (WebSocket.readline text).1) : c ∈ text := by
  induction text with
  | nil => cases h
  | cons c' text ih =>
    by_cases hend : c' = 13 ∧ text.head? = some 10
    · obtain ⟨rfl, hhead⟩ := hend
      obtain ⟨text, rfl⟩ := List.head?_eq_some_iff.mp hhead
      cases h
    · rw [readline_cons hend] at h
      exact List.mem_cons.mpr ((List.mem_cons.mp h).imp_right ih)

theorem resource_eq (h : u.length < LINE_LENGTH) : resource u = .ok (ascii "./html/" ++ u) := by
  refine if_pos ?_
  have hprefix : (ascii "./html/").length = 7 := by decide
  have hfit : 7 + LINE_LENGTH ≤ BUFFER_LENGTH := by decide
  rw [List.length_append, hprefix]
  omega

theorem zero_not_mem_requestLine : 0 ∉ requestLine ev.buffer := by
  intro h
  simpa using List.mem_takeWhile_imp (readline_subset h)

theorem uri_length (h : HttpServer.uri line = some u) : u.length ≤ line.length := by
  obtain ⟨-, h⟩ := Option.ite_none_right_eq_some.mp h
  cases h
  exact Nat.le_trans (List.takeWhile_prefix _).length_le (by simp)

theorem httpRequest_fault (hline : requestLine ev.buffer = line) (hfit : line.length < LINE_LENGTH)
    (hget : strstr line (ascii "GET") = true) (hu : HttpServer.uri line = none) :
    HttpServer.httpRequest ev = none := by
  have hfit : ¬ line.length ≥ 1024 := Nat.not_le_of_lt hfit
  simp only [HttpServer.httpRequest, hline, hget, hu]
  rw [if_neg hfit]
  rfl

theorem string_line (hzero : 0 ∉ line) (hfit : line.length < LINE_LENGTH) :
    string LINE_LENGTH .lineBuffer (load line) 0 = .ok line := by
  refine string_of_nul (by omega) (WebSocket.contents_load_self _) hzero ?_
  simp [load]

theorem string_line_long (hzero : 0 ∉ line) (hlong : LINE_LENGTH ≤ line.length) :
    string LINE_LENGTH .lineBuffer (load line) 0 ≠ .ok l := by
  intro hl
  obtain ⟨hlt, hend, -⟩ := string_spec hl
  rw [Nat.zero_add] at hlt hend
  have hin : l.length < line.length := Nat.lt_of_lt_of_le hlt hlong
  rw [load, List.getD_eq_getElem _ _ hin] at hend
  exact hzero (hend ▸ List.getElem_mem hin)

theorem httpRequest_eq_ok (ev : Ntyevent) (hnul : 0 ∈ contents ev.buffer 0 BUFFER_LENGTH) :
    httpRequest ev = .ok ev' ↔ HttpServer.httpRequest ev = some ev' := by
  have htext : string BUFFER_LENGTH .buffer ev.buffer 0 =
      .ok (cString (contents ev.buffer 0 BUFFER_LENGTH)) := string_eq_ok.mpr ⟨hnul, rfl⟩
  obtain ⟨hroom, hend, hcontents⟩ := string_spec htext
  have hread (linebuf : Buffer) : readline ev.buffer
        (cString (contents ev.buffer 0 BUFFER_LENGTH)).length 0 (load []) 0 = .ok linebuf ↔
      (requestLine ev.buffer).length ≤ LINE_LENGTH ∧ load (requestLine ev.buffer) = linebuf := by
    have hfit : ([] : List UInt8).length ≤ LINE_LENGTH := Nat.zero_le _
    have h := readline_eq_ok hend hroom hfit linebuf
    simpa only [hcontents, List.nil_append, List.length_nil, requestLine] using h
  have hzero : 0 ∉ requestLine ev.buffer := zero_not_mem_requestLine
  rw [httpRequest, htext, Scan.ok_bind]
  by_cases hfit : (requestLine ev.buffer).length < LINE_LENGTH
  · rw [(hread _).mpr ⟨Nat.le_of_lt hfit, rfl⟩, Scan.ok_bind]
    rw [string_line hzero hfit, Scan.ok_bind]
    by_cases hget : strstr (requestLine ev.buffer) (ascii "GET") = true
    · rw [if_pos hget]
      cases hu : HttpServer.uri (requestLine ev.buffer) with
      | none =>
        rw [httpRequest_fault rfl hfit hget hu]
        refine ⟨fun h => ?_, by rintro ⟨⟩⟩
        obtain ⟨u, haccess, -⟩ := Scan.bind_eq_ok.mp h
        cases hu.symm.trans ((uri_eq_ok hzero hfit).mp haccess)
      | some u =>
        have hlen : u.length < LINE_LENGTH := Nat.lt_of_le_of_lt (uri_length hu) hfit
        rw [httpRequest_get ev rfl hfit hget hu, (uri_eq_ok hzero hfit).mpr hu, Scan.ok_bind,
          resource_eq hlen, Scan.ok_bind]
        exact Iff.trans ⟨Except.ok.inj, congrArg _⟩ ⟨congrArg _, Option.some.inj⟩
    · rw [if_neg hget, httpRequest_other rfl hfit hget]
      exact Iff.trans ⟨Except.ok.inj, congrArg _⟩ ⟨congrArg _, Option.some.inj⟩
  · have hlong : 1024 ≤ (requestLine ev.buffer).length := Nat.le_of_not_lt hfit
    have hmodel : HttpServer.httpRequest ev = none := by
      rw [HttpServer.httpRequest]
      exact if_pos hlong
    rw [hmodel]
    refine ⟨fun h => ?_, by rintro ⟨⟩⟩
    obtain ⟨linebuf, hlinebuf, h⟩ := Scan.bind_eq_ok.mp h
    obtain ⟨-, rfl⟩ := (hread linebuf).mp hlinebuf
    obtain ⟨l, hl, -⟩ := Scan.bind_eq_ok.mp h
    -- a line that fills the buffer leaves no NUL behind it
    exact absurd hl (string_line_long hzero hlong)

theorem update_recv (b : Buffer) (data : List UInt8) :
    Function.update (recv b data) data.length 0 = receive b data := by
  funext i
  by_cases hi : i = data.length
  · simp [hi, receive]
  · simp [hi, receive, recv]

/-- The checks stop nothing that the model has a result for, except a full buffer. -/
theorem recvCb_eq_ok : recvCb ev data = .ok ev' ↔
    data.length < BUFFER_LENGTH ∧ HttpServer.httpRequest (received ev data) = some ev' := by
  by_cases hroom : data.length < BUFFER_LENGTH
  · have hnul : 0 ∈ contents (receive ev.buffer data) 0 BUFFER_LENGTH :=
      mem_contents.mpr ⟨data.length, Nat.zero_le _, by omega, by simp [receive]⟩
    have hstring : string BUFFER_LENGTH .buffer (receive ev.buffer data) 0 =
        .ok (cString (contents (receive ev.buffer data) 0 BUFFER_LENGTH)) :=
      string_eq_ok.mpr ⟨hnul, rfl⟩
    rw [recvCb, Scan.set_of_lt hroom, Scan.ok_bind, update_recv, hstring, Scan.ok_bind]
    exact (httpRequest_eq_ok (received ev data) hnul).trans
      ⟨fun h => ⟨hroom, h⟩, fun h => h.2⟩
  · have hset : set BUFFER_LENGTH Fault.buffer (recv ev.buffer data) data.length 0 =
        .error .buffer := if_neg hroom
    rw [recvCb, hset]
    exact ⟨by rintro ⟨⟩, fun h => absurd h.1 hroom⟩

end Access

def firstLine (data : List UInt8) : List UInt8 := (WebSocket.readline (cString data)).1

theorem exists_httpRequest (hline : requestLine ev.buffer = line) :
    (∃ ev', httpRequest ev = some ev') ↔ line.length < LINE_LENGTH ∧
      (strstr line (ascii "GET") = true → 32 ∈ line.drop sizeofGet) := by
  by_cases hfit : line.length < LINE_LENGTH
  · simp only [hfit, true_and]
    by_cases hget : strstr line (ascii "GET") = true
    · by_cases hblank : 32 ∈ line.drop sizeofGet
      · have hu : uri line = some ((line.drop sizeofGet).takeWhile (· ≠ 32)) := if_pos hblank
        exact ⟨fun _ _ => hblank, fun _ => ⟨_, httpRequest_get ev hline hfit hget hu⟩⟩
      · have hu : uri line = none := if_neg hblank
        simp [Access.httpRequest_fault hline hfit hget hu, hget, hblank]
    · exact ⟨fun _ h => absurd h hget, fun _ => ⟨_, httpRequest_other hline hfit hget⟩⟩
  · have hlong : line.length ≥ 1024 := Nat.le_of_not_lt hfit
    refine ⟨?_, fun h => absurd h.1 hfit⟩
    rintro ⟨ev', h⟩
    rw [httpRequest, hline, if_pos hlong] at h
    cases h

/-- The request stays inside just when the buffer has room for its NUL, its first line
has room in `line_buffer` for its own, and a `GET` line has a blank behind the method. -/
theorem recvCb_in_bounds (ev : Ntyevent) (data : List UInt8) :
    (∃ ev', Access.recvCb ev data = .ok ev') ↔
      data.length < BUFFER_LENGTH ∧ (firstLine data).length < LINE_LENGTH ∧
        (strstr (firstLine data) (ascii "GET") = true → 32 ∈ (firstLine data).drop sizeofGet) := by
  simp only [Access.recvCb_eq_ok, exists_and_left]
  refine and_congr_right fun hroom => exists_httpRequest ?_
  exact requestLine_receive ev.buffer (Nat.le_of_lt hroom)

/-- `GET` alone: the blank is looked for beyond `line_buffer`. -/
theorem recvCb_leaves_line : ¬ ∀ (ev : Ntyevent) (data : List UInt8), 1 ≤ data.length →
    data.length ≤ BUFFER_LENGTH → ∃ ev', Access.recvCb ev data = .ok ev' := by
  intro h
  obtain ⟨ev', hok⟩ := h zeroed (ascii "GET") (by decide) (by decide)
  obtain ⟨-, hsome⟩ := Access.recvCb_eq_ok.mp hok
  have hline : requestLine (received zeroed (ascii "GET")).buffer = ascii "GET" :=
    requestLine_receive _ (by decide)
  cases (Access.httpRequest_fault hline (by decide) (by decide) (by decide)).symm.trans hsome

end LearningCode.HttpServer
