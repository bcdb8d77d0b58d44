import LearningCode.ImPdu.Header
import LearningCode.Lib.Framing
import LearningCode.Lib.Fuel

/-!
# The receive loop

Units follow each other in a stream of bytes, each with its length in front.
However the stream is cut by `recv`, the loop hands out the units that were
sent.
-/

namespace LearningCode.ImPdu

open LearningCode.Blocks LearningCode.BigEndian LearningCode.Framing

variable {R : Realloc} {b : CSimpleBuffer} {l r f chunk : List Byte} {fs : List (List Byte)} {n : Nat}

def CImPdu.contents (p : CImPdu) : Option (List Byte) := do
  slice (← p.getBuffer) 0 p.getLength.toNat

theorem contents_of_holds {p : CImPdu} (hp : p.buf.Holds l) (hne : l ≠ []) : p.contents = some l := by
  obtain ⟨rest, hbuf, -, -⟩ := hp.hasRoom hne
  have hslice := slice_split (p := []) (m := l) (q := rest) rfl hp.offset
  simpa [CImPdu.contents, CImPdu.getBuffer, CImPdu.getLength, hbuf] using hslice

-- --------------------------------------------------------------------------
-- Units as frames
-- --------------------------------------------------------------------------

theorem readUint32_append (hl : 4 ≤ l.length) : readUint32 (l ++ r) 0 = readUint32 l 0 := by
  have hget (i : Nat) (hi : i < 4) : (l ++ r)[i]? = l[i]? :=
    List.getElem?_append_left (Nat.lt_of_lt_of_le hi hl)
  simp only [readUint32, hget 0 (by decide), hget (0 + 1) (by decide), hget (0 + 2) (by decide),
    hget (0 + 3) (by decide)]

/-- The length of a unit is known once its header is there. -/
def wire : Framing.Header Byte where
  size l := if l.length < 16 then none else (readUint32 l 0).map UInt32.toNat
  size_nil := rfl
  size_append := by
    intro l r n h
    split at h
    · cases h
    · rename_i hl
      have hlong : ¬(l ++ r).length < 16 := by
        rw [List.length_append]
        omega
      rw [if_neg hlong, readUint32_append (by omega)]
      exact h

theorem IsPdu.isFrame {h : PduHeader} {body : List Byte} (hpdu : IsPdu h body f) :
    wire.IsFrame f := by
  have hlen : ¬f.length < 16 := by
    rw [hpdu.eq, List.length_append, length_headerBytes]
    omega
  show (if f.length < 16 then none else (readUint32 f 0).map UInt32.toNat) = some f.length
  rw [if_neg hlen, ← hpdu.length, hpdu.eq, readUint32_header]
  rfl

theorem IsPdu.ne_nil {h : PduHeader} {body : List Byte} (hpdu : IsPdu h body f) : f ≠ [] := by
  rintro rfl
  have heq := congrArg List.length hpdu.eq
  simp at heq
  omega

theorem readPdu_starved (hb : b.Holds l)
    (hstarved : ∀ n, wire.size l = some n → l.length < n) :
    CImPdu.readPdu R b.buffer b.writeOffset = pure none := by
  suffices h : CImPdu.isPduAvailable b.buffer b.writeOffset = pure none by
    simp only [CImPdu.readPdu, h, pure_bind]
  by_cases hshort : b.writeOffset < headerLen
  · exact isPduAvailable_short hshort
  · have hlen : ¬l.length < 16 := by
      rwa [UInt32.lt_iff_toNat_lt, hb.offset] at hshort
    obtain ⟨slack, hbuf, -, -⟩ := hb.hasRoom (by rintro rfl; exact hlen (by decide))
    obtain ⟨w, hword⟩ := readUint32_isSome (a := l) (i := 0) (by omega)
    have hsize : wire.size l = some w.toNat := by
      simp only [wire, if_neg hlen, hword, Option.map_some]
    have hgt : w > b.writeOffset := by
      rw [gt_iff_lt, UInt32.lt_iff_toNat_lt, hb.offset]
      exact hstarved _ hsize
    have hread := (readUint32_append (l := l) (r := slack) (by omega)).trans hword
    simp only [CImPdu.isPduAvailable, if_neg hshort, hbuf, Throws.lift_some, pure_bind, hread,
      if_pos hgt]

-- --------------------------------------------------------------------------
-- The inner loop
-- --------------------------------------------------------------------------

def Units (fs : List (List Byte)) : Prop := ∀ f ∈ fs, ∃ h body, IsPdu h body f

theorem Roomy.mono {m : Nat} (hr : Roomy n) (hle : m ≤ n) : Roomy m := by
  unfold Roomy at *
  omega

structure Handed (f : List Byte) (p : CImPdu) : Prop where
  holds : p.buf.Holds f
  isPdu : ∃ body, IsPdu p.pduHeader body f

theorem Handed.contents {p : CImPdu} (hp : Handed f p) : p.contents = some f := by
  obtain ⟨body, hpdu⟩ := hp.isPdu
  exact contents_of_holds hp.holds hpdu.ne_nil

theorem dispatch_handed (hcuts : Cuts wire l fs r) (hb : b.Holds l) (hfs : Units fs)
    (hr : Roomy l.length) :
    ∃ ps c, Returns (fun turns => (dispatch R turns b).run) (.ok (ps, c)) ∧
      List.Forall₂ Handed fs ps ∧ c.Holds r := by
  induction hcuts generalizing b with
  | starved hstarved =>
    refine ⟨[], b, Returns.last ?_, .nil, hb⟩
    intro turns
    simp only [dispatch, readPdu_starved hb hstarved, pure_bind]
    rfl
  | @frame f l r fs _ _ ih =>
    obtain ⟨h, body, hpdu⟩ := hfs f List.mem_cons_self
    have hoff := hb.offset
    obtain ⟨slack, hbuf, -, -⟩ := hb.hasRoom (by simp [hpdu.ne_nil])
    rw [List.append_assoc] at hbuf
    have hfront : h.length ≤ b.writeOffset := by
      rw [UInt32.le_iff_toNat_le, hpdu.length, hoff, List.length_append]
      exact Nat.le_add_right _ _
    obtain ⟨q, hread, rfl, hq⟩ := readPdu_spec (R := R) (t := l ++ slack) hpdu hfront
      (hr.mono (by simp))
    have hlen : f.length = q.getLength.toNat := hq.offset.symm
    obtain ⟨c, hskip, hc⟩ := hb.read hlen
    obtain ⟨ps, e, hps, hhanded, he⟩ := ih hc (fun g hg => hfs g (List.mem_cons_of_mem f hg))
      (hr.mono (by simp))
    refine ⟨q :: ps, e, ?_, .cons ⟨hq, body, hpdu⟩ hhanded, he⟩
    obtain ⟨n, hn⟩ := hps
    refine Returns.turn (g := fun turns =>
      (dispatch R turns c >>= fun r => pure (q :: r.1, r.2) : Throws _).run) ⟨n, ?_⟩ ?_
    · intro turns hle
      have hrest : dispatch R turns c = pure (ps, e) := hn turns hle
      simp only [hrest, pure_bind]
      rfl
    · intro turns
      simp only [dispatch, hbuf, hread, hskip, Throws.lift_some, pure_bind]

theorem dispatch_spec (hcuts : Cuts wire l fs r) (hb : b.Holds l) (hfs : Units fs)
    (hr : Roomy l.length) :
    ∃ ps c, Returns (fun turns => (dispatch R turns b).run) (.ok (ps, c)) ∧
      ps.map CImPdu.contents = fs.map some ∧ c.Holds r := by
  obtain ⟨ps, c, hrun, hhanded, hc⟩ := dispatch_handed (R := R) hcuts hb hfs hr
  refine ⟨ps, c, hrun, ?_, hc⟩
  clear hcuts hrun hfs
  induction hhanded with
  | nil => rfl
  | cons hp _ ih => rw [List.map_cons, List.map_cons, hp.contents, ih]

-- --------------------------------------------------------------------------
-- The outer loop
-- --------------------------------------------------------------------------

theorem makeRoom_spec (hb : b.Holds l) (hr : Roomy (l.length + 2048)) :
    (makeRoom R b).HasRoom l 2048 ∧ (makeRoom R b).writeOffset = b.writeOffset := by
  have hsize : readBufSize.toNat = 2048 := rfl
  unfold makeRoom
  split
  · exact ⟨hb.extend (n := readBufSize) hr, rfl⟩
  · rename_i hfree
    refine ⟨?_, rfl⟩
    obtain ⟨slack, hbuf, halloc⟩ := hb.mem
    have hle : b.writeOffset ≤ b.allocSize := by
      rw [UInt32.le_iff_toNat_le, hb.offset, halloc, List.length_append]
      exact Nat.le_add_right _ _
    rw [UInt32.lt_iff_toNat_lt, UInt32.toNat_sub_of_le _ _ hle, halloc, hb.offset, hsize,
      List.length_append, Nat.add_sub_cancel_left, Nat.not_lt] at hfree
    refine ⟨slack, CSimpleBuffer.buffer_eq_some hbuf ?_, halloc, hfree⟩
    intro hnil
    rw [(List.append_eq_nil_iff.mp hnil).2] at hfree
    exact absurd hfree (by decide)

theorem recv_spec (hb : b.Holds l) (hr : Roomy (l.length + 2048)) (hc : chunk.length ≤ 2048) :
    ∃ c, recv (makeRoom R b) chunk = some c ∧ c.Holds (l ++ chunk) := by
  obtain ⟨hroom, hoff⟩ := makeRoom_spec (R := R) hb hr
  obtain ⟨c, -, hrecv, -, hholds⟩ := (hroom.mono hc).recv (hoff ▸ hb.offset)
    (hr.mono (Nat.add_le_add_left hc _))
  exact ⟨c, hrecv, hholds⟩

theorem recvLoop_spec {chunks : List (List Byte)} (hfeeds : Feeds wire l chunks fs r)
    (hb : b.Holds l) (hfs : Units fs) (hl : (l ++ chunks.flatten).length < 2 ^ 31)
    (hc : ∀ chunk ∈ chunks, chunk.length ≤ 2048) :
    ∃ ps c, Returns (fun turns => (recvLoop R turns chunks b).run) (.ok (ps, c)) ∧
      ps.map CImPdu.contents = fs.map some ∧ c.Holds r := by
  induction hfeeds generalizing b with
  | @done l =>
    have hpending : l.length < 2 ^ 31 := by simpa using hl
    obtain ⟨hroom, hoff⟩ := makeRoom_spec (R := R) hb (by unfold Roomy; omega)
    refine ⟨[], makeRoom R b, Returns.const fun _ => rfl, rfl, hroom.holds (hoff ▸ hb.offset)⟩
  | @piece l chunk rest r chunks fs gs hcuts _ ih =>
    rw [List.flatten_cons, ← List.append_assoc, List.length_append] at hl
    have hpending : l.length < 2 ^ 31 := by
      rw [List.length_append] at hl
      omega
    obtain ⟨c, hrecv, hcb⟩ := recv_spec (R := R) hb (by unfold Roomy; omega) (hc chunk List.mem_cons_self)
    have hkept : (l ++ chunk).length = fs.flatten.length + rest.length := by
      rw [hcuts.flatten_append, List.length_append]
    obtain ⟨ps, d, ⟨n, hn⟩, hps, hd⟩ := dispatch_spec (R := R) hcuts hcb
      (fun f hf => hfs f (List.mem_append_left gs hf)) (roomy_of_lt (by omega))
    obtain ⟨qs, e, ⟨m, hm⟩, hqs, he⟩ := ih hd (fun f hf => hfs f (List.mem_append_right fs hf))
      (by rw [List.length_append]; omega) (fun chunk h => hc chunk (List.mem_cons_of_mem _ h))
    refine ⟨ps ++ qs, e, ⟨max n m, ?_⟩, by simp [hps, hqs], he⟩
    intro turns hle
    have hfirst : dispatch R turns c = pure (ps, d) := hn turns (Nat.le_trans (Nat.le_max_left n m) hle)
    have hrest : recvLoop R turns chunks d = pure (qs, e) :=
      hm turns (Nat.le_trans (Nat.le_max_right n m) hle)
    simp only [recvLoop, hrecv, Throws.lift_some, pure_bind, hfirst, hrest]
    rfl

def Produced (f : List Byte) : Prop :=
  ∃ R length msg calls p, build R length (.setPBMsg msg :: calls) = some p ∧ p.contents = some f

theorem Produced.isPdu (hf : Produced f) : ∃ h body, IsPdu h body f := by
  obtain ⟨R, length, msg, calls, p, hp, hcontents⟩ := hf
  obtain ⟨q, h, body, hq, hcarries, -⟩ := build_spec R length msg calls
  obtain rfl : p = q := Option.some.inj (hp.symm.trans hq)
  have hbytes := contents_of_holds hcarries.holds hcarries.isPdu.ne_nil
  obtain rfl : f = headerBytes h ++ body := Option.some.inj (hcontents.symm.trans hbytes)
  exact ⟨h, body, hcarries.isPdu⟩

/-- However the stream is cut, the loop hands out the units that were sent, in
order and byte for byte, and ends with an empty buffer. -/
theorem recvMsg_units (R : Realloc) (fs chunks : List (List Byte)) (hfs : ∀ f ∈ fs, Produced f)
    (htotal : fs.flatten.length < 2 ^ 31) (hflat : chunks.flatten = fs.flatten)
    (hchunks : ∀ chunk ∈ chunks, 1 ≤ chunk.length ∧ chunk.length ≤ 2048) :
    ∃ ps c, Returns (fun turns => (recvMsg R turns chunks).run) (.ok (ps, c)) ∧
      ps.map CImPdu.contents = fs.map some ∧ c.writeOffset = 0 := by
  have hunits : Units fs := fun f hf => (hfs f hf).isPdu
  have hframes : ∀ f ∈ fs, wire.IsFrame f := by
    intro f hf
    obtain ⟨h, body, hpdu⟩ := hunits f hf
    exact hpdu.isFrame
  have hshort : Short [] fs := by
    intro f hf
    obtain ⟨h, body, hpdu⟩ := hunits f (List.mem_of_mem_head? hf)
    exact List.length_pos_iff.mpr hpdu.ne_nil
  have hfeeds : Feeds wire [] chunks fs [] := feeds_flatten hframes hshort hflat
  obtain ⟨ps, c, hrun, hcontents, hc⟩ := recvLoop_spec (R := R) hfeeds CSimpleBuffer.Holds.new hunits
    (by simpa [hflat] using htotal) (fun chunk h => (hchunks chunk h).2)
  exact ⟨ps, c, hrun, hcontents, UInt32.toNat_inj.mp hc.offset⟩

def emptyUnit : List Byte := [0, 0, 0, 16, 0, 1, 0, 0, 0, 7, 0, 0, 0, 0, 0, 0]

theorem recvMsg_units_two : ∃ ps c,
    Returns (fun turns =>
      (recvMsg zeroed turns [emptyUnit.take 5, emptyUnit.drop 5 ++ emptyUnit]).run) (.ok (ps, c)) ∧
      ps.map CImPdu.contents = [emptyUnit, emptyUnit].map some ∧ c.writeOffset = 0 := by
  have hproduced : Produced emptyUnit := ⟨zeroed, 0, emptyMsg, [], _, rfl, by decide⟩
  exact recvMsg_units zeroed [emptyUnit, emptyUnit] _ (by simpa using hproduced) (by decide)
    (by decide) (by decide)

end LearningCode.ImPdu
