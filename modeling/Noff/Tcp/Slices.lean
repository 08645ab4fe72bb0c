import Noff.Tcp.Origins

/-!
# The slices that `notify` is given

The calls of `addFromskb` that `tcpQueue` makes are listed (`tcpQueueCalls`), each with the
offsets and lengths that it gives to `notify` (`Call.notified`): these are what the callbacks
are handed (`chunks_tcpQueue`). The comparisons in front of a call place `EXP_SEQ` inside its
segment (`Call.Guarded.lost`), and those of the branch for urgent data the urgent byte behind it
(`Call.Guarded.urgent`), so all slices are inside the segment (`tcpQueue_inBounds`). The lengths
are at most 65535 in every run (`runTcp_inBounds`).
-/

namespace Noff.Tcp

open Serial

/-- An offset from `data` and a length that `notify` is given. -/
abbrev Slice := Int × Int

/-- The calls of `notify` in the branch for urgent data. -/
def urgentSlices (datalen : Nat) (lost toCopy toCopy2 : BitVec 32) : List Slice :=
  (if 0 < toCopy.toInt then [((lost.toNat : Int), toCopy.toInt)] else []) ++
    [(0, (datalen : Int))] ++
    if 0 < toCopy2.toInt then [(lost.toNat + toCopy.toInt + 1, toCopy2.toInt)] else []

/-- What the callbacks of a stream are handed for these calls of `notify`. -/
def handSlices (a : Owner) (data : List Byte) (rs : List Slice) : List Chunk :=
  if a.isconnnection then rs.map fun r => ⟨data, r.1, r.2⟩ else []

/-- A call of `addFromskb`, with the flow in which it is made. -/
structure Call where
  flow : Flow
  data : List Byte
  thisSeq : BitVec 32
  fin : Bool
  urg : Bool
  urgPtr : BitVec 32

namespace Call

variable (c : Call)

def result (a : Owner) (ts : Int) : Flow :=
  addFromskb a ts c.flow c.data c.thisSeq c.fin c.urg c.urgPtr

def lost : BitVec 32 := c.flow.expSeq - c.thisSeq

/-- `rcv` once the urgent pointer has been noted. -/
def rcv : HalfStream := (noteUrgent c.flow c.urg c.urgPtr).rcv

/-- The branch for urgent data is taken. -/
def urgent : Bool :=
  c.rcv.urgSeen && after (c.rcv.urgPtr + 1) (c.thisSeq + c.lost) &&
    before c.rcv.urgPtr (c.thisSeq + lenVal c.data)

def toCopy : BitVec 32 := c.rcv.urgPtr - (c.thisSeq + c.lost)

def toCopy2 : BitVec 32 := c.thisSeq + lenVal c.data - c.rcv.urgPtr - 1

/-- The calls of `notify`. -/
def notified : List Slice :=
  if c.urgent then urgentSlices c.data.length c.lost c.toCopy c.toCopy2
  else if lenVal c.data - c.lost ≠ 0 then
    [((c.lost.toNat : Int), (lenVal c.data - c.lost).toInt)]
  else []

def chunks (a : Owner) : List Chunk := handSlices a c.data c.notified

/-- No slice leaves the segment. -/
structure InBounds : Prop where
  lost : c.lost.toNat ≤ c.data.length
  /-- `datalen - lost` does not underflow. -/
  new : (lenVal c.data - c.lost).toNat + c.lost.toNat = c.data.length
  urgent : c.urgent → 0 ≤ c.toCopy.toInt ∧ c.lost.toNat + c.toCopy.toInt < c.data.length ∧
    0 ≤ c.toCopy2.toInt ∧ (c.rcv.urgPtr - c.thisSeq).toNat < c.data.length
  notified : ∀ r ∈ c.notified, 0 ≤ r.1 ∧ 0 ≤ r.2 ∧ r.1 + r.2 ≤ c.data.length

end Call

section

variable (a : Owner) (ts : Int)

/-- The call for a segment of `fraglist`. -/
def fragCall (q : Flow) (frag : Skbuff) : Call :=
  ⟨{ q with tcpTimeoutSet := updateTcptimeout q.tcpTimeoutSet a.aTcp ts }, frag.data, frag.seq,
    frag.fin, frag.urg, frag.urgPtr + frag.seq - 1⟩

/-- The calls that the loop over `fraglist` makes. -/
def drainCalls (q : Flow) : List Skbuff → List Call
  | [] => []
  | frag :: rest =>
    if after frag.seq q.expSeq then []
    else
      (if after (frag.seq + lenVal frag.data + flagVal frag.fin) q.expSeq then
        [fragCall a ts q frag] else []) ++ drainCalls (takeFrag a ts q frag) rest

/-- The call for the segment of a packet. -/
def segmentCall (q : Flow) (seg : Segment) : Call :=
  ⟨{ q with tcpTimeoutSet := updateTcptimeout q.tcpTimeoutSet a.aTcp ts }, seg.data, seg.seq,
    seg.fin, seg.urg, seg.urp.setWidth 32 + seg.seq - 1⟩

/-- The calls of `addFromskb` that `tcpQueue` makes, in order. -/
def tcpQueueCalls (q : Flow) (seg : Segment) : List Call :=
  if !after seg.seq q.expSeq then
    if after (seg.seq + lenVal seg.data + flagVal seg.fin) q.expSeq then
      let c := segmentCall a ts q seg
      c :: drainCalls a ts (c.result a ts) (c.result a ts).rcv.fraglist
    else []
  else []

end

/-! ## The calls are what is handed over -/

section

variable {a : Owner} {ts : Int} {q : Flow}

theorem handSlices_nil (data : List Byte) : handSlices a data [] = [] := by
  rw [handSlices, List.map_nil, ite_self]

theorem handSlices_append (data : List Byte) (rs rs' : List Slice) :
    handSlices a data (rs ++ rs') = handSlices a data rs ++ handSlices a data rs' := by
  simp only [handSlices]
  split
  · exact List.map_append
  · rfl

theorem handed_addPart (data : List Byte) (off : Int) (n : BitVec 32) :
    (addPart a q data off n).chunks = q.chunks ++ handSlices a data [(off, n.toInt)] := by
  simp only [addPart, notify, handSlices]
  split <;> split <;> simp

theorem handed_takeUrgent (data : List Byte) (thisSeq : BitVec 32) :
    (takeUrgent a q data thisSeq).chunks =
      q.chunks ++ handSlices a data [(0, (data.length : Int))] := by
  simp only [takeUrgent, notify, handSlices]
  split <;> simp

/-- A part of the segment, if there is one. -/
theorem handed_ite_addPart (c : Prop) [Decidable c] (data : List Byte) (off : Int)
    (n : BitVec 32) : (if c then addPart a q data off n else q).chunks =
      q.chunks ++ handSlices a data (if c then [(off, n.toInt)] else []) := by
  split
  · exact handed_addPart data off n
  · rw [handSlices_nil, List.append_nil]

theorem handed_addUrgent (data : List Byte) (thisSeq lost : BitVec 32) :
    (addUrgent a q data thisSeq lost).chunks = q.chunks ++ handSlices a data
      (urgentSlices data.length lost (q.rcv.urgPtr - (thisSeq + lost))
        (thisSeq + lenVal data - q.rcv.urgPtr - 1)) := by
  have hfirst : (if 0 < (q.rcv.urgPtr - (thisSeq + lost)).toInt then
      addPart a q data lost.toNat (q.rcv.urgPtr - (thisSeq + lost)) else q).rcv.urgPtr =
        q.rcv.urgPtr := by
    split
    · rw [urgPtr_addPart]
    · rfl
  simp only [addUrgent, urgPtr_takeUrgent, hfirst, handed_ite_addPart, handed_takeUrgent]
  rw [urgentSlices, handSlices_append, handSlices_append, List.append_assoc, List.append_assoc,
    List.append_assoc]

theorem Call.chunks_result (c : Call) :
    (c.result a ts).chunks = c.flow.chunks ++ c.chunks a := by
  have hnote : (noteUrgent c.flow c.urg c.urgPtr).chunks = c.flow.chunks := by
    simp only [noteUrgent]
    split <;> rfl
  simp only [result, addFromskb, (addFin_rcv a ts c.fin).2.1, Call.chunks, notified]
  by_cases hu : c.urgent
  · rw [if_pos hu]
    rw [urgent, rcv, lost] at hu
    rw [if_pos hu, handed_addUrgent, hnote]
    rfl
  · rw [if_neg hu]
    rw [urgent, rcv, lost] at hu
    rw [if_neg hu, addPlain, handed_ite_addPart, hnote]
    rfl

theorem chunks_takeFrag (frag : Skbuff) : (takeFrag a ts q frag).chunks =
    q.chunks ++ (if after (frag.seq + lenVal frag.data + flagVal frag.fin) q.expSeq then
      [fragCall a ts q frag] else []).flatMap (Call.chunks · a) := by
  simp only [takeFrag]
  split
  · exact ((fragCall a ts q frag).chunks_result).trans (by simp [fragCall])
  · simp

theorem chunks_drain (frags : List Skbuff) :
    (drain a ts q frags).chunks = q.chunks ++ (drainCalls a ts q frags).flatMap (Call.chunks · a) := by
  induction frags generalizing q with
  | nil => simp [drain, drainCalls]
  | cons frag frags ih =>
    rw [drain_cons, drainCalls]
    split
    · simp
    · rw [ih, chunks_takeFrag, List.append_assoc, List.flatMap_append]

/-- What `tcpQueue` hands over comes from the calls that are listed. -/
theorem chunks_tcpQueue (seg : Segment) : (tcpQueue a ts q seg).chunks =
    q.chunks ++ (tcpQueueCalls a ts q seg).flatMap (Call.chunks · a) := by
  simp only [tcpQueue, tcpQueueCalls]
  split
  · split
    · refine (chunks_drain _).trans ?_
      rw [List.flatMap_cons, ← List.append_assoc]
      congr 1
      exact (segmentCall a ts q seg).chunks_result
    · simp
  · simp only [enqueue]
    split
    · split <;> simp
    · simp

end

/-! ## The bounds -/

namespace Call

variable {c : Call}

/-- What `tcpQueue` checks before the call. -/
structure Guarded (c : Call) : Prop where
  start : after c.thisSeq c.flow.expSeq = false
  stop : after (c.thisSeq + lenVal c.data + flagVal c.fin) c.flow.expSeq
  datalen : c.data.length ≤ 65535

/-- The bytes received before, as a number, and what is new behind them. -/
theorem Guarded.lost (h : c.Guarded) : c.lost.toNat ≤ c.data.length ∧
    c.thisSeq + c.lost = c.flow.expSeq ∧
    lenVal c.data - c.lost = BitVec.ofNat 32 (c.data.length - c.lost.toNat) := by
  have hlt := lost_lt h.datalen h.start h.stop
  have hfin := Bool.toNat_le c.fin
  have hle : c.lost.toNat ≤ c.data.length := by
    rw [Call.lost]
    omega
  refine ⟨hle, by rw [Call.lost]; abel, ?_⟩
  have hsub := sub_eq 0#32 hle
  rwa [pos, pos, BitVec.zero_add, BitVec.zero_add, BitVec.ofNat_toNat, BitVec.setWidth_eq] at hsub

/-- The urgent byte is `d` new bytes into the segment. -/
theorem Guarded.urgent (h : c.Guarded) (hu : c.urgent) :
    ∃ d, c.lost.toNat + d < c.data.length ∧ c.toCopy = BitVec.ofNat 32 d ∧
      c.toCopy2 = BitVec.ofNat 32 (c.data.length - (c.lost.toNat + d + 1)) ∧
      c.rcv.urgPtr - c.thisSeq = BitVec.ofNat 32 (c.lost.toNat + d) := by
  obtain ⟨hle, hstart, hnew⟩ := h.lost
  have hlen := h.datalen
  have hend : c.thisSeq + lenVal c.data =
      c.flow.expSeq + BitVec.ofNat 32 (c.data.length - c.lost.toNat) := by
    rw [← hnew, ← hstart]
    abel
  rw [Call.urgent, Bool.and_assoc, Bool.and_eq_true, hstart, hend, urgent_test _ _ (by omega),
    decide_eq_true_eq] at hu
  obtain ⟨-, hd⟩ := hu
  have hof : BitVec.ofNat 32 (c.rcv.urgPtr - c.flow.expSeq).toNat =
      c.rcv.urgPtr - c.flow.expSeq := by rw [BitVec.ofNat_toNat, BitVec.setWidth_eq]
  refine ⟨(c.rcv.urgPtr - c.flow.expSeq).toNat, by omega, ?_, ?_, ?_⟩
  · rw [toCopy, hstart, hof]
  · have hsub := sub_eq 0#32 (show (c.rcv.urgPtr - c.flow.expSeq).toNat + 1 ≤
      c.data.length - c.lost.toNat from hd)
    rw [pos, pos, BitVec.zero_add, BitVec.zero_add, BitVec.ofNat_add, hof] at hsub
    rw [toCopy2, hend, show c.data.length - (c.lost.toNat +
      (c.rcv.urgPtr - c.flow.expSeq).toNat + 1) = c.data.length - c.lost.toNat -
        ((c.rcv.urgPtr - c.flow.expSeq).toNat + 1) by omega, ← hsub]
    abel
  · rw [BitVec.ofNat_add, hof, BitVec.ofNat_toNat, BitVec.setWidth_eq, ← hstart]
    abel

theorem Guarded.inBounds (h : c.Guarded) : c.InBounds := by
  obtain ⟨hle, -, hnew⟩ := h.lost
  have hlen := h.datalen
  have hint {n : Nat} (hn : n ≤ 65535) : (BitVec.ofNat 32 n).toInt = n :=
    toInt_ofNat_of_lt (by omega)
  have hnat {n : Nat} (hn : n ≤ 65535) : (BitVec.ofNat 32 n).toNat = n := by
    rw [BitVec.toNat_ofNat, Nat.mod_eq_of_lt (by omega)]
  refine ⟨hle, ?_, fun hu => ?_, fun r hr => ?_⟩
  · rw [hnew, hnat (by omega)]
    omega
  · obtain ⟨d, hd, h₁, h₂, h₃⟩ := h.urgent hu
    rw [h₁, h₂, h₃, hint (by omega), hint (by omega), hnat (by omega)]
    omega
  · rw [notified] at hr
    split at hr
    · rename_i hu
      obtain ⟨d, hd, h₁, h₂, -⟩ := h.urgent hu
      rw [urgentSlices, h₁, h₂, hint (by omega), hint (by omega), List.mem_append,
        List.mem_append] at hr
      rcases hr with (hr | hr) | hr
      · split at hr
        · rw [List.mem_singleton.mp hr]
          dsimp only
          omega
        · cases hr
      · rw [List.mem_singleton.mp hr]
        dsimp only
        omega
      · split at hr
        · rw [List.mem_singleton.mp hr]
          dsimp only
          omega
        · cases hr
    · split at hr
      · rw [List.mem_singleton.mp hr, hnew, hint (by omega)]
        dsimp only
        omega
      · cases hr

end Call

section

variable {a : Owner} {ts : Int} {q : Flow}

theorem drainCalls_guarded {frags : List Skbuff} (hl : ∀ f ∈ frags, f.data.length ≤ 65535) :
    ∀ c ∈ drainCalls a ts q frags, c.Guarded := by
  induction frags generalizing q with
  | nil =>
    intro c hc
    rw [drainCalls] at hc
    exact absurd hc List.not_mem_nil
  | cons frag frags ih =>
    intro c hc
    rw [drainCalls] at hc
    split at hc
    · cases hc
    · rename_i hstart
      rcases List.mem_append.mp hc with hc | hc
      · split at hc
        · rename_i hstop
          rw [List.mem_singleton.mp hc]
          exact ⟨Bool.not_eq_true _ ▸ hstart, hstop, hl frag (List.mem_cons_self ..)⟩
        · cases hc
      · exact ih (fun f hf => hl f (List.mem_cons_of_mem _ hf)) c hc

theorem tcpQueueCalls_guarded {seg : Segment} (hseg : seg.data.length ≤ 65535)
    (hfrags : ∀ f ∈ q.rcv.fraglist, f.data.length ≤ 65535) :
    ∀ c ∈ tcpQueueCalls a ts q seg, c.Guarded := by
  intro c hc
  rw [tcpQueueCalls] at hc
  split at hc
  · rename_i hstart
    split at hc
    · rename_i hstop
      have hbefore : after seg.seq q.expSeq = false := by simpa using hstart
      rcases List.mem_cons.mp hc with rfl | hc
      · exact ⟨hbefore, hstop, hseg⟩
      · have hsame : ((segmentCall a ts q seg).result a ts).rcv.fraglist = q.rcv.fraglist :=
          fraglist_addFromskb ..
        exact drainCalls_guarded (by rw [hsame]; exact hfrags) c hc
    · cases hc
  · cases hc

/-- Every call of `addFromskb` that `tcpQueue` makes stays inside its segment, whether that is the
packet's or one from `fraglist`. -/
theorem tcpQueue_inBounds (a : Owner) (ts : Int) (q : Flow) (seg : Segment)
    (hseg : seg.data.length ≤ 65535) (hfrags : ∀ f ∈ q.rcv.fraglist, f.data.length ≤ 65535) :
    (∀ c ∈ tcpQueueCalls a ts q seg, c.InBounds) ∧ (tcpQueue a ts q seg).chunks =
      q.chunks ++ (tcpQueueCalls a ts q seg).flatMap (Call.chunks · a) :=
  ⟨fun c hc => (tcpQueueCalls_guarded hseg hfrags c hc).inBounds, chunks_tcpQueue seg⟩

/-- Two bytes of which the first is urgent, in front of a segment that has been waiting. -/
theorem tcpQueue_inBounds_urgent :
    let q : Flow := { idleFlow with rcv.fraglist := [⟨[9, 9], 0, 0, false, false, 1⟩] }
    (tcpQueueCalls ⟨0, true⟩ 0 q ⟨0, false, true, 1, [7, 8], 0⟩).length = 2 ∧
      ∀ c ∈ tcpQueueCalls ⟨0, true⟩ 0 q ⟨0, false, true, 1, [7, 8], 0⟩, c.InBounds :=
  ⟨by decide, (tcpQueue_inBounds ⟨0, true⟩ 0 _ _ (by decide) (by decide)).1⟩

/-- In a run the lengths are those of packets. -/
theorem runTcp_inBounds {hash : Hash} {junk : StreamPtr → TcpStream} {ps : List Packet}
    {t : TcpFragment} {es : List Event} (h : runTcp hash junk ps = some (t, es)) {b : StreamPtr}
    {s : TcpStream} (hd : t.deref b = some s) {fc : Bool}
    (hq : q.rcv.fraglist = (s.rcv fc).fraglist) (p : Packet) :
    ∀ c ∈ tcpQueueCalls a ts q (segmentOf p), c.InBounds := by
  refine fun c hc => (tcpQueueCalls_guarded (length_segmentOf p) (fun f hf => ?_) c hc).inBounds
  rw [hq] at hf
  obtain ⟨seg, ⟨_, p', _, -, -, rfl⟩, rfl⟩ := (runTcp_from h).1 b s hd fc f hf
  exact length_segmentOf p'

end

end Noff.Tcp
