import Noff.Tcp.Frame
import Noff.Tcp.Reassembly

/-!
# What a segment adds to the data received in order

`tcpQueue` takes a segment that starts at or before `EXP_SEQ` and ends, its FIN
counted, after it; then the segments of `fraglist` up to the first that is still
ahead. Each that is taken moves `EXP_SEQ` to the end of its data, whether its bytes
are counted in `count` or one of them in `urg_count` (`expSeq_addFromskb`). So what
is taken can be told from the sequence numbers alone: a list of pieces, each from
the `EXP_SEQ` that it meets to its own end (`takenBy`), of which the last is where
`EXP_SEQ` is left (`expSeq_tcpQueue`). The piece of a segment that brings no more
than a FIN is empty.
-/

namespace Noff.Tcp

/-- A segment that starts at or before the next byte expected and ends, a FIN
counted, after it. -/
def inOrder (q : Flow) (seg : Segment) : Bool :=
  !after seg.seq q.expSeq && after (seg.seq + lenVal seg.data + flagVal seg.fin) q.expSeq

/-- The sequence numbers from `start` to `stop`, without the last. -/
structure Piece where
  start : BitVec 32
  stop : BitVec 32
  deriving DecidableEq

/-- The pieces of the segments of `fraglist` that are taken when `e` is expected. -/
def pieces (e : BitVec 32) : List Skbuff → List Piece
  | [] => []
  | frag :: rest =>
    if after frag.seq e then []
    else if after (frag.seq + lenVal frag.data + flagVal frag.fin) e then
      ⟨e, frag.seq + lenVal frag.data⟩ :: pieces (frag.seq + lenVal frag.data) rest
    else pieces e rest

/-- The pieces of a segment and of those in `fraglist` that are taken with it. -/
def takenBy (q : Flow) (seg : Segment) : List Piece :=
  if inOrder q seg then
    ⟨q.expSeq, seg.seq + lenVal seg.data⟩ :: pieces (seg.seq + lenVal seg.data) q.rcv.fraglist
  else []

/-- What is expected behind these pieces. -/
def reach (e : BitVec 32) (ps : List Piece) : BitVec 32 := ps.foldl (fun _ p => p.stop) e

@[simp] theorem reach_nil (e : BitVec 32) : reach e [] = e := rfl

@[simp] theorem reach_cons (e : BitVec 32) (p : Piece) (ps : List Piece) :
    reach e (p :: ps) = reach p.stop ps := rfl

/-- The segment brings data in order, its own or that of a segment in `fraglist`. -/
def brings (q : Flow) (seg : Segment) : Bool := (takenBy q seg).any fun p => p.start ≠ p.stop

/-- The code's test whether the byte at `urgPtr` is new. -/
def Piece.holds (p : Piece) (urgPtr : BitVec 32) : Bool :=
  after (urgPtr + 1) p.start && before urgPtr p.stop

/-- One of the bytes taken is the one at `urg_ptr`, while `urg_seen` is set. -/
def marked (q : Flow) (seg : Segment) : Bool :=
  q.rcv.urgSeen && (takenBy q seg).any (·.holds q.rcv.urgPtr)

section

variable {a : Owner} {ts : Int} {q : Flow}

/-! ## The sender -/

variable (a ts) in
/-- A FIN changes the state of the sender and the timers. -/
theorem addFin_rcv (fin : Bool) : (addFin a ts q fin).rcv = q.rcv ∧
    (addFin a ts q fin).chunks = q.chunks ∧ (addFin a ts q fin).expSeq = q.expSeq := by
  simp only [addFin]
  repeat' split
  all_goals exact ⟨rfl, rfl, rfl⟩

/-- Of the sender, `addFromskb` changes the state alone. -/
theorem snd_addFromskb {seq : BitVec 32} {data : List Byte} (fin urg : Bool) (urgPtr : BitVec 32) :
    (addFromskb a ts q data seq fin urg urgPtr).snd =
      { q.snd with state := (addFromskb a ts q data seq fin urg urgPtr).snd.state } := by
  have hnotify (q : Flow) (data off len) : (notify a q data off len).snd = q.snd := by
    simp only [notify]
    repeat' split
    all_goals rfl
  have hpart (q : Flow) (data off n) : (addPart a q data off n).snd = q.snd := hnotify ..
  have htake (q : Flow) (data seq) : (takeUrgent a q data seq).snd = q.snd := hnotify ..
  have hnote (q : Flow) : (noteUrgent q urg urgPtr).snd = q.snd := by
    rw [noteUrgent]
    split <;> rfl
  have hurgent (q : Flow) (lost) : (addUrgent a q data seq lost).snd = q.snd := by
    simp only [addUrgent]
    split <;> split <;> simp only [hpart, htake]
  have hplain (q : Flow) (lost) : (addPlain a q data lost).snd = q.snd := by
    rw [addPlain]
    split
    · exact hpart ..
    · rfl
  have hfin (q : Flow) : (addFin a ts q fin).snd = { q.snd with state := (addFin a ts q fin).snd.state } := by
    simp only [addFin]
    repeat' split
    all_goals rfl
  simp only [addFromskb]
  rw [hfin]
  split
  · rw [hurgent, hnote]
  · rw [hplain, hnote]

theorem snd_drain (frags : List Skbuff) :
    (drain a ts q frags).snd = { q.snd with state := (drain a ts q frags).snd.state } := by
  induction frags generalizing q with
  | nil => rfl
  | cons frag rest ih =>
    simp only [drain]
    split
    · rfl
    · rw [ih]
      split
      · dsimp only
        rw [snd_addFromskb]
      · rfl

variable (a ts q) in
theorem snd_tcpQueue (seg : Segment) :
    (tcpQueue a ts q seg).snd = { q.snd with state := (tcpQueue a ts q seg).snd.state } := by
  rw [tcpQueue]
  split
  · split
    · dsimp only
      rw [snd_drain, snd_addFromskb]
    · rfl
  · simp only [enqueue]
    repeat' split
    all_goals rfl

/-! ## What is expected -/

theorem expSeq_notify (q : Flow) (data : List Byte) (off len : Int) :
    (notify a q data off len).expSeq = q.expSeq := by
  simp only [notify]
  repeat' split
  all_goals rfl

theorem expSeq_addPart (q : Flow) (data : List Byte) (off : Int) (n : BitVec 32) :
    (addPart a q data off n).expSeq = q.expSeq + n := by
  rw [addPart, expSeq_notify]
  show q.snd.firstDataSeq + (q.rcv.count + n) + q.rcv.urgCount = q.expSeq + n
  rw [Flow.expSeq]
  abel

theorem expSeq_takeUrgent (q : Flow) (data : List Byte) (thisSeq : BitVec 32) :
    (takeUrgent a q data thisSeq).expSeq = q.expSeq + 1 := by
  have h := expSeq_notify (a := a) { q with
    rcv.urgdata := byteAt data (q.rcv.urgPtr - thisSeq).toNat, rcv.countNewUrg := true } data 0 data.length
  rw [show q.expSeq + 1 = Flow.expSeq { q with
    rcv.urgdata := byteAt data (q.rcv.urgPtr - thisSeq).toNat, rcv.countNewUrg := true } + 1 from rfl, ← h]
  exact (add_assoc ..).symm

theorem expSeq_addPlain (q : Flow) (data : List Byte) (lost : BitVec 32) :
    (addPlain a q data lost).expSeq = q.expSeq + (lenVal data - lost) := by
  rw [addPlain]
  split
  · exact expSeq_addPart ..
  · rename_i h
    rw [not_not.mp h, add_zero]

/-- A difference that is not negative, told from the sign of its complement. -/
theorem toInt_nonneg_of_neg {x : BitVec 32} (h : (-(x + 1)).toInt < 0) : 0 ≤ x.toInt := by
  have hx := x.isLt
  have hone : (1 : BitVec 32).toNat = 1 := rfl
  rw [BitVec.toInt_eq_toNat_cond, BitVec.toNat_neg, BitVec.toNat_add, hone] at h
  rw [BitVec.toInt_eq_toNat_cond]
  split at h <;> split <;> omega

/-- The bytes in front of the urgent one, that one and those behind it. -/
theorem expSeq_addUrgent {data : List Byte} {thisSeq lost : BitVec 32} (hlost : q.expSeq = thisSeq + lost)
    (h : Piece.holds ⟨thisSeq + lost, thisSeq + lenVal data⟩ q.rcv.urgPtr) :
    (addUrgent a q data thisSeq lost).expSeq = thisSeq + lenVal data := by
  have hif (q : Flow) (off : Int) {n : BitVec 32} (hn : 0 ≤ n.toInt) :
      (if 0 < n.toInt then addPart a q data off n else q).expSeq = q.expSeq + n := by
    split
    · exact expSeq_addPart ..
    · have hzero : n = 0 := BitVec.eq_of_toInt_eq (show n.toInt = 0 by omega)
      rw [hzero, add_zero]
  have hptr (q : Flow) (off : Int) (n : BitVec 32) :
      (if 0 < n.toInt then addPart a q data off n else q).rcv.urgPtr = q.rcv.urgPtr := by
    split
    · exact urgPtr_addPart ..
    · rfl
  obtain ⟨h₁, h₂⟩ := Bool.and_eq_true .. ▸ h
  rw [after, decide_eq_true_eq] at h₁
  rw [before, decide_eq_true_eq] at h₂
  have hfront : 0 ≤ (q.rcv.urgPtr - (thisSeq + lost)).toInt := toInt_nonneg_of_neg (by
    rwa [show -(q.rcv.urgPtr - (thisSeq + lost) + 1) = thisSeq + lost - (q.rcv.urgPtr + 1) by abel])
  have hback : 0 ≤ (thisSeq + lenVal data - q.rcv.urgPtr - 1).toInt := toInt_nonneg_of_neg (by
    rwa [show -(thisSeq + lenVal data - q.rcv.urgPtr - 1 + 1) =
      q.rcv.urgPtr - (thisSeq + lenVal data) by abel])
  simp only [addUrgent]
  rw [urgPtr_takeUrgent, hptr, hif _ _ hback, expSeq_takeUrgent, hif _ _ hfront, hlost]
  abel

variable (a ts) in
/-- A segment that is taken moves what is expected to the end of its data. -/
theorem expSeq_addFromskb (q : Flow) (data : List Byte) (seq : BitVec 32) (fin urg : Bool)
    (urgPtr : BitVec 32) :
    (addFromskb a ts q data seq fin urg urgPtr).expSeq = seq + lenVal data := by
  have hnote : (noteUrgent q urg urgPtr).expSeq = q.expSeq := by
    rw [noteUrgent]
    split <;> rfl
  have hlost : q.expSeq = seq + (q.expSeq - seq) := (add_sub_cancel ..).symm
  simp only [addFromskb]
  rw [(addFin_rcv a ts fin).2.2]
  split
  · rename_i h
    rw [Bool.and_assoc, Bool.and_eq_true] at h
    exact expSeq_addUrgent (hnote.trans hlost) h.2
  · rw [expSeq_addPlain, hnote]
    abel

theorem expSeq_drain (frags : List Skbuff) :
    (drain a ts q frags).expSeq = reach q.expSeq (pieces q.expSeq frags) := by
  induction frags generalizing q with
  | nil => rfl
  | cons frag rest ih =>
    simp only [drain, pieces]
    split
    · rfl
    · rw [ih]
      split
      · exact congrArg (fun e => reach e (pieces e rest)) (expSeq_addFromskb ..)
      · rfl

variable (a ts q) in
/-- The pieces that are taken end where the next byte is expected. -/
theorem expSeq_tcpQueue (seg : Segment) :
    (tcpQueue a ts q seg).expSeq = reach q.expSeq (takenBy q seg) := by
  rw [tcpQueue, takenBy, inOrder]
  by_cases h₁ : after seg.seq q.expSeq
  · simp only [h₁, Bool.not_true, Bool.false_eq_true, ite_false, Bool.false_and, reach_nil, enqueue]
    repeat' split
    all_goals rfl
  · simp only [h₁, Bool.not_false, ite_true, Bool.true_and]
    split
    · rw [expSeq_drain, expSeq_addFromskb, fraglist_addFromskb, reach_cons]
    · rfl

variable (a ts) in
/-- A segment that is not taken leaves the counts alone. -/
theorem counts_tcpQueue {seg : Segment} (h : inOrder q seg = false) :
    (tcpQueue a ts q seg).rcv.count = q.rcv.count ∧
      (tcpQueue a ts q seg).rcv.urgCount = q.rcv.urgCount := by
  rw [inOrder] at h
  rw [tcpQueue]
  split
  · rename_i h₁
    rw [h₁, Bool.true_and] at h
    rw [if_neg (by rw [h]; exact Bool.false_ne_true)]
    exact ⟨rfl, rfl⟩
  · simp only [enqueue]
    repeat' split
    all_goals exact ⟨rfl, rfl⟩

end

/-! ## A stream -/

/-- `tcpQueue` changes what one half of the stream has received. -/
theorem received_queueData (a : StreamPtr) (p : Packet) (fc : Bool) (w : Work) (fc' : Bool) :
    ((queueData a p fc w).stream.rcv fc').received = if fc' = fc then
      (tcpQueue ⟨a, w.stream.isconnnection⟩ p.timeStamp (w.flow fc) (segmentOf p)).rcv.received
    else (w.stream.rcv fc').received := by
  rw [queueData, received_withHalves]
  split
  · rfl
  · rename_i hfc
    rw [snd_tcpQueue, w.stream.rcv_not hfc]
    rfl

end Noff.Tcp
