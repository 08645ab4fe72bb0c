import Noff.Tcp.LifeCycle
import Noff.Tcp.Reassembly
import Noff.Tcp.Timers

/-!
# The bytes counted and the bytes handed over

`tcpQueue` counts the bytes that it takes in order in `rcv->count`; `notify` hands
them to the data callbacks if the stream is connected. As long as no packet
brings data in order to a stream that is not, or the byte at an `urg_ptr` that is
there although no segment is urgent (`Miscounts`), the count of each direction is what
the callbacks have been handed, and both counts are 0 when the connection is announced
(`count_eq_handed`). A segment between the handshake's second and third packet
is counted and never handed over (`count_early`).
-/

namespace Noff.Tcp

open Serial

/-! ## One direction -/

/-- The bytes in these chunks. -/
def handed (cs : List Chunk) : Nat := (cs.map fun c => c.bytes.length).sum

theorem handed_append (cs cs' : List Chunk) : handed (cs ++ cs') = handed cs + handed cs' := by
  rw [handed, List.map_append, List.sum_append]
  rfl

/-- A half that has counted no urgent data and keeps none, and has counted `n` bytes. -/
structure HalfStream.Counts (n : Nat) (h : HalfStream) : Prop where
  urgCount : h.urgCount = 0
  count : h.count = BitVec.ofNat 32 n
  frags : ∀ f ∈ h.fraglist, f.urg = false ∧ f.data.length ≤ 65535

section

variable {a : Owner} {ts : Int} {q : Flow} {n : Nat} {seq : BitVec 32} {data : List Byte}

/-- A segment that does not start after `EXP_SEQ` starts some positions before it. -/
theorem exists_lost (h : after seq q.expSeq = false) :
    q.expSeq - seq = BitVec.ofNat 32 (q.expSeq - seq).toNat ∧ (q.expSeq - seq).toNat < 2 ^ 31 ∧
      q.expSeq = pos seq (q.expSeq - seq).toNat := by
  have hof : q.expSeq - seq = BitVec.ofNat 32 (q.expSeq - seq).toNat := by
    rw [BitVec.ofNat_toNat, BitVec.setWidth_eq]
  refine ⟨hof, ?_, ?_⟩
  · rw [after, decide_eq_false_iff_not, BitVec.toInt_eq_toNat_cond] at h
    by_contra hge
    rw [if_neg (by omega)] at h
    have := (q.expSeq - seq).isLt
    omega
  · rw [pos, ← hof]
    abel

/-- A segment in order ends behind the bytes that it repeats, its FIN counted. -/
theorem lost_lt (hl : data.length ≤ 65535) {fin : Bool} (h₁ : after seq q.expSeq = false)
    (h₂ : after (seq + lenVal data + flagVal fin) q.expSeq) :
    (q.expSeq - seq).toNat < data.length + fin.toNat := by
  have hfin := Bool.toNat_le fin
  obtain ⟨-, hlt, he⟩ := exists_lost h₁
  have hseq : seq + lenVal data + flagVal fin = pos seq (data.length + fin.toNat) := by
    rw [lenVal, flagVal, pos, BitVec.ofNat_add, BitVec.add_assoc]
  rw [hseq, he, after_pos seq (by omega) (by omega)] at h₂
  exact of_decide_eq_true h₂

/-- These pieces are handed over as they are counted: none is new to a stream that is not
connected, and none holds an urgent byte. -/
structure Counted (a : Owner) (q : Flow) (ps : List Piece) : Prop where
  connected : a.isconnnection ∨ ∀ p ∈ ps, p.start = p.stop
  unmarked : q.rcv.urgSeen → ∀ p ∈ ps, p.holds q.rcv.urgPtr = false

/-- Without an urgent byte `addFromskb` counts what is new and handles the FIN. -/
theorem addFromskb_plain {ps : List Piece} (h : Counted a q (⟨q.expSeq, seq + lenVal data⟩ :: ps))
    (fin : Bool) (urgPtr : BitVec 32) :
    addFromskb a ts q data seq fin false urgPtr =
      addFin a ts (addPlain a q data (q.expSeq - seq)) fin := by
  have hno : (q.rcv.urgSeen && after (q.rcv.urgPtr + 1) (seq + (q.expSeq - seq)) &&
      before q.rcv.urgPtr (seq + lenVal data)) = false := by
    rw [add_sub_cancel, Bool.and_assoc, Bool.and_eq_false_imp]
    intro hseen
    have := h.unmarked hseen _ (List.mem_cons_self ..)
    rwa [Piece.holds] at this
  simp only [addFromskb, noteUrgent, Bool.false_and, Bool.false_eq_true, ite_false, hno]

/-- `rcv` has counted the `n` bytes handed over before and those of the chunks. -/
def Flow.Counts (n : Nat) (q : Flow) : Prop := q.rcv.Counts (n + handed q.chunks)

theorem Flow.Counts.addFin (h : q.Counts n) (fin : Bool) : (addFin a ts q fin).Counts n := by
  obtain ⟨hr, hc, -⟩ := addFin_rcv (q := q) a ts fin
  rw [Flow.Counts, hr, hc]
  exact h

/-- The new bytes are counted and, for a connected stream, handed over. -/
theorem Flow.Counts.addPlain (h : q.Counts n) {lost : BitVec 32} (hl : data.length ≤ 65535)
    (hle : lost.toNat ≤ data.length) (hc : a.isconnnection ∨ data.length ≤ lost.toNat) :
    (addPlain a q data lost).Counts n := by
  have hnew : lenVal data - lost = BitVec.ofNat 32 (data.length - lost.toNat) := by
    conv_lhs => rw [← BitVec.setWidth_eq lost, ← BitVec.ofNat_toNat, lenVal,
      show data.length = data.length - lost.toNat + lost.toNat by omega, BitVec.ofNat_add]
    rw [BitVec.add_sub_cancel]
  rw [Tcp.addPlain, hnew]
  split
  · rename_i hne
    have hlt : lost.toNat < data.length := by
      by_contra hge
      rw [Nat.sub_eq_zero_of_le (Nat.not_lt.mp hge)] at hne
      exact hne rfl
    have hconn : a.isconnnection = true := hc.resolve_right (by omega)
    have hint : (BitVec.ofNat 32 (data.length - lost.toNat)).toInt =
        ((data.length - lost.toNat : Nat) : Int) := by
      rw [BitVec.toInt_eq_toNat_of_lt (by rw [BitVec.toNat_ofNat]; omega), BitVec.toNat_ofNat,
        Nat.mod_eq_of_lt (by omega)]
    -- The chunk is the rest of the segment.
    have hchunk : handed [⟨data, (lost.toNat : Int), ((data.length - lost.toNat : Nat) : Int)⟩] =
        data.length - lost.toNat := by
      simp [handed, Chunk.bytes]
    have hcount : q.rcv.count + BitVec.ofNat 32 (data.length - lost.toNat) =
        BitVec.ofNat 32 (n + handed (q.chunks ++
          [⟨data, (lost.toNat : Int), ((data.length - lost.toNat : Nat) : Int)⟩])) := by
      rw [handed_append, hchunk, h.count, ← BitVec.ofNat_add, Nat.add_assoc]
    simp only [addPart, notify, hconn, ite_true, hint]
    split <;> exact ⟨h.urgCount, hcount, h.frags⟩
  · exact h

/-- The urgent pointer stays as it is. -/
theorem urg_addPlain (q : Flow) (data : List Byte) (lost : BitVec 32) :
    (addPlain a q data lost).rcv.urgSeen = q.rcv.urgSeen ∧
      (addPlain a q data lost).rcv.urgPtr = q.rcv.urgPtr := by
  simp only [addPlain, addPart, notify]
  repeat' split
  all_goals exact ⟨rfl, rfl⟩

variable (a ts) in
/-- A segment in order, the pieces behind it still to come. -/
theorem Flow.Counts.addFromskb (h : q.Counts n) (hl : data.length ≤ 65535) {fin : Bool}
    (h₁ : after seq q.expSeq = false) (h₂ : after (seq + lenVal data + flagVal fin) q.expSeq)
    (ps : List Piece) (hc : Counted a q (⟨q.expSeq, seq + lenVal data⟩ :: ps)) (urgPtr : BitVec 32) :
    (addFromskb a ts q data seq fin false urgPtr).Counts n ∧
      Counted a (Tcp.addFromskb a ts q data seq fin false urgPtr) ps := by
  have hlt := lost_lt hl h₁ h₂
  have hle : (q.expSeq - seq).toNat ≤ data.length := by
    have := Bool.toNat_le fin
    omega
  have hnew : a.isconnnection ∨ data.length ≤ (q.expSeq - seq).toNat := by
    refine hc.connected.imp_right fun hps => ?_
    have he : q.expSeq = seq + lenVal data := hps _ (List.mem_cons_self ..)
    rw [he, add_sub_cancel_left, lenVal, BitVec.toNat_ofNat, Nat.mod_eq_of_lt (by omega)]
  obtain ⟨hseen, hptr⟩ := urg_addPlain (a := a) q data (q.expSeq - seq)
  rw [addFromskb_plain hc]
  refine ⟨(h.addPlain hl hle hnew).addFin fin, ?_, ?_⟩
  · exact hc.connected.imp_right fun hps p hp => hps p (List.mem_cons_of_mem _ hp)
  · rw [(addFin_rcv a ts fin).1, hseen, hptr]
    exact fun hs p hp => hc.unmarked hs p (List.mem_cons_of_mem _ hp)

theorem drain_counts {frags : List Skbuff} (h : q.Counts n)
    (hf : ∀ f ∈ frags, f.urg = false ∧ f.data.length ≤ 65535)
    (hc : Counted a q (pieces q.expSeq frags)) : (drain a ts q frags).Counts n := by
  induction frags generalizing q with
  | nil => exact ⟨h.urgCount, h.count, fun f hf => by cases hf⟩
  | cons frag rest ih =>
    obtain ⟨hurg, hl⟩ := hf frag (List.mem_cons_self ..)
    have hrest := fun f hf' => hf f (List.mem_cons_of_mem _ hf')
    simp only [drain]
    split
    · exact ⟨h.urgCount, h.count, hf⟩
    · rename_i hle
      have hle : after frag.seq q.expSeq = false := Bool.not_eq_true _ ▸ hle
      rw [pieces, if_neg (by rw [hle]; exact Bool.false_ne_true)] at hc
      split
      · rename_i hgt
        rw [if_pos hgt] at hc
        rw [hurg]
        have h' : Flow.Counts n { q with tcpTimeoutSet := updateTcptimeout q.tcpTimeoutSet a.aTcp ts } := h
        obtain ⟨hadd, hleft⟩ := h'.addFromskb a ts hl hle hgt (pieces _ rest)
          ⟨hc.connected, hc.unmarked⟩ (frag.urgPtr + frag.seq - 1)
        rw [← expSeq_addFromskb a ts { q with
          tcpTimeoutSet := updateTcptimeout q.tcpTimeoutSet a.aTcp ts } frag.data frag.seq frag.fin
          false (frag.urgPtr + frag.seq - 1)] at hleft
        exact ih ⟨hadd.urgCount, hadd.count, hadd.frags⟩ hrest ⟨hleft.connected, hleft.unmarked⟩
      · rename_i hgt
        rw [if_neg hgt] at hc
        exact ih ⟨h.urgCount, h.count, h.frags⟩ hrest ⟨hc.connected, hc.unmarked⟩

theorem mem_insertFrag {f g : Skbuff} {frags : List Skbuff} (h : f ∈ insertFrag g frags) :
    f = g ∨ f ∈ frags := by
  induction frags with
  | nil => exact .inl (List.mem_singleton.mp h)
  | cons x rest ih =>
    rw [insertFrag] at h
    split at h
    · exact List.mem_cons.mp h
    · rcases List.mem_cons.mp h with rfl | h
      · exact .inr (List.mem_cons_self ..)
      · exact (ih h).imp_right (List.mem_cons_of_mem _)

variable (a ts) in
/-- `tcpQueue` counts what it hands over, if it takes no other pieces than these. -/
theorem tcpQueue_counts (h : q.Counts n) {seg : Segment} (hurg : seg.urg = false)
    (hl : seg.data.length ≤ 65535) (hc : Counted a q (takenBy q seg)) :
    (tcpQueue a ts q seg).Counts n := by
  rw [tcpQueue]
  split
  · rename_i hle
    have hle : after seg.seq q.expSeq = false := by simpa using hle
    split
    · rename_i hgt
      have hin : inOrder q seg = true := by rw [inOrder, hle, hgt]; rfl
      rw [takenBy, if_pos hin] at hc
      have h' : Flow.Counts n { q with tcpTimeoutSet := updateTcptimeout q.tcpTimeoutSet a.aTcp ts } := h
      rw [hurg]
      dsimp only
      obtain ⟨hadd, hleft⟩ := h'.addFromskb a ts hl hle hgt (pieces _ q.rcv.fraglist)
        ⟨hc.connected, hc.unmarked⟩ (seg.urp.setWidth 32 + seg.seq - 1)
      rw [← expSeq_addFromskb a ts { q with
        tcpTimeoutSet := updateTcptimeout q.tcpTimeoutSet a.aTcp ts } seg.data seg.seq seg.fin
        false (seg.urp.setWidth 32 + seg.seq - 1)] at hleft
      rw [fraglist_addFromskb]
      exact drain_counts hadd h.frags hleft
    · exact h
  · have hfrags : ∀ f ∈ insertFrag seg.pakiet q.rcv.fraglist, f.urg = false ∧ f.data.length ≤ 65535 := by
      intro f hf
      rcases mem_insertFrag hf with rfl | hf
      · exact ⟨hurg, hl⟩
      · exact h.frags f hf
    simp only [enqueue]
    repeat' split
    all_goals exact ⟨h.urgCount, h.count, hfrags⟩

/-- Of the receiver, `tcpQueue` leaves the state, the first sequence number and the scale alone. -/
def HalfStream.settings (h : HalfStream) : TcpState × BitVec 32 × Bool × BitVec 32 :=
  (h.state, h.firstDataSeq, h.wscaleOn, h.wscale)

theorem settings_notify (q : Flow) (data : List Byte) (off len : Int) :
    (notify a q data off len).rcv.settings = q.rcv.settings := by
  simp only [notify]
  repeat' split
  all_goals rfl

theorem settings_addPart (q : Flow) (data : List Byte) (off : Int) (n : BitVec 32) :
    (addPart a q data off n).rcv.settings = q.rcv.settings := settings_notify _ data off n.toInt

theorem settings_takeUrgent (q : Flow) (data : List Byte) (thisSeq : BitVec 32) :
    (takeUrgent a q data thisSeq).rcv.settings = q.rcv.settings := settings_notify _ data 0 data.length

theorem settings_addUrgent (q : Flow) (data : List Byte) (thisSeq lost : BitVec 32) :
    (addUrgent a q data thisSeq lost).rcv.settings = q.rcv.settings := by
  simp only [addUrgent]
  split <;> split <;> simp only [settings_addPart, settings_takeUrgent]

theorem settings_addPlain (q : Flow) (data : List Byte) (lost : BitVec 32) :
    (addPlain a q data lost).rcv.settings = q.rcv.settings := by
  rw [addPlain]
  split
  · exact settings_addPart ..
  · rfl

theorem settings_addFromskb (q : Flow) (data : List Byte) (thisSeq : BitVec 32) (fin urg : Bool)
    (urgPtr : BitVec 32) :
    (addFromskb a ts q data thisSeq fin urg urgPtr).rcv.settings = q.rcv.settings := by
  have hnote : (noteUrgent q urg urgPtr).rcv.settings = q.rcv.settings := by
    rw [noteUrgent]
    split <;> rfl
  simp only [addFromskb]
  rw [(addFin_rcv a ts fin).1]
  split
  · rw [settings_addUrgent, hnote]
  · rw [settings_addPlain, hnote]

theorem settings_drain (q : Flow) (frags : List Skbuff) :
    (drain a ts q frags).rcv.settings = q.rcv.settings := by
  induction frags generalizing q with
  | nil => rfl
  | cons frag rest ih =>
    simp only [drain]
    split
    · rfl
    · rw [ih]
      split
      · exact settings_addFromskb ..
      · rfl

variable (a ts) in
theorem settings_tcpQueue (q : Flow) (seg : Segment) :
    (tcpQueue a ts q seg).rcv.settings = q.rcv.settings := by
  rw [tcpQueue]
  split
  · split
    · dsimp only
      rw [settings_drain, settings_addFromskb]
    · rfl
  · simp only [enqueue]
    repeat' split
    all_goals rfl

end

/-! ## A stream -/

/-- The bytes that callbacks have been handed of one direction. -/
def bytesOf (fc : Bool) (cbs : List Callback) : Nat :=
  (cbs.map fun
    | .data fromClient c => if fromClient = fc then c.bytes.length else 0
    | _ => 0).sum

@[simp] theorem bytesOf_nil (fc : Bool) : bytesOf fc [] = 0 := rfl

@[simp] theorem bytesOf_append (fc : Bool) (cbs cbs' : List Callback) :
    bytesOf fc (cbs ++ cbs') = bytesOf fc cbs + bytesOf fc cbs' := by
  rw [bytesOf, List.map_append, List.sum_append]
  rfl

theorem bytesOf_data (fc fromClient : Bool) (cs : List Chunk) :
    bytesOf fc (cs.map (.data fromClient)) = if fromClient = fc then handed cs else 0 := by
  rw [bytesOf, List.map_map]
  split
  · rename_i h
    subst h
    simp only [Function.comp_def, if_pos, handed]
  · rename_i h
    simp [Function.comp_def, h]

theorem HalfStream.Counts.of_eq {h h' : HalfStream} {n : Nat} (hc : h.Counts n)
    (he : h'.received = h.received) : h'.Counts n := by
  obtain ⟨-, he⟩ := Prod.mk.injEq .. ▸ he
  obtain ⟨huc, he⟩ := Prod.mk.injEq .. ▸ he
  obtain ⟨hn, hf⟩ := Prod.mk.injEq .. ▸ he
  exact ⟨huc.trans hc.urgCount, hn.trans hc.count, hf ▸ hc.frags⟩

/-- Each direction has counted what its callbacks have been handed, of which there
is nothing before the connection. -/
structure TcpStream.Counts (s : TcpStream) (cbs : List Callback) : Prop where
  rcv : ∀ fc, (s.rcv fc).Counts (bytesOf fc cbs)
  silent : s.isconnnection = false → ∀ fc, bytesOf fc cbs = 0

section

variable {a : StreamPtr} {p : Packet} {fc : Bool} {w w' : Work} {cbs : List Callback}

/-- The same stream, as far as what its halves have received goes. -/
theorem TcpStream.Counts.of_eq {s s' : TcpStream} {cbs' : List Callback} (h : s.Counts cbs)
    (hr : ∀ fc, (s'.rcv fc).received = (s.rcv fc).received)
    (hb : ∀ fc, bytesOf fc cbs' = bytesOf fc cbs)
    (hi : s'.isconnnection = false → s.isconnnection = false) : s'.Counts cbs' :=
  ⟨fun fc => hb fc ▸ (h.rcv fc).of_eq (hr fc), fun hn fc => hb fc ▸ h.silent (hi hn) fc⟩

theorem isconnnection_takeAck (h : (takeAck p fc w).stream.isconnnection = false) :
    w.stream.isconnnection = false := by
  simp only [takeAck, acknowledge, establish] at h
  split at h
  · rw [TcpStream.isconnnection_withHalves] at h
    split at h
    · cases h
    · exact h
  · exact h

theorem bytesOf_takeAck (p : Packet) (fc : Bool) (w : Work) (fc' : Bool) :
    bytesOf fc' (takeAck p fc w).callbacks = bytesOf fc' w.callbacks := by
  simp only [takeAck, acknowledge, establish]
  repeat' split
  all_goals simp [bytesOf]

theorem TcpStream.Counts.takeAck (h : w.stream.Counts (cbs ++ w.callbacks)) :
    (takeAck p fc w).stream.Counts (cbs ++ (Tcp.takeAck p fc w).callbacks) :=
  h.of_eq (received_takeAck p fc w)
    (fun fc' => by rw [bytesOf_append, bytesOf_append, bytesOf_takeAck]) isconnnection_takeAck

/-- A packet that is accepted and brings data in order to a stream that is not connected, or
the byte at `urg_ptr` while `urg_seen` is set. -/
structure MiscountsWork (p : Packet) (fc : Bool) (w : Work) : Prop where
  accepted : Accepted p fc w
  data : 0 < datalen p.ip + (hasFlag p.ip TH_FIN).toNat
  taken : (Tcp.takeAck p fc w).stream.isconnnection = false ∧
      brings ((Tcp.takeAck p fc w).flow fc) (segmentOf p) ∨
    marked ((Tcp.takeAck p fc w).flow fc) (segmentOf p)

/-- Any other packet's data is handed over as it is counted. -/
theorem counted_of_not {q : Flow} {seg : Segment} {o : Owner}
    (h : ¬ (o.isconnnection = false ∧ brings q seg ∨ marked q seg)) : Counted o q (takenBy q seg) := by
  rw [not_or] at h
  constructor
  · by_contra hno
    rw [not_or, Bool.not_eq_true] at hno
    refine h.1 ⟨hno.1, List.any_eq_true.mpr ?_⟩
    have hne := hno.2
    push Not at hne
    exact hne.imp fun p hp => ⟨hp.1, decide_eq_true hp.2⟩
  · intro hseen p hp
    by_contra hholds
    refine h.2 (Bool.and_eq_true_iff.mpr ⟨hseen, List.any_eq_true.mpr ⟨p, hp, ?_⟩⟩)
    exact Bool.not_eq_false _ ▸ hholds

theorem length_segmentOf (p : Packet) : (segmentOf p).data.length ≤ 65535 := by
  have := ipLen_lt p.ip
  rw [segmentOf, length_bytesAt, datalen]
  omega

theorem TcpStream.Counts.takeData (h : w.stream.Counts (cbs ++ w.callbacks))
    (hurg : hasFlag p.ip TH_URG = false)
    (hc : 0 < datalen p.ip + (hasFlag p.ip TH_FIN).toNat →
      Counted ⟨a, w.stream.isconnnection⟩ (w.flow fc) (takenBy (w.flow fc) (segmentOf p))) :
    (takeData a p fc w).stream.Counts (cbs ++ (Tcp.takeData a p fc w).callbacks) := by
  rw [Tcp.takeData]
  split
  · rename_i hd
    have hflow : Flow.Counts (bytesOf fc (cbs ++ w.callbacks)) (w.flow fc) := h.rcv fc
    have hq := tcpQueue_counts ⟨a, w.stream.isconnnection⟩ p.timeStamp hflow hurg
      (length_segmentOf p) (hc hd)
    have hx : Flow.Extends ⟨a, w.stream.isconnnection⟩ p.timeStamp (w.flow fc) _ :=
      tcpQueue_extends _ (segmentOf p)
    obtain ⟨cs, hcs, hnil⟩ := hx.chunks
    replace hcs : (tcpQueue ⟨a, w.stream.isconnnection⟩ p.timeStamp (w.flow fc)
      (segmentOf p)).chunks = cs := hcs
    have hb (fc' : Bool) : bytesOf fc' (cbs ++ (queueData a p fc w).callbacks) =
        bytesOf fc' (cbs ++ w.callbacks) + if fc = fc' then handed cs else 0 := by
      rw [queueData, hcs, ← List.append_assoc, bytesOf_append, bytesOf_data]
    refine ⟨fun fc' => ?_, fun hi fc' => ?_⟩
    · have hr := received_queueData a p fc w fc'
      rw [hb]
      split at hr
      · rename_i hfc
        subst hfc
        rw [if_pos rfl, ← hcs]
        exact hq.of_eq hr
      · rename_i hfc
        rw [if_neg (Ne.symm hfc), Nat.add_zero]
        exact (h.rcv fc').of_eq hr
    · rw [queueData, TcpStream.isconnnection_withHalves] at hi
      rw [hb, hnil hi, h.silent hi]
      split <;> rfl
  · exact h

theorem TcpStream.Counts.updateWindow (h : w.stream.Counts cbs) :
    (updateWindow p fc w).stream.Counts cbs :=
  h.of_eq (received_updateWindow p fc w) (fun _ => rfl) fun hi => by
    rwa [Tcp.updateWindow, TcpStream.isconnnection_withHalves] at hi

theorem processSyn_counts (h : w.stream.Counts (cbs ++ w.callbacks))
    (hk : processSyn p fc w = .keep w') : w'.stream.Counts (cbs ++ w'.callbacks) := by
  simp only [processSyn] at hk
  split at hk
  · split at hk <;> cases hk
    exact h
  · split at hk
    · cases hk
      exact h
    · split at hk <;> cases hk
      · exact h
      · refine h.of_eq (fun fc' => ?_) (fun _ => rfl) id
        dsimp only
        cases fc' <;> (repeat' split) <;> rfl

/-- A packet for a stream that stays. -/
theorem processStream_counts (h : w.stream.Counts (cbs ++ w.callbacks))
    (hurg : hasFlag p.ip TH_URG = false) (he : ¬ MiscountsWork p fc w)
    (hk : processStream a p fc w = .keep w') : w'.stream.Counts (cbs ++ w'.callbacks) := by
  simp only [processStream] at hk
  split at hk
  · exact processSyn_counts h hk
  · rename_i hsyn
    split at hk
    · cases hk
      exact h
    · rename_i hout
      split at hk
      · cases hk
      · rename_i hrst
        split at hk
        · cases hk
        · rename_i hclosed
          split at hk
          · cases hk
          · cases hk
            refine (h.takeAck.takeData hurg fun hd => counted_of_not fun hno => ?_).updateWindow
            exact he ⟨⟨Bool.not_eq_true _ ▸ hsyn, Bool.not_eq_true _ ▸ hout,
              Bool.not_eq_true _ ▸ hrst, hclosed⟩, hd, hno⟩

end

/-! ## The streams of a run -/

open TcpFragment

variable {hash : Hash} {junk : StreamPtr → TcpStream} {t t' : TcpFragment} {a : StreamPtr}
  {s : TcpStream} {p : Packet} {es : List Event}

/-- Where a stream that is in the map after a packet comes from. -/
inductive Origin (hash : Hash) (junk : StreamPtr → TcpStream) (t : TcpFragment) (p : Packet)
    (a : StreamPtr) (s : TcpStream) (cbs : List Callback) : Prop where
  | old (hd : t.deref a = some s) (h : cbs = [])
  | new (ha : a = t.next) (hs : s = newStream hash (junk a) p.ip p.timeStamp) (h : cbs = [])
  | kept {fc : Bool} {s₀ : TcpStream} {w : Work} (hwf : wellFormed p.ip)
    (hf : t.findStream hash p.ip = some (a, fc)) (hd : t.deref a = some s₀)
    (hk : processStream a p fc (t.work s₀) = .keep w) (hs : s = w.stream) (h : cbs = w.callbacks)

theorem callbacksOf_endings_of_none (h : t.deref a = none) (D : List (StreamPtr × Callback)) :
    callbacksOf a (D.flatMap t.ending) = [] := by
  induction D with
  | nil => rfl
  | cons x D ih =>
    rw [List.flatMap_cons, callbacksOf_append, callbacksOf_ending, ih, h]
    split <;> rfl

namespace TcpFragment

/-- A stream after the creation of one, in tables from which some have been taken. -/
theorem Inv.origin_create (hi : t.Inv hash) {D : List StreamPtr}
    (hd : ((t.without D).create hash junk p).deref a = some s)
    (hcb : a ∉ D ∨ t.deref a = none → callbacksOf a es = []) :
    Origin hash junk t p a s (callbacksOf a es) := by
  rw [(hi.without _).deref_create] at hd
  split at hd
  · rename_i ha
    cases hd
    exact .new ha (by rw [ha]) (hcb (.inr (ha ▸ hi.deref_next)))
  · exact .old (deref_of_without hd) (hcb (.inl (notMem_of_deref_without hd)))

theorem Inv.origin (hi : t.Inv hash) (h : t.processPacket hash junk p = some (t', es))
    (hd : t'.deref a = some s) : Origin hash junk t p a s (callbacksOf a es) := by
  rw [TcpFragment.processPacket] at h
  split at h
  · cases h
    exact .old hd rfl
  · rename_i hwf
    have hwf : wellFormed p.ip := by simpa using hwf
    split at h
    · split at h
      · by_cases hlt : t.tcphashmap.length < tcpStreamTableSize
        · rw [addNewtcp_of_lt hlt] at h
          cases h
          rw [← without_nil t] at hd
          exact hi.origin_create hd fun _ => rfl
        · rw [addNewtcp_of_le (Nat.not_lt.mp hlt), hi.clearAllStream.eq, hi.clearAllStream.events] at h
          cases h
          exact hi.origin_create hd fun h => h.elim callbacksOf_endings_of_notMem
            fun hn => callbacksOf_endings_of_none hn _
      · cases h
        exact .old hd rfl
    · rename_i b fc hf
      obtain ⟨n, hn, rfl, -⟩ := exists_of_findStream hf
      have hdn := hi.deref hn
      split at h
      · have hlt := (length_without_lt hn).trans_le hi.length
        simp only [hi.freeTcpstream hdn, Option.bind_eq_bind, Option.bind_some, Option.pure_def,
          addNewtcp_of_lt hlt] at h
        cases h
        exact hi.origin_create hd fun _ => rfl
      · rename_i hfirst
        have hst := processStream_stages (a := n.ptr) (p := p) (Bool.not_eq_true _ ▸ hfirst) fc
          (t.work n.stream)
        simp only [hdn, Option.bind_eq_bind, Option.bind_some, Option.pure_def] at h
        split at h
        · rename_i w hw
          have h : t.conclude n.ptr w = (t', es) := Option.some.inj h
          rw [← show (t.conclude n.ptr w).1 = t' from congrArg Prod.fst h, deref_conclude hdn] at hd
          rw [← show (t.conclude n.ptr w).2 = es from congrArg Prod.snd h, callbacksOf_conclude]
          split at hd
          · rename_i ha
            cases hd
            subst ha
            exact .kept hwf hf hdn hw rfl (if_pos rfl)
          · rename_i ha
            exact .old hd (if_neg ha)
        · rename_i w hw
          have hfree : (t.conclude n.ptr w).1.freeTcpstream n.ptr = some (t.without [n.ptr]) :=
            hi.conclude_free hdn (hw ▸ hst : Stages _ _ _ _ (.free w)).frames
          simp only [hfree, Option.bind_some] at h
          cases h
          have ha : a ≠ n.ptr := by simpa using notMem_of_deref_without hd
          exact .old (deref_of_without hd) (by rw [callbacksOf_conclude, if_neg ha])
        · rename_i w hw
          rw [hw] at hst
          cases hst

end TcpFragment

/-- The stream that a packet is for in the tables that `tcpChecktimeouts` leaves, the side
that it comes from, and the work on the stream as it starts. -/
def TcpFragment.target (hash : Hash) (t : TcpFragment) (p : Packet) :
    Option (StreamPtr × Bool × Work) := do
  let (t, _) ← t.tcpChecktimeouts p.timeStamp
  let (a, fc) ← t.findStream hash p.ip
  let s ← t.deref a
  if wellFormed p.ip then some (a, fc, t.work s) else none

theorem target_eq_some {t₁ : TcpFragment} {es₁ : List Event} {fc : Bool}
    (hck : t.tcpChecktimeouts p.timeStamp = some (t₁, es₁)) (hwf : wellFormed p.ip)
    (hf : t₁.findStream hash p.ip = some (a, fc)) (hd : t₁.deref a = some s) :
    t.target hash p = some (a, fc, t₁.work s) := by
  simp only [TcpFragment.target, hck, hf, hd, hwf, Option.bind_eq_bind, Option.bind_some, if_true]

/-- What a packet does to the streams of the map: one that is there afterwards was there before
and is as it was, or is new, or is as its work has left it. -/
theorem TcpFragment.Inv.deref_processTcp (hi : t.Inv hash)
    (hp : t.processTcp hash junk p = some (t', es)) (hd : t'.deref a = some s) :
    t.deref a = some s ∨ (a = t.next ∧ s = newStream hash (junk a) p.ip p.timeStamp) ∨
      ∃ fc w w', t.target hash p = some (a, fc, w) ∧ t.deref a = some w.stream ∧
        processStream a p fc w = .keep w' ∧ s = w'.stream := by
  obtain ⟨D, t₁, es₁, hck, hc⟩ := hi.tcpChecktimeouts p.timeStamp
  have hi₁ : t₁.Inv hash := hc.eq ▸ hi.without _
  obtain ⟨t₂, es₂, hpp, -⟩ := hi₁.processPacket junk p
  rw [TcpFragment.processTcp, hck] at hp
  simp only [Option.bind_eq_bind, Option.bind_some, hpp, Option.pure_def, Option.some.injEq] at hp
  obtain ⟨rfl, -⟩ := Prod.mk.injEq .. ▸ hp
  have hold {s₀ : TcpStream} (h : t₁.deref a = some s₀) : t.deref a = some s₀ :=
    deref_of_without (hc.eq ▸ h)
  cases hi₁.origin hpp hd with
  | old hd₁ => exact .inl (hold hd₁)
  | new ha hs =>
    have hnext : t₁.next = t.next := by rw [hc.eq]; rfl
    exact .inr (.inl ⟨ha.trans hnext, hs⟩)
  | @kept fc s₀ w hwf hf hd₁ hk hs =>
    exact .inr (.inr ⟨fc, t₁.work s₀, w, target_eq_some hck hwf hf hd₁, hold hd₁, hk, hs⟩)

/-- The packet is one of these for its stream, in the tables that `tcpChecktimeouts` leaves. -/
def Miscounts (hash : Hash) (t : TcpFragment) (p : Packet) : Prop :=
  ∃ a fc w, t.target hash p = some (a, fc, w) ∧ MiscountsWork p fc w

/-- Every stream in the map has counted what its callbacks have been handed. -/
def TcpFragment.Counts (t : TcpFragment) (es : List Event) : Prop :=
  ∀ a s, t.deref a = some s → s.Counts (callbacksOf a es)

/-- A stream as it is made has received nothing. -/
theorem newStream_counts (d : List Byte) (ts : Int) : (newStream hash (junk a) d ts).Counts [] :=
  ⟨fun fc => match fc with
    | false => ⟨rfl, rfl, fun f hf => by cases hf⟩
    | true => ⟨rfl, rfl, fun f hf => by cases hf⟩, fun _ _ => rfl⟩

/-- No callback is about a stream that is not there yet. -/
theorem callbacksOf_next {ps : List Packet} (hr : runTcp hash junk ps = some (t, es)) :
    callbacksOf t.next es = [] := by
  obtain ⟨l, hl⟩ := runTcp_told hr t.next
  have hs := hl.new (Nat.le_refl _)
  rcases Life.word_of_after hl.after with ⟨h, -⟩ | ⟨data, last, -, -, ⟨-, he⟩ | ⟨cb, -, -, he⟩⟩
  · exact h
  · rw [hs] at he
    cases he
  · rw [hs] at he
    cases he

theorem TcpFragment.Counts.step {ps : List Packet} {es' : List Event}
    (hr : runTcp hash junk ps = some (t, es)) (h : t.Counts es)
    (hurg : hasFlag p.ip TH_URG = false) (he : ¬ Miscounts hash t p) (hs : t.processTcp hash junk p = some (t', es')) :
    t'.Counts (es ++ es') := by
  intro a s hd
  have hi := runTcp_inv hr
  obtain ⟨D, t₁, es₁, hck, hc⟩ := hi.tcpChecktimeouts p.timeStamp
  have hi₁ : t₁.Inv hash := hc.eq ▸ hi.without _
  obtain ⟨t₂, es₂, hpp, -⟩ := hi₁.processPacket junk p
  rw [TcpFragment.processTcp, hck] at hs
  simp only [Option.bind_eq_bind, Option.bind_some, hpp, Option.pure_def, Option.some.injEq] at hs
  cases hs
  -- What is there after the timers was there before, and the timers told nothing of it.
  have hold {b : StreamPtr} {s₀ : TcpStream} (hb : t₁.deref b = some s₀) :
      t.deref b = some s₀ ∧ callbacksOf b es₁ = [] := by
    rw [hc.eq] at hb
    exact ⟨deref_of_without hb, by rw [hc.events, callbacksOf_endings_of_notMem (notMem_of_deref_without hb)]⟩
  have happ : callbacksOf a (es ++ (es₁ ++ es₂)) =
      callbacksOf a es ++ (callbacksOf a es₁ ++ callbacksOf a es₂) := by
    rw [callbacksOf_append, callbacksOf_append]
  rw [happ]
  cases hi₁.origin hpp hd with
  | old hd₁ hcb =>
    obtain ⟨hd₀, hcb₁⟩ := hold hd₁
    rw [hcb, hcb₁, List.append_nil, List.append_nil]
    exact h a s hd₀
  | new ha hs hcb =>
    have hnext : a = t.next := by rw [ha, hc.eq]; rfl
    have hcb₁ : callbacksOf a es₁ = [] := by
      rw [hc.events]
      exact callbacksOf_endings_of_none (hnext ▸ hi.deref_next) _
    rw [hcb, hcb₁, List.append_nil, List.append_nil, hs, hnext, callbacksOf_next hr]
    exact newStream_counts _ _
  | @kept fc s₀ w hwf hf hd₁ hk hs hcb =>
    obtain ⟨hd₀, hcb₁⟩ := hold hd₁
    rw [hcb, hcb₁, List.nil_append, hs]
    have h₀ : (t₁.work s₀).stream.Counts (callbacksOf a es ++ (t₁.work s₀).callbacks) := by
      rw [show (t₁.work s₀).callbacks = [] from rfl, List.append_nil]
      exact h a s₀ hd₀
    exact processStream_counts h₀ hurg
      (fun hw => he ⟨a, fc, _, target_eq_some hck hwf hf hd₁, hw⟩) hk

theorem runTcp_counts {ps : List Packet} (hurg : ∀ p ∈ ps, hasFlag p.ip TH_URG = false)
    (he : Along (processTcp hash junk) (fun t p => ¬ Miscounts hash t p) empty ps)
    (hr : runTcp hash junk ps = some (t, es)) : t.Counts es := by
  refine run_induction_along (I := fun ps t es => (∀ p ∈ ps, hasFlag p.ip TH_URG = false) → t.Counts es)
    (fun _ a s hd => by cases hd) (fun {ps t es p t' es'} hr ih he hs hurg => ?_) hr he hurg
  exact (ih fun q hq => hurg q (List.mem_append_left _ hq)).step hr
    (hurg p (List.mem_append_right _ (List.mem_singleton_self p))) he hs

/-- What a connection is announced with: no callback before, and nothing counted. -/
theorem TcpFragment.Counts.connection {ps : List Packet} {es' : List Event}
    (hr : runTcp hash junk ps = some (t, es)) (h : t.Counts es)
    (hp : t.processTcp hash junk p = some (t', es')) {e : Event} (he : e ∈ es')
    (hc : e.callback = .connection) : ∃ s, t.deref e.aTcp = some s ∧ callbacksOf e.aTcp es = [] ∧
      ∀ fc, (s.rcv fc).count = 0 ∧ ((t.work s).flow fc).expSeq = (s.snd fc).firstDataSeq := by
  obtain ⟨-, s, -, -, hd, -⟩ := connection_work hr hp he hc
  have hmem : .connection ∈ callbacksOf e.aTcp es' :=
    List.mem_map.mpr ⟨e, List.mem_filter.mpr ⟨he, by simp⟩, hc⟩
  -- Nothing is in front of a connection.
  have hnil : callbacksOf e.aTcp es = [] := by
    obtain ⟨l, hl⟩ := runTcp_told (run_concat.mpr ⟨_, _, _, _, hr, hp, rfl⟩) e.aTcp
    have hword := Life.word_of_after hl.after
    rw [callbacksOf_append] at hword
    cases hcbs : callbacksOf e.aTcp es with
    | nil => rfl
    | cons cb cbs =>
      rw [hcbs, List.cons_append] at hword
      rcases hword with ⟨hno, -⟩ | ⟨data, last, hw, hdata, hlast⟩
      · cases hno
      · have hin : .connection ∈ data ++ last := by
          have htail : cbs ++ callbacksOf e.aTcp es' = data ++ last := (List.cons_eq_cons.mp hw).2
          rw [← htail]
          exact List.mem_append_right _ hmem
        rcases List.mem_append.mp hin with hin | hin
        · exact absurd (hdata _ hin) (by decide)
        · rcases hlast with ⟨rfl, -⟩ | ⟨cb', rfl, hterm, -⟩
          · cases hin
          · rw [← List.mem_singleton.mp hin] at hterm
            cases hterm
  refine ⟨s, hd, hnil, fun fc => ?_⟩
  have hs := (h e.aTcp s hd).rcv fc
  rw [hnil] at hs
  refine ⟨hs.count, ?_⟩
  show (s.snd fc).firstDataSeq + (s.rcv fc).count + (s.rcv fc).urgCount = (s.snd fc).firstDataSeq
  rw [hs.count, hs.urgCount]
  simp

/-- Without urgent data, and as long as no data comes in order before a connection or
holds the byte at an `urg_ptr` left in memory, each direction has counted the bytes it has handed
over, and nothing when the connection is announced. -/
theorem count_eq_handed (hash : Hash) {junk : StreamPtr → TcpStream} {ps : List Packet}
    (hurg : ∀ p ∈ ps, hasFlag p.ip TH_URG = false)
    (he : Along (processTcp hash junk) (fun t p => ¬ Miscounts hash t p) empty ps) :
    ∃ t es, runTcp hash junk ps = some (t, es) ∧
      (∀ a s, t.deref a = some s → ∀ fc,
        (s.rcv fc).count = BitVec.ofNat 32 (bytesOf fc (callbacksOf a es)) ∧
        (bytesOf fc (callbacksOf a es) < 2 ^ 31 →
          (s.rcv fc).count.toInt = bytesOf fc (callbacksOf a es))) ∧
      ∀ p t' es', t.processTcp hash junk p = some (t', es') → ∀ e ∈ es', e.callback = .connection →
        ∃ s, t.deref e.aTcp = some s ∧ callbacksOf e.aTcp es = [] ∧
          ∀ fc, (s.rcv fc).count = 0 ∧ ((t.work s).flow fc).expSeq = (s.snd fc).firstDataSeq := by
  obtain ⟨t, es, hr, -⟩ := runTcp_total hash junk ps
  have hcounts := runTcp_counts hurg he hr
  refine ⟨t, es, hr, fun a s hd fc => ?_, fun p t' es' hp e hmem hc =>
    hcounts.connection hr hp hmem hc⟩
  have hcount := ((hcounts a s hd).rcv fc).count
  refine ⟨hcount, fun hlt => ?_⟩
  rw [hcount, BitVec.toInt_eq_toNat_of_lt (by rw [BitVec.toNat_ofNat]; omega), BitVec.toNat_ofNat,
    Nat.mod_eq_of_lt (by omega)]

/-- A handshake, then two bytes from the client. -/
def handshakeThenData : List Packet :=
  [dataPacket true 1 0 TH_SYN [], dataPacket false 7 2 (TH_SYN ||| TH_ACK) [],
    dataPacket true 2 8 TH_ACK [], dataPacket true 2 8 TH_ACK [0x68, 0x69]]

/-- What `addNewtcp` may find in memory: an urgent byte seen far away, in both halves. -/
def farStream : TcpStream :=
  { emptyStream with
    client.urgSeen := true, client.urgPtr := 1000, server.urgSeen := true, server.urgPtr := 1000 }

/-- Whether packet `i` is counted as it is handed over. -/
def countedAt (ps : List Packet) (i : Nat) (p : Packet) : Bool :=
  (runTcp .plain (fun _ => farStream) (ps.take i)).all fun r =>
    (r.1.target .plain p).all fun x =>
      let w := takeAck p x.2.1 x.2.2
      (w.stream.isconnnection || !brings (w.flow x.2.1) (segmentOf p)) &&
        !marked (w.flow x.2.1) (segmentOf p)

theorem along_of_countedAt {ps : List Packet} (h : ∀ i p, ps[i]? = some p → countedAt ps i p = true) :
    Along (processTcp .plain fun _ => farStream) (fun t p => ¬ Miscounts .plain t p) empty ps := by
  rintro is₁ p is₂ t es rfl hr ⟨a, fc, w, htarget, hw⟩
  have hc := h is₁.length p (by simp)
  rw [countedAt, List.take_left, runTcp, hr, Option.all_some, htarget, Option.all_some,
    Bool.and_eq_true, Bool.or_eq_true] at hc
  rcases hw.taken with ⟨hno, hb⟩ | hm
  · simp [hno, hb] at hc
  · simp [hm] at hc

theorem count_eq_handed_handshake :
    ∃ t es, runTcp .plain (fun _ => farStream) handshakeThenData = some (t, es) ∧
      (∀ a s, t.deref a = some s → ∀ fc,
        (s.rcv fc).count = BitVec.ofNat 32 (bytesOf fc (callbacksOf a es)) ∧
        (bytesOf fc (callbacksOf a es) < 2 ^ 31 →
          (s.rcv fc).count.toInt = bytesOf fc (callbacksOf a es))) ∧
      ∀ p t' es', t.processTcp .plain (fun _ => farStream) p = some (t', es') →
        ∀ e ∈ es', e.callback = .connection →
          ∃ s, t.deref e.aTcp = some s ∧ callbacksOf e.aTcp es = [] ∧
            ∀ fc, (s.rcv fc).count = 0 ∧ ((t.work s).flow fc).expSeq = (s.snd fc).firstDataSeq :=
  count_eq_handed .plain (by decide) <| along_of_countedAt fun i p hp => by
    rcases i with _ | _ | _ | _ | i <;> cases hp <;> decide +kernel

/-- The same, but the two bytes come with a wrong acknowledgement before the handshake ends. -/
def earlyData : List Packet :=
  [dataPacket true 1 0 TH_SYN [], dataPacket false 7 2 (TH_SYN ||| TH_ACK) [],
    dataPacket true 2 9 TH_ACK [0x68, 0x69], dataPacket true 4 8 TH_ACK []]

/-- The bytes are counted before the connection is announced, and never handed over. -/
theorem count_early : (∀ p ∈ earlyData, hasFlag p.ip TH_URG = false) ∧ ∃ t es s,
    runTcp .plain (fun _ => emptyStream) earlyData = some (t, es) ∧ t.deref 0 = some s ∧
      callbacksOf 0 es = [.connection] ∧ s.server.count = 2 ∧ bytesOf true (callbacksOf 0 es) = 0 := by
  refine ⟨by decide, ?_⟩
  have hcheck : (runTcp .plain (fun _ => emptyStream) earlyData).all (fun r =>
      (r.1.deref 0).any (·.server.count = 2) && callbacksOf 0 r.2 = [.connection]) = true := by
    decide +kernel
  obtain ⟨t, es, hr, -⟩ := runTcp_total .plain (fun _ => emptyStream) earlyData
  rw [hr, Option.all_some, Bool.and_eq_true, Option.any_eq_true, decide_eq_true_eq] at hcheck
  obtain ⟨⟨s, hs, hcount⟩, hcb⟩ := hcheck
  exact ⟨t, es, s, hr, hs, hcb, of_decide_eq_true hcount, by rw [hcb]; rfl⟩

end Noff.Tcp
