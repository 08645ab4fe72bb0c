import Noff.Tcp.Process

/-!
# What a packet leaves alone

`tcpQueue` and the functions under it change few of the fields that the rest of
`processTcp` looks at: the state of `snd`, the timers of this one stream, and
the callbacks, which are only invoked for a connected stream (`Flow.Extends`).
The same is said of the work on a whole stream (`Work.Extends`).
-/

namespace Noff.Tcp

/-! ## Timers -/

/-- Adding a timer of a stream changes no other's. -/
@[simp] theorem delTimeout_insert (set : TimeoutSet) (a : StreamPtr) (time : Int) :
    delTimeout (set.insert ⟨a, time⟩) a = delTimeout set a := by
  refine OrderedSet.ext_mem fun e => ?_
  rw [mem_delTimeout, mem_delTimeout, OrderedSet.mem_insert]
  constructor
  · rintro ⟨h | ⟨rfl, -⟩, hne⟩
    · exact ⟨h, hne⟩
    · exact absurd rfl hne
  · rintro ⟨h, hne⟩
    exact ⟨.inl h, hne⟩

@[simp] theorem delTimeout_delTimeout (set : TimeoutSet) (a : StreamPtr) :
    delTimeout (delTimeout set a) a = delTimeout set a := by
  refine OrderedSet.ext_mem fun e => ?_
  rw [mem_delTimeout, mem_delTimeout, and_assoc, and_self]

@[simp] theorem delTimeout_updateTcptimeout (set : TimeoutSet) (a : StreamPtr) (ts : Int) :
    delTimeout (updateTcptimeout set a ts) a = delTimeout set a := by
  rw [updateTcptimeout, addTcptimeout, delTimeout_insert, delTimeout_delTimeout]

@[simp] theorem updateTcptimeout_updateTcptimeout (set : TimeoutSet) (a : StreamPtr) (ts : Int) :
    updateTcptimeout (updateTcptimeout set a ts) a ts = updateTcptimeout set a ts := by
  rw [updateTcptimeout, delTimeout_updateTcptimeout]
  rfl

@[simp] theorem addFintimeout_addFintimeout (set : TimeoutSet) (a : StreamPtr) (ts : Int) :
    addFintimeout (addFintimeout set a ts) a ts = addFintimeout set a ts := by
  refine OrderedSet.ext_mem fun e => ?_
  rw [addFintimeout, OrderedSet.mem_insert, or_iff_left_iff_imp]
  rintro ⟨rfl, h⟩
  -- The first insertion succeeded: nothing in the set has its second.
  refine OrderedSet.mem_insert.mpr (.inr ⟨rfl, fun y hy => h y ?_⟩)
  exact OrderedSet.mem_insert.mpr (.inl hy)

/-! ## One direction -/

/-- What can become of a flow in a call for the stream `a`. -/
structure Flow.Extends (a : Owner) (ts : Int) (q q' : Flow) : Prop where
  sndSeq : q'.snd.seq = q.snd.seq
  sndBuffer : q'.snd.buffer = q.snd.buffer
  rcvSeq : q'.rcv.seq = q.rcv.seq
  rcvState : q'.rcv.state = q.rcv.state
  sndState : q'.snd.state = q.snd.state ∨ q'.snd.state = .closing ∨ q'.snd.state = .finSent
  tcp : q'.tcpTimeoutSet = q.tcpTimeoutSet ∨
    q'.tcpTimeoutSet = updateTcptimeout q.tcpTimeoutSet a.aTcp ts
  fin : q'.finTimeoutSet = q.finTimeoutSet ∨
    q'.finTimeoutSet = addFintimeout q.finTimeoutSet a.aTcp ts
  chunks : ∃ cs, q'.chunks = q.chunks ++ cs ∧ (a.isconnnection = false → cs = [])

section

variable {a : Owner} {ts : Int} {q q' q'' : Flow}

theorem Flow.Extends.refl (q : Flow) : q.Extends a ts q :=
  ⟨rfl, rfl, rfl, rfl, .inl rfl, .inl rfl, .inl rfl, [], by rw [List.append_nil], fun _ => rfl⟩

theorem Flow.Extends.trans (h : q.Extends a ts q') (h' : q'.Extends a ts q'') :
    q.Extends a ts q'' where
  sndSeq := h'.sndSeq.trans h.sndSeq
  sndBuffer := h'.sndBuffer.trans h.sndBuffer
  rcvSeq := h'.rcvSeq.trans h.rcvSeq
  rcvState := h'.rcvState.trans h.rcvState
  sndState := by
    rcases h'.sndState with he | he
    · rw [he]; exact h.sndState
    · exact .inr he
  tcp := by
    rcases h'.tcp with he | he <;> rcases h.tcp with he' | he' <;> rw [he, he'] <;> simp
  fin := by
    rcases h'.fin with he | he <;> rcases h.fin with he' | he' <;> rw [he, he'] <;> simp
  chunks := by
    obtain ⟨cs, he, hc⟩ := h.chunks
    obtain ⟨cs', he', hc'⟩ := h'.chunks
    refine ⟨cs ++ cs', by rw [he', he, List.append_assoc], fun hn => ?_⟩
    rw [hc hn, hc' hn, List.append_nil]

/-- The other fields of `rcv` may change in any way. -/
theorem Flow.Extends.rcv (h : q.Extends a ts q') {rcv : HalfStream} (hs : rcv.seq = q'.rcv.seq)
    (hst : rcv.state = q'.rcv.state) : q.Extends a ts { q' with rcv := rcv } :=
  ⟨h.sndSeq, h.sndBuffer, hs.trans h.rcvSeq, hst.trans h.rcvState, h.sndState, h.tcp, h.fin, h.chunks⟩

theorem notify_extends (q : Flow) (data : List Byte) (off len : Int) :
    q.Extends a ts (notify a q data off len) := by
  cases hc : a.isconnnection with
  | false =>
    simp only [notify, hc, Bool.false_eq_true, ite_false]
    split
    · exact .refl q
    · exact (Flow.Extends.refl q).rcv rfl rfl
  | true =>
    have h : q.Extends a ts { q with chunks := q.chunks ++ [⟨data, off, len⟩] } :=
      ⟨rfl, rfl, rfl, rfl, .inl rfl, .inl rfl, .inl rfl, [⟨data, off, len⟩], rfl,
        fun hn => by rw [hc] at hn; cases hn⟩
    simp only [notify, hc, ite_true]
    split
    · exact h
    · exact h.rcv rfl rfl

theorem noteUrgent_extends (q : Flow) (urg : Bool) (urgPtr : BitVec 32) :
    q.Extends a ts (noteUrgent q urg urgPtr) := by
  rw [noteUrgent]
  split
  · exact (Flow.Extends.refl q).rcv rfl rfl
  · exact .refl q

theorem addPart_extends (q : Flow) (data : List Byte) (off : Int) (n : BitVec 32) :
    q.Extends a ts (addPart a q data off n) := by
  refine Flow.Extends.trans ?_ (notify_extends _ _ _ _)
  exact (Flow.Extends.refl q).rcv rfl rfl

theorem takeUrgent_extends (q : Flow) (data : List Byte) (thisSeq : BitVec 32) :
    q.Extends a ts (takeUrgent a q data thisSeq) := by
  refine Flow.Extends.rcv (Flow.Extends.trans ?_ (notify_extends _ _ _ _)) rfl rfl
  exact (Flow.Extends.refl q).rcv rfl rfl

theorem addPlain_extends (q : Flow) (data : List Byte) (lost : BitVec 32) :
    q.Extends a ts (addPlain a q data lost) := by
  rw [addPlain]
  split
  · exact addPart_extends _ _ _ _
  · exact .refl q

theorem addUrgent_extends (q : Flow) (data : List Byte) (thisSeq lost : BitVec 32) :
    q.Extends a ts (addUrgent a q data thisSeq lost) := by
  have hpart (q : Flow) (n : BitVec 32) (off : Int) : q.Extends a ts
      (if 0 < n.toInt then addPart a q data off n else q) := by
    split
    · exact addPart_extends _ _ _ _
    · exact .refl q
  exact (hpart q _ _).trans ((takeUrgent_extends _ _ _).trans (hpart _ _ _))

theorem addFin_extends (q : Flow) (fin : Bool) : q.Extends a ts (addFin a ts q fin) := by
  have h : q.Extends a ts { q with snd.state := .finSent } :=
    ⟨rfl, rfl, rfl, rfl, .inr (.inr rfl), .inl rfl, .inl rfl, [], by rw [List.append_nil], fun _ => rfl⟩
  simp only [addFin]
  split
  · split
    · exact ⟨h.sndSeq, h.sndBuffer, h.rcvSeq, h.rcvState, h.sndState, h.tcp, .inr rfl, h.chunks⟩
    · exact h
  · exact .refl q

theorem addFromskb_extends (q : Flow) (data : List Byte) (thisSeq : BitVec 32) (fin urg : Bool)
    (urgPtr : BitVec 32) : q.Extends a ts (addFromskb a ts q data thisSeq fin urg urgPtr) := by
  simp only [addFromskb]
  refine Flow.Extends.trans ?_ (addFin_extends _ _)
  refine (noteUrgent_extends q urg urgPtr).trans ?_
  split
  · exact addUrgent_extends _ _ _ _
  · exact addPlain_extends _ _ _

/-- A call of `updateTcptimeout` and one of `addFromskb`. -/
theorem update_addFromskb_extends (q : Flow) (data : List Byte) (thisSeq : BitVec 32)
    (fin urg : Bool) (urgPtr : BitVec 32) :
    q.Extends a ts (addFromskb a ts
      { q with tcpTimeoutSet := updateTcptimeout q.tcpTimeoutSet a.aTcp ts }
      data thisSeq fin urg urgPtr) := by
  refine Flow.Extends.trans ?_ (addFromskb_extends _ data thisSeq fin urg urgPtr)
  exact ⟨rfl, rfl, rfl, rfl, .inl rfl, .inr rfl, .inl rfl, [], by rw [List.append_nil], fun _ => rfl⟩

theorem drain_extends (q : Flow) (frags : List Skbuff) : q.Extends a ts (drain a ts q frags) := by
  induction frags generalizing q with
  | nil => exact (Flow.Extends.refl q).rcv rfl rfl
  | cons frag rest ih =>
    simp only [drain]
    split
    · exact (Flow.Extends.refl q).rcv rfl rfl
    · refine Flow.Extends.trans ?_ (ih _)
      refine Flow.Extends.rcv ?_ rfl rfl
      split
      · exact update_addFromskb_extends q _ _ _ _ _
      · exact .refl q

theorem enqueue_extends (q : Flow) (seg : Segment) : q.Extends a ts (enqueue a ts q seg) := by
  simp only [enqueue]
  refine Flow.Extends.rcv ?_ rfl rfl
  have h : q.Extends a ts { q with
      rcv.rmemAlloc := q.rcv.rmemAlloc + seg.pakiet.truesize, snd.state := .closing } :=
    ⟨rfl, rfl, rfl, rfl, .inr (.inl rfl), .inl rfl, .inl rfl, [], by rw [List.append_nil], fun _ => rfl⟩
  split
  · split
    · exact ⟨h.sndSeq, h.sndBuffer, h.rcvSeq, h.rcvState, h.sndState, h.tcp, .inr rfl, h.chunks⟩
    · exact h
  · exact (Flow.Extends.refl q).rcv rfl rfl

theorem tcpQueue_extends (q : Flow) (seg : Segment) : q.Extends a ts (tcpQueue a ts q seg) := by
  simp only [tcpQueue]
  split
  · split
    · exact (update_addFromskb_extends q _ _ _ _ _).trans (drain_extends _ _)
    · exact .refl q
  · exact enqueue_extends q seg

theorem urgPtr_addPart (a : Owner) (q : Flow) (data : List Byte) (off : Int) (n : BitVec 32) :
    (addPart a q data off n).rcv.urgPtr = q.rcv.urgPtr := by
  simp only [addPart, notify]
  split <;> split <;> rfl

theorem urgPtr_takeUrgent (a : Owner) (q : Flow) (data : List Byte) (thisSeq : BitVec 32) :
    (takeUrgent a q data thisSeq).rcv.urgPtr = q.rcv.urgPtr := by
  simp only [takeUrgent, notify]
  split <;> rfl

end

/-! ## A stream -/

/-- The states of a half before its side of the connection is established. -/
def TcpState.handshake : TcpState → Bool
  | .synSent | .synRecv | .close => true
  | _ => false

/-- A half keeps its initial sequence number and never goes back to a state of
the handshake. -/
structure HalfStream.Extends (h h' : HalfStream) : Prop where
  seq : h'.seq = h.seq
  state : h'.state = h.state ∨ h'.state.handshake = false

theorem HalfStream.Extends.refl (h : HalfStream) : h.Extends h := ⟨rfl, .inl rfl⟩

theorem HalfStream.Extends.trans {h h' h'' : HalfStream} (h₁ : h.Extends h')
    (h₂ : h'.Extends h'') : h.Extends h'' := by
  refine ⟨h₂.seq.trans h₁.seq, ?_⟩
  rcases h₂.state with he | he
  · rw [he]; exact h₁.state
  · exact .inr he

/-- The work on the stream `a` keeps its place in the table, and the timers of
other streams. -/
structure Work.Frames (a : StreamPtr) (ts : Int) (w w' : Work) : Prop where
  addr : w'.stream.addr = w.stream.addr
  hashIndex : w'.stream.hashIndex = w.stream.hashIndex
  tcp : w'.tcpTimeoutSet = w.tcpTimeoutSet ∨
    w'.tcpTimeoutSet = updateTcptimeout w.tcpTimeoutSet a ts
  fin : w'.finTimeoutSet = w.finTimeoutSet ∨
    w'.finTimeoutSet = addFintimeout w.finTimeoutSet a ts

/-- What can become of it in a packet without SYN. -/
structure Work.Extends (a : StreamPtr) (ts : Int) (w w' : Work) : Prop
    extends Work.Frames a ts w w' where
  client : w.stream.client.Extends w'.stream.client
  server : w.stream.server.Extends w'.stream.server

section

variable {a : StreamPtr} {p : Packet} {w w' w'' : Work}

theorem Work.Extends.refl {ts : Int} (w : Work) : w.Extends a ts w :=
  ⟨⟨rfl, rfl, .inl rfl, .inl rfl⟩, .refl _, .refl _⟩

theorem Work.Extends.trans {ts : Int} (h : w.Extends a ts w') (h' : w'.Extends a ts w'') :
    w.Extends a ts w'' where
  addr := h'.addr.trans h.addr
  hashIndex := h'.hashIndex.trans h.hashIndex
  client := h.client.trans h'.client
  server := h.server.trans h'.server
  tcp := by
    rcases h'.tcp with he | he <;> rcases h.tcp with he' | he' <;> rw [he, he'] <;> simp
  fin := by
    rcases h'.fin with he | he <;> rcases h.fin with he' | he' <;> rw [he, he'] <;> simp

/-- The two halves and the timers may be replaced by what they extend to. -/
theorem Work.Extends.halves {ts : Int} (w : Work) (fc : Bool) {snd rcv : HalfStream}
    {tcp fin : TimeoutSet} (cbs : List Callback) (hs : (w.stream.snd fc).Extends snd)
    (hr : (w.stream.rcv fc).Extends rcv)
    (ht : tcp = w.tcpTimeoutSet ∨ tcp = updateTcptimeout w.tcpTimeoutSet a ts)
    (hf : fin = w.finTimeoutSet ∨ fin = addFintimeout w.finTimeoutSet a ts) :
    w.Extends a ts ⟨w.stream.withHalves fc snd rcv, tcp, fin, cbs⟩ := by
  cases fc with
  | false => exact ⟨⟨rfl, rfl, ht, hf⟩, hr, hs⟩
  | true => exact ⟨⟨rfl, rfl, ht, hf⟩, hs, hr⟩

theorem end_extends (w : Work) (cb : Callback) : w.Extends a p.timeStamp (w.end cb) := by
  rw [Work.end]
  split
  · exact ⟨⟨rfl, rfl, .inl rfl, .inl rfl⟩, .refl _, .refl _⟩
  · exact .refl w

theorem establish_extends (fc : Bool) (w : Work) :
    w.Extends a p.timeStamp (establish p fc w) := by
  simp only [establish]
  split
  · exact ⟨⟨rfl, rfl, .inl rfl, .inl rfl⟩, ⟨rfl, .inr rfl⟩, ⟨rfl, .inr rfl⟩⟩
  · exact .refl w

theorem acknowledge_extends (fc : Bool) (w : Work) :
    w.Extends a p.timeStamp (acknowledge p fc w) := by
  refine Work.Extends.halves w fc _ ?_ ?_ (.inl rfl) (.inl rfl)
  · rw [handleAck]
    split
    · exact ⟨rfl, .inl rfl⟩
    · exact .refl _
  · split
    · exact ⟨rfl, .inr rfl⟩
    · exact .refl _

theorem takeData_extends (fc : Bool) (w : Work) :
    w.Extends a p.timeStamp (takeData a p fc w) := by
  rw [takeData]
  split
  · have h : Flow.Extends ⟨a, w.stream.isconnnection⟩ p.timeStamp (w.flow fc) _ :=
      tcpQueue_extends _ (segmentOf p)
    refine Work.Extends.halves w fc _ ⟨h.sndSeq, ?_⟩ ⟨h.rcvSeq, .inl h.rcvState⟩ h.tcp h.fin
    rcases h.sndState with he | he | he
    · exact .inl he
    · exact .inr (by rw [he]; rfl)
    · exact .inr (by rw [he]; rfl)
  · exact .refl w

theorem updateWindow_extends (fc : Bool) (w : Work) :
    w.Extends a p.timeStamp (updateWindow p fc w) :=
  Work.Extends.halves w fc _ ⟨rfl, .inl rfl⟩ (.refl _) (.inl rfl) (.inl rfl)

theorem takeAck_extends (fc : Bool) (w : Work) : w.Extends a p.timeStamp (takeAck p fc w) := by
  rw [takeAck]
  split
  · exact (establish_extends fc w).trans (acknowledge_extends fc _)
  · exact .refl w

/-- What a half has received. -/
def HalfStream.received (h : HalfStream) : Bool × BitVec 32 × BitVec 32 × List Skbuff :=
  (h.urgSeen, h.urgCount, h.count, h.fraglist)

theorem received_withHalves {s : TcpStream} {snd rcv : HalfStream} (fc fc' : Bool) :
    ((s.withHalves fc snd rcv).rcv fc').received =
      if fc' = fc then rcv.received else snd.received := by
  cases fc <;> cases fc' <;> rfl

theorem TcpStream.rcv_not (s : TcpStream) {fc fc' : Bool} (h : fc' ≠ fc) : s.rcv fc' = s.snd fc := by
  cases fc <;> cases fc' <;> first | rfl | exact absurd rfl h

/-- An ACK is none of what a half receives. -/
theorem received_takeAck (p : Packet) (fc : Bool) (w : Work) (fc' : Bool) :
    ((takeAck p fc w).stream.rcv fc').received = (w.stream.rcv fc').received := by
  simp only [takeAck, acknowledge, establish, handleAck]
  cases fc <;> cases fc' <;> (repeat' split) <;> rfl

/-- Nor is the window. -/
theorem received_updateWindow (p : Packet) (fc : Bool) (w : Work) (fc' : Bool) :
    ((updateWindow p fc w).stream.rcv fc').received = (w.stream.rcv fc').received := by
  rw [updateWindow, received_withHalves]
  split
  · rename_i hfc
    rw [hfc]
  · rename_i hfc
    rw [w.stream.rcv_not hfc]
    rfl

/-! ## The outcome for a stream -/

/-- The second packet of a handshake is taken: the server has sent its initial
sequence number and acknowledged that of the client. -/
structure SynAck (p : Packet) (fc : Bool) (w w' : Work) : Prop where
  fromServer : fc = false
  syn : hasFlag p.ip TH_SYN
  ack : hasFlag p.ip TH_ACK
  synSent : w.stream.client.state = .synSent
  clientSeq : w.stream.client.seq = thAck p.ip
  addr : w'.stream.addr = w.stream.addr
  hashIndex : w'.stream.hashIndex = w.stream.hashIndex
  isconnnection : w'.stream.isconnnection = w.stream.isconnnection
  client : w.stream.client.Extends w'.stream.client
  serverState : w'.stream.server.state = .synRecv
  serverSeq : w'.stream.server.seq = thSeq p.ip + 1
  clientBuffer : w'.stream.client.buffer = w.stream.client.buffer
  serverBuffer : w'.stream.server.buffer = w.stream.server.buffer
  received : ∀ fc', (w'.stream.rcv fc').received = (w.stream.rcv fc').received
  tcp : w'.tcpTimeoutSet = w.tcpTimeoutSet
  fin : w'.finTimeoutSet = w.finTimeoutSet
  callbacks : w'.callbacks = w.callbacks

def Outcome.work : Outcome → Work
  | .keep w | .free w | .renew w => w

/-- A packet without SYN and RST, within the window, whose ACK does not close the stream. -/
structure Accepted (p : Packet) (fc : Bool) (w : Work) : Prop where
  syn : hasFlag p.ip TH_SYN = false
  window : outOfWindow p.ip (w.stream.rcv fc) = false
  rst : hasFlag p.ip TH_RST = false
  stillOpen : ¬ (hasFlag p.ip TH_ACK ∧ (takeAck p fc w).stream.closed)

/-- What a packet does to the stream it is for, unless it starts a new one. -/
inductive Stages (a : StreamPtr) (p : Packet) (fc : Bool) (w : Work) : Outcome → Prop where
  | ignored (h : hasFlag p.ip TH_SYN ∨ outOfWindow p.ip (w.stream.rcv fc)) :
    Stages a p fc w (.keep w)
  | synAck {w' : Work} (h : SynAck p fc w w') : Stages a p fc w (.keep w')
  | rst (hrst : hasFlag p.ip TH_RST) : Stages a p fc w (.free (w.end .rst))
  | closed (h : (takeAck p fc w).stream.closed) : Stages a p fc w (.free ((takeAck p fc w).end .close))
  | overflow (hacc : Accepted p fc w)
    (h : 65535 < ((takeData a p fc (takeAck p fc w)).stream.rcv fc).rmemAlloc.toInt) :
    Stages a p fc w (.free (updateWindow p fc (takeData a p fc (takeAck p fc w))))
  | taken (hacc : Accepted p fc w)
    (h : ¬ 65535 < ((takeData a p fc (takeAck p fc w)).stream.rcv fc).rmemAlloc.toInt) :
    Stages a p fc w (.keep (updateWindow p fc (takeData a p fc (takeAck p fc w))))

theorem processSyn_stages (hf : isFirst p.ip = false) (hsyn : hasFlag p.ip TH_SYN) (fc : Bool)
    (w : Work) : Stages a p fc w (processSyn p fc w) := by
  cases fc with
  | true =>
    simp only [processSyn, ite_true]
    split
    · -- A packet with these flags would be the first of a connection.
      rename_i h
      simp_all [isFirst]
    · exact .ignored (.inl hsyn)
  | false =>
    simp only [processSyn, Bool.false_eq_true, ite_false]
    split
    · exact .ignored (.inl hsyn)
    · rename_i hst
      split
      · exact .ignored (.inl hsyn)
      · rename_i hseq
        simp only [ne_eq, not_or, not_not, Bool.not_eq_true'] at hst hseq
        refine .synAck ⟨rfl, hsyn, by simpa using hst.2.2, hst.1, hseq, rfl, rfl, rfl, ?_, ?_, ?_,
          ?_, ?_, fun fc' => ?_, rfl, rfl, rfl⟩
        · dsimp only
          repeat' split
          all_goals exact ⟨rfl, .inl rfl⟩
        on_goal 5 => cases fc'
        all_goals
          dsimp only
          repeat' split
          all_goals rfl

theorem processStream_stages (hf : isFirst p.ip = false) (fc : Bool) (w : Work) :
    Stages a p fc w (processStream a p fc w) := by
  simp only [processStream]
  split
  · rename_i hsyn
    exact processSyn_stages hf hsyn fc w
  · rename_i hsyn
    split
    · rename_i hout
      exact .ignored (.inr hout)
    · rename_i hout
      split
      · rename_i hrst
        exact .rst hrst
      · rename_i hrst
        split
        · rename_i h
          exact .closed h.2
        · rename_i hclosed
          have hacc : Accepted p fc w :=
            ⟨Bool.not_eq_true _ ▸ hsyn, Bool.not_eq_true _ ▸ hout, Bool.not_eq_true _ ▸ hrst, hclosed⟩
          have hrcv (w : Work) : (updateWindow p fc w).stream.rcv fc = w.stream.rcv fc :=
            TcpStream.rcv_withHalves ..
          split
          · rename_i h
            exact .overflow hacc (by rwa [hrcv] at h)
          · rename_i h
            exact .taken hacc (by rwa [hrcv] at h)

theorem Stages.frames {fc : Bool} {o : Outcome} (h : Stages a p fc w o) :
    w.Frames a p.timeStamp o.work := by
  have hack := takeAck_extends (a := a) (p := p) fc w
  have htake := hack.trans ((takeData_extends fc _).trans (updateWindow_extends fc _))
  cases h with
  | ignored => exact (Work.Extends.refl w).toFrames
  | synAck h => exact ⟨h.addr, h.hashIndex, .inl h.tcp, .inl h.fin⟩
  | rst => exact (end_extends w .rst).toFrames
  | closed => exact (hack.trans (end_extends _ .close)).toFrames
  | overflow => exact htake.toFrames
  | taken => exact htake.toFrames

theorem Work.Frames.delTcp {ts : Int} (h : w.Frames a ts w') :
    delTimeout w'.tcpTimeoutSet a = delTimeout w.tcpTimeoutSet a := by
  rcases h.tcp with he | he <;> rw [he]
  exact delTimeout_updateTcptimeout ..

theorem Work.Frames.delFin {ts : Int} (h : w.Frames a ts w') :
    delTimeout w'.finTimeoutSet a = delTimeout w.finTimeoutSet a := by
  rcases h.fin with he | he <;> rw [he]
  exact delTimeout_insert ..

end

end Noff.Tcp
