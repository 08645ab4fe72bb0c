import Noff.Tcp.Invariant

/-!
# What a new stream leaves unassigned

`addNewtcp` copies a local variable of which it does not assign every field.
Two runs whose local variables agree on the urgent pointers of both halves and on
the window and first sequence number of the server's half (`TcpStream.Agree`)
invoke the same callbacks and keep the same streams (`sameRuns_of_agree`): no
other field is read before it is written.
-/

namespace Noff.Tcp

/-! ## Halves that behave the same -/

/-- The two halves, of a client or a server, differ only in fields that nothing looks at
or that are written first: those of urgent data in part, and for a server
its first sequence number, until it has sent it, and whether it scales its window. -/
structure HalfStream.Like (client : Bool) (h h' : HalfStream) : Prop where
  state : h'.state = h.state
  count : h'.count = h.count
  rmemAlloc : h'.rmemAlloc = h.rmemAlloc
  urgCount : h'.urgCount = h.urgCount
  ackSeq : h'.ackSeq = h.ackSeq
  firstDataSeq : h'.firstDataSeq = h.firstDataSeq
  urgSeen : h'.urgSeen = h.urgSeen
  urgPtr : h.urgSeen → h'.urgPtr = h.urgPtr
  wscale : h'.wscale = h.wscale
  scaled : h'.window.setWidth 32 * h'.wscale = h.window.setWidth 32 * h.wscale
  fraglist : h'.fraglist = h.fraglist
  seq : client ∨ h.state = .synRecv → h'.seq = h.seq
  wscaleOn : client → h'.wscaleOn = h.wscaleOn
  window : client → h'.window = h.window

/-- Both halves may go on to the same state. -/
theorem HalfStream.Like.setState {c : Bool} {h h' : HalfStream} (hl : h.Like c h') {st : TcpState}
    (hst : st ≠ .synRecv) : HalfStream.Like c { h with state := st } { h' with state := st } :=
  ⟨rfl, hl.2, hl.3, hl.4, hl.5, hl.6, hl.7, hl.8, hl.9, hl.10, hl.11,
    fun hs => hl.seq (hs.imp_right fun he => absurd he hst), hl.13, hl.14⟩

/-- The urgent pointer stays while data is passed on. -/
structure Flow.Like (fc : Bool) (q q' : Flow) : Prop where
  snd : q.snd.Like fc q'.snd
  rcv : q.rcv.Like (!fc) q'.rcv
  tcpTimeoutSet : q'.tcpTimeoutSet = q.tcpTimeoutSet
  finTimeoutSet : q'.finTimeoutSet = q.finTimeoutSet
  chunks : q'.chunks = q.chunks

section

variable {a : Owner} {ts : Int} {fc : Bool} {q q' : Flow} (h : q.Like fc q')
include h

theorem Flow.Like.expSeq : q'.expSeq = q.expSeq := by
  rw [Flow.expSeq, Flow.expSeq, h.snd.firstDataSeq, h.rcv.count, h.rcv.urgCount]

/-- `rcv` may be changed in both, alike. -/
theorem Flow.Like.setRcv {rcv rcv' : HalfStream} (hr : rcv.Like (!fc) rcv') :
    Flow.Like fc { q with rcv := rcv } { q' with rcv := rcv' } :=
  ⟨h.snd, hr, h.tcpTimeoutSet, h.finTimeoutSet, h.chunks⟩

theorem Flow.Like.setTcp (a : Owner) (ts : Int) : Flow.Like fc
    { q with tcpTimeoutSet := updateTcptimeout q.tcpTimeoutSet a.aTcp ts }
    { q' with tcpTimeoutSet := updateTcptimeout q'.tcpTimeoutSet a.aTcp ts } :=
  ⟨h.snd, h.rcv, by rw [h.tcpTimeoutSet], h.finTimeoutSet, h.chunks⟩

/-- `count_new` is reset or not; nothing reads it. -/
theorem Flow.Like.reset : Flow.Like fc
    (if q.rcv.countNewUrg then q else { q with rcv.countNew := 0 })
    (if q'.rcv.countNewUrg then q' else { q' with rcv.countNew := 0 }) := by
  have hr := h.rcv
  have hr' : HalfStream.Like (!fc) { q.rcv with countNew := 0 } { q'.rcv with countNew := 0 } :=
    ⟨hr.1, hr.2, hr.3, hr.4, hr.5, hr.6, hr.7, hr.8, hr.9, hr.10, hr.11, hr.12, hr.13, hr.14⟩
  have hl : HalfStream.Like (!fc) { q.rcv with countNew := 0 } q'.rcv :=
    ⟨hr.1, hr.2, hr.3, hr.4, hr.5, hr.6, hr.7, hr.8, hr.9, hr.10, hr.11, hr.12, hr.13, hr.14⟩
  have hl' : HalfStream.Like (!fc) q.rcv { q'.rcv with countNew := 0 } :=
    ⟨hr.1, hr.2, hr.3, hr.4, hr.5, hr.6, hr.7, hr.8, hr.9, hr.10, hr.11, hr.12, hr.13, hr.14⟩
  split <;> split
  · exact h
  · exact h.setRcv hl'
  · exact h.setRcv hl
  · exact h.setRcv hr'

theorem Flow.Like.notify (data : List Byte) (off len : Int) :
    (notify a q data off len).Like fc (notify a q' data off len) := by
  have hq : Flow.Like fc { q with chunks := q.chunks ++ [⟨data, off, len⟩] }
      { q' with chunks := q'.chunks ++ [⟨data, off, len⟩] } :=
    ⟨h.snd, h.rcv, h.tcpTimeoutSet, h.finTimeoutSet, by rw [h.chunks]⟩
  cases ha : a.isconnnection with
  | true =>
    simp only [Tcp.notify, ha, ite_true]
    exact hq.reset
  | false =>
    simp only [Tcp.notify, ha, Bool.false_eq_true, ite_false]
    exact h.reset

theorem Flow.Like.noteUrgent (urg : Bool) (urgPtr : BitVec 32) :
    (noteUrgent q urg urgPtr).Like fc (noteUrgent q' urg urgPtr) := by
  have hr := h.rcv
  have hset : HalfStream.Like (!fc) { q.rcv with urgPtr := urgPtr, urgSeen := true }
      { q'.rcv with urgPtr := urgPtr, urgSeen := true } :=
    ⟨hr.1, hr.2, hr.3, hr.4, hr.5, hr.6, rfl, fun _ => rfl, hr.9, hr.10, hr.11, hr.12, hr.13, hr.14⟩
  -- The pointer is compared only if there is one.
  have hcond : (!q'.rcv.urgSeen || after urgPtr q'.rcv.urgPtr) =
      (!q.rcv.urgSeen || after urgPtr q.rcv.urgPtr) := by
    rw [hr.urgSeen]
    cases hs : q.rcv.urgSeen with
    | false => rw [Bool.not_false, Bool.true_or, Bool.true_or]
    | true => rw [hr.urgPtr hs]
  rw [Tcp.noteUrgent, Tcp.noteUrgent, h.expSeq, Bool.and_assoc, Bool.and_assoc, hcond]
  split
  · exact h.setRcv hset
  · exact h

theorem Flow.Like.addPart (data : List Byte) (off : Int) (n : BitVec 32) :
    (addPart a q data off n).Like fc (addPart a q' data off n) := by
  have hr := h.rcv
  refine Flow.Like.notify (h.setRcv ?_) data off n.toInt
  exact ⟨hr.1, by rw [hr.count], hr.3, hr.4, hr.5, hr.6, hr.7, hr.8, hr.9, hr.10, hr.11, hr.12, hr.13, hr.14⟩

theorem Flow.Like.takeUrgent (data : List Byte) (thisSeq : BitVec 32) :
    (takeUrgent a q data thisSeq).Like fc (takeUrgent a q' data thisSeq) := by
  have hr := h.rcv
  have hstart : Flow.Like fc
      { q with rcv.urgdata := byteAt data (q.rcv.urgPtr - thisSeq).toNat, rcv.countNewUrg := true }
      { q' with rcv.urgdata := byteAt data (q'.rcv.urgPtr - thisSeq).toNat, rcv.countNewUrg := true } :=
    h.setRcv ⟨hr.1, hr.2, hr.3, hr.4, hr.5, hr.6, hr.7, hr.8, hr.9, hr.10, hr.11, hr.12, hr.13, hr.14⟩
  have hn := hstart.notify (a := a) data 0 data.length
  have hr := hn.rcv
  refine hn.setRcv ⟨hr.1, hr.2, hr.3, ?_, hr.5, hr.6, rfl, nofun, hr.9, hr.10, hr.11, hr.12, hr.13, hr.14⟩
  rw [hr.urgCount]

theorem Flow.Like.addPlain (data : List Byte) (lost : BitVec 32) :
    (addPlain a q data lost).Like fc (addPlain a q' data lost) := by
  rw [Tcp.addPlain, Tcp.addPlain]
  split
  · exact h.addPart data _ _
  · exact h

/-- The urgent byte is at the same place in both. -/
theorem Flow.Like.addUrgent (hs : q.rcv.urgSeen) (data : List Byte) (thisSeq lost : BitVec 32) :
    (addUrgent a q data thisSeq lost).Like fc (addUrgent a q' data thisSeq lost) := by
  have hptr := h.rcv.urgPtr hs
  simp only [Tcp.addUrgent, hptr]
  split
  · have hq := (h.addPart (a := a) data lost.toNat (q.rcv.urgPtr - (thisSeq + lost))).takeUrgent (a := a) data thisSeq
    simp only [urgPtr_takeUrgent, urgPtr_addPart, hptr]
    split
    · exact hq.addPart data _ _
    · exact hq
  · have hq := h.takeUrgent (a := a) data thisSeq
    simp only [urgPtr_takeUrgent, hptr]
    split
    · exact hq.addPart data _ _
    · exact hq

theorem Flow.Like.addFin (fin : Bool) : (addFin a ts q fin).Like fc (addFin a ts q' fin) := by
  have hs := h.snd
  have hset : HalfStream.Like fc { q.snd with state := .finSent } { q'.snd with state := .finSent } :=
    hs.setState (by decide)
  simp only [Tcp.addFin, h.rcv.state]
  split
  · split
    · exact ⟨hset, h.rcv, h.tcpTimeoutSet, by rw [h.finTimeoutSet], h.chunks⟩
    · exact ⟨hset, h.rcv, h.tcpTimeoutSet, h.finTimeoutSet, h.chunks⟩
  · exact h

theorem Flow.Like.addFromskb (a : Owner) (ts : Int) (data : List Byte) (thisSeq : BitVec 32)
    (fin urg : Bool) (urgPtr : BitVec 32) : (addFromskb a ts q data thisSeq fin urg urgPtr).Like fc
      (addFromskb a ts q' data thisSeq fin urg urgPtr) := by
  have hn := h.noteUrgent urg urgPtr
  have hcond (x y : BitVec 32) : ((Tcp.noteUrgent q' urg urgPtr).rcv.urgSeen &&
      after ((Tcp.noteUrgent q' urg urgPtr).rcv.urgPtr + 1) x &&
        before (Tcp.noteUrgent q' urg urgPtr).rcv.urgPtr y) =
      ((Tcp.noteUrgent q urg urgPtr).rcv.urgSeen &&
      after ((Tcp.noteUrgent q urg urgPtr).rcv.urgPtr + 1) x &&
        before (Tcp.noteUrgent q urg urgPtr).rcv.urgPtr y) := by
    rw [hn.rcv.urgSeen]
    cases hs : (Tcp.noteUrgent q urg urgPtr).rcv.urgSeen with
    | false => simp only [Bool.false_and]
    | true => rw [hn.rcv.urgPtr hs]
  simp only [Tcp.addFromskb, h.expSeq, hcond]
  refine Flow.Like.addFin ?_ fin
  split
  · rename_i hs
    simp only [Bool.and_eq_true] at hs
    exact hn.addUrgent hs.1.1 data thisSeq _
  · exact hn.addPlain data _

theorem Flow.Like.drain (frags : List Skbuff) : (drain a ts q frags).Like fc (drain a ts q' frags) := by
  induction frags generalizing q q' with
  | nil =>
    have hr := h.rcv
    exact h.setRcv ⟨hr.1, hr.2, hr.3, hr.4, hr.5, hr.6, hr.7, hr.8, hr.9, hr.10, rfl, hr.12, hr.13, hr.14⟩
  | cons frag rest ih =>
    simp only [Tcp.drain, h.expSeq]
    split
    · have hr := h.rcv
      exact h.setRcv ⟨hr.1, hr.2, hr.3, hr.4, hr.5, hr.6, hr.7, hr.8, hr.9, hr.10, rfl, hr.12, hr.13, hr.14⟩
    · refine ih ?_
      split
      · have hq := (h.setTcp a ts).addFromskb a ts frag.data frag.seq
          frag.fin frag.urg (frag.urgPtr + frag.seq - 1)
        have hr := hq.rcv
        exact hq.setRcv ⟨hr.1, hr.2, by rw [hr.rmemAlloc], hr.4, hr.5, hr.6, hr.7, hr.8, hr.9, hr.10,
          hr.11, hr.12, hr.13, hr.14⟩
      · have hr := h.rcv
        exact h.setRcv ⟨hr.1, hr.2, by rw [hr.rmemAlloc], hr.4, hr.5, hr.6, hr.7, hr.8, hr.9, hr.10,
          hr.11, hr.12, hr.13, hr.14⟩

theorem Flow.Like.enqueue (seg : Segment) : (enqueue a ts q seg).Like fc (enqueue a ts q' seg) := by
  have hs := h.snd
  have hr := h.rcv
  have hrcv : HalfStream.Like (!fc)
      { q.rcv with
        rmemAlloc := q.rcv.rmemAlloc + seg.pakiet.truesize
        fraglist := insertFrag seg.pakiet q.rcv.fraglist }
      { q'.rcv with
        rmemAlloc := q'.rcv.rmemAlloc + seg.pakiet.truesize
        fraglist := insertFrag seg.pakiet q'.rcv.fraglist } :=
    ⟨hr.1, hr.2, by rw [hr.rmemAlloc], hr.4, hr.5, hr.6, hr.7, hr.8, hr.9, hr.10, by rw [hr.fraglist],
      hr.12, hr.13, hr.14⟩
  have hsnd : HalfStream.Like fc { q.snd with state := .closing } { q'.snd with state := .closing } :=
    hs.setState (by decide)
  have hcond : (q'.rcv.state = .finSent ∨ q'.rcv.state = .finConfirmed) =
      (q.rcv.state = .finSent ∨ q.rcv.state = .finConfirmed) := by rw [hr.state]
  simp only [Tcp.enqueue, hcond]
  split
  · split
    · exact ⟨hsnd, hrcv, h.tcpTimeoutSet, by rw [h.finTimeoutSet], h.chunks⟩
    · exact ⟨hsnd, hrcv, h.tcpTimeoutSet, h.finTimeoutSet, h.chunks⟩
  · exact ⟨hs, hrcv, h.tcpTimeoutSet, h.finTimeoutSet, h.chunks⟩

theorem Flow.Like.tcpQueue (seg : Segment) : (tcpQueue a ts q seg).Like fc (tcpQueue a ts q' seg) := by
  simp only [Tcp.tcpQueue, h.expSeq]
  split
  · split
    · have hq := (h.setTcp a ts).addFromskb a ts seg.data seg.seq
        seg.fin seg.urg (seg.urp.setWidth 32 + seg.seq - 1)
      rw [hq.rcv.fraglist]
      exact hq.drain _
    · exact h
  · exact h.enqueue seg

end

/-! ## Streams that behave the same -/

structure TcpStream.Like (s s' : TcpStream) : Prop where
  hashIndex : s'.hashIndex = s.hashIndex
  addr : s'.addr = s.addr
  client : s.client.Like true s'.client
  server : s.server.Like false s'.server
  isconnnection : s'.isconnnection = s.isconnnection
  ts : s'.ts = s.ts

structure Work.Like (w w' : Work) : Prop where
  stream : w.stream.Like w'.stream
  tcpTimeoutSet : w'.tcpTimeoutSet = w.tcpTimeoutSet
  finTimeoutSet : w'.finTimeoutSet = w.finTimeoutSet
  callbacks : w'.callbacks = w.callbacks

/-- The same becomes of two streams. -/
inductive Outcome.Like : Outcome → Outcome → Prop where
  | keep {w w' : Work} (h : w.Like w') : Like (.keep w) (.keep w')
  | free {w w' : Work} (h : w.Like w') : Like (.free w) (.free w')
  | renew {w w' : Work} (h : w.Like w') : Like (.renew w) (.renew w')

section

variable {a : StreamPtr} {p : Packet} {w w' : Work} {s s' : TcpStream} (fc : Bool)

theorem TcpStream.Like.snd (h : s.Like s') : (s.snd fc).Like fc (s'.snd fc) := by
  cases fc
  · exact h.server
  · exact h.client

theorem TcpStream.Like.rcv (h : s.Like s') : (s.rcv fc).Like (!fc) (s'.rcv fc) := by
  cases fc
  · exact h.client
  · exact h.server

theorem TcpStream.Like.withHalves (h : s.Like s') {snd rcv snd' rcv' : HalfStream}
    (hs : snd.Like fc snd') (hr : rcv.Like (!fc) rcv') :
    (s.withHalves fc snd rcv).Like (s'.withHalves fc snd' rcv') := by
  cases fc
  · exact ⟨h.hashIndex, h.addr, hr, hs, h.isconnnection, h.ts⟩
  · exact ⟨h.hashIndex, h.addr, hs, hr, h.isconnnection, h.ts⟩

variable {fc} (h : w.Like w')
include h

theorem Work.Like.end (cb : Callback) : (w.end cb).Like (w'.end cb) := by
  rw [Work.end, Work.end, h.stream.isconnnection]
  split
  · exact ⟨h.stream, h.tcpTimeoutSet, h.finTimeoutSet, by rw [h.callbacks]⟩
  · exact h

theorem Work.Like.outOfWindow : outOfWindow p.ip (w'.stream.rcv fc) =
    outOfWindow p.ip (w.stream.rcv fc) := by
  have hr := h.stream.rcv fc
  rw [Tcp.outOfWindow, Tcp.outOfWindow, hr.ackSeq, hr.scaled]

theorem Work.Like.establish : (establish p fc w).Like (establish p fc w') := by
  have hs := h.stream
  have hcond : (fc ∧ w'.stream.client.state = .synSent ∧ w'.stream.server.state = .synRecv ∧
        thAck p.ip = w'.stream.server.seq) ↔
      (fc ∧ w.stream.client.state = .synSent ∧ w.stream.server.state = .synRecv ∧
        thAck p.ip = w.stream.server.seq) := by
    rw [hs.client.state, hs.server.state]
    refine and_congr_right fun _ => and_congr_right fun _ => and_congr_right fun hst => ?_
    rw [hs.server.seq (.inr hst)]
  have hc := hs.client
  have hsv := hs.server
  simp only [Tcp.establish]
  by_cases hx : fc ∧ w.stream.client.state = .synSent ∧ w.stream.server.state = .synRecv ∧
      thAck p.ip = w.stream.server.seq
  · rw [if_pos hx, if_pos (hcond.mpr hx)]
    refine ⟨⟨hs.hashIndex, hs.addr, ?_, hsv.setState (by decide), rfl, rfl⟩, h.tcpTimeoutSet,
      h.finTimeoutSet, by rw [h.callbacks]⟩
    exact ⟨rfl, hc.2, hc.3, hc.4, rfl, hc.6, hc.7, hc.8, hc.9, hc.10, hc.11,
      fun _ => hc.seq (.inl rfl), hc.13, hc.14⟩
  · rw [if_neg hx, if_neg (mt hcond.mp hx)]
    exact h

theorem Work.Like.acknowledge : (acknowledge p fc w).Like (acknowledge p fc w') := by
  have hs := h.stream.snd fc
  have hr := h.stream.rcv fc
  refine ⟨h.stream.withHalves fc ?_ ?_, h.tcpTimeoutSet, h.finTimeoutSet, h.callbacks⟩
  · rw [handleAck, handleAck, hs.ackSeq]
    split
    · exact ⟨hs.1, hs.2, hs.3, hs.4, rfl, hs.6, hs.7, hs.8, hs.9, hs.10, hs.11, hs.12, hs.13, hs.14⟩
    · exact hs
  · rw [hr.state]
    split
    · exact hr.setState (by decide)
    · exact hr

theorem Work.Like.takeAck : (takeAck p fc w).Like (takeAck p fc w') := by
  rw [Tcp.takeAck, Tcp.takeAck]
  split
  · exact h.establish.acknowledge
  · exact h

theorem Work.Like.flow : (w.flow fc).Like fc (w'.flow fc) :=
  ⟨h.stream.snd fc, h.stream.rcv fc, h.tcpTimeoutSet, h.finTimeoutSet, rfl⟩

theorem Work.Like.takeData : (takeData a p fc w).Like (takeData a p fc w') := by
  rw [Tcp.takeData, Tcp.takeData]
  split
  · rw [queueData, queueData, h.stream.isconnnection]
    have hq : Flow.Like fc
        (tcpQueue ⟨a, w.stream.isconnnection⟩ p.timeStamp (w.flow fc) (segmentOf p))
        (tcpQueue ⟨a, w.stream.isconnnection⟩ p.timeStamp (w'.flow fc) (segmentOf p)) :=
      h.flow.tcpQueue (segmentOf p)
    exact ⟨h.stream.withHalves fc hq.snd hq.rcv, hq.tcpTimeoutSet, hq.finTimeoutSet,
      by rw [h.callbacks, hq.chunks]⟩
  · exact h

theorem Work.Like.updateWindow : (updateWindow p fc w).Like (updateWindow p fc w') := by
  have hs := h.stream.snd fc
  refine ⟨h.stream.withHalves fc ?_ (h.stream.rcv fc), h.tcpTimeoutSet, h.finTimeoutSet, h.callbacks⟩
  exact ⟨hs.1, hs.2, hs.3, hs.4, hs.5, hs.6, hs.7, hs.8, hs.9, by rw [hs.wscale], hs.11, hs.12, hs.13,
    fun _ => rfl⟩

theorem Work.Like.processSyn : (processSyn p fc w).Like (processSyn p fc w') := by
  have hs := h.stream
  have hc := hs.client
  have hsv := hs.server
  simp only [Tcp.processSyn, hs.ts, hc.state, hsv.state, hc.seq (.inl rfl), hc.wscaleOn rfl]
  split
  · split
    · exact .renew h
    · exact .keep h
  · split
    · exact .keep h
    · split
      · exact .keep h
      · refine .keep ⟨?_, h.tcpTimeoutSet, h.finTimeoutSet, h.callbacks⟩
        -- What the SYN+ACK sets is all that was left open of the server's half.
        have hset (on on' : Bool) (ws : BitVec 32) : HalfStream.Like false
            { w.stream.server with
              state := .synRecv, seq := thSeq p.ip + 1, firstDataSeq := thSeq p.ip + 1
              ackSeq := thAck p.ip, window := thWin p.ip, wscaleOn := on, wscale := ws }
            { w'.stream.server with
              state := .synRecv, seq := thSeq p.ip + 1, firstDataSeq := thSeq p.ip + 1
              ackSeq := thAck p.ip, window := thWin p.ip, wscaleOn := on', wscale := ws } :=
          ⟨rfl, hsv.2, hsv.3, hsv.4, rfl, rfl, hsv.7, hsv.8, rfl, rfl, hsv.11, fun _ => rfl,
            fun he => (by cases he), fun he => by cases he⟩
        split
        · split
          · exact ⟨hs.hashIndex, hs.addr, hc, hset _ _ _, hs.isconnnection, rfl⟩
          · refine ⟨hs.hashIndex, hs.addr, ?_, hset _ _ _, hs.isconnnection, rfl⟩
            exact ⟨rfl, hc.2, hc.3, hc.4, hc.5, hc.6, hc.7, hc.8, rfl, by rw [hc.window rfl],
              hc.11, fun _ => rfl, fun _ => rfl, hc.14⟩
        · exact ⟨hs.hashIndex, hs.addr, hc, hset _ _ _, hs.isconnnection, rfl⟩

theorem Work.Like.processStream : (processStream a p fc w).Like (processStream a p fc w') := by
  have hack : (Tcp.takeAck p fc w).Like (Tcp.takeAck p fc w') := h.takeAck
  have hdata : (Tcp.updateWindow p fc (Tcp.takeData a p fc (Tcp.takeAck p fc w))).Like
      (Tcp.updateWindow p fc (Tcp.takeData a p fc (Tcp.takeAck p fc w'))) :=
    hack.takeData.updateWindow
  have hclosed : (Tcp.takeAck p fc w').stream.closed = (Tcp.takeAck p fc w).stream.closed := by
    rw [TcpStream.closed, TcpStream.closed, hack.stream.client.state, hack.stream.server.state]
  simp only [Tcp.processStream, h.outOfWindow, hclosed, (hdata.stream.rcv fc).rmemAlloc]
  split
  · exact h.processSyn
  · split
    · exact .keep h
    · split
      · exact .free (h.end _)
      · split
        · exact .free (hack.end _)
        · split
          · exact .free hdata
          · exact .keep hdata

end

/-! ## New streams -/

/-- The two contents of the local variable of `addNewtcp` agree on whether there is urgent data,
and where; and of the server's half on what its window spans, how it is scaled,
and where its data starts. -/
structure TcpStream.Agree (j j' : TcpStream) : Prop where
  urgSeen : ∀ fc, (j'.rcv fc).urgSeen = (j.rcv fc).urgSeen
  urgPtr : ∀ fc, (j.rcv fc).urgSeen → (j'.rcv fc).urgPtr = (j.rcv fc).urgPtr
  wscale : j'.server.wscale = j.server.wscale
  scaled : j'.server.window.setWidth 32 * j'.server.wscale =
    j.server.window.setWidth 32 * j.server.wscale
  firstDataSeq : j'.server.firstDataSeq = j.server.firstDataSeq

theorem newStream_like {j j' : TcpStream} (h : j.Agree j') (hash : Hash) (d : List Byte) (ts : Int) :
    (newStream hash j d ts).Like (newStream hash j' d ts) where
  hashIndex := rfl
  addr := rfl
  client := ⟨rfl, rfl, rfl, rfl, rfl, rfl, h.urgSeen false, h.urgPtr false, rfl, rfl, rfl,
    fun _ => rfl, fun _ => rfl, fun _ => rfl⟩
  server := ⟨rfl, rfl, rfl, rfl, rfl, h.firstDataSeq, h.urgSeen true, h.urgPtr true, h.wscale,
    h.scaled, rfl, by rintro (hc | hs) <;> contradiction, nofun, nofun⟩
  isconnnection := rfl
  ts := rfl

/-! ## Tables that behave the same -/

structure Node.Like (m n : Node) : Prop where
  key : n.key = m.key
  ptr : n.ptr = m.ptr
  stream : m.stream.Like n.stream

structure TcpFragment.Like (t t' : TcpFragment) : Prop where
  tcphashmap : List.Forall₂ Node.Like t.tcphashmap t'.tcphashmap
  tcpTimeoutSet : t'.tcpTimeoutSet = t.tcpTimeoutSet
  finTimeoutSet : t'.finTimeoutSet = t.finTimeoutSet
  next : t'.next = t.next

theorem exists_of_rel {α β : Type} {R : α → β → Prop} {x : α} {y : Option β}
    (h : Option.Rel R (some x) y) : ∃ y', y = some y' ∧ R x y' := by
  cases h with
  | some h => exact ⟨_, rfl, h⟩

/-- Both have no result, or tables that behave the same after the same callbacks. -/
abbrev LikeResult : Option (TcpFragment × List Event) → Option (TcpFragment × List Event) → Prop :=
  Option.Rel fun r r' => r.1.Like r'.1 ∧ r'.2 = r.2

namespace TcpFragment

theorem notifyEnd_like {s s' : TcpStream} (hs : s.Like s') (a : StreamPtr) (cb : Callback) :
    notifyEnd a s' cb = notifyEnd a s cb := by
  rw [notifyEnd, notifyEnd, hs.isconnnection, hs.addr]

theorem expire_nil {t : TcpFragment} {k : Timer} {ts : Int} {es : List Event}
    (he : (t.timeoutSet k).elems = []) : expire k ts t es = some (t, es) := by
  rw [TcpFragment.expire]
  split
  · rfl
  · rename_i he'
    rw [he] at he'
    cases he'

theorem expire_cons {t : TcpFragment} {k : Timer} {ts : Int} {es : List Event} {it : Timeout}
    {rest : List Timeout} (he : (t.timeoutSet k).elems = it :: rest) :
    expire k ts t es = if ts < it.time then some (t, es) else
      match t.deref it.aTcp, t.freeTcpstream it.aTcp with
      | some s, some t' => expire k ts t' (es ++ notifyEnd it.aTcp s k.callback)
      | _, _ => none := by
  conv_lhs => rw [TcpFragment.expire]
  split
  · rename_i he'
    rw [he] at he'
    cases he'
  · rename_i he'
    rw [he] at he'
    cases he'
    refine if_congr Iff.rfl rfl ?_
    split
    · rename_i hd hf
      rw [hd, hf]
    · rename_i hno
      split
      · rename_i hd hf
        exact absurd hf (hno _ _ hd)
      · rfl

variable {hash : Hash} {junk junk' : StreamPtr → TcpStream} {t t' : TcpFragment} (h : t.Like t')
include h

theorem Like.timeoutSet (k : Timer) : t'.timeoutSet k = t.timeoutSet k := by
  cases k
  · exact h.tcpTimeoutSet
  · exact h.finTimeoutSet

theorem Like.deref (a : StreamPtr) : Option.Rel TcpStream.Like (t.deref a) (t'.deref a) := by
  have hm := h.tcphashmap
  rw [TcpFragment.deref, TcpFragment.deref]
  generalize t.tcphashmap = ns, t'.tcphashmap = ns' at hm
  induction hm with
  | nil => exact .none
  | cons hn _ ih =>
    simp only [List.find?_cons, hn.ptr]
    split
    · exact .some hn.stream
    · exact ih

/-- The streams of which the key, the address and the tuple are such. -/
theorem Like.filter {f : Node → Bool} (hf : ∀ m n : Node, m.Like n → f n = f m) :
    List.Forall₂ Node.Like (t.tcphashmap.filter f) (t'.tcphashmap.filter f) :=
  List.rel_filter (fun m n hmn => by simp only [hf m n hmn]) h.tcphashmap

theorem Like.freeTcpstream (a : StreamPtr) :
    Option.Rel TcpFragment.Like (t.freeTcpstream a) (t'.freeTcpstream a) := by
  have hd := h.deref a
  rw [TcpFragment.freeTcpstream, TcpFragment.freeTcpstream]
  generalize t.deref a = d, t'.deref a = d' at hd
  cases hd with
  | none => exact .none
  | some hs =>
    simp only [Option.map_some, hs.hashIndex, h.tcpTimeoutSet, h.finTimeoutSet, h.next]
    exact .some ⟨h.filter fun m n hmn => by rw [hmn.key, hmn.ptr], rfl, rfl, rfl⟩

theorem Like.tcpExit : t.tcpExit.Like t'.tcpExit := by
  have hm := h.tcphashmap
  rw [TcpFragment.tcpExit, TcpFragment.tcpExit]
  split <;> split
  · exact h
  · rename_i h₁ h₂
    rw [h₁, List.forall₂_nil_left_iff] at hm
    exact absurd hm h₂
  · rename_i h₁ h₂
    rw [h₂, List.forall₂_nil_right_iff] at hm
    exact absurd hm h₁
  · exact ⟨.nil, rfl, rfl, h.next⟩

theorem Like.clearAllStream : t.clearAllStream.1.Like t'.clearAllStream.1 ∧
    t'.clearAllStream.2 = t.clearAllStream.2 := by
  refine ⟨h.tcpExit, ?_⟩
  have hm := h.tcphashmap
  simp only [TcpFragment.clearAllStream]
  generalize t.tcphashmap = ns, t'.tcphashmap = ns' at hm
  induction hm with
  | nil => rfl
  | cons hn _ ih => rw [List.flatMap_cons, List.flatMap_cons, ih, hn.ptr, notifyEnd_like hn.stream]

theorem Like.findStreamAux (addr : Tuple4) :
    t'.findStreamAux hash addr = t.findStreamAux hash addr := by
  have hm := h.filter (f := fun n => n.key = getKey hash addr ∧ n.stream.addr = addr)
    fun m n hmn => by rw [hmn.key, hmn.stream.addr]
  have hptr : List.Forall₂ Eq ((t.tcphashmap.filter fun n =>
      n.key = getKey hash addr ∧ n.stream.addr = addr).map (·.ptr))
      ((t'.tcphashmap.filter fun n => n.key = getKey hash addr ∧ n.stream.addr = addr).map (·.ptr)) :=
    List.rel_map (fun m n hmn => hmn.ptr.symm) hm
  rw [List.forall₂_eq_eq_eq] at hptr
  rw [TcpFragment.findStreamAux, TcpFragment.findStreamAux, ← List.getLast?_map, ← List.getLast?_map,
    hptr]

theorem Like.findStream (d : List Byte) : t'.findStream hash d = t.findStream hash d := by
  simp only [TcpFragment.findStream, h.findStreamAux]

theorem Like.expire (k : Timer) (ts : Int) (es : List Event) :
    LikeResult (expire k ts t es) (expire k ts t' es) := by
  fun_induction TcpFragment.expire k ts t es generalizing t' with
  | case1 t es he =>
    rw [expire_nil (h.timeoutSet k ▸ he)]
    exact .some ⟨h, rfl⟩
  | case2 t es it rest he hlt =>
    rw [expire_cons (h.timeoutSet k ▸ he), if_pos hlt]
    exact .some ⟨h, rfl⟩
  | case3 t es it rest he hle s t₁ hf hd ih =>
    obtain ⟨s', hd', hs⟩ := exists_of_rel (hd ▸ h.deref it.aTcp)
    obtain ⟨t₁', hf', ht₁⟩ := exists_of_rel (hf ▸ h.freeTcpstream it.aTcp)
    rw [expire_cons (t := t') (h.timeoutSet k ▸ he), if_neg hle, hd', hf']
    dsimp only
    rw [notifyEnd_like hs]
    exact ih ht₁
  | case4 t es it rest he hle hno =>
    -- A stream that is not in the one map is not in the other.
    have hd := h.deref it.aTcp
    rw [expire_cons (h.timeoutSet k ▸ he), if_neg hle]
    cases hs : t.deref it.aTcp with
    | none =>
      rw [hs] at hd
      generalize t'.deref it.aTcp = d' at hd
      cases hd
      exact .none
    | some s =>
      exact absurd (by rw [TcpFragment.freeTcpstream, hs, Option.map_some]) (hno s _ hs)

theorem Like.tcpChecktimeouts (ts : Int) :
    LikeResult (t.tcpChecktimeouts ts) (t'.tcpChecktimeouts ts) := by
  have h₁ := h.expire .tcp ts []
  rw [TcpFragment.tcpChecktimeouts, TcpFragment.tcpChecktimeouts]
  generalize TcpFragment.expire .tcp ts t [] = r, TcpFragment.expire .tcp ts t' [] = r' at h₁
  cases h₁ with
  | none => exact .none
  | @some x y hx =>
    obtain ⟨hl, he⟩ := hx
    simp only [Option.bind_eq_bind, Option.bind_some, he]
    exact hl.expire .fin ts x.2

theorem Like.insert {s s' : TcpStream} (hs : s.Like s') : (t.insert s).Like (t'.insert s') := by
  refine ⟨List.rel_append h.tcphashmap (.cons ⟨hs.hashIndex, h.next, hs⟩ .nil), h.tcpTimeoutSet,
    h.finTimeoutSet, ?_⟩
  rw [TcpFragment.insert, TcpFragment.insert, h.next]

theorem Like.create (hj : ∀ a, (junk a).Agree (junk' a)) (p : Packet) :
    (t.create hash junk p).Like (t'.create hash junk' p) := by
  have hs : (newStream hash (junk t.next) p.ip p.timeStamp).Like
      (newStream hash (junk' t'.next) p.ip p.timeStamp) := by
    rw [h.next]
    exact newStream_like (hj _) hash _ _
  have hi := h.insert hs
  refine ⟨hi.tcphashmap, ?_, hi.finTimeoutSet, hi.next⟩
  rw [TcpFragment.create, TcpFragment.create, h.tcpTimeoutSet, h.next]

theorem Like.addNewtcp (hj : ∀ a, (junk a).Agree (junk' a)) (p : Packet) :
    (t.addNewtcp hash junk p.ip p.timeStamp).1.Like (t'.addNewtcp hash junk' p.ip p.timeStamp).1 ∧
      (t'.addNewtcp hash junk' p.ip p.timeStamp).2 = (t.addNewtcp hash junk p.ip p.timeStamp).2 := by
  have hlen := h.tcphashmap.length_eq
  by_cases hlt : t.tcphashmap.length < tcpStreamTableSize
  · rw [addNewtcp_of_lt hlt, addNewtcp_of_lt (hlen ▸ hlt)]
    exact ⟨h.create hj p, rfl⟩
  · have hle := Nat.not_lt.mp hlt
    rw [addNewtcp_of_le hle, addNewtcp_of_le (hlen ▸ hle)]
    exact ⟨h.clearAllStream.1.create hj p, h.clearAllStream.2⟩

theorem Like.conclude {a : StreamPtr} {w w' : Work} (hw : w.Like w') :
    (t.conclude a w).1.Like (t'.conclude a w').1 ∧ (t'.conclude a w').2 = (t.conclude a w).2 := by
  refine ⟨⟨?_, hw.tcpTimeoutSet, hw.finTimeoutSet, h.next⟩, ?_⟩
  · refine List.rel_map (fun m n hmn => ?_) h.tcphashmap
    rw [hmn.ptr]
    split
    · exact ⟨hmn.key, rfl, hw.stream⟩
    · exact hmn
  · simp only [TcpFragment.conclude, hw.callbacks, hw.stream.addr]

theorem Like.work {s s' : TcpStream} (hs : s.Like s') : (t.work s).Like (t'.work s') :=
  ⟨hs, h.tcpTimeoutSet, h.finTimeoutSet, rfl⟩

theorem Like.processPacket (hj : ∀ a, (junk a).Agree (junk' a)) (p : Packet) :
    LikeResult (t.processPacket hash junk p) (t'.processPacket hash junk' p) := by
  rw [TcpFragment.processPacket, TcpFragment.processPacket, h.findStream]
  split
  · exact .some ⟨h, rfl⟩
  · split
    · split
      · exact .some (h.addNewtcp hj p)
      · exact .some ⟨h, rfl⟩
    · rename_i a fc hf
      split
      · have hfree := h.freeTcpstream a
        generalize t.freeTcpstream a = r, t'.freeTcpstream a = r' at hfree
        cases hfree with
        | none => exact .none
        | some hu => exact .some (hu.addNewtcp hj p)
      · have hd := h.deref a
        generalize t.deref a = r, t'.deref a = r' at hd
        cases hd with
        | none => exact .none
        | @some s s' hs =>
          have hw : (Tcp.processStream a p fc (t.work s)).Like (Tcp.processStream a p fc (t'.work s')) :=
            (h.work hs).processStream
          simp only [Option.bind_eq_bind, Option.bind_some]
          generalize Tcp.processStream a p fc (t.work s) = o,
            Tcp.processStream a p fc (t'.work s') = o' at hw
          cases hw with
          | keep hw => exact .some (h.conclude hw)
          | @free w w' hw =>
            obtain ⟨hl, he⟩ := h.conclude (a := a) hw
            have hfree := hl.freeTcpstream a
            dsimp only
            generalize (t.conclude a w).1.freeTcpstream a = r,
              (t'.conclude a w').1.freeTcpstream a = r' at hfree
            cases hfree with
            | none => exact .none
            | some hu => exact .some ⟨hu, he⟩
          | @renew w w' hw =>
            obtain ⟨hl, he⟩ := h.conclude (a := a) hw
            have hfree := hl.freeTcpstream a
            dsimp only
            generalize (t.conclude a w).1.freeTcpstream a = r,
              (t'.conclude a w').1.freeTcpstream a = r' at hfree
            cases hfree with
            | none => exact .none
            | some hu =>
              exact .some ⟨(hu.addNewtcp hj p).1, by simp only [he, (hu.addNewtcp hj p).2]⟩

theorem Like.processTcp (hj : ∀ a, (junk a).Agree (junk' a)) (p : Packet) :
    LikeResult (t.processTcp hash junk p) (t'.processTcp hash junk' p) := by
  have h₁ := h.tcpChecktimeouts p.timeStamp
  rw [TcpFragment.processTcp, TcpFragment.processTcp]
  generalize t.tcpChecktimeouts p.timeStamp = r, t'.tcpChecktimeouts p.timeStamp = r' at h₁
  cases h₁ with
  | none => exact .none
  | @some x y hx =>
    have h₂ : LikeResult (x.1.processPacket hash junk p) (y.1.processPacket hash junk' p) :=
      hx.1.processPacket hj p
    simp only [Option.bind_eq_bind, Option.bind_some, hx.2]
    generalize x.1.processPacket hash junk p = r, y.1.processPacket hash junk' p = r' at h₂
    cases h₂ with
    | none => exact .none
    | some hy => exact .some ⟨hy.1, by rw [hy.2]⟩

end TcpFragment

/-- Where the streams of a table are, and what connections they are. -/
def TcpFragment.liveStreams (t : TcpFragment) : List (StreamPtr × Tuple4) :=
  t.tcphashmap.map fun n => (n.ptr, n.stream.addr)

/-- Over any packets the two runs invoke the same callbacks and leave the same streams. -/
def SameRuns (hash : Hash) (junk junk' : StreamPtr → TcpStream) : Prop :=
  ∀ ps, ∃ t t' es, runTcp hash junk ps = some (t, es) ∧ runTcp hash junk' ps = some (t', es) ∧
    t'.liveStreams = t.liveStreams

theorem TcpFragment.Like.liveStreams {t t' : TcpFragment} (h : t.Like t') :
    t'.liveStreams = t.liveStreams := by
  have hm : List.Forall₂ Eq t'.liveStreams t.liveStreams :=
    List.rel_map (fun n m hmn => by rw [hmn.ptr, hmn.stream.addr]) h.tcphashmap.flip
  rwa [List.forall₂_eq_eq_eq] at hm

/-- Contents that agree where they are read make no difference. -/
theorem sameRuns_of_agree (hash : Hash) {junk junk' : StreamPtr → TcpStream}
    (hj : ∀ a, (junk a).Agree (junk' a)) : SameRuns hash junk junk' := by
  intro ps
  obtain ⟨t, es, hr, -⟩ := runTcp_total hash junk ps
  have hstep (t t' : TcpFragment) (p : Packet) (h : t.Like t') :
      LikeResult (t.processTcp hash junk p) (t'.processTcp hash junk' p) := h.processTcp hj p
  have hrel := run_related hstep (⟨.nil, rfl, rfl, rfl⟩ : TcpFragment.empty.Like TcpFragment.empty) ps
  rw [show run (TcpFragment.processTcp hash junk) TcpFragment.empty ps = some (t, es) from hr] at hrel
  obtain ⟨⟨t', es'⟩, hr', hl, he⟩ := exists_of_rel hrel
  obtain rfl : es' = es := he
  exact ⟨t, t', es', hr, hr', hl.liveStreams⟩

end Noff.Tcp
