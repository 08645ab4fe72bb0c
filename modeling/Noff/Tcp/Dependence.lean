import Noff.Tcp.Handed
import Noff.Tcp.Unassigned

/-!
# What depends on uninitialised memory

Every field of a new stream's halves that `TcpStream.Agree` compares is read before
it is written, for some packets: where the contents of the local variable of
`addNewtcp` differ in one of them, there are packets after which the callbacks or
the streams differ. So two runs over any packets are the same exactly if
the contents agree (`sameRuns_iff`).
-/

namespace Noff.Tcp

open TcpFragment

/-! ## Packets of one connection -/

/-- A packet of the connection from port 1 to port 80, of second 0. -/
def plainPacket (fromClient : Bool) (seq ack : BitVec 32) (flags : Byte) (win : BitVec 16)
    (data : List Byte) (skblen : BitVec 32) : Packet :=
  ⟨[0x45, 0, 0, BitVec.ofNat 8 (40 + data.length), 0, 0, 0, 0, 64, 6, 0, 0] ++
    ((if fromClient then [10, 0, 0, 1, 10, 0, 0, 2, 0, 1, 0, 80]
      else [10, 0, 0, 2, 10, 0, 0, 1, 0, 80, 0, 1]) ++
    ([seq.extractLsb' 24 8, seq.extractLsb' 16 8, seq.extractLsb' 8 8, seq.extractLsb' 0 8] ++
    ([ack.extractLsb' 24 8, ack.extractLsb' 16 8, ack.extractLsb' 8 8, ack.extractLsb' 0 8] ++
    ([0x50, flags, win.extractLsb' 8 8, win.extractLsb' 0 8, 0, 0, 0, 0] ++ data)))), skblen, 0⟩

/-- Its tuple. -/
def plainTuple : Tuple4 := ⟨1, 80, 0x0100000a, 0x0200000a⟩

theorem word_bytes (x : BitVec 32) : (x.extractLsb' 24 8 ++ x.extractLsb' 16 8 : BitVec 16) ++
    (x.extractLsb' 8 8 ++ x.extractLsb' 0 8 : BitVec 16) = x := by
  ext i hi
  simp only [BitVec.getElem_append, BitVec.getElem_extractLsb']
  repeat' split
  all_goals (rw [BitVec.getLsbD_eq_getElem (by omega)]; congr 1; omega)

theorem half_bytes (x : BitVec 16) : x.extractLsb' 8 8 ++ x.extractLsb' 0 8 = x := by
  ext i hi
  simp only [BitVec.getElem_append, BitVec.getElem_extractLsb']
  split
  all_goals (rw [BitVec.getLsbD_eq_getElem (by omega)]; congr 1; omega)

section

variable (fc : Bool) (seq ack : BitVec 32) (flags : Byte) (win : BitVec 16) (data : List Byte)
  (skblen : BitVec 32)

theorem ipHl_plainPacket : ipHl (plainPacket fc seq ack flags win data skblen).ip = 5 := by
  have hb : byteAt (plainPacket fc seq ack flags win data skblen).ip 0 = 0x45 := rfl
  rw [ipHl, hb]
  rfl

theorem thdr_plainPacket : thdr (plainPacket fc seq ack flags win data skblen).ip = 20 := by
  rw [thdr, ipHl_plainPacket]

@[simp] theorem thSeq_plainPacket : thSeq (plainPacket fc seq ack flags win data skblen).ip = seq := by
  rw [thSeq, thdr_plainPacket]
  cases fc <;> exact word_bytes seq

@[simp] theorem thAck_plainPacket : thAck (plainPacket fc seq ack flags win data skblen).ip = ack := by
  rw [thAck, thdr_plainPacket]
  cases fc <;> exact word_bytes ack

@[simp] theorem thWin_plainPacket : thWin (plainPacket fc seq ack flags win data skblen).ip = win := by
  rw [thWin, thdr_plainPacket]
  cases fc <;> exact half_bytes win

@[simp] theorem hasFlag_plainPacket (mask : Byte) :
    hasFlag (plainPacket fc seq ack flags win data skblen).ip mask = (flags &&& mask != 0) := by
  rw [hasFlag, thFlags, thdr_plainPacket]
  cases fc <;> rfl

theorem tupleOf_plainPacket : tupleOf (plainPacket fc seq ack flags win data skblen).ip =
    if fc then plainTuple else plainTuple.reversed := by
  rw [tupleOf, thSport, thDport, thdr_plainPacket]
  cases fc <;> simp [be16, ipSrc, ipDst, le32, le16, byteAt, plainPacket, plainTuple, Tuple4.reversed]

theorem thOff_plainPacket : thOff (plainPacket fc seq ack flags win data skblen).ip = 5 := by
  have hb : byteAt (plainPacket fc seq ack flags win data skblen).ip 32 = 0x50 := by cases fc <;> rfl
  rw [thOff, thdr_plainPacket, hb]
  rfl

theorem ipLen_plainPacket (h : data.length ≤ 100) :
    ipLen (plainPacket fc seq ack flags win data skblen).ip = 40 + data.length := by
  have hb : be16 (plainPacket fc seq ack flags win data skblen).ip 2 =
    (0 : Byte) ++ BitVec.ofNat 8 (40 + data.length) := rfl
  rw [ipLen, hb, BitVec.toNat_append, BitVec.toNat_ofNat]
  simp only [BitVec.ofNat_eq_ofNat, BitVec.toNat_ofNat, Nat.zero_mod, Nat.zero_shiftLeft, Nat.zero_or]
  omega

theorem datalen_plainPacket (h : data.length ≤ 100) :
    datalen (plainPacket fc seq ack flags win data skblen).ip = data.length := by
  rw [datalen, ipLen_plainPacket _ _ _ _ _ _ _ h, thOff_plainPacket, ipHl_plainPacket]
  omega

theorem wellFormed_plainPacket (h : data.length ≤ 100) :
    wellFormed (plainPacket fc seq ack flags win data skblen).ip := by
  have ha : ipSrc (plainPacket fc seq ack flags win data skblen).ip |||
      ipDst (plainPacket fc seq ack flags win data skblen).ip ≠ 0 := by
    cases fc <;> simp [ipSrc, ipDst, le32, le16, byteAt, plainPacket]
  rw [wellFormed, ipLen_plainPacket _ _ _ _ _ _ _ h, datalen_plainPacket _ _ _ _ _ _ _ h,
    ipHl_plainPacket]
  simp only [sizeofTcphdr, Bool.and_eq_true, decide_eq_true_eq]
  refine ⟨⟨?_, ?_⟩, ha⟩
  · exact decide_eq_true (by omega)
  · omega

theorem getWscale_plainPacket :
    getWscale (plainPacket fc seq ack flags win data skblen).ip = (false, 1) := by
  rw [getWscale, getWscaleFrom, if_pos]
  rw [thOff_plainPacket, sizeofTcphdr]
  decide

/-- The segment that it carries. -/
theorem segmentOf_plainPacket (h : data.length ≤ 100) :
    segmentOf (plainPacket fc seq ack flags win data skblen) =
      { seq := seq, fin := flags &&& TH_FIN != 0, urg := flags &&& TH_URG != 0, urp := 0,
        data := data, skblen := skblen } := by
  have hdata : bytesAt (plainPacket fc seq ack flags win data skblen).ip 40 data.length = data := by
    rw [bytesAt_eq_take_drop]
    · cases fc <;> exact List.take_length
    · cases fc <;> simp [plainPacket] <;> omega
  have hurp : thUrp (plainPacket fc seq ack flags win data skblen).ip = 0 := by
    rw [thUrp, thdr_plainPacket]
    cases fc <;> simp [be16, byteAt, plainPacket]
  rw [segmentOf, thSeq_plainPacket, hasFlag_plainPacket, hasFlag_plainPacket, hurp,
    datalen_plainPacket _ _ _ _ _ _ _ h, thdr_plainPacket, thOff_plainPacket]
  simp only [Int.toNat_natCast, hdata]
  rfl

end

/-! ## A table of one stream -/

variable {hash : Hash} {junk : StreamPtr → TcpStream} {t : TcpFragment} {a : StreamPtr}
  {s : TcpStream} {p : Packet} {fc : Bool}

/-- The map has the stream `s` of that connection alone, at address `a`, and no timer is due. -/
structure Alone (hash : Hash) (a : StreamPtr) (s : TcpStream) (t : TcpFragment) : Prop where
  inv : t.Inv hash
  tcphashmap : t.tcphashmap = [⟨getKey hash plainTuple, a, s⟩]
  addr : s.addr = plainTuple
  timers : ∀ k, ∀ e ∈ t.timeoutSet k, 0 < e.time
  next : t.next = a + 1

theorem expire_of_lt {k : Timer} {ts : Int} (h : ∀ e ∈ t.timeoutSet k, ts < e.time)
    (es : List Event) : expire k ts t es = some (t, es) := by
  cases he : (t.timeoutSet k).elems with
  | nil => exact expire_nil he
  | cons it rest =>
    rw [expire_cons he, if_pos]
    exact h it (by rw [← OrderedSet.mem_elems, he]; exact List.mem_cons_self ..)

theorem tcpChecktimeouts_of_lt {ts : Int} (h : ∀ k, ∀ e ∈ t.timeoutSet k, ts < e.time) :
    t.tcpChecktimeouts ts = some (t, []) := by
  rw [TcpFragment.tcpChecktimeouts, expire_of_lt (h .tcp)]
  exact expire_of_lt (h .fin) []

theorem Alone.deref (h : Alone hash a s t) : t.deref a = some s := by
  simp [TcpFragment.deref, h.tcphashmap]

theorem Alone.findStream (h : Alone hash a s t)
    (hp : tupleOf p.ip = if fc then plainTuple else plainTuple.reversed) :
    t.findStream hash p.ip = some (a, fc) := by
  have hfind : t.findStreamAux hash plainTuple = some a := by
    rw [findStreamAux, h.tcphashmap, List.filter_cons_of_pos (by simp [h.addr])]
    rfl
  have hno : t.findStreamAux hash plainTuple.reversed = none := by
    rw [findStreamAux, h.tcphashmap, List.filter_cons_of_neg (by simp [h.addr, plainTuple, Tuple4.reversed])]
    rfl
  rw [TcpFragment.findStream, hp]
  cases fc with
  | true => simp only [ite_true, hfind]
  | false => simp only [Bool.false_eq_true, ite_false, hno, Tuple4.reversed_reversed, hfind]

theorem mem_addTimeout {set : TimeoutSet} {e x : Timeout} (h : e ∈ set.insert x) :
    e ∈ set ∨ e = x := OrderedSet.mem_of_mem_insert h

section

variable (h : Alone hash a s t) (hts : p.timeStamp = 0) (hwf : wellFormed p.ip)
  (hp : tupleOf p.ip = if fc then plainTuple else plainTuple.reversed) (hfirst : isFirst p.ip = false)
  {w : Work}
include h hts hwf hp hfirst

/-- A packet of the connection that leaves the stream in the map. -/
theorem Alone.keep (hw : processStream a p fc (t.work s) = .keep w) :
    ∃ t', t.processTcp hash junk p = some (t', w.callbacks.map fun cb => ⟨a, plainTuple, cb⟩) ∧
      Alone hash a w.stream t' := by
  have hx := (hw ▸ processStream_stages hfirst fc (t.work s) : Stages a p fc (t.work s) (.keep w)).frames
  have haddr : w.stream.addr = plainTuple := hx.addr.trans h.addr
  have htcp : w.tcpTimeoutSet = t.tcpTimeoutSet ∨
    w.tcpTimeoutSet = updateTcptimeout t.tcpTimeoutSet a p.timeStamp := hx.tcp
  have hfin : w.finTimeoutSet = t.finTimeoutSet ∨
    w.finTimeoutSet = addFintimeout t.finTimeoutSet a p.timeStamp := hx.fin
  refine ⟨(t.conclude a w).1, ?_, h.inv.conclude h.deref hx, ?_, haddr, fun k e he => ?_, h.next⟩
  · rw [TcpFragment.processTcp, hts, tcpChecktimeouts_of_lt h.timers]
    simp only [Option.bind_eq_bind, Option.bind_some, TcpFragment.processPacket, hwf, Bool.not_true,
      Bool.false_eq_true, ite_false, h.findStream hp, hfirst, h.deref, hw, Option.pure_def,
      List.nil_append]
    simp only [TcpFragment.conclude, haddr]
  · simp [TcpFragment.conclude, TcpFragment.modify, h.tcphashmap]
  · cases k with
    | tcp =>
      have he : e ∈ w.tcpTimeoutSet := he
      rcases htcp with hk | hk <;> rw [hk] at he
      · exact h.timers .tcp e he
      · rcases mem_addTimeout he with he | rfl
        · exact h.timers .tcp e (mem_delTimeout.mp he).1
        · simp [hts]
    | fin =>
      have he : e ∈ w.finTimeoutSet := he
      rcases hfin with hk | hk <;> rw [hk] at he
      · exact h.timers .fin e he
      · rcases mem_addTimeout he with he | rfl
        · exact h.timers .fin e he
        · simp [hts]

/-- A packet of the connection with which the stream goes. -/
theorem Alone.free (hw : processStream a p fc (t.work s) = .free w) :
    ∃ t', t.processTcp hash junk p = some (t', w.callbacks.map fun cb => ⟨a, plainTuple, cb⟩) ∧
      t'.liveStreams = [] := by
  have hx := (hw ▸ processStream_stages hfirst fc (t.work s) : Stages a p fc (t.work s) (.free w)).frames
  have haddr : w.stream.addr = plainTuple := hx.addr.trans h.addr
  have hfree : (t.conclude a w).1.freeTcpstream a = some (t.without [a]) :=
    h.inv.conclude_free h.deref hx
  refine ⟨t.without [a], ?_, ?_⟩
  · rw [TcpFragment.processTcp, hts, tcpChecktimeouts_of_lt h.timers]
    simp only [Option.bind_eq_bind, Option.bind_some, TcpFragment.processPacket, hwf, Bool.not_true,
      Bool.false_eq_true, ite_false, h.findStream hp, hfirst, h.deref, hw, Option.pure_def,
      List.nil_append, hfree]
    simp only [TcpFragment.conclude, haddr]
  · simp [liveStreams, TcpFragment.without, h.tcphashmap]

end

/-! ## The streams that the first packet makes -/

/-- The first packet of the connection. -/
def synPacket (seq : BitVec 32) : Packet := plainPacket true seq 0 TH_SYN 0xffff [] 256

theorem isFirst_synPacket (seq : BitVec 32) : isFirst (synPacket seq).ip := by
  rw [isFirst, synPacket, hasFlag_plainPacket, hasFlag_plainPacket, hasFlag_plainPacket]
  decide

/-- The stream at address `a` that the first packet makes. -/
def firstStream (hash : Hash) (junk : StreamPtr → TcpStream) (seq : BitVec 32) (a : StreamPtr) :
    TcpStream := newStream hash (junk a) (synPacket seq).ip 0

theorem alone_create (hi : t.Inv hash) (ht : t.tcphashmap = []) (htm : ∀ k, ∀ e ∈ t.timeoutSet k, 0 < e.time)
    (seq : BitVec 32) : Alone hash t.next (firstStream hash junk seq t.next)
      (t.create hash junk (synPacket seq)) := by
  have hp : tupleOf (synPacket seq).ip = plainTuple := tupleOf_plainPacket ..
  refine ⟨hi.create (by rw [ht]; decide) (by simp [ht]), ?_, hp, fun k e he => ?_, rfl⟩
  · rw [TcpFragment.create, TcpFragment.insert, ht, List.nil_append]
    show [(⟨getKey hash (tupleOf (synPacket seq).ip), t.next, firstStream hash junk seq t.next⟩ : Node)] = _
    rw [hp]
  · cases k with
    | tcp =>
      rcases mem_addTimeout he with he | rfl
      · exact htm .tcp e he
      · show (0 : Int) < 0 + 30
        decide
    | fin => exact htm .fin e he

/-- The packet makes a stream whether or not there is one. -/
theorem processTcp_syn (junk : StreamPtr → TcpStream) (hi : t.Inv hash) (htm : ∀ k, ∀ e ∈ t.timeoutSet k, 0 < e.time) (seq : BitVec 32)
    (h : t.tcphashmap = [] ∨ ∃ a s, Alone hash a s t) :
    ∃ t', t.processTcp hash junk (synPacket seq) = some (t', []) ∧
      Alone hash t.next (firstStream hash junk seq t.next) t' := by
  have hts : (synPacket seq).timeStamp = 0 := rfl
  have hwf : wellFormed (synPacket seq).ip := wellFormed_plainPacket _ _ _ _ _ _ _ (Nat.zero_le _)
  have hp : tupleOf (synPacket seq).ip = if true then plainTuple else plainTuple.reversed :=
    tupleOf_plainPacket ..
  rw [TcpFragment.processTcp, hts, tcpChecktimeouts_of_lt htm]
  simp only [Option.bind_eq_bind, Option.bind_some, TcpFragment.processPacket, hwf, Bool.not_true,
    Bool.false_eq_true, ite_false]
  rcases h with hnil | ⟨a, s, h⟩
  · have hnone : t.findStream hash (synPacket seq).ip = none := by
      simp [TcpFragment.findStream, findStreamAux, hnil]
    have hlt : t.tcphashmap.length < tcpStreamTableSize := by rw [hnil]; decide
    simp only [hnone, isFirst_synPacket, ite_true]
    rw [addNewtcp_of_lt hlt]
    exact ⟨_, rfl, alone_create hi hnil htm seq⟩
  · have hnil : (t.without [a]).tcphashmap = [] := by simp [TcpFragment.without, h.tcphashmap]
    have hlt : (t.without [a]).tcphashmap.length < tcpStreamTableSize := by rw [hnil]; decide
    simp only [h.findStream hp, isFirst_synPacket, ite_true, hi.freeTcpstream h.deref, Option.bind_some]
    rw [addNewtcp_of_lt hlt]
    refine ⟨_, rfl, alone_create (hi.without [a]) hnil (fun k e he => ?_) seq⟩
    exact htm k e (mem_timeoutSet_without.mp he).1

theorem run_syns (hash : Hash) (junk : StreamPtr → TcpStream) (seq : BitVec 32) (n : Nat) :
    ∃ t, runTcp hash junk (List.replicate (n + 1) (synPacket seq)) = some (t, []) ∧
      Alone hash n (firstStream hash junk seq n) t := by
  induction n with
  | zero =>
    obtain ⟨t, ht, h⟩ := processTcp_syn junk inv_empty (by rintro (_ | _) e he <;> cases he) seq (.inl rfl)
    exact ⟨t, run_singleton.trans ht, h⟩
  | succ n ih =>
    obtain ⟨t, ht, h⟩ := ih
    obtain ⟨t', ht', h'⟩ := processTcp_syn junk h.inv h.timers seq (.inr ⟨_, _, h⟩)
    rw [h.next] at h'
    refine ⟨t', ?_, h'⟩
    rw [List.replicate_succ']
    exact run_concat.mpr ⟨t, [], t', [], ht, ht', rfl⟩

/-! ## The window of a server that has not answered -/

section

variable {seq ack : BitVec 32} {flags : Byte} {win : BitVec 16} {data : List Byte}
  {skblen : BitVec 32} {w : Work}

/-- One of the packets after the first, for the stream that it leaves. -/
theorem Alone.plain (junk : StreamPtr → TcpStream) (h : Alone hash a s t) (hd : data.length ≤ 100)
    (hf : (flags &&& TH_SYN != 0 && !(flags &&& TH_ACK != 0) && !(flags &&& TH_RST != 0)) = false)
    (hw : processStream a (plainPacket fc seq ack flags win data skblen) fc (t.work s) = .keep w) :
    ∃ t', t.processTcp hash junk (plainPacket fc seq ack flags win data skblen) =
      some (t', w.callbacks.map fun cb => ⟨a, plainTuple, cb⟩) ∧ Alone hash a w.stream t' :=
  h.keep rfl (wellFormed_plainPacket _ _ _ _ _ _ _ hd) (tupleOf_plainPacket ..)
    (by rw [isFirst, hasFlag_plainPacket, hasFlag_plainPacket, hasFlag_plainPacket, hf]) hw

/-- One with which it goes. -/
theorem Alone.plainFree (junk : StreamPtr → TcpStream) (h : Alone hash a s t) (hd : data.length ≤ 100)
    (hf : (flags &&& TH_SYN != 0 && !(flags &&& TH_ACK != 0) && !(flags &&& TH_RST != 0)) = false)
    (hw : processStream a (plainPacket fc seq ack flags win data skblen) fc (t.work s) = .free w) :
    ∃ t', t.processTcp hash junk (plainPacket fc seq ack flags win data skblen) =
      some (t', w.callbacks.map fun cb => ⟨a, plainTuple, cb⟩) ∧ t'.liveStreams = [] :=
  h.free rfl (wellFormed_plainPacket _ _ _ _ _ _ _ hd) (tupleOf_plainPacket ..)
    (by rw [isFirst, hasFlag_plainPacket, hasFlag_plainPacket, hasFlag_plainPacket, hf]) hw

theorem Alone.liveStreams (h : Alone hash a s t) : t.liveStreams = [(a, plainTuple)] := by
  rw [TcpFragment.liveStreams, h.tcphashmap, List.map_singleton, h.addr]

end

/-- What the window of a half spans. -/
def HalfStream.span (h : HalfStream) : BitVec 32 := h.window.setWidth 32 * h.wscale

/-- A reset by the client, at a sequence number not before 0, with a byte of data if it is 0. -/
def rstPacket (x : BitVec 32) : Packet :=
  plainPacket true x 0 TH_RST 0 (if x = 0 then [0] else []) 256

theorem outOfWindow_rstPacket {x : BitVec 32} (hx : x.toNat < 2 ^ 31) (hs : s.server.ackSeq = 0) :
    outOfWindow (rstPacket x).ip s.server = !before x s.server.span := by
  have hpos (y : BitVec 32) (hy : y.toNat < 2 ^ 31) : before y 0 = false := by
    rw [before, decide_eq_false_iff_not, BitVec.toInt_eq_toNat_cond]
    simp
    omega
  rw [outOfWindow, rstPacket, thSeq_plainPacket, datalen_plainPacket _ _ _ _ _ _ _ (by split <;> simp), hs]
  by_cases h0 : x = 0
  · subst h0
    have h₁ : before (0 + BitVec.ofInt 32 1) 0 = false := by decide
    rw [if_pos rfl]
    simp only [List.length_singleton, Nat.cast_one, h₁, Bool.or_false]
    rw [HalfStream.span, zero_add]
    rfl
  · have h₀ : x + BitVec.ofInt 32 0 = x := by simp
    rw [if_neg h0]
    simp only [List.length_nil, Nat.cast_zero, h₀, hpos x hx, Bool.or_false, decide_eq_false h0,
      Bool.and_false, Bool.not_false, Bool.true_and]
    rw [HalfStream.span, zero_add]

/-- The reset is taken if it is inside of the window. -/
theorem Alone.rst (junk : StreamPtr → TcpStream) (h : Alone hash a s t) {x : BitVec 32} (hx : x.toNat < 2 ^ 31)
    (hs : s.server.ackSeq = 0) (hconn : s.isconnnection = false) :
    ∃ t', t.processTcp hash junk (rstPacket x) = some (t', []) ∧
      (t'.liveStreams = [] ↔ before x s.server.span) := by
  have hlen : (if x = 0 then [0] else [] : List Byte).length ≤ 100 := by split <;> simp
  have hstream : processStream a (rstPacket x) true (t.work s) =
      if before x s.server.span then .free (t.work s) else .keep (t.work s) := by
    have hend : (t.work s).end .rst = t.work s := by
      rw [Work.end, if_neg]
      simpa [TcpFragment.work] using hconn
    have hout : outOfWindow (rstPacket x).ip ((t.work s).stream.rcv true) = !before x s.server.span :=
      outOfWindow_rstPacket hx hs
    have hsyn : hasFlag (rstPacket x).ip TH_SYN = false := by rw [rstPacket, hasFlag_plainPacket]; decide
    have hrst : hasFlag (rstPacket x).ip TH_RST = true := by rw [rstPacket, hasFlag_plainPacket]; decide
    simp only [processStream, hsyn, hout, hrst, hend, Bool.false_eq_true, ite_false, ite_true]
    cases before x s.server.span <;> rfl
  by_cases hb : before x s.server.span
  · rw [if_pos hb] at hstream
    obtain ⟨t', ht', hl⟩ := h.plainFree junk hlen (by decide) hstream
    exact ⟨t', ht', iff_of_true hl hb⟩
  · rw [if_neg hb] at hstream
    obtain ⟨t', ht', ha⟩ := h.plain junk hlen (by decide) hstream
    exact ⟨t', ht', iff_of_false (by rw [ha.liveStreams]; simp) hb⟩

/-- Two windows that start at 0 and end apart are told apart by some sequence number. -/
theorem eq_of_before {x y : BitVec 32} (h : ∀ z : BitVec 32, z.toNat < 2 ^ 31 → before z x = before z y) :
    x = y := by
  have hb (z u : BitVec 32) (hz : z.toNat < 2 ^ 31) :
      before z u = decide (z.toNat < u.toNat ∧ u.toNat ≤ z.toNat + 2 ^ 31) := by
    have hu := u.isLt
    rw [before, decide_eq_decide, BitVec.toInt_eq_toNat_cond, BitVec.toNat_sub]
    split <;> omega
  have hcase {x y : BitVec 32} (h : ∀ z : BitVec 32, z.toNat < 2 ^ 31 → before z x = before z y) :
      ¬ x.toNat < y.toNat := by
    intro hlt
    have hx := x.isLt
    have hy := y.isLt
    have hz (n : Nat) (hn : n < 2 ^ 31) : (n < x.toNat ∧ x.toNat ≤ n + 2 ^ 31) ↔
        (n < y.toNat ∧ y.toNat ≤ n + 2 ^ 31) := by
      have hn' : (BitVec.ofNat 32 n).toNat = n := by rw [BitVec.toNat_ofNat]; omega
      have := h (BitVec.ofNat 32 n) (by rw [hn']; exact hn)
      rwa [hb _ _ (by rw [hn']; exact hn), hb _ _ (by rw [hn']; exact hn), hn', decide_eq_decide] at this
    rcases Nat.lt_or_ge x.toNat (2 ^ 31) with hx' | hx'
    · rcases Nat.lt_or_ge (x.toNat + 2 ^ 31) y.toNat with hy' | hy'
      · have := hz (y.toNat - 2 ^ 31) (by omega)
        omega
      · have := hz x.toNat hx'
        omega
    · have := hz (x.toNat - 2 ^ 31) (by omega)
      omega
  refine BitVec.eq_of_toNat_eq ?_
  have h₁ := hcase h
  have h₂ := hcase fun z hz => (h z hz).symm
  omega

/-- A packet without flags and data, at the number that the other half has acknowledged. -/
theorem processStream_empty (fc : Bool) {seq : BitVec 32} (win : BitVec 16) (skblen : BitVec 32)
    {w : Work}
    (hseq : (w.stream.rcv fc).ackSeq = seq) (hr : (w.stream.rcv fc).rmemAlloc = 0) :
    processStream a (plainPacket fc seq 0 0 win [] skblen) fc w =
      .keep (updateWindow (plainPacket fc seq 0 0 win [] skblen) fc w) := by
  have hflag (mask : Byte) : hasFlag (plainPacket fc seq 0 0 win [] skblen).ip mask = false := by
    rw [hasFlag_plainPacket]
    simp
  have hlen : datalen (plainPacket fc seq 0 0 win [] skblen).ip = 0 :=
    datalen_plainPacket _ _ _ _ _ _ _ (Nat.zero_le _)
  have hout : outOfWindow (plainPacket fc seq 0 0 win [] skblen).ip (w.stream.rcv fc) = false := by
    rw [outOfWindow, hlen, thSeq_plainPacket, hseq]
    simp
  have hdata : takeData a (plainPacket fc seq 0 0 win [] skblen) fc w = w := by
    rw [takeData, hlen, hflag, if_neg (by decide)]
  have hrmem : ((updateWindow (plainPacket fc seq 0 0 win [] skblen) fc w).stream.rcv fc).rmemAlloc = 0 := by
    rw [updateWindow, TcpStream.rcv_withHalves, hr]
  simp only [processStream, hflag, hout, takeAck, Bool.false_eq_true, ite_false, false_and, hdata, hrmem]
  rfl

/-- Two runs over the same packets leave the same streams. -/
theorem SameRuns.liveStreams {junk' : StreamPtr → TcpStream} (h : SameRuns hash junk junk')
    {ps : List Packet} {t t' : TcpFragment} {es es' : List Event}
    (hr : runTcp hash junk ps = some (t, es)) (hr' : runTcp hash junk' ps = some (t', es')) :
    es' = es ∧ t'.liveStreams = t.liveStreams := by
  obtain ⟨u, u', us, hu, hu', hl⟩ := h ps
  rw [hr] at hu
  rw [hr'] at hu'
  cases hu
  cases hu'
  exact ⟨rfl, hl⟩

/-- Two runs that are the same have made streams whose windows span the same. -/
theorem SameRuns.span {junk' : StreamPtr → TcpStream} (h : SameRuns hash junk junk') (n : StreamPtr) :
    (junk' n).server.span = (junk n).server.span ∧ (junk' n).server.wscale = (junk n).server.wscale := by
  -- The window before any packet of the server, and after one that sets it to 1.
  have hrun (junk : StreamPtr → TcpStream) (x : BitVec 32) (hx : x.toNat < 2 ^ 31) :
      (∃ t, runTcp hash junk (List.replicate (n + 1) (synPacket 0) ++ [rstPacket x]) = some (t, []) ∧
        (t.liveStreams = [] ↔ before x (junk n).server.span)) ∧
      ∃ t, runTcp hash junk (List.replicate (n + 1) (synPacket 0) ++
        [plainPacket false 0 0 0 1 [] 256] ++ [rstPacket x]) = some (t, []) ∧
        (t.liveStreams = [] ↔ before x (junk n).server.wscale) := by
    obtain ⟨t, ht, ha⟩ := run_syns hash junk 0 n
    obtain ⟨t₁, ht₁, h₁⟩ := ha.rst junk hx rfl rfl
    obtain ⟨t₂, ht₂, ha₂⟩ := ha.plain junk (Nat.zero_le _) (by decide)
      (processStream_empty false 1 256 rfl rfl)
    obtain ⟨t₃, ht₃, h₃⟩ := ha₂.rst junk hx rfl rfl
    refine ⟨⟨t₁, run_concat.mpr ⟨_, _, _, _, ht, ht₁, rfl⟩, h₁⟩, t₃, ?_, ?_⟩
    · exact run_concat.mpr ⟨_, _, _, _, run_concat.mpr ⟨_, _, _, _, ht, ht₂, rfl⟩, ht₃, rfl⟩
    · have hspan : (thWin (plainPacket false 0 0 0 1 [] 256).ip).setWidth 32 * (junk n).server.wscale =
          (junk n).server.wscale := by
        rw [thWin_plainPacket]
        exact one_mul _
      rw [h₃, ← hspan]
      rfl
  have hbool {b b' : Bool} {l l' : List (StreamPtr × Tuple4)} (hl : l' = l) (hb : l = [] ↔ b)
      (hb' : l' = [] ↔ b') : b' = b := by
    rw [hl, hb] at hb'
    exact Bool.eq_iff_iff.mpr hb'.symm
  constructor
  · refine eq_of_before fun x hx => ?_
    obtain ⟨⟨t, ht, hb⟩, -⟩ := hrun junk x hx
    obtain ⟨⟨t', ht', hb'⟩, -⟩ := hrun junk' x hx
    exact hbool (h.liveStreams ht ht').2 hb hb'
  · refine eq_of_before fun x hx => ?_
    obtain ⟨-, t, ht, hb⟩ := hrun junk x hx
    obtain ⟨-, t', ht', hb'⟩ := hrun junk' x hx
    exact hbool (h.liveStreams ht ht').2 hb hb'

/-! ## The first sequence number of a server that has not answered -/

/-- An acknowledgement by the client. -/
def ackPacket (ack : BitVec 32) : Packet := plainPacket true 0 ack TH_ACK 0xffff [] 256

/-- A client that waits for the answer of the server, and has acknowledged `x`. -/
structure Waiting (x first : BitVec 32) (s : TcpStream) : Prop where
  client : s.client.state = .synSent
  ackSeq : s.client.ackSeq = x
  received : s.client.received.2 = (0, 0, [])
  rmemAlloc : s.client.rmemAlloc = 0
  server : s.server.state = .close
  serverAckSeq : s.server.ackSeq = 0
  serverRmemAlloc : s.server.rmemAlloc = 0
  firstDataSeq : s.server.firstDataSeq = first
  isconnnection : s.isconnnection = false

/-- An acknowledgement less than `2^31` ahead is noted. -/
theorem ackSeq_handleAck {h : HalfStream} {y : BitVec 32} (hle : h.ackSeq.toNat ≤ y.toNat)
    (hlt : y.toNat < h.ackSeq.toNat + 2 ^ 31) : (handleAck h y).ackSeq = y := by
  rw [handleAck]
  split
  · rfl
  · rename_i hno
    have hy := y.isLt
    have hx := h.ackSeq.isLt
    have hsub : (y - h.ackSeq).toNat = y.toNat - h.ackSeq.toNat := by
      rw [BitVec.toNat_sub]
      omega
    rw [BitVec.toInt_eq_toNat_cond, hsub, if_pos (by omega)] at hno
    exact BitVec.eq_of_toNat_eq (by omega)

theorem handleAck_fields (h : HalfStream) (y : BitVec 32) : (handleAck h y).state = h.state ∧
    (handleAck h y).received = h.received ∧ (handleAck h y).rmemAlloc = h.rmemAlloc := by
  rw [handleAck]
  split <;> exact ⟨rfl, rfl, rfl⟩

theorem Waiting.ack {x y first : BitVec 32} (h : Waiting x first s) (hle : x.toNat ≤ y.toNat)
    (hlt : y.toNat < x.toNat + 2 ^ 31) : ∃ w, w.callbacks = [] ∧ Waiting y first w.stream ∧
      processStream a (ackPacket y) true (t.work s) = .keep w := by
  have hflag (mask : Byte) : hasFlag (ackPacket y).ip mask = (TH_ACK &&& mask != 0) :=
    hasFlag_plainPacket ..
  have hlen : datalen (ackPacket y).ip = 0 := datalen_plainPacket _ _ _ _ _ _ _ (Nat.zero_le _)
  have hout : outOfWindow (ackPacket y).ip s.server = false := by
    rw [outOfWindow, hlen, h.serverAckSeq, ackPacket, thSeq_plainPacket]
    rfl
  have hack : takeAck (ackPacket y) true (t.work s) =
      { t.work s with stream := s.withHalves true (handleAck s.client y) s.server } := by
    have hest : establish (ackPacket y) true (t.work s) = t.work s := by
      simp only [establish]
      rw [if_neg]
      rintro ⟨-, -, hst, -⟩
      exact absurd (h.server.symm.trans hst) (by decide)
    rw [takeAck, hflag, if_pos (by decide), hest, acknowledge]
    have hst : ((t.work s).stream.rcv true).state = .close := h.server
    rw [hst, if_neg (by decide), ackPacket, thAck_plainPacket]
    rfl
  obtain ⟨hstate, hrecv, hrmem⟩ := handleAck_fields s.client y
  refine ⟨updateWindow (ackPacket y) true
      { t.work s with stream := s.withHalves true (handleAck s.client y) s.server }, rfl,
    ⟨hstate.trans h.client, ackSeq_handleAck (h.ackSeq ▸ hle) (h.ackSeq ▸ hlt),
      (congrArg Prod.snd hrecv).trans h.received, hrmem.trans h.rmemAlloc, h.server,
      h.serverAckSeq, h.serverRmemAlloc, h.firstDataSeq, h.isconnnection⟩, ?_⟩
  have hclosed : (s.withHalves true (handleAck s.client y) s.server).closed = false := by
    have hst : (handleAck s.client y).state ≠ .finConfirmed := by
      rw [hstate, h.client]
      decide
    simp only [TcpStream.closed, TcpStream.withHalves, ite_true, decide_eq_false hst, Bool.false_and]
  have hdata (w : Work) : takeData a (ackPacket y) true w = w := by
    rw [takeData, hlen, hflag, if_neg (by decide)]
  have hsyn : hasFlag (ackPacket y).ip TH_SYN = false := by rw [hflag]; decide
  have hrst : hasFlag (ackPacket y).ip TH_RST = false := by rw [hflag]; decide
  have hout' : outOfWindow (ackPacket y).ip ((t.work s).stream.rcv true) = false := hout
  simp only [processStream, hsyn, hrst, hout', hack, hclosed, hdata, Bool.false_eq_true, ite_false,
    and_false]
  rw [if_neg]
  have hr : s.server.rmemAlloc = 0 := h.serverRmemAlloc
  show ¬ 65535 < s.server.rmemAlloc.toInt
  rw [hr]
  decide

/-- A segment in order adds nothing to an empty buffer. -/
theorem rmemAlloc_tcpQueue {a : Owner} {ts : Int} {q : Flow} {seg : Segment}
    (h : after seg.seq q.expSeq = false) (hfrag : q.rcv.fraglist = []) :
    (tcpQueue a ts q seg).rcv.rmemAlloc = q.rcv.rmemAlloc := by
  rw [tcpQueue, h, if_pos (by decide)]
  split
  · dsimp only
    rw [fraglist_addFromskb, hfrag, drain]
    exact rmemAlloc_addFromskb ..
  · rfl

/-- A segment from beyond `EXP_SEQ` waits there with all of its memory. -/
theorem rmemAlloc_tcpQueue_after {a : Owner} {ts : Int} {q : Flow} {seg : Segment}
    (h : after seg.seq q.expSeq = true) :
    (tcpQueue a ts q seg).rcv.rmemAlloc = q.rcv.rmemAlloc + seg.skblen := by
  rw [tcpQueue, h, if_neg (by decide)]
  exact congrArg Prod.fst (buffer_enqueue ..)

/-- A FIN of the server, with a large buffer. -/
def finPacket (x : BitVec 32) : Packet := plainPacket false x 0 TH_FIN 0xffff [] 65536

/-- The FIN is looked at: it is in the window, and has neither an ACK nor a SYN nor a RST. -/
theorem Waiting.processStream_fin {x first : BitVec 32} (h : Waiting x first s) :
    processStream a (finPacket x) false (t.work s) =
      if 65535 < ((updateWindow (finPacket x) false
        (queueData a (finPacket x) false (t.work s))).stream.rcv false).rmemAlloc.toInt
      then .free (updateWindow (finPacket x) false (queueData a (finPacket x) false (t.work s)))
      else .keep (updateWindow (finPacket x) false (queueData a (finPacket x) false (t.work s))) := by
  have hflag (mask : Byte) : hasFlag (finPacket x).ip mask = (TH_FIN &&& mask != 0) :=
    hasFlag_plainPacket ..
  have hlen : datalen (finPacket x).ip = 0 := datalen_plainPacket _ _ _ _ _ _ _ (Nat.zero_le _)
  have hsyn : hasFlag (finPacket x).ip TH_SYN = false := by rw [hflag]; decide
  have hrst : hasFlag (finPacket x).ip TH_RST = false := by rw [hflag]; decide
  have hackf : hasFlag (finPacket x).ip TH_ACK = false := by rw [hflag]; decide
  have hout : outOfWindow (finPacket x).ip ((t.work s).stream.rcv false) = false := by
    have hack : ((t.work s).stream.rcv false).ackSeq = x := h.ackSeq
    rw [outOfWindow, hlen, hack, finPacket, thSeq_plainPacket]
    simp
  have hack : takeAck (finPacket x) false (t.work s) = t.work s := by
    rw [takeAck, hackf, if_neg (by decide)]
  have hdata : takeData a (finPacket x) false (t.work s) =
      queueData a (finPacket x) false (t.work s) := by
    rw [takeData, hlen, hflag, if_pos (by decide)]
  simp only [processStream, hsyn, hrst, hout, hack, hackf, hdata, Bool.false_eq_true, ite_false,
    false_and]

/-- What the FIN adds to the buffer. -/
theorem Waiting.rmemAlloc_fin {x first : BitVec 32} (h : Waiting x first s) :
    ((updateWindow (finPacket x) false
      (queueData a (finPacket x) false (t.work s))).stream.rcv false).rmemAlloc =
        if after x first then 65536 else 0 := by
  obtain ⟨huc, hrest⟩ := Prod.mk.injEq .. ▸ h.received
  obtain ⟨hc, hfrag⟩ := Prod.mk.injEq .. ▸ hrest
  have hexp : ((t.work s).flow false).expSeq = first := by
    show s.server.firstDataSeq + s.client.count + s.client.urgCount = first
    rw [h.firstDataSeq, hc, huc]
    simp
  have hfl : ((t.work s).flow false).rcv.fraglist = [] := hfrag
  have hrm : ((t.work s).flow false).rcv.rmemAlloc = 0 := h.rmemAlloc
  have hseg : segmentOf (finPacket x) =
      { seq := x, fin := true, urg := false, urp := 0, data := [], skblen := 65536 } :=
    segmentOf_plainPacket _ _ _ _ _ _ _ (Nat.zero_le _)
  rw [updateWindow, TcpStream.rcv_withHalves, queueData, TcpStream.rcv_withHalves, hseg]
  by_cases hx : after x first
  · rw [if_pos hx, rmemAlloc_tcpQueue_after (hexp ▸ hx), hrm]
    exact BitVec.zero_add _
  · have hx' : after x first = false := Bool.not_eq_true _ ▸ hx
    rw [if_neg hx]
    exact (rmemAlloc_tcpQueue (hexp ▸ hx') hfl).trans hrm

/-- Nobody is told of it, before the connection is established. -/
theorem Waiting.callbacks_fin {x first : BitVec 32} (h : Waiting x first s) :
    (updateWindow (finPacket x) false
      (queueData a (finPacket x) false (t.work s))).callbacks = [] := by
  have hx : Flow.Extends ⟨a, s.isconnnection⟩ 0 ((t.work s).flow false) _ :=
    tcpQueue_extends _ (segmentOf (finPacket x))
  obtain ⟨cs, hcs, hnil⟩ := hx.chunks
  rw [hnil h.isconnnection] at hcs
  show [] ++ (tcpQueue ⟨a, s.isconnnection⟩ 0 ((t.work s).flow false)
    (segmentOf (finPacket x))).chunks.map (Callback.data false) = []
  rw [hcs]
  rfl

/-- The FIN is kept, and its buffer too large, if it is after the server's first number. -/
theorem Waiting.fin (junk : StreamPtr → TcpStream) {x first : BitVec 32} (h : Waiting x first s)
    (ha : Alone hash a s t) : ∃ t', t.processTcp hash junk (finPacket x) = some (t', []) ∧
      (t'.liveStreams = [] ↔ after x first) := by
  have hstream := h.processStream_fin (a := a) (t := t)
  rw [h.rmemAlloc_fin] at hstream
  by_cases hx : after x first
  · rw [if_pos hx, if_pos (by decide)] at hstream
    obtain ⟨t', ht', hl⟩ := ha.plainFree junk (Nat.zero_le _) (by decide) hstream
    rw [h.callbacks_fin] at ht'
    exact ⟨t', ht', iff_of_true hl hx⟩
  · rw [if_neg hx, if_neg (by decide)] at hstream
    obtain ⟨t', ht', hl⟩ := ha.plain junk (Nat.zero_le _) (by decide) hstream
    rw [h.callbacks_fin] at ht'
    exact ⟨t', ht', iff_of_false (by rw [hl.liveStreams]; simp) hx⟩

/-- A run that leaves the client waiting, and an acknowledgement. -/
theorem Waiting.run_ack {ps : List Packet} {x y first : BitVec 32}
    (hr : runTcp hash junk ps = some (t, [])) (ha : Alone hash a s t) (h : Waiting x first s)
    (hle : x.toNat ≤ y.toNat) (hlt : y.toNat < x.toNat + 2 ^ 31) :
    ∃ t' s', runTcp hash junk (ps ++ [ackPacket y]) = some (t', []) ∧ Alone hash a s' t' ∧
      Waiting y first s' := by
  obtain ⟨w, hcb, hw, hst⟩ := h.ack hle hlt
  obtain ⟨t', ht', ha'⟩ := ha.plain junk (Nat.zero_le _) (by decide) hst
  rw [hcb] at ht'
  exact ⟨t', w.stream, run_concat.mpr ⟨_, _, _, _, hr, ht', rfl⟩, ha', hw⟩

/-- Two runs that are the same have made streams whose servers' data starts at the same number. -/
theorem SameRuns.firstDataSeq {junk' : StreamPtr → TcpStream} (h : SameRuns hash junk junk')
    (n : StreamPtr) : (junk' n).server.firstDataSeq = (junk n).server.firstDataSeq := by
  -- Three acknowledgements take the client to any number; then comes the FIN.
  have hrun (junk : StreamPtr → TcpStream) (x : BitVec 32) :
      ∃ t, runTcp hash junk (List.replicate (n + 1) (synPacket 0) ++
        [ackPacket (BitVec.ofNat 32 (x.toNat / 3))] ++
        [ackPacket (BitVec.ofNat 32 (x.toNat / 3 + x.toNat / 3))] ++ [ackPacket x] ++ [finPacket x]) =
          some (t, []) ∧ (t.liveStreams = [] ↔ after x (junk n).server.firstDataSeq) := by
    have hx := x.isLt
    have h₁ : (BitVec.ofNat 32 (x.toNat / 3)).toNat = x.toNat / 3 := by
      rw [BitVec.toNat_ofNat]; omega
    have h₂ : (BitVec.ofNat 32 (x.toNat / 3 + x.toNat / 3)).toNat = x.toNat / 3 + x.toNat / 3 := by
      rw [BitVec.toNat_ofNat]; omega
    have hw₀ : Waiting 0 (junk n).server.firstDataSeq (firstStream hash junk 0 n) :=
      ⟨rfl, rfl, rfl, rfl, rfl, rfl, rfl, rfl, rfl⟩
    obtain ⟨t, ht, ha⟩ := run_syns hash junk 0 n
    obtain ⟨t₁, s₁, ht₁, ha₁, hw₁⟩ := hw₀.run_ack
      (y := BitVec.ofNat 32 (x.toNat / 3)) ht ha (Nat.zero_le _) (by rw [h₁]; simp; omega)
    obtain ⟨t₂, s₂, ht₂, ha₂, hw₂⟩ := hw₁.run_ack
      (y := BitVec.ofNat 32 (x.toNat / 3 + x.toNat / 3)) ht₁ ha₁ (by omega) (by omega)
    obtain ⟨t₃, s₃, ht₃, ha₃, hw₃⟩ := hw₂.run_ack (y := x) ht₂ ha₂ (by omega) (by omega)
    obtain ⟨t₄, ht₄, hl⟩ := hw₃.fin junk ha₃
    exact ⟨t₄, run_concat.mpr ⟨t₃, [], t₄, [], ht₃, ht₄, rfl⟩, hl⟩
  have hafter (x : BitVec 32) : after x (junk' n).server.firstDataSeq =
      after x (junk n).server.firstDataSeq := by
    obtain ⟨t, ht, hl⟩ := hrun junk x
    obtain ⟨t', ht', hl'⟩ := hrun junk' x
    rw [(h.liveStreams ht ht').2, hl] at hl'
    exact Bool.eq_iff_iff.mpr hl'.symm
  -- Neither is after itself, so neither is after the other.
  have h₁ := hafter (junk n).server.firstDataSeq
  have h₂ := hafter (junk' n).server.firstDataSeq
  generalize (junk n).server.firstDataSeq = x, (junk' n).server.firstDataSeq = y at h₁ h₂
  have hself (z : BitVec 32) : after z z = false := by
    rw [after, BitVec.sub_self]
    rfl
  rw [hself, after, decide_eq_false_iff_not] at h₁
  rw [hself, eq_comm, after, decide_eq_false_iff_not] at h₂
  have hx := x.isLt
  have hy := y.isLt
  rw [BitVec.toInt_eq_toNat_cond, BitVec.toNat_sub] at h₁ h₂
  refine BitVec.eq_of_toNat_eq ?_
  split at h₁ <;> split at h₂ <;> omega

/-! ## Urgent data -/

section

variable (x : BitVec 32)

/-- The answer of a server, to a client whose data starts at `x`, as the server's does. -/
def synAckPacket : Packet := plainPacket false (x - 1) x (TH_SYN ||| TH_ACK) 0xffff [] 256

/-- The last packet of the handshake. -/
def thirdPacket : Packet := plainPacket true x x TH_ACK 0xffff [] 256

/-- The first two bytes of one side. -/
def firstBytes (fc : Bool) : Packet := plainPacket fc x x TH_ACK 0xffff [0, 0] 256

end

/-- A stream whose client and server start at `x`, with the urgent data of `j`. -/
structure Started (x : BitVec 32) (j s : TcpStream) : Prop where
  urgSeen : ∀ fc, (s.rcv fc).urgSeen = (j.rcv fc).urgSeen
  urgPtr : ∀ fc, (s.rcv fc).urgPtr = (j.rcv fc).urgPtr
  counts : ∀ fc, (s.rcv fc).received.2 = (0, 0, [])
  rmemAlloc : ∀ fc, (s.rcv fc).rmemAlloc = 0
  clientWscale : s.client.wscaleOn = false ∧ s.client.wscale = 1
  clientSeq : s.client.seq = x
  clientData : s.client.firstDataSeq = x

theorem started_firstStream (hash : Hash) (junk : StreamPtr → TcpStream) (x : BitVec 32)
    (n : StreamPtr) : Started x (junk n) (firstStream hash junk (x - 1) n) where
  urgSeen := fun fc => by cases fc <;> rfl
  urgPtr := fun fc => by cases fc <;> rfl
  counts := fun fc => by cases fc <;> rfl
  rmemAlloc := fun fc => by cases fc <;> rfl
  clientWscale := by
    have hws : getWscale (synPacket (x - 1)).ip = (false, 1) := getWscale_plainPacket ..
    exact ⟨congrArg Prod.fst hws, congrArg Prod.snd hws⟩
  clientSeq := by
    show thSeq (synPacket (x - 1)).ip + 1 = x
    rw [synPacket, thSeq_plainPacket, sub_add_cancel]
  clientData := by
    show thSeq (synPacket (x - 1)).ip + 1 = x
    rw [synPacket, thSeq_plainPacket, sub_add_cancel]

/-- The server has answered. -/
structure Answered (x : BitVec 32) (j s : TcpStream) : Prop extends Started x j s where
  client : s.client.state = .synSent
  server : s.server.state = .synRecv
  serverSeq : s.server.seq = x
  serverData : s.server.firstDataSeq = x
  serverAckSeq : s.server.ackSeq = x
  serverWindow : s.server.window = 0xffff ∧ s.server.wscale = 1

/-- Both sides are connected. -/
structure Opened (x : BitVec 32) (j s : TcpStream) : Prop extends Started x j s where
  state : ∀ fc, (s.rcv fc).state = .established
  data : ∀ fc, (s.rcv fc).firstDataSeq = x
  ackSeq : ∀ fc, (s.rcv fc).ackSeq = x
  window : ∀ fc, (s.rcv fc).window = 0xffff ∧ (s.rcv fc).wscale = 1
  isconnnection : s.isconnnection

theorem Started.answer {x : BitVec 32} {j : TcpStream} (h : Started x j s)
    (hc : s.client.state = .synSent) (hs : s.server.state = .close) :
    ∃ w, w.callbacks = [] ∧ Answered x j w.stream ∧
      processStream a (synAckPacket x) false (t.work s) = .keep w := by
  have hflag (mask : Byte) : hasFlag (synAckPacket x).ip mask = ((TH_SYN ||| TH_ACK) &&& mask != 0) :=
    hasFlag_plainPacket ..
  have hsyn : hasFlag (synAckPacket x).ip TH_SYN = true := by rw [hflag]; decide
  have hack : hasFlag (synAckPacket x).ip TH_ACK = true := by rw [hflag]; decide
  have hws : getWscale (synAckPacket x).ip = (false, 1) := getWscale_plainPacket ..
  have hseq : thSeq (synAckPacket x).ip + 1 = x := by
    rw [synAckPacket, thSeq_plainPacket, sub_add_cancel]
  have hackn : thAck (synAckPacket x).ip = x := thAck_plainPacket ..
  have hwin : thWin (synAckPacket x).ip = 0xffff := thWin_plainPacket ..
  refine ⟨{ t.work s with stream := { s with ts := 0, server := { s.server with
      state := .synRecv, seq := x, firstDataSeq := x, ackSeq := x, window := 0xffff
      wscaleOn := false, wscale := 1 } } }, rfl, ?_, ?_⟩
  · refine ⟨⟨fun fc => ?_, fun fc => ?_, fun fc => ?_, fun fc => ?_, h.clientWscale, h.clientSeq,
      h.clientData⟩, hc, rfl, rfl, rfl, rfl, rfl, rfl⟩
    · cases fc
      · exact h.urgSeen false
      · exact h.urgSeen true
    · cases fc
      · exact h.urgPtr false
      · exact h.urgPtr true
    · cases fc
      · exact h.counts false
      · exact h.counts true
    · cases fc
      · exact h.rmemAlloc false
      · exact h.rmemAlloc true
  · simp only [processStream, hsyn, processSyn, TcpFragment.work, hc, hs, hack, hackn, h.clientSeq, hws, hseq, hwin,
      h.clientWscale.1, ite_true, Bool.false_eq_true, ite_false, ne_eq, not_true_eq_false,
      Bool.not_true, or_self]
    rfl

/-- With the third packet both sides are connected. -/
theorem Answered.third {x : BitVec 32} {j : TcpStream} (h : Answered x j s) :
    ∃ w, w.callbacks = [.connection] ∧ Opened x j w.stream ∧
      processStream a (thirdPacket x) true (t.work s) = .keep w := by
  have hflag (mask : Byte) : hasFlag (thirdPacket x).ip mask = (TH_ACK &&& mask != 0) :=
    hasFlag_plainPacket ..
  have hsyn : hasFlag (thirdPacket x).ip TH_SYN = false := by rw [hflag]; decide
  have hrst : hasFlag (thirdPacket x).ip TH_RST = false := by rw [hflag]; decide
  have hack : hasFlag (thirdPacket x).ip TH_ACK = true := by rw [hflag]; decide
  have hfin : hasFlag (thirdPacket x).ip TH_FIN = false := by rw [hflag]; decide
  have hlen : datalen (thirdPacket x).ip = 0 := datalen_plainPacket _ _ _ _ _ _ _ (Nat.zero_le _)
  have hackn : thAck (thirdPacket x).ip = x := thAck_plainPacket ..
  have hwin : thWin (thirdPacket x).ip = 0xffff := thWin_plainPacket ..
  have hout : outOfWindow (thirdPacket x).ip ((t.work s).stream.rcv true) = false := by
    have hs : ((t.work s).stream.rcv true).ackSeq = x := h.serverAckSeq
    rw [outOfWindow, hlen, hs, thirdPacket, thSeq_plainPacket]
    simp
  -- The client is connected first, so that its acknowledgement is no news.
  have htake : takeAck (thirdPacket x) true (t.work s) =
      { t.work s with
        stream := { s with
          client := { s.client with state := .established, ackSeq := x }
          server := { s.server with state := .established }
          ts := 0
          isconnnection := true }
        callbacks := [.connection] } := by
    have hnews : handleAck { s.client with state := .established, ackSeq := x } x =
        { s.client with state := .established, ackSeq := x } := by
      rw [handleAck, if_neg]
      rw [sub_self]
      decide
    rw [takeAck, hack, if_pos rfl, establish, hackn]
    simp only [TcpFragment.work, h.client, h.server, h.serverSeq, and_self, ite_true, acknowledge,
      TcpStream.snd, TcpStream.rcv, TcpStream.withHalves, hackn, hnews]
    rfl
  have hdata (w : Work) : takeData a (thirdPacket x) true w = w := by
    rw [takeData, hlen, hfin, if_neg (by decide)]
  refine ⟨updateWindow (thirdPacket x) true (takeAck (thirdPacket x) true (t.work s)),
    by rw [htake]; rfl, ?_, ?_⟩
  · rw [htake]
    refine ⟨⟨fun fc => ?_, fun fc => ?_, fun fc => ?_, fun fc => ?_, h.clientWscale, h.clientSeq,
      h.clientData⟩, fun fc => ?_, fun fc => ?_, fun fc => ?_, fun fc => ?_, rfl⟩
    · cases fc
      · exact h.urgSeen false
      · exact h.urgSeen true
    · cases fc
      · exact h.urgPtr false
      · exact h.urgPtr true
    · cases fc
      · exact h.counts false
      · exact h.counts true
    · cases fc
      · exact h.rmemAlloc false
      · exact h.rmemAlloc true
    · cases fc <;> rfl
    · cases fc
      · exact h.clientData
      · exact h.serverData
    · cases fc
      · rfl
      · exact h.serverAckSeq
    · cases fc
      · exact ⟨hwin, h.clientWscale.2⟩
      · exact h.serverWindow
  · have hrmem : ((updateWindow (thirdPacket x) true (takeAck (thirdPacket x) true
        (t.work s))).stream.rcv true).rmemAlloc = 0 := by
      rw [htake]
      exact h.rmemAlloc true
    have hclosed : (takeAck (thirdPacket x) true (t.work s)).stream.closed = false := by
      rw [htake]
      rfl
    simp only [processStream, hsyn, hrst, hout, hclosed, hdata, hrmem, Bool.false_eq_true, ite_false,
      and_false]
    rfl

/-- How two bytes at `x` are handed over: an urgent byte among them is handed over apart, and with
it the segment as a whole. -/
def firstChunks (x : BitVec 32) (h : HalfStream) : List Chunk :=
  if h.urgSeen ∧ h.urgPtr = x then [⟨[0, 0], 0, 2⟩, ⟨[0, 0], 1, 1⟩]
  else if h.urgSeen ∧ h.urgPtr = x + 1 then [⟨[0, 0], 0, 1⟩, ⟨[0, 0], 0, 2⟩]
  else [⟨[0, 0], 0, 2⟩]

/-- The urgent byte is one of two. -/
theorem urgent_iff (x u : BitVec 32) :
    (after (u + 1) (x + 0) && before u (x + lenVal [0, 0])) = decide (u = x ∨ u = x + 1) := by
  have hu : u = x + (u - x) := by rw [add_sub_cancel]
  have hlen : lenVal [0, 0] = 2 := rfl
  generalize u - x = d at hu
  subst hu
  have h₁ : x + 0 - (x + d + 1) = -(d + 1) := by bv_omega
  have h₂ : x + d - (x + 2) = d - 2 := by bv_omega
  have hd := d.isLt
  rw [after, before, hlen, h₁, h₂, ← Bool.decide_and, decide_eq_decide]
  constructor
  · rintro ⟨h₁, h₂⟩
    have hone : (1 : BitVec 32).toNat = 1 := rfl
    have htwo : (2 : BitVec 32).toNat = 2 := rfl
    rw [BitVec.toInt_eq_toNat_cond, BitVec.toNat_neg, BitVec.toNat_add, hone] at h₁
    rw [BitVec.toInt_eq_toNat_cond, BitVec.toNat_sub, htwo] at h₂
    have hd : d.toNat = 0 ∨ d.toNat = 1 := by split at h₁ <;> split at h₂ <;> omega
    refine hd.imp (fun hd => ?_) fun hd => ?_
    · rw [BitVec.eq_of_toNat_eq (x := d) (y := 0) hd, add_zero]
    · rw [BitVec.eq_of_toNat_eq (x := d) (y := 1) hd]
  · have hzero {y : BitVec 32} (h : x + y = x) : y = 0 := add_eq_left.mp h
    rintro (h | h)
    · rw [hzero h]
      decide
    · rw [add_left_cancel h]
      decide

theorem chunks_addPart (q : Flow) (data : List Byte) (off : Int) (n : BitVec 32) :
    (addPart ⟨a, true⟩ q data off n).chunks = q.chunks ++ [⟨data, off, n.toInt⟩] := by
  simp only [addPart, notify, ite_true]
  split <;> rfl

theorem chunks_takeUrgent (q : Flow) (data : List Byte) (thisSeq : BitVec 32) :
    (takeUrgent ⟨a, true⟩ q data thisSeq).chunks = q.chunks ++ [⟨data, 0, data.length⟩] := by
  simp only [takeUrgent, notify, ite_true]

theorem chunks_firstBytes {x : BitVec 32} {q : Flow} (hx : q.expSeq = x) (hq : q.chunks = [])
    (hfrag : q.rcv.fraglist = []) (ts : Int) :
    (tcpQueue ⟨a, true⟩ ts q ⟨x, false, false, 0, [0, 0], 256⟩).chunks = firstChunks x q.rcv := by
  have hlen : lenVal [0, 0] = 2 := rfl
  have h₁ : after x x = false := by rw [after, sub_self]; rfl
  have h₂ : after (x + 2 + flagVal false) x = true := by
    have hsub : x - (x + 2 + flagVal false) = -2 := by
      rw [flagVal]
      bv_omega
    rw [after, hsub]
    decide
  have hdrain : (tcpQueue ⟨a, true⟩ ts q ⟨x, false, false, 0, [0, 0], 256⟩).chunks =
      (addFromskb ⟨a, true⟩ ts { q with tcpTimeoutSet := updateTcptimeout q.tcpTimeoutSet a ts }
        [0, 0] x false false (0 + x - 1)).chunks := by
    simp only [tcpQueue, hx, hlen, h₁, h₂, Bool.not_false, ite_true, fraglist_addFromskb, hfrag]
    rfl
  rw [hdrain]
  simp only [addFromskb, noteUrgent, Bool.false_and, Bool.false_eq_true, ite_false, addFin,
    Flow.expSeq] at hx ⊢
  simp only [hx, sub_self, Bool.and_assoc, urgent_iff]
  have hplain (set : TimeoutSet) : (addPlain ⟨a, true⟩ { q with tcpTimeoutSet := set } [0, 0] 0).chunks =
      [⟨[0, 0], 0, 2⟩] := by
    rw [addPlain, hlen, if_pos (by decide), chunks_addPart, hq]
    rfl
  rw [firstChunks]
  cases hs : q.rcv.urgSeen with
  | false =>
    rw [Bool.false_and, if_neg (by simp), if_neg (by simp), if_neg (by simp)]
    exact hplain _
  | true =>
    by_cases hu : q.rcv.urgPtr = x
    · rw [if_pos (by simp [hu]), if_pos ⟨rfl, hu⟩]
      have h₃ : x + 2 - x - 1 = (1 : BitVec 32) := by bv_omega
      simp only [addUrgent, hu, hlen, add_zero, sub_self]
      rw [if_neg (by decide : ¬ 0 < (0 : BitVec 32).toInt)]
      simp only [urgPtr_takeUrgent, hu, h₃]
      rw [if_pos (by decide), chunks_addPart, chunks_takeUrgent, hq]
      rfl
    · by_cases hu' : q.rcv.urgPtr = x + 1
      · rw [if_pos (by simp [hu']), if_neg (by simp [hu]), if_pos ⟨rfl, hu'⟩]
        have h₃ : x + 1 - x = (1 : BitVec 32) := by bv_omega
        have h₄ : x + 2 - (x + 1) - 1 = (0 : BitVec 32) := by bv_omega
        simp only [addUrgent, hu', hlen, add_zero, h₃]
        rw [if_pos (by decide : 0 < (1 : BitVec 32).toInt)]
        simp only [urgPtr_takeUrgent, urgPtr_addPart, hu', h₄]
        rw [if_neg (by decide), chunks_takeUrgent, chunks_addPart, hq]
        rfl
      · have hno : (true && decide (q.rcv.urgPtr = x ∨ q.rcv.urgPtr = x + 1)) = false := by
          rw [decide_eq_false (not_or.mpr ⟨hu, hu'⟩), Bool.and_false]
        rw [hno, if_neg (by decide), if_neg fun h => hu h.2, if_neg fun h => hu' h.2]
        exact hplain _

theorem TcpStream.withHalves_self (s : TcpStream) (fc : Bool) :
    s.withHalves fc (s.snd fc) (s.rcv fc) = s := by cases fc <;> rfl

theorem Opened.closed {x : BitVec 32} {j : TcpStream} (h : Opened x j s) : s.closed = false := by
  have hst : s.client.state = .established := h.state false
  rw [TcpStream.closed, hst]
  rfl

theorem Opened.bytes {x : BitVec 32} {j : TcpStream} (h : Opened x j s) (fc : Bool) :
    ∃ w, w.callbacks = (firstChunks x (j.rcv fc)).map (.data fc) ∧
      processStream a (firstBytes x fc) fc (t.work s) = .keep w := by
  have hflag (mask : Byte) : hasFlag (firstBytes x fc).ip mask = (TH_ACK &&& mask != 0) :=
    hasFlag_plainPacket ..
  have hsyn : hasFlag (firstBytes x fc).ip TH_SYN = false := by rw [hflag]; decide
  have hrst : hasFlag (firstBytes x fc).ip TH_RST = false := by rw [hflag]; decide
  have hack : hasFlag (firstBytes x fc).ip TH_ACK = true := by rw [hflag]; decide
  have hfin : hasFlag (firstBytes x fc).ip TH_FIN = false := by rw [hflag]; decide
  have hlen : datalen (firstBytes x fc).ip = 2 := datalen_plainPacket _ _ _ _ _ _ _ (by decide)
  have hout : outOfWindow (firstBytes x fc).ip ((t.work s).stream.rcv fc) = false := by
    have hs : ((t.work s).stream.rcv fc).ackSeq = x := h.ackSeq fc
    have hw : ((t.work s).stream.rcv fc).window.setWidth 32 * ((t.work s).stream.rcv fc).wscale =
        0xffff := by
      have := h.window fc
      show (s.rcv fc).window.setWidth 32 * (s.rcv fc).wscale = _
      rw [this.1, this.2]
      rfl
    have h₁ : x - (x + 0xffff) = -0xffff := by bv_omega
    have h₂ : x + BitVec.ofInt 32 2 - x = 2 := by rw [add_sub_cancel_left]; rfl
    rw [outOfWindow, hlen, hs, hw, firstBytes, thSeq_plainPacket, before, before, h₁, h₂,
      decide_eq_true (by decide : (-0xffff : BitVec 32).toInt < 0),
      decide_eq_false (by decide : ¬ (2 : BitVec 32).toInt < 0)]
    exact Bool.and_false _
  -- Nothing is to be confirmed.
  have htake : takeAck (firstBytes x fc) fc (t.work s) = t.work s := by
    have hnews (h' : HalfStream) (hx : h'.ackSeq = x) : handleAck h' x = h' := by
      rw [handleAck, if_neg]
      rw [hx, sub_self]
      decide
    have hst (fc) : (s.rcv fc).state = .established := h.state fc
    have hest : establish (firstBytes x fc) fc (t.work s) = t.work s := by
      rw [establish, if_neg]
      rintro ⟨-, hc, -⟩
      exact absurd ((hst false).symm.trans hc) (by decide)
    have hackn : thAck (firstBytes x fc).ip = x := thAck_plainPacket ..
    rw [takeAck, hack, if_pos rfl, hest, acknowledge, hackn]
    have hrcv : ((t.work s).stream.rcv fc).state = .established := hst fc
    have hsnd : ((t.work s).stream.snd fc).ackSeq = x := by
      cases fc
      · exact h.ackSeq true
      · exact h.ackSeq false
    rw [hnews _ hsnd, hrcv, if_neg (by decide), TcpStream.withHalves_self]
  obtain ⟨huc, hrest⟩ := Prod.mk.injEq .. ▸ h.counts fc
  obtain ⟨hc, hfrag⟩ := Prod.mk.injEq .. ▸ hrest
  have hexp : ((t.work s).flow fc).expSeq = x := by
    have hsnd : (s.snd fc).firstDataSeq = x := by
      cases fc
      · exact h.data true
      · exact h.data false
    show (s.snd fc).firstDataSeq + (s.rcv fc).count + (s.rcv fc).urgCount = x
    rw [hsnd, hc, huc, add_zero, add_zero]
  have hseg : segmentOf (firstBytes x fc) =
      { seq := x, fin := false, urg := false, urp := 0, data := [0, 0], skblen := 256 } :=
    segmentOf_plainPacket _ _ _ _ _ _ _ (by decide)
  have hconn : (⟨a, (t.work s).stream.isconnnection⟩ : Owner) = ⟨a, true⟩ :=
    congrArg (Owner.mk a) h.isconnnection
  have hdata : takeData a (firstBytes x fc) fc (t.work s) =
      queueData a (firstBytes x fc) fc (t.work s) := by
    rw [takeData, hlen, hfin, if_pos (by decide)]
  have hrmem : ((updateWindow (firstBytes x fc) fc
      (queueData a (firstBytes x fc) fc (t.work s))).stream.rcv fc).rmemAlloc = 0 := by
    rw [updateWindow, TcpStream.rcv_withHalves, queueData, TcpStream.rcv_withHalves, hseg]
    refine (rmemAlloc_tcpQueue ?_ hfrag).trans (h.rmemAlloc fc)
    rw [hexp, after, sub_self]
    rfl
  refine ⟨updateWindow (firstBytes x fc) fc (queueData a (firstBytes x fc) fc (t.work s)), ?_, ?_⟩
  · show [] ++ (tcpQueue ⟨a, (t.work s).stream.isconnnection⟩ 0 ((t.work s).flow fc)
      (segmentOf (firstBytes x fc))).chunks.map (Callback.data fc) = _
    have hcs : firstChunks x ((t.work s).flow fc).rcv = firstChunks x (j.rcv fc) := by
      show firstChunks x (s.rcv fc) = _
      rw [firstChunks, firstChunks, h.urgSeen, h.urgPtr]
    rw [hconn, hseg, chunks_firstBytes hexp rfl hfrag, hcs, List.nil_append]
  · have hclosed : (t.work s).stream.closed = false := h.closed
    simp only [processStream, hsyn, hrst, hout, htake, hclosed, hdata, hrmem, Bool.false_eq_true,
      ite_false, and_false]
    rfl

/-- A connection and its first two bytes hand these over by the urgent data of the junk alone. -/
theorem run_firstBytes (hash : Hash) (junk : StreamPtr → TcpStream) (n : StreamPtr) (x : BitVec 32)
    (fc : Bool) : ∃ t, runTcp hash junk (List.replicate (n + 1) (synPacket (x - 1)) ++
      [synAckPacket x] ++ [thirdPacket x] ++ [firstBytes x fc]) =
        some (t, ⟨n, plainTuple, .connection⟩ ::
          (firstChunks x ((junk n).rcv fc)).map fun c => ⟨n, plainTuple, .data fc c⟩) := by
  obtain ⟨t, ht, ha⟩ := run_syns hash junk (x - 1) n
  obtain ⟨w₁, hcb₁, h₁, hw₁⟩ := (started_firstStream hash junk x n).answer (a := n) (t := t) rfl rfl
  obtain ⟨t₁, ht₁, ha₁⟩ := ha.plain junk (Nat.zero_le _) (by decide) hw₁
  obtain ⟨w₂, hcb₂, h₂, hw₂⟩ := h₁.third (a := n) (t := t₁)
  obtain ⟨t₂, ht₂, ha₂⟩ := ha₁.plain junk (Nat.zero_le _) (by decide) hw₂
  obtain ⟨w₃, hcb₃, hw₃⟩ := h₂.bytes (a := n) (t := t₂) fc
  obtain ⟨t₃, ht₃, -⟩ := ha₂.plain junk (by decide) (by decide) hw₃
  rw [hcb₁] at ht₁
  rw [hcb₂] at ht₂
  rw [hcb₃, List.map_map] at ht₃
  have hr₁ := run_concat.mpr ⟨_, _, _, _, ht, ht₁, rfl⟩
  have hr₂ := run_concat.mpr ⟨_, _, _, _, hr₁, ht₂, rfl⟩
  exact ⟨t₃, run_concat.mpr ⟨_, _, _, _, hr₂, ht₃, rfl⟩⟩

/-- The chunks tell whether there is urgent data at `x`. -/
theorem firstChunks_eq {x : BitVec 32} {h h' : HalfStream} (he : firstChunks x h' = firstChunks x h)
    (hs : h.urgSeen) (hx : h.urgPtr = x) : h'.urgSeen ∧ h'.urgPtr = x := by
  have hd : firstChunks x h = [⟨[0, 0], 0, 2⟩, ⟨[0, 0], 1, 1⟩] := if_pos ⟨hs, hx⟩
  by_contra hno
  rw [hd, firstChunks, if_neg hno] at he
  split at he <;> exact absurd he (by decide)

/-- Two runs that are the same have made streams with the same urgent data. -/
theorem SameRuns.firstChunks {junk' : StreamPtr → TcpStream} (h : SameRuns hash junk junk')
    (n : StreamPtr) (x : BitVec 32) (fc : Bool) :
    firstChunks x ((junk' n).rcv fc) = firstChunks x ((junk n).rcv fc) := by
  obtain ⟨t, ht⟩ := run_firstBytes hash junk n x fc
  obtain ⟨t', ht'⟩ := run_firstBytes hash junk' n x fc
  have he := (h.liveStreams ht ht').1
  have hinj : Function.Injective fun c : Chunk => (⟨n, plainTuple, .data fc c⟩ : Event) := by
    intro c c' hc
    simpa using hc
  exact List.map_injective_iff.mpr hinj (List.cons.inj he).2

/-- Two runs invoke the same callbacks and leave the same streams, over any packets, exactly if
the contents of the local variables from which their streams are made agree. -/
theorem sameRuns_iff (hash : Hash) (junk junk' : StreamPtr → TcpStream) :
    SameRuns hash junk junk' ↔ ∀ n, (junk n).Agree (junk' n) := by
  refine ⟨fun h n => ?_, sameRuns_of_agree hash⟩
  have hseen (fc) : ((junk' n).rcv fc).urgSeen = ((junk n).rcv fc).urgSeen := by
    rw [Bool.eq_iff_iff]
    exact ⟨fun hs => (firstChunks_eq (h.firstChunks n _ fc).symm hs rfl).1,
      fun hs => (firstChunks_eq (h.firstChunks n _ fc) hs rfl).1⟩
  exact ⟨hseen, fun fc hs => (firstChunks_eq (h.firstChunks n _ fc) hs rfl).2, (h.span n).2,
    (h.span n).1, h.firstDataSeq n⟩

/-- Urgent data at the first two bytes of the client, that no packet has announced. -/
def urgentStream : TcpStream :=
  { emptyStream with server := { emptyHalf with urgSeen := true, urgPtr := 2 } }

/-- Two runs over a handshake and two bytes differ in what they hand over. -/
theorem not_sameRuns : ¬ SameRuns .plain (fun _ => emptyStream) (fun _ => urgentStream) := by
  intro h
  obtain ⟨t, t', es, hr, hr', -⟩ := h handshakeThenData
  have hlen : (runTcp .plain (fun _ => emptyStream) handshakeThenData).map (·.2.length) = some 2 := by
    decide +kernel
  have hlen' : (runTcp .plain (fun _ => urgentStream) handshakeThenData).map (·.2.length) = some 3 := by
    decide +kernel
  rw [hr] at hlen
  rw [hr'] at hlen'
  cases hlen.symm.trans hlen'

end Noff.Tcp
