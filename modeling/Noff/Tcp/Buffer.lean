import Noff.Tcp.Invariant
import Noff.Tcp.Reassembly

/-!
# The receive buffer

`rmem_alloc` is the memory of the segments that wait in `fraglist`
(`HalfStream.Accounted`). `tcpQueue` adds to it only what it keeps for later, so
that a stream is dropped for the memory it takes only when a segment beyond
`EXP_SEQ` comes (`overflow_outOfOrder`). The packets are those of
`startIpfragProc`, whose `skblen` is not near the limits of an `int` (`Sized`).
With these the account of every stream is exact, and no sum leaves the range of
an `int` (`rmemAlloc_exact`).
-/

namespace Noff.Tcp

/-- The `skblen` of `startIpfragProc` for a datagram, whole (`needFree` is 0) or reassembled. -/
def skblenOf (needFree : Bool) (d : List Byte) : Nat :=
  (ipLen d + (if needFree then 16 else 15) + 15) / 16 * 16 + 168

/-- `skblen` is far from overflowing an `int` when it is added up. -/
def Packet.Sized (p : Packet) : Prop := p.skblen.toNat < 2 ^ 31 - 2 ^ 16

instance (p : Packet) : Decidable p.Sized := Nat.decLt ..

theorem sized_skblenOf (needFree : Bool) (d : List Byte) (ts : Int) :
    (⟨d, BitVec.ofNat 32 (skblenOf needFree d), ts⟩ : Packet).Sized := by
  have := ipLen_lt d
  have hle : skblenOf needFree d < 2 ^ 31 - 2 ^ 16 := by
    rw [skblenOf]
    split <;> omega
  rw [Packet.Sized, BitVec.toNat_ofNat, Nat.mod_eq_of_lt (by omega)]
  exact hle

/-- The memory of the segments of a list. -/
def truesizes (frags : List Skbuff) : Nat := (frags.map fun f => f.truesize.toNat).sum

@[simp] theorem truesizes_cons (f : Skbuff) (frags : List Skbuff) :
    truesizes (f :: frags) = f.truesize.toNat + truesizes frags := by simp [truesizes]

theorem truesizes_insertFrag (f : Skbuff) (frags : List Skbuff) :
    truesizes (insertFrag f frags) = f.truesize.toNat + truesizes frags := by
  induction frags with
  | nil => rfl
  | cons g frags ih =>
    rw [insertFrag]
    split
    · rfl
    · rw [truesizes_cons, ih, truesizes_cons]
      omega

/-- `rmem_alloc` is the memory of what waits, and below the limit. -/
structure HalfStream.Accounted (h : HalfStream) : Prop where
  sum : h.rmemAlloc = BitVec.ofNat 32 (truesizes h.fraglist)
  le : truesizes h.fraglist ≤ 65535

theorem HalfStream.Accounted.of_buffer {h h' : HalfStream} (ha : h.Accounted)
    (he : h'.buffer = h.buffer) : h'.Accounted := by
  obtain ⟨hr, hf⟩ := Prod.mk.injEq .. ▸ he
  exact ⟨by rw [hr, hf, ha.sum], by rw [hf]; exact ha.le⟩

theorem HalfStream.Accounted.toInt {h : HalfStream} (ha : h.Accounted) :
    h.rmemAlloc.toInt = truesizes h.fraglist := by
  have := ha.le
  rw [ha.sum, toInt_ofNat_of_lt (by omega)]

section

variable {a : Owner} {ts : Int} {q : Flow}

variable (a ts q) in
/-- A pass of the loop over `fraglist`: a segment that does not start beyond `EXP_SEQ` is taken. -/
def takeFrag (frag : Skbuff) : Flow :=
  let q :=
    if after (frag.seq + lenVal frag.data + flagVal frag.fin) q.expSeq then
      addFromskb a ts { q with tcpTimeoutSet := updateTcptimeout q.tcpTimeoutSet a.aTcp ts }
        frag.data frag.seq frag.fin frag.urg (frag.urgPtr + frag.seq - 1)
    else q
  { q with rcv.rmemAlloc := q.rcv.rmemAlloc - frag.truesize }

theorem drain_cons (frag : Skbuff) (rest : List Skbuff) :
    drain a ts q (frag :: rest) = if after frag.seq q.expSeq then
      { q with rcv.fraglist := frag :: rest } else drain a ts (takeFrag a ts q frag) rest := rfl

@[simp] theorem rmemAlloc_takeFrag (frag : Skbuff) :
    (takeFrag a ts q frag).rcv.rmemAlloc = q.rcv.rmemAlloc - frag.truesize := by
  simp only [takeFrag]
  split
  · rw [rmemAlloc_addFromskb]
  · rfl

/-- The loop over `fraglist` only takes from it. -/
theorem drain_accounted {frags : List Skbuff}
    (hr : q.rcv.rmemAlloc = BitVec.ofNat 32 (truesizes frags)) (hle : truesizes frags ≤ 65535) :
    (drain a ts q frags).rcv.Accounted := by
  induction frags generalizing q with
  | nil => exact ⟨hr, Nat.zero_le _⟩
  | cons f frags ih =>
    rw [drain_cons]
    split
    · exact ⟨hr, hle⟩
    · rw [truesizes_cons] at hr hle
      refine ih ?_ (by omega)
      rw [rmemAlloc_takeFrag, hr, BitVec.ofNat_add, BitVec.ofNat_toNat, BitVec.setWidth_eq,
        BitVec.add_comm, BitVec.add_sub_cancel]

variable (a ts) in
/-- `tcpQueue` either keeps the account, or keeps a segment from beyond `EXP_SEQ`. -/
theorem tcpQueue_accounted (h : q.rcv.Accounted) {seg : Segment}
    (hs : seg.skblen.toNat < 2 ^ 31 - 2 ^ 16) :
    (tcpQueue a ts q seg).rcv.Accounted ∨
      after seg.seq q.expSeq ∧ (tcpQueue a ts q seg).rcv.rmemAlloc = q.rcv.rmemAlloc + seg.skblen ∧
        65535 < (q.rcv.rmemAlloc + seg.skblen).toInt := by
  simp only [tcpQueue]
  split
  · refine .inl ?_
    split
    · have hb := buffer_addFromskb a ts { q with
        tcpTimeoutSet := updateTcptimeout q.tcpTimeoutSet a.aTcp ts } seg.data seg.seq seg.fin seg.urg
        (seg.urp.setWidth 32 + seg.seq - 1)
      obtain ⟨hr, hf⟩ := Prod.mk.injEq .. ▸ hb
      exact drain_accounted (by rw [hr, hf]; exact h.sum) (by rw [hf]; exact h.le)
    · exact h
  · rename_i hafter
    obtain ⟨hr, hf⟩ := Prod.mk.injEq .. ▸ buffer_enqueue a ts q seg
    have hsum : q.rcv.rmemAlloc + seg.skblen =
        BitVec.ofNat 32 (seg.skblen.toNat + truesizes q.rcv.fraglist) := by
      rw [h.sum, BitVec.ofNat_add, BitVec.ofNat_toNat, BitVec.setWidth_eq, BitVec.add_comm]
    have hle := h.le
    have hint : (q.rcv.rmemAlloc + seg.skblen).toInt =
        (seg.skblen.toNat + truesizes q.rcv.fraglist : Nat) := by
      rw [hsum, toInt_ofNat_of_lt (by omega)]
    by_cases hlt : 65535 < (q.rcv.rmemAlloc + seg.skblen).toInt
    · exact .inr ⟨by simpa using hafter, hr, hlt⟩
    · have htot : truesizes (insertFrag seg.pakiet q.rcv.fraglist) =
        seg.skblen.toNat + truesizes q.rcv.fraglist := truesizes_insertFrag ..
      refine .inl ⟨by rw [hr, hf, htot, hsum], ?_⟩
      rw [hf, htot]
      omega

end

/-! ## A stream -/

structure TcpStream.Accounted (s : TcpStream) : Prop where
  client : s.client.Accounted
  server : s.server.Accounted

theorem TcpStream.Accounted.rcv {s : TcpStream} (h : s.Accounted) (fc : Bool) :
    (s.rcv fc).Accounted := by
  cases fc
  · exact h.client
  · exact h.server

theorem TcpStream.Accounted.snd {s : TcpStream} (h : s.Accounted) (fc : Bool) :
    (s.snd fc).Accounted := by
  cases fc
  · exact h.server
  · exact h.client

theorem TcpStream.Accounted.withHalves {s : TcpStream} {fc : Bool} {snd rcv : HalfStream}
    (hs : snd.Accounted) (hr : rcv.Accounted) : (s.withHalves fc snd rcv).Accounted := by
  cases fc
  · exact ⟨hr, hs⟩
  · exact ⟨hs, hr⟩

/-- The packet's data is kept for later, and takes the buffer beyond its limit. -/
structure Work.Overflows (p : Packet) (fc : Bool) (w : Work) : Prop where
  accepted : Accepted p fc w
  data : 0 < datalen p.ip + (hasFlag p.ip TH_FIN).toNat
  outOfOrder : after (thSeq p.ip) (w.flow fc).expSeq
  limit : 65535 < ((w.stream.rcv fc).rmemAlloc + p.skblen).toInt

section

variable {a : StreamPtr} {p : Packet} {fc : Bool} {w w' : Work}

/-- An ACK changes no buffer, and not what is expected next. -/
theorem takeAck_buffers (p : Packet) (fc : Bool) (w : Work) :
    (takeAck p fc w).stream.client.buffer = w.stream.client.buffer ∧
      (takeAck p fc w).stream.server.buffer = w.stream.server.buffer ∧
      ((takeAck p fc w).flow fc).expSeq = (w.flow fc).expSeq := by
  simp only [takeAck, acknowledge, establish, handleAck, Work.flow, Flow.expSeq]
  cases fc <;> (repeat' split) <;> exact ⟨rfl, rfl, rfl⟩

theorem TcpStream.Accounted.takeAck (h : w.stream.Accounted) :
    (takeAck p fc w).stream.Accounted := by
  obtain ⟨hc, hs, -⟩ := takeAck_buffers p fc w
  exact ⟨h.client.of_buffer hc, h.server.of_buffer hs⟩

/-- Data that is taken leaves the account right, or overflows the buffer. -/
theorem TcpStream.Accounted.takeData (h : w.stream.Accounted) (hp : p.Sized) :
    (takeData a p fc w).stream.Accounted ∨
      0 < datalen p.ip + (hasFlag p.ip TH_FIN).toNat ∧ after (thSeq p.ip) (w.flow fc).expSeq ∧
        ((Tcp.takeData a p fc w).stream.rcv fc).rmemAlloc =
          (w.stream.rcv fc).rmemAlloc + p.skblen ∧
        65535 < ((w.stream.rcv fc).rmemAlloc + p.skblen).toInt := by
  rw [Tcp.takeData]
  split
  · rename_i hd
    have hx : Flow.Extends ⟨a, w.stream.isconnnection⟩ p.timeStamp (w.flow fc) _ :=
      tcpQueue_extends _ (segmentOf p)
    have hsnd := (h.snd fc).of_buffer hx.sndBuffer
    have hrcv : ((queueData a p fc w).stream.rcv fc) = _ := TcpStream.rcv_withHalves ..
    have hq : (w.flow fc).rcv.Accounted := h.rcv fc
    have hseg : (segmentOf p).skblen.toNat < 2 ^ 31 - 2 ^ 16 := hp
    rcases tcpQueue_accounted ⟨a, w.stream.isconnnection⟩ p.timeStamp hq hseg
      with hacc | ⟨hafter, hr, hlt⟩
    · exact .inl (.withHalves hsnd hacc)
    · exact .inr ⟨hd, hafter, (congrArg HalfStream.rmemAlloc hrcv).trans hr, hlt⟩
  · exact .inl h

theorem TcpStream.Accounted.updateWindow (h : w.stream.Accounted) :
    (updateWindow p fc w).stream.Accounted :=
  .withHalves ((h.snd fc).of_buffer rfl) (h.rcv fc)

/-- A stream that stays is accounted for. -/
theorem Stages.accounted (h : Stages a p fc w (.keep w')) (hw : w.stream.Accounted)
    (hp : p.Sized) : w'.stream.Accounted := by
  cases h with
  | ignored => exact hw
  | synAck h => exact ⟨hw.client.of_buffer h.clientBuffer, hw.server.of_buffer h.serverBuffer⟩
  | taken _ hle =>
    rcases hw.takeAck.takeData hp with h | ⟨-, -, hr, hlt⟩
    · exact h.updateWindow
    · exact absurd (hr ▸ hlt) hle

/-- A stream is dropped for the memory it takes when a segment from beyond `EXP_SEQ` overflows
its buffer. -/
theorem overflow_outOfOrder (hw : w.stream.Accounted) (hp : p.Sized) (hacc : Accepted p fc w)
    (h : 65535 < ((takeData a p fc (takeAck p fc w)).stream.rcv fc).rmemAlloc.toInt) :
    w.Overflows p fc := by
  rcases hw.takeAck.takeData hp with ha | ⟨hd, hafter, -, hlt⟩
  · have ha := ha.rcv fc
    have hle := ha.le
    rw [ha.toInt] at h
    omega
  · obtain ⟨hc, hs, hexp⟩ := takeAck_buffers p fc w
    refine ⟨hacc, hd, hexp ▸ hafter, ?_⟩
    have hr : ((takeAck p fc w).stream.rcv fc).rmemAlloc = (w.stream.rcv fc).rmemAlloc := by
      cases fc
      · exact congrArg Prod.fst hc
      · exact congrArg Prod.fst hs
    rwa [hr] at hlt

end

/-! ## The streams of a run -/

open TcpFragment

variable {hash : Hash} {junk : StreamPtr → TcpStream} {t t' : TcpFragment} {p : Packet}
  {es : List Event}

/-- Every stream in the map is accounted for. -/
def TcpFragment.Accounted (t : TcpFragment) : Prop := ∀ a s, t.deref a = some s → s.Accounted

theorem TcpFragment.Accounted.without (h : t.Accounted) (D : List StreamPtr) :
    (t.without D).Accounted := fun a s hd => h a s (deref_of_without hd)

theorem TcpFragment.Accounted.create (hi : t.Inv hash) (h : t.Accounted) :
    (t.create hash junk p).Accounted := by
  intro a s hd
  rw [hi.deref_create] at hd
  split at hd
  · cases hd
    exact ⟨⟨rfl, Nat.zero_le _⟩, ⟨rfl, Nat.zero_le _⟩⟩
  · exact h a s hd

theorem TcpFragment.Accounted.step (hi : t.Inv hash) (h : t.Accounted) (hp : p.Sized)
    (hs : Step hash junk t p t' es) : t'.Accounted := by
  cases hs with
  | ignored => exact h
  | created => exact h.create hi
  | cleared =>
    rw [hi.clearAllStream.eq]
    exact (h.without _).create (hi.without _)
  | replaced => exact (h.without _).create (hi.without _)
  | @kept a fc s w _ _ hd hw =>
    intro b s' hd'
    rw [deref_conclude hd] at hd'
    split at hd'
    · cases hd'
      exact hw.accounted (h a s hd) hp
    · exact h b s' hd'
  | freed => exact h.without _

theorem runTcp_accounted {ps : List Packet} (hps : ∀ p ∈ ps, p.Sized)
    (h : runTcp hash junk ps = some (t, es)) : t.Accounted := by
  refine run_induction (I := fun ps t _ => (∀ p ∈ ps, p.Sized) → t.Accounted)
    (fun _ a s hd => by cases hd) (fun {ps t es p t' es'} hr ih hs hps => ?_) h hps
  obtain ⟨D, t₁, es₁, t₂, es₂, hp, -, hc, hi₁, hstep⟩ := (runTcp_inv hr).processTcp junk p
  rw [hs] at hp
  cases hp
  have ht := ih fun q hq => hps q (List.mem_append_left _ hq)
  exact (hc.eq ▸ ht.without _ : t₁.Accounted).step hi₁
    (hps p (List.mem_append_right _ (List.mem_singleton_self p))) hstep

/-! ## The sums that make `rmem_alloc` -/

section

variable (a : Owner) (ts : Int)

/-- What the loop over `fraglist` computes for `rmem_alloc`, as integers, in order. -/
def drainSums (q : Flow) : List Skbuff → List Int
  | [] => []
  | frag :: rest =>
    if after frag.seq q.expSeq then []
    else (q.rcv.rmemAlloc.toInt - frag.truesize.toInt) :: drainSums (takeFrag a ts q frag) rest

/-- What `tcpQueue` computes for `rmem_alloc`. -/
def tcpQueueSums (q : Flow) (seg : Segment) : List Int :=
  if !after seg.seq q.expSeq then
    if after (seg.seq + lenVal seg.data + flagVal seg.fin) q.expSeq then
      let q := { q with tcpTimeoutSet := updateTcptimeout q.tcpTimeoutSet a.aTcp ts }
      let q := addFromskb a ts q seg.data seg.seq seg.fin seg.urg
        (seg.urp.setWidth 32 + seg.seq - 1)
      drainSums a ts q q.rcv.fraglist
    else []
  else [q.rcv.rmemAlloc.toInt + seg.skblen.toInt]

end

/-- What `processTcp` computes for `rmem_alloc` once the stream of the packet is found. -/
def streamSums (aTcp : StreamPtr) (p : Packet) (fromClient : Bool) (w : Work) : List Int :=
  if hasFlag p.ip TH_SYN ∨ outOfWindow p.ip (w.stream.rcv fromClient) ∨ hasFlag p.ip TH_RST then []
  else
    let w := takeAck p fromClient w
    if hasFlag p.ip TH_ACK ∧ w.stream.closed then []
    else if 0 < datalen p.ip + (hasFlag p.ip TH_FIN).toNat then
      tcpQueueSums ⟨aTcp, w.stream.isconnnection⟩ p.timeStamp (w.flow fromClient) (segmentOf p)
    else []

/-- What a call of `processTcp` computes for `rmem_alloc`. -/
def TcpFragment.sums (hash : Hash) (t : TcpFragment) (p : Packet) : List Int :=
  match t.tcpChecktimeouts p.timeStamp with
  | none => []
  | some (t, _) =>
    if !wellFormed p.ip then []
    else
      match t.findStream hash p.ip with
      | none => []
      | some (aTcp, fromClient) =>
        match t.deref aTcp with
        | none => []
        | some s => streamSums aTcp p fromClient (t.work s)

section

variable {a : Owner} {ts : Int} {q : Flow}

theorem ofInt_getLastD {l : List Int} {m n : Int} (h : BitVec.ofInt 32 m = BitVec.ofInt 32 n) :
    BitVec.ofInt 32 (l.getLastD m) = BitVec.ofInt 32 (l.getLastD n) := by
  cases l with
  | nil => exact h
  | cons x l => rw [List.getLastD_cons, List.getLastD_cons]

/-- The last sum is what `rmem_alloc` is left with. -/
theorem lastSum_drain (frags : List Skbuff) :
    (drain a ts q frags).rcv.rmemAlloc =
      BitVec.ofInt 32 ((drainSums a ts q frags).getLastD q.rcv.rmemAlloc.toInt) := by
  induction frags generalizing q with
  | nil => exact BitVec.ofInt_toInt.symm
  | cons f frags ih =>
    rw [drain_cons, drainSums]
    split
    · exact BitVec.ofInt_toInt.symm
    · rw [ih, List.getLastD_cons]
      apply ofInt_getLastD
      rw [BitVec.ofInt_toInt, rmemAlloc_takeFrag, Int.sub_eq_add_neg, BitVec.ofInt_add,
        BitVec.ofInt_neg, BitVec.ofInt_toInt, BitVec.ofInt_toInt, BitVec.sub_eq_add_neg]

theorem lastSum_tcpQueue (seg : Segment) :
    (tcpQueue a ts q seg).rcv.rmemAlloc =
      BitVec.ofInt 32 ((tcpQueueSums a ts q seg).getLastD q.rcv.rmemAlloc.toInt) := by
  simp only [tcpQueue, tcpQueueSums]
  split
  · split
    · rw [lastSum_drain, rmemAlloc_addFromskb]
    · exact BitVec.ofInt_toInt.symm
  · obtain ⟨hr, -⟩ := Prod.mk.injEq .. ▸ buffer_enqueue a ts q seg
    rw [hr, List.getLastD_cons, List.getLastD_nil, BitVec.ofInt_add, BitVec.ofInt_toInt,
      BitVec.ofInt_toInt]

/-- Each pass of the loop goes from the memory of the list to that of a shorter one. -/
theorem drainSums_le {frags : List Skbuff}
    (hr : q.rcv.rmemAlloc = BitVec.ofNat 32 (truesizes frags)) (hle : truesizes frags ≤ 65535) :
    ∀ n ∈ drainSums a ts q frags, 0 ≤ n ∧ n ≤ 65535 := by
  induction frags generalizing q with
  | nil => simp [drainSums]
  | cons f frags ih =>
    rw [drainSums]
    split
    · simp
    · rw [truesizes_cons] at hr hle
      have hq : q.rcv.rmemAlloc.toInt = f.truesize.toNat + truesizes frags := by
        rw [hr, toInt_ofNat_of_lt (by omega)]
        exact Int.natCast_add ..
      have hf : f.truesize.toInt = f.truesize.toNat := BitVec.toInt_eq_toNat_of_lt (by omega)
      intro n hn
      rcases List.mem_cons.mp hn with rfl | hn
      · omega
      · refine ih ?_ (by omega) n hn
        rw [rmemAlloc_takeFrag, hr, BitVec.ofNat_add, BitVec.ofNat_toNat, BitVec.setWidth_eq,
          BitVec.add_comm, BitVec.add_sub_cancel]

/-- No sum of `tcpQueue` is out of the range of an `int`. -/
theorem tcpQueueSums_range (h : q.rcv.Accounted) {seg : Segment}
    (hs : seg.skblen.toNat < 2 ^ 31 - 2 ^ 16) :
    ∀ n ∈ tcpQueueSums a ts q seg, 0 ≤ n ∧ n < 2 ^ 31 := by
  intro n hn
  simp only [tcpQueueSums] at hn
  split at hn
  · split at hn
    · have hb := buffer_addFromskb a ts { q with
        tcpTimeoutSet := updateTcptimeout q.tcpTimeoutSet a.aTcp ts } seg.data seg.seq seg.fin seg.urg
        (seg.urp.setWidth 32 + seg.seq - 1)
      obtain ⟨hr, hf⟩ := Prod.mk.injEq .. ▸ hb
      have := drainSums_le (by rw [hr, hf]; exact h.sum) (by rw [hf]; exact h.le) n hn
      omega
    · simp at hn
  · have hle := h.le
    have hseg : seg.skblen.toInt = seg.skblen.toNat := BitVec.toInt_eq_toNat_of_lt (by omega)
    rw [List.mem_singleton, h.toInt, hseg] at hn
    omega

end

/-- No sum for a packet of the stream is out of range. -/
theorem streamSums_range {a : StreamPtr} {p : Packet} {fc : Bool} {w : Work}
    (h : w.stream.Accounted) (hp : p.Sized) : ∀ n ∈ streamSums a p fc w, 0 ≤ n ∧ n < 2 ^ 31 := by
  intro n hn
  simp only [streamSums] at hn
  split at hn
  · simp at hn
  · split at hn
    · simp at hn
    · split at hn
      · have hseg : (segmentOf p).skblen.toNat < 2 ^ 31 - 2 ^ 16 := hp
        exact tcpQueueSums_range (h.takeAck.rcv fc) hseg n hn
      · simp at hn

theorem TcpFragment.Accounted.sums (hi : t.Inv hash) (h : t.Accounted) (hp : p.Sized) :
    ∀ n ∈ t.sums hash p, 0 ≤ n ∧ n < 2 ^ 31 := by
  obtain ⟨D, t₁, es₁, hcheck, hc⟩ := hi.tcpChecktimeouts p.timeStamp
  have h₁ : t₁.Accounted := hc.eq ▸ h.without _
  intro n hn
  simp only [TcpFragment.sums, hcheck] at hn
  split at hn
  · simp at hn
  · split at hn
    · simp at hn
    · split at hn
      · simp at hn
      · rename_i hd
        exact streamSums_range (h₁ _ _ hd) hp n hn

/-- What `rmem_alloc` must be: the memory of what waits, and within its limit. -/
def HalfStream.Exact (h : HalfStream) : Prop :=
  h.rmemAlloc.toInt = (h.fraglist.map (·.truesize.toInt)).sum ∧
    0 ≤ h.rmemAlloc.toInt ∧ h.rmemAlloc.toInt ≤ 65535

theorem sum_toInt_truesize {frags : List Skbuff} (h : truesizes frags ≤ 65535) :
    (frags.map (·.truesize.toInt)).sum = truesizes frags := by
  induction frags with
  | nil => rfl
  | cons f frags ih =>
    rw [truesizes_cons] at h ⊢
    have hf : f.truesize.toInt = f.truesize.toNat := BitVec.toInt_eq_toNat_of_lt (by omega)
    rw [List.map_cons, List.sum_cons, ih (by omega), hf]
    exact (Int.natCast_add ..).symm

theorem HalfStream.Accounted.exact {h : HalfStream} (ha : h.Accounted) : h.Exact := by
  have hle := ha.le
  refine ⟨by rw [ha.toInt, sum_toInt_truesize hle], ?_, ?_⟩ <;> rw [ha.toInt] <;> omega

/-- The packet has the `skblen` that `startIpfragProc` computes for its datagram. -/
def Packet.Measured (p : Packet) : Prop :=
  ∃ needFree, p.skblen = BitVec.ofNat 32 (skblenOf needFree p.ip)

instance (p : Packet) : Decidable p.Measured := inferInstanceAs (Decidable (∃ _, _))

theorem Packet.Measured.sized {p : Packet} (h : p.Measured) : p.Sized := by
  obtain ⟨needFree, h⟩ := h
  have := sized_skblenOf needFree p.ip p.timeStamp
  rwa [Packet.Sized, ← h] at this

/-- After any packets `rmem_alloc` of every stream is the memory of what waits, from 0 to 65535,
and no sum for the next packet is out of the range of an `int`. -/
theorem rmemAlloc_exact (hash : Hash) (junk : StreamPtr → TcpStream) {ps : List Packet}
    (hps : ∀ p ∈ ps, p.Measured) :
    ∃ t es, runTcp hash junk ps = some (t, es) ∧
      (∀ a s, t.deref a = some s → s.client.Exact ∧ s.server.Exact) ∧
      ∀ p : Packet, p.Measured → ∀ n ∈ t.sums hash p, 0 ≤ n ∧ n < 2 ^ 31 := by
  obtain ⟨t, es, h, hi⟩ := runTcp_total hash junk ps
  have ha : t.Accounted := runTcp_accounted (fun p hp => (hps p hp).sized) h
  refine ⟨t, es, h, fun a s hd => ?_, fun p hp => ha.sums hi hp.sized⟩
  have hs := ha a s hd
  exact ⟨hs.client.exact, hs.server.exact⟩

/-- A handshake, then two segments with two bytes each from beyond `EXP_SEQ`. -/
def handshakeThenAhead : List Packet :=
  [dataPacket true 1 0 TH_SYN [], dataPacket false 7 2 (TH_SYN ||| TH_ACK) [],
    dataPacket true 2 8 TH_ACK [], dataPacket true 8 8 TH_ACK [0x68, 0x69],
    dataPacket true 4 8 TH_ACK [0x6a, 0x6b]].map
    fun p => { p with skblen := BitVec.ofNat 32 (skblenOf false p.ip) }

theorem rmemAlloc_exact_ahead :
    ∃ t es, runTcp .plain (fun _ => emptyStream) handshakeThenAhead = some (t, es) ∧
      (t.deref 0).map (fun s => (s.server.fraglist.map (·.seq), s.server.rmemAlloc)) =
        some ([4, 8], 464) ∧
      (∀ a s, t.deref a = some s → s.client.Exact ∧ s.server.Exact) ∧
      ∀ p : Packet, p.Measured → ∀ n ∈ t.sums .plain p, 0 ≤ n ∧ n < 2 ^ 31 := by
  have hbuf : (runTcp .plain (fun _ => emptyStream) handshakeThenAhead).bind (fun r =>
      (r.1.deref 0).map fun s => (s.server.fraglist.map (·.seq), s.server.rmemAlloc)) =
        some ([4, 8], 464) := by decide +kernel
  have hmeasured : ∀ p ∈ handshakeThenAhead, p.Measured := by decide
  obtain ⟨t, es, hr, h⟩ := rmemAlloc_exact .plain (fun _ => emptyStream) hmeasured
  rw [hr] at hbuf
  exact ⟨t, es, hr, hbuf, h⟩

end Noff.Tcp
