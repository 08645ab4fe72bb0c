import Noff.Tcp.Urgent

/-!
# Where the data comes from

What waits in a `fraglist`, and what a data callback is given, are parts of the data
of segments for which `tcpQueue` has been called (`Flow.From`). Every packet keeps
this, so that over any run all data comes from packets of the run (`runTcp_from`).
-/

namespace Noff.Tcp

/-- The bytes of the chunk are bytes of this data. -/
structure Chunk.PartOf (c : Chunk) (bytes : List Byte) : Prop where
  data : c.data = bytes
  off : 0 ≤ c.off
  len : 0 ≤ c.len
  inside : ∀ i ∈ c.offsets, i < bytes.length

section

variable {G : Segment → Prop}

/-- What waits are segments that `G` holds of. -/
def HalfStream.From (G : Segment → Prop) (h : HalfStream) : Prop :=
  ∀ f ∈ h.fraglist, ∃ seg, G seg ∧ f = seg.pakiet

/-- The chunks are parts of such segments. -/
def ChunksFrom (G : Segment → Prop) (cs : List Chunk) : Prop :=
  ∀ c ∈ cs, ∃ seg, G seg ∧ c.PartOf seg.data

structure Flow.From (G : Segment → Prop) (q : Flow) : Prop where
  rcv : q.rcv.From G
  chunks : ChunksFrom G q.chunks

theorem HalfStream.From.of_eq {h h' : HalfStream} (hf : h.From G) (he : h'.fraglist = h.fraglist) :
    h'.From G := by
  rw [HalfStream.From, he]
  exact hf

section

variable {a : Owner} {ts : Int} {q : Flow} {seg : Segment}

/-- All that is handed over of a segment lies in it. -/
theorem segmentOffsets_lt (q : Flow) (seg : Segment) :
    ∀ i ∈ segmentOffsets q seg, i < seg.data.length := by
  intro i hi
  rw [segmentOffsets] at hi
  split at hi
  · rename_i u hu
    obtain ⟨h₁, h₂⟩ := urgentAt_mem hu
    simp only [List.mem_append, List.mem_range'_1] at hi
    omega
  · obtain ⟨h₁, h₂⟩ := List.mem_range'_1.mp hi
    omega

theorem Flow.From.addFromskb (h : q.From G) (ts : Int) (hs : G seg) (hl : seg.data.length ≤ 65535)
    (hin : inOrder q seg = true) :
    (addFromskb a ts q seg.data seg.seq seg.fin seg.urg seg.urgPtr).From G := by
  refine ⟨h.rcv.of_eq (fraglist_addFromskb ..), ?_⟩
  by_cases ha : a.isconnnection
  · have hands := addFromskb_hands ha ts hl hin
    obtain ⟨cs, hcs, hdata, hoffs⟩ := hands.chunks
    rw [hcs]
    intro c hc
    rcases List.mem_append.mp hc with hc | hc
    · exact h.chunks c hc
    · obtain ⟨hd, hoff, hlen⟩ := hdata c hc
      refine ⟨seg, hs, hd, hoff, hlen, fun i hi => segmentOffsets_lt q seg i ?_⟩
      rw [← hoffs]
      exact List.mem_flatMap.mpr ⟨c, hc, hi⟩
  · have hx : Flow.Extends a ts q _ :=
      addFromskb_extends q seg.data seg.seq seg.fin seg.urg seg.urgPtr
    obtain ⟨cs, hcs, hnil⟩ := hx.chunks
    rw [hcs, hnil (by simpa using ha), List.append_nil]
    exact h.chunks

variable (hG : ∀ seg, G seg → seg.data.length ≤ 65535)

include hG

theorem drain_from {frags : List Skbuff} (h : q.From G)
    (hf : ∀ f ∈ frags, ∃ seg, G seg ∧ f = seg.pakiet) : (drain a ts q frags).From G := by
  induction frags generalizing q with
  | nil => exact ⟨nofun, h.chunks⟩
  | cons f frags ih =>
    have hrest := fun g hg => hf g (List.mem_cons_of_mem _ hg)
    rw [drain_cons]
    split
    · exact ⟨hf, h.chunks⟩
    · rename_i hafter
      obtain ⟨seg, hs, rfl⟩ := hf f (List.mem_cons_self ..)
      refine ih ?_ hrest
      rw [takeFrag]
      split
      · rename_i hend
        have hin : inOrder q seg = true := by
          have hafter : after seg.seq q.expSeq = false := Bool.not_eq_true _ ▸ hafter
          rw [inOrder, hafter]
          exact hend
        have h' : Flow.From G { q with tcpTimeoutSet := updateTcptimeout q.tcpTimeoutSet a.aTcp ts } :=
          ⟨h.rcv, h.chunks⟩
        obtain ⟨hrcv, hchunks⟩ := h'.addFromskb (a := a) ts hs (hG seg hs) hin
        exact ⟨hrcv, hchunks⟩
      · exact ⟨h.rcv, h.chunks⟩

variable (a ts) in
/-- `tcpQueue` keeps the segment, or hands over parts of it and of what has waited. -/
theorem tcpQueue_from (h : q.From G) (hs : G seg) : (tcpQueue a ts q seg).From G := by
  simp only [tcpQueue]
  split
  · rename_i hafter
    split
    · rename_i hend
      have hin : inOrder q seg = true := by
        rw [inOrder, Bool.and_eq_true]
        exact ⟨hafter, hend⟩
      have h' : Flow.From G { q with tcpTimeoutSet := updateTcptimeout q.tcpTimeoutSet a.aTcp ts } :=
        ⟨h.rcv, h.chunks⟩
      have hadd := h'.addFromskb (a := a) ts hs (hG seg hs) hin
      exact drain_from hG hadd hadd.rcv
    · exact h
  · obtain ⟨-, hf⟩ := Prod.mk.injEq .. ▸ buffer_enqueue a ts q seg
    have hchunks : (enqueue a ts q seg).chunks = q.chunks := by
      simp only [enqueue]
      split
      · split <;> rfl
      · rfl
    refine ⟨fun f hmem => ?_, by rw [hchunks]; exact h.chunks⟩
    rw [hf] at hmem
    rcases mem_insertFrag hmem with rfl | hmem
    · exact ⟨seg, hs, rfl⟩
    · exact h.rcv f hmem

end

/-! ## A stream -/

/-- What waits in both halves are such segments. -/
def TcpStream.From (G : Segment → Prop) (s : TcpStream) : Prop := ∀ fc, (s.rcv fc).From G

/-- The data callbacks are given parts of such segments. -/
def CallbacksFrom (G : Segment → Prop) (cbs : List Callback) : Prop :=
  ∀ fc c, .data fc c ∈ cbs → ∃ seg, G seg ∧ c.PartOf seg.data

structure Work.From (G : Segment → Prop) (w : Work) : Prop where
  stream : w.stream.From G
  callbacks : CallbacksFrom G w.callbacks

section

variable {a : StreamPtr} {p : Packet} {fc : Bool} {w w' : Work}

theorem TcpStream.From.withHalves {s : TcpStream} {snd rcv : HalfStream} (hs : snd.From G)
    (hr : rcv.From G) : (s.withHalves fc snd rcv).From G := by
  intro fc'
  cases fc <;> cases fc'
  · exact hr
  · exact hs
  · exact hs
  · exact hr

theorem TcpStream.From.snd {s : TcpStream} (h : s.From G) (fc : Bool) : (s.snd fc).From G := by
  cases fc
  · exact h true
  · exact h false

/-- A stream that has taken nothing, and callbacks that are given no data. -/
theorem Work.From.of_eq (h : w.From G)
    (hs : ∀ fc, (w'.stream.rcv fc).fraglist = (w.stream.rcv fc).fraglist)
    (hc : ∀ fc c, .data fc c ∈ w'.callbacks → .data fc c ∈ w.callbacks) : w'.From G :=
  ⟨fun fc => (h.stream fc).of_eq (hs fc), fun fc c hmem => h.callbacks fc c (hc fc c hmem)⟩

theorem Work.From.end (h : w.From G) {cb : Callback} (hcb : ∀ fc c, cb ≠ .data fc c) :
    (w.end cb).From G := by
  rw [Work.end]
  split
  · refine h.of_eq (fun _ => rfl) fun fc c hmem => ?_
    rcases List.mem_append.mp hmem with hmem | hmem
    · exact hmem
    · exact absurd (List.mem_singleton.mp hmem).symm (hcb fc c)
  · exact h

theorem Work.From.takeAck (h : w.From G) : (takeAck p fc w).From G := by
  refine h.of_eq (fun fc' => ?_) fun fc' c hmem => ?_
  · exact congrArg (fun r => r.2.2.2) (received_takeAck p fc w fc')
  · simp only [Tcp.takeAck, acknowledge, establish] at hmem
    split at hmem
    · split at hmem
      · rcases List.mem_append.mp hmem with hmem | hmem
        · exact hmem
        · cases List.mem_singleton.mp hmem
      · exact hmem
    · exact hmem

theorem Work.From.takeData (hG : ∀ seg, G seg → seg.data.length ≤ 65535) (h : w.From G)
    (hs : 0 < datalen p.ip + (hasFlag p.ip TH_FIN).toNat → G (segmentOf p)) :
    (takeData a p fc w).From G := by
  rw [Tcp.takeData]
  split
  · rename_i hdata
    have hflow : (w.flow fc).From G := ⟨h.stream fc, fun _ hc => by cases hc⟩
    have hq := tcpQueue_from ⟨a, w.stream.isconnnection⟩ p.timeStamp hG hflow (hs hdata)
    have hx : Flow.Extends ⟨a, w.stream.isconnnection⟩ p.timeStamp (w.flow fc) _ :=
      tcpQueue_extends _ (segmentOf p)
    have hsnd := (h.stream.snd fc).of_eq (congrArg Prod.snd hx.sndBuffer)
    refine ⟨.withHalves hsnd hq.rcv, fun fc' c hmem => ?_⟩
    rcases List.mem_append.mp hmem with hmem | hmem
    · exact h.callbacks fc' c hmem
    · obtain ⟨c', hc', he⟩ := List.mem_map.mp hmem
      cases he
      exact hq.chunks c hc'
  · exact h

theorem Work.From.updateWindow (h : w.From G) : (updateWindow p fc w).From G :=
  ⟨.withHalves ((h.stream.snd fc).of_eq rfl) (h.stream fc), h.callbacks⟩

/-- A packet for the stream leaves it so, if its segment is one of them when it is taken. -/
theorem Stages.from {o : Outcome} (hst : Stages a p fc w o)
    (hG : ∀ seg, G seg → seg.data.length ≤ 65535) (h : w.From G)
    (hs : Accepted p fc w → 0 < datalen p.ip + (hasFlag p.ip TH_FIN).toNat → G (segmentOf p)) :
    o.work.From G := by
  cases hst with
  | ignored => exact h
  | synAck hsa =>
    refine h.of_eq (fun fc' => ?_) fun fc' c hmem => hsa.callbacks ▸ hmem
    cases fc'
    · exact congrArg Prod.snd hsa.clientBuffer
    · exact congrArg Prod.snd hsa.serverBuffer
  | rst => exact h.end nofun
  | closed => exact h.takeAck.end nofun
  | overflow hacc => exact (h.takeAck.takeData hG (hs hacc)).updateWindow
  | taken hacc => exact (h.takeAck.takeData hG (hs hacc)).updateWindow

end

end

/-! ## The streams of a run -/

open TcpFragment

variable {hash : Hash} {junk : StreamPtr → TcpStream} {t t' : TcpFragment} {p : Packet}
  {es : List Event} {G : Segment → Prop}

/-- `processTcp` takes the packet as a segment of a stream that it has: it calls `tcpQueue`. -/
def Queues (hash : Hash) (t : TcpFragment) (p : Packet) : Prop :=
  ∃ t₁ es a fc s, t.tcpChecktimeouts p.timeStamp = some (t₁, es) ∧ wellFormed p.ip ∧
    t₁.findStream hash p.ip = some (a, fc) ∧ t₁.deref a = some s ∧ Accepted p fc (t₁.work s) ∧
    0 < datalen p.ip + (hasFlag p.ip TH_FIN).toNat

/-- Every stream in the map has its data from such segments. -/
def TcpFragment.From (G : Segment → Prop) (t : TcpFragment) : Prop :=
  ∀ a s, t.deref a = some s → s.From G

/-- The data callbacks among these events are given parts of such segments. -/
def EventsFrom (G : Segment → Prop) (es : List Event) : Prop :=
  ∀ e ∈ es, ∀ fc c, e.callback = .data fc c → ∃ seg, G seg ∧ c.PartOf seg.data

theorem TcpFragment.From.without (h : t.From G) (D : List StreamPtr) : (t.without D).From G :=
  fun a s hd => h a s (deref_of_without hd)

theorem TcpFragment.From.create (hi : t.Inv hash) (h : t.From G) :
    (t.create hash junk p).From G := by
  intro a s hd
  rw [hi.deref_create] at hd
  split at hd
  · cases hd
    intro fc f hf
    cases fc <;> cases hf
  · exact h a s hd

/-- The ends of streams bring no data. -/
theorem TcpFragment.Ended.eventsFrom {D : List (StreamPtr × Callback)} (h : t.Ended D t' es) :
    EventsFrom G es := by
  intro e he fc c hc
  rw [h.events] at he
  obtain ⟨x, hx, he⟩ := List.mem_flatMap.mp he
  rw [ending] at he
  split at he
  · rw [notifyEnd] at he
    split at he
    · rw [List.mem_singleton.mp he] at hc
      rcases h.terminal x hx with hx | hx <;> rw [hx] at hc <;> cases hc
    · cases he
  · cases he

theorem CallbacksFrom.conclude {a : StreamPtr} {w : Work} (h : CallbacksFrom G w.callbacks) :
    EventsFrom G (t.conclude a w).2 := by
  intro e he fc c hc
  obtain ⟨cb, hcb, rfl⟩ := List.mem_map.mp he
  exact h fc c (hc ▸ hcb)

theorem TcpFragment.From.step (hG : ∀ seg, G seg → seg.data.length ≤ 65535) (hi : t.Inv hash)
    (h : t.From G) (hs : Step hash junk t p t' es)
    (hp : ∀ a fc s, wellFormed p.ip → t.findStream hash p.ip = some (a, fc) → t.deref a = some s →
      Accepted p fc (t.work s) → 0 < datalen p.ip + (hasFlag p.ip TH_FIN).toNat → G (segmentOf p)) :
    t'.From G ∧ EventsFrom G es := by
  cases hs with
  | ignored => exact ⟨h, nofun⟩
  | created => exact ⟨h.create hi, nofun⟩
  | cleared =>
    refine ⟨?_, hi.clearAllStream.eventsFrom⟩
    rw [hi.clearAllStream.eq]
    exact (h.without _).create (hi.without _)
  | replaced => exact ⟨(h.without _).create (hi.without _), nofun⟩
  | @kept a fc s w hwf hf hd hw =>
    have hwork := hw.from hG ⟨h a s hd, nofun⟩ (hp a fc s hwf hf hd)
    refine ⟨fun b s' hd' => ?_, hwork.callbacks.conclude⟩
    rw [deref_conclude hd] at hd'
    split at hd'
    · cases hd'
      exact hwork.stream
    · exact h b s' hd'
  | @freed a fc s w hwf hf hd hw =>
    have hwork := hw.from hG ⟨h a s hd, nofun⟩ (hp a fc s hwf hf hd)
    exact ⟨h.without _, hwork.callbacks.conclude⟩

/-- A segment for which `tcpQueue` has been called in a run. -/
def Queued (hash : Hash) (junk : StreamPtr → TcpStream) (ps : List Packet) (seg : Segment) : Prop :=
  ∃ i p t, Meets hash junk ps i p t ∧ Queues hash t p ∧ seg = segmentOf p

/-- The data of every run comes from segments of the run. -/
theorem runTcp_from {ps : List Packet} (h : runTcp hash junk ps = some (t, es)) :
    t.From (Queued hash junk ps) ∧ EventsFrom (Queued hash junk ps) es := by
  refine run_induction (I := fun ps t es => t.From (Queued hash junk ps) ∧
    EventsFrom (Queued hash junk ps) es) ⟨fun a s hd => (by cases hd), nofun⟩ ?_ h
  intro ps t es p t' es' hr ⟨ht, hes⟩ hs
  have hmono : ∀ seg, Queued hash junk ps seg → Queued hash junk (ps ++ [p]) seg := by
    rintro seg ⟨i, q, t₀, hm, hq, rfl⟩
    exact ⟨i, q, t₀, (meets_concat hr).mpr (.inl hm), hq, rfl⟩
  have hlen : ∀ seg, Queued hash junk (ps ++ [p]) seg → seg.data.length ≤ 65535 := by
    rintro seg ⟨i, q, t₀, -, -, rfl⟩
    exact length_segmentOf q
  obtain ⟨D, t₁, es₁, t₂, es₂, hp, hck, hc, hi₁, hstep⟩ := (runTcp_inv hr).processTcp junk p
  rw [hs] at hp
  cases hp
  have ht₁ : t₁.From (Queued hash junk (ps ++ [p])) := by
    rw [hc.eq]
    intro a s hd fc f hf
    obtain ⟨seg, hseg, he⟩ := ht.without _ a s hd fc f hf
    exact ⟨seg, hmono seg hseg, he⟩
  obtain ⟨ht₂, hes₂⟩ := ht₁.step hlen hi₁ hstep fun a fc s hwf hf hd hacc hdata =>
    ⟨ps.length, p, t, (meets_concat hr).mpr (.inr ⟨rfl, rfl, rfl⟩),
      ⟨t₁, es₁, a, fc, s, hck, hwf, hf, hd, hacc, hdata⟩, rfl⟩
  refine ⟨ht₂, fun e he fc c hcb => ?_⟩
  rcases List.mem_append.mp he with he | he
  · obtain ⟨seg, hseg, hpart⟩ := hes e he fc c hcb
    exact ⟨seg, hmono seg hseg, hpart⟩
  · rcases List.mem_append.mp he with he | he
    · exact hc.eventsFrom e he fc c hcb
    · exact hes₂ e he fc c hcb

end Noff.Tcp
