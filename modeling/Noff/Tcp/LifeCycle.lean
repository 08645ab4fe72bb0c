import Noff.Tcp.Invariant

/-!
# The life of a stream

The callbacks about a stream move it through `Life`: it is announced, it
delivers data, and it ends. Every step of `processTcp` invokes callbacks that
fit where the stream is (`Stages.life`), so that over any run the callbacks
about one stream are a word of this automaton, and a stream whose end has been
announced is no longer in the map (`Told`). `Handshake` is what the state of a
stream says about the packets that led to it: a stream is announced only after
the three packets of a handshake (`callbacks_lifeCycle`).
-/

namespace Noff.Tcp

variable {hash : Hash} {junk : StreamPtr → TcpStream}

/-- How far a stream has come, as its callbacks tell. -/
inductive Life where
  | silent | opened | ended
  deriving DecidableEq

def Life.next : Life → Callback → Option Life
  | .silent, .connection => some .opened
  | .opened, .data _ _ => some .opened
  | .opened, .close => some .ended
  | .opened, .rst => some .ended
  | .opened, .timeout => some .ended
  | _, _ => none

/-- Where a sequence of callbacks leads, if they come in an order that is allowed. -/
def Life.after (l : Life) (cbs : List Callback) : Option Life := cbs.foldlM Life.next l

namespace Life

@[simp] theorem after_nil (l : Life) : l.after [] = some l := rfl

theorem after_append {l l' : Life} {cbs cbs' : List Callback} (h : l.after cbs = some l') :
    l.after (cbs ++ cbs') = l'.after cbs' := by
  rw [Life.after] at h ⊢
  rw [List.foldlM_append, h]
  rfl

theorem after_singleton (l : Life) (cb : Callback) : l.after [cb] = l.next cb := by
  rw [Life.after, List.foldlM_cons]
  cases l.next cb <;> rfl

theorem after_data (fc : Bool) (cs : List Chunk) :
    opened.after (cs.map (.data fc)) = some .opened := by
  induction cs with
  | nil => rfl
  | cons c cs ih => exact ih

end Life

/-- The callbacks that end a stream. -/
def Callback.terminal : Callback → Bool
  | .close | .rst | .timeout => true
  | _ => false

def Callback.isData : Callback → Bool
  | .data _ _ => true
  | _ => false

/-- The words of the automaton: nothing, or a connection, then data, then at
most one end. -/
theorem Life.word_of_after {cbs : List Callback} {l : Life} (h : silent.after cbs = some l) :
    (cbs = [] ∧ l = .silent) ∨ ∃ data last, cbs = .connection :: data ++ last ∧
      (∀ cb ∈ data, cb.isData) ∧
      (last = [] ∧ l = .opened ∨ ∃ cb, last = [cb] ∧ cb.terminal ∧ l = .ended) := by
  induction cbs using List.reverseRecOn generalizing l with
  | nil => exact .inl ⟨rfl, (Option.some.inj h).symm⟩
  | append_singleton cbs cb ih =>
    rw [Life.after, List.foldlM_append] at h
    obtain ⟨l₁, h₁, h₂⟩ := Option.bind_eq_some_iff.mp h
    have h₂ : l₁.next cb = some l := (after_singleton l₁ cb).symm.trans h₂
    rcases ih h₁ with ⟨rfl, rfl⟩ | ⟨data, last, rfl, hd, ⟨rfl, rfl⟩ | ⟨cb', rfl, -, rfl⟩⟩
    · -- The first callback is the connection.
      cases cb with
      | connection => exact .inr ⟨[], [], rfl, by simp, .inl ⟨rfl, (Option.some.inj h₂).symm⟩⟩
      | _ => cases h₂
    · rw [List.append_nil]
      right
      cases cb with
      | connection => cases h₂
      | data fc c =>
        refine ⟨data ++ [.data fc c], [], by simp, fun x hx => ?_, .inl ⟨rfl, (Option.some.inj h₂).symm⟩⟩
        rcases List.mem_append.mp hx with hx | hx
        · exact hd x hx
        · rw [List.mem_singleton.mp hx]
          rfl
      | close => exact ⟨data, [.close], rfl, hd, .inr ⟨_, rfl, rfl, (Option.some.inj h₂).symm⟩⟩
      | rst => exact ⟨data, [.rst], rfl, hd, .inr ⟨_, rfl, rfl, (Option.some.inj h₂).symm⟩⟩
      | timeout => exact ⟨data, [.timeout], rfl, hd, .inr ⟨_, rfl, rfl, (Option.some.inj h₂).symm⟩⟩
    · -- Nothing follows the end.
      cases cb <;> cases h₂

/-! ## The work on a stream -/

def TcpStream.life (s : TcpStream) : Life := if s.isconnnection then .opened else .silent

/-- A connected stream has left the first state of the handshake. -/
def TcpStream.Settled (s : TcpStream) : Prop := s.isconnnection = true → s.client.state ≠ .synSent

/-- The callbacks so far have led the stream from `l` to where it is. -/
structure Work.Lives (l : Life) (w : Work) : Prop where
  after : l.after w.callbacks = some w.stream.life
  settled : w.stream.Settled

section

variable {a : StreamPtr} {p : Packet} {fc : Bool} {w w' : Work} {l : Life}

/-- Nothing that concerns the life of a stream has changed. -/
theorem Work.Lives.of_eq (h : w.Lives l) (hc : w'.callbacks = w.callbacks)
    (hi : w'.stream.isconnnection = w.stream.isconnnection)
    (hx : w.stream.client.Extends w'.stream.client) : w'.Lives l := by
  refine ⟨?_, fun hi' hs => ?_⟩
  · rw [hc, h.after, TcpStream.life, TcpStream.life, hi]
  · rcases hx.state with he | he
    · exact h.settled (hi ▸ hi') (he ▸ hs)
    · rw [hs] at he
      cases he

theorem Work.Lives.establish (h : w.Lives l) : (establish p fc w).Lives l := by
  simp only [Tcp.establish]
  split
  · rename_i hc
    have hno : w.stream.isconnnection = false := by
      by_contra hi
      exact h.settled (Bool.not_eq_false _ ▸ hi) hc.2.1
    refine ⟨?_, fun _ hs => by cases hs⟩
    rw [Life.after_append h.after, TcpStream.life, hno]
    rfl
  · exact h

theorem Work.Lives.takeAck (h : w.Lives l) : (takeAck p fc w).Lives l := by
  rw [Tcp.takeAck]
  split
  · exact h.establish.of_eq rfl (TcpStream.isconnnection_withHalves ..)
      (acknowledge_extends (a := 0) fc _).client
  · exact h

theorem Work.Lives.takeData (h : w.Lives l) : (takeData a p fc w).Lives l := by
  have hx := (takeData_extends (a := a) (p := p) fc w).client
  simp only [Tcp.takeData] at hx ⊢
  split
  · rename_i hd
    rw [if_pos hd] at hx
    -- Data is only passed on for a connected stream.
    have hq : Flow.Extends ⟨a, w.stream.isconnnection⟩ p.timeStamp (w.flow fc) _ :=
      tcpQueue_extends _ (segmentOf p)
    obtain ⟨cs, hcs, hnil⟩ := hq.chunks
    replace hcs : (tcpQueue ⟨a, w.stream.isconnnection⟩ p.timeStamp (w.flow fc)
      (segmentOf p)).chunks = cs := hcs
    cases hi : w.stream.isconnnection with
    | false =>
      refine h.of_eq ?_ (TcpStream.isconnnection_withHalves ..) hx
      rw [queueData, hcs, hnil hi, List.map_nil, List.append_nil]
    | true =>
      have hl : w.stream.life = .opened := by rw [TcpStream.life, hi]; rfl
      have hl' : (queueData a p fc w).stream.life = .opened := by
        rw [TcpStream.life, queueData, TcpStream.isconnnection_withHalves, hi]; rfl
      refine ⟨?_, fun _ => ?_⟩
      · rw [hl', queueData, Life.after_append h.after, hl, hcs]
        exact Life.after_data fc cs
      · rcases hx.state with he | he
        · rw [he]; exact h.settled hi
        · intro hs
          rw [hs] at he
          cases he
  · exact h

theorem Work.Lives.updateWindow (h : w.Lives l) : (updateWindow p fc w).Lives l :=
  h.of_eq rfl (TcpStream.isconnnection_withHalves ..) (updateWindow_extends (a := 0) fc w).client

/-- The end of a stream is announced if the stream has been. -/
theorem Work.Lives.end (h : w.Lives l) {cb : Callback} (hcb : cb.terminal) :
    l.after (w.end cb).callbacks = some (if w.stream.isconnnection then .ended else .silent) := by
  rw [Work.end]
  split
  · rename_i hi
    rw [Life.after_append h.after, Life.after_singleton, TcpStream.life, if_pos hi]
    cases cb with
    | connection | data => cases hcb
    | _ => rfl
  · rename_i hi
    rw [h.after, TcpStream.life, if_neg hi]

/-- Where a stream is left: one that stays is where its callbacks say; one
that goes has been told of, unless it had too much to buffer. -/
theorem Stages.life {o : Outcome} (h : Stages a p fc w o) (hl : w.Lives l) :
    match o with
    | .keep w' => w'.Lives l
    | .free w' => ∃ l', l.after w'.callbacks = some l' ∧ (l' = .opened →
        Accepted p fc w ∧ (Tcp.takeAck p fc w).stream.isconnnection ∧
        65535 < ((Tcp.takeData a p fc (Tcp.takeAck p fc w)).stream.rcv fc).rmemAlloc.toInt)
    | .renew _ => True := by
  cases h with
  | ignored => exact hl
  | synAck h => exact hl.of_eq h.callbacks h.isconnnection h.client
  | rst =>
    refine ⟨_, hl.end rfl, fun h => ?_⟩
    split at h <;> cases h
  | closed =>
    refine ⟨_, hl.takeAck.end rfl, fun h => ?_⟩
    split at h <;> cases h
  | overflow hacc h =>
    refine ⟨_, hl.takeAck.takeData.updateWindow.after, fun ho => ⟨hacc, ?_, h⟩⟩
    have hi : (Tcp.updateWindow p fc (Tcp.takeData a p fc (Tcp.takeAck p fc w))).stream.isconnnection =
        (Tcp.takeAck p fc w).stream.isconnnection := by
      rw [Tcp.updateWindow, TcpStream.isconnnection_withHalves, Tcp.takeData]
      split
      · exact TcpStream.isconnnection_withHalves ..
      · rfl
    rw [TcpStream.life, hi] at ho
    by_contra hno
    rw [if_neg hno] at ho
    cases ho
  | taken => exact hl.takeAck.takeData.updateWindow

end

/-! ## The callbacks of a run -/

/-- The callbacks about one stream. -/
def callbacksOf (a : StreamPtr) (es : List Event) : List Callback :=
  (es.filter (·.aTcp = a)).map (·.callback)

@[simp] theorem callbacksOf_nil (a : StreamPtr) : callbacksOf a [] = [] := rfl

@[simp] theorem callbacksOf_append (a : StreamPtr) (es es' : List Event) :
    callbacksOf a (es ++ es') = callbacksOf a es ++ callbacksOf a es' := by
  rw [callbacksOf, List.filter_append, List.map_append]
  rfl

open TcpFragment

variable {t t' : TcpFragment} {a : StreamPtr} {s : TcpStream} {p : Packet} {es es' : List Event}
  {l : Life}

theorem callbacksOf_conclude (b : StreamPtr) (w : Work) :
    callbacksOf b (t.conclude a w).2 = if b = a then w.callbacks else [] := by
  rw [callbacksOf, conclude, List.filter_map, List.map_map]
  split
  · rename_i h
    rw [List.filter_eq_self.mpr fun cb _ => by simp [h]]
    exact List.map_id _
  · rename_i h
    rw [List.filter_eq_nil_iff.mpr fun cb _ => by simpa using Ne.symm h]
    rfl

theorem callbacksOf_ending (x : StreamPtr × Callback) :
    callbacksOf a (t.ending x) = if x.1 = a then
      (match t.deref a with
      | some s => if s.isconnnection then [x.2] else []
      | none => []) else [] := by
  rw [ending]
  by_cases h : x.1 = a
  · rw [if_pos h, h]
    cases t.deref a with
    | none => rfl
    | some s =>
      simp only [notifyEnd]
      split
      · simp [callbacksOf]
      · rfl
  · rw [if_neg h]
    split
    · rw [notifyEnd]
      split
      · simp [callbacksOf, h]
      · rfl
    · rfl

theorem callbacksOf_endings_of_notMem {D : List (StreamPtr × Callback)}
    (h : a ∉ D.map Prod.fst) : callbacksOf a (D.flatMap t.ending) = [] := by
  induction D with
  | nil => rfl
  | cons x D ih =>
    rw [List.map_cons, List.mem_cons, not_or] at h
    rw [List.flatMap_cons, callbacksOf_append, callbacksOf_ending, if_neg (Ne.symm h.1), ih h.2]
    rfl

/-- Of the streams ended, each that is connected is told of once. -/
theorem callbacksOf_endings {D : List (StreamPtr × Callback)} (hD : (D.map Prod.fst).Nodup) :
    (callbacksOf a (D.flatMap t.ending) = [] ∧
      ∀ s, t.deref a = some s → s.isconnnection → a ∉ D.map Prod.fst) ∨
      ∃ s cb, t.deref a = some s ∧ s.isconnnection ∧ (a, cb) ∈ D ∧
        callbacksOf a (D.flatMap t.ending) = [cb] := by
  induction D with
  | nil => exact .inl ⟨rfl, fun _ _ _ => List.not_mem_nil⟩
  | cons x D ih =>
    rw [List.map_cons, List.nodup_cons] at hD
    rw [List.flatMap_cons, callbacksOf_append, callbacksOf_ending]
    by_cases hx : x.1 = a
    · rw [if_pos hx, callbacksOf_endings_of_notMem (hx ▸ hD.1), List.append_nil]
      cases hd : t.deref a with
      | none => exact .inl ⟨rfl, fun s hs => by cases hs⟩
      | some s =>
        by_cases hi : s.isconnnection
        · exact .inr ⟨s, x.2, rfl, hi, hx ▸ List.mem_cons_self .., if_pos hi⟩
        · exact .inl ⟨if_neg hi, fun s' hs hi' => absurd (Option.some.inj hs ▸ hi') hi⟩
    · rw [if_neg hx, List.nil_append]
      refine (ih hD.2).imp (fun ⟨he, hno⟩ => ⟨he, fun s hd hi hm => ?_⟩)
        fun ⟨s, cb, hd, hi, hcb, he⟩ => ⟨s, cb, hd, hi, List.mem_cons_of_mem _ hcb, he⟩
      exact (List.mem_cons.mp hm).elim (fun h => hx h.symm) (hno s hd hi)

/-- The callbacks `es` about the stream `a` have led it to `l`, which is where
it is as long as it is in the map. -/
structure Told (t : TcpFragment) (es : List Event) (a : StreamPtr) (l : Life) : Prop where
  after : Life.silent.after (callbacksOf a es) = some l
  live : ∀ s, t.deref a = some s → l = s.life ∧ s.Settled
  new : t.next ≤ a → l = .silent

theorem Told.lives (h : Told t es a l) (hd : t.deref a = some s) : (t.work s).Lives l := by
  obtain ⟨hl, hs⟩ := h.live s hd
  exact ⟨by rw [hl]; rfl, hs⟩

theorem Told.without (h : Told t es a l) (D : List StreamPtr) : Told (t.without D) es a l :=
  ⟨h.after, fun s hs => h.live s (deref_of_without hs), h.new⟩

/-- A stream that is ended has been told of, if it was connected. -/
theorem Told.ended (h : Told t es a l) {D : List (StreamPtr × Callback)} (he : t.Ended D t' es') :
    ∃ l', Told t' (es ++ es') a l' ∧ (a ∈ D.map Prod.fst → t.deref a ≠ none → l' ≠ .opened) := by
  obtain ⟨rfl, rfl, hD, hterm⟩ := he
  rcases callbacksOf_endings (a := a) (t := t) hD with ⟨hno, hnot⟩ | ⟨s, cb, hd, hi, hcb, hone⟩
  · refine ⟨l, ⟨by rw [callbacksOf_append, hno, List.append_nil, h.after], (h.without _).live, h.new⟩,
      fun ha hs hl => ?_⟩
    obtain ⟨s, hd⟩ := Option.ne_none_iff_exists'.mp hs
    refine hnot s hd ?_ ha
    rw [(h.live s hd).1, TcpStream.life] at hl
    by_contra hi
    rw [if_neg hi] at hl
    cases hl
  · -- A connected stream ends, and is no longer there.
    have hl : l = .opened := by
      rw [(h.live s hd).1, TcpStream.life, if_pos hi]
    refine ⟨.ended, ⟨?_, fun s hs => ?_, fun hnew => ?_⟩, fun _ _ hl => by cases hl⟩
    · rw [callbacksOf_append, hone, Life.after_append h.after, Life.after_singleton, hl]
      obtain rfl | rfl : cb = .timeout ∨ cb = .close := hterm _ hcb <;> rfl
    · rw [deref_without, if_pos (List.mem_map_of_mem hcb)] at hs
      cases hs
    · rw [h.new hnew] at hl
      cases hl

theorem Told.create (hi : t.Inv hash) (h : Told t es a l) :
    Told (t.create hash junk p) es a l := by
  refine ⟨h.after, fun s hs => ?_, fun hnew => h.new (Nat.le_of_succ_le hnew)⟩
  rw [hi.deref_create] at hs
  split at hs
  · rename_i ha
    cases hs
    exact ⟨h.new (Nat.le_of_eq ha.symm), fun hc => by cases hc⟩
  · exact h.live s hs

/-- What a packet does fits where each stream is. -/
theorem Told.step (hi : t.Inv hash) (h : Told t es a l) (hs : Step hash junk t p t' es') :
    ∃ l', Told t' (es ++ es') a l' := by
  cases hs with
  | ignored => exact ⟨l, by rwa [List.append_nil]⟩
  | created => exact ⟨l, by rw [List.append_nil]; exact h.create hi⟩
  | cleared =>
    have he := hi.clearAllStream
    obtain ⟨l', h', -⟩ := h.ended he
    exact ⟨l', h'.create (he.eq ▸ hi.without _)⟩
  | @replaced b fc _ hf =>
    rw [List.append_nil]
    exact ⟨l, (h.without _).create (hi.without _)⟩
  | @kept b fc s w _ hf hd hw =>
    by_cases hb : a = b
    · subst hb
      have hw' := hw.life (h.lives hd)
      refine ⟨w.stream.life, ?_, fun s' hs' => ?_, fun hnew => ?_⟩
      · rw [callbacksOf_append, callbacksOf_conclude, if_pos rfl, Life.after_append h.after, hw'.after]
      · rw [deref_conclude hd, if_pos rfl] at hs'
        cases hs'
        exact ⟨rfl, hw'.settled⟩
      · exact absurd (hi.lt_of_deref hd) (Nat.not_lt.mpr hnew)
    · refine ⟨l, ?_, fun s' hs' => ?_, h.new⟩
      · rw [callbacksOf_append, callbacksOf_conclude, if_neg hb, List.append_nil, h.after]
      · rw [deref_conclude hd, if_neg hb] at hs'
        exact h.live s' hs'
  | @freed b fc s w _ hf hd hw =>
    by_cases hb : a = b
    · subst hb
      obtain ⟨l', hl', -⟩ := hw.life (h.lives hd)
      refine ⟨l', ?_, fun s' hs' => ?_, fun hnew => ?_⟩
      · rw [callbacksOf_append, callbacksOf_conclude, if_pos rfl, Life.after_append h.after, hl']
      · rw [deref_without, if_pos (List.mem_singleton_self _)] at hs'
        cases hs'
      · exact absurd (hi.lt_of_deref hd) (Nat.not_lt.mpr hnew)
    · refine ⟨l, ?_, (h.without _).live, h.new⟩
      rw [callbacksOf_append, callbacksOf_conclude, if_neg hb, List.append_nil, h.after]

/-- After any packets, the callbacks about a stream are a word of `Life`. -/
theorem runTcp_told {ps : List Packet} (h : runTcp hash junk ps = some (t, es)) (a : StreamPtr) :
    ∃ l, Told t es a l := by
  refine run_induction (I := fun _ t es => ∃ l, Told t es a l)
    ⟨.silent, rfl, fun s hs => (by cases hs), fun _ => rfl⟩ (fun {ps t es p t' es'} hr hi hs => ?_) h
  obtain ⟨l, hl⟩ := hi
  obtain ⟨D, t₁, es₁, t₂, es₂, hp, -, hc, hi₁, hstep⟩ := (runTcp_inv hr).processTcp junk p
  rw [hp] at hs
  cases hs
  obtain ⟨l₁, hl₁, -⟩ := hl.ended hc.toEnded
  rw [← List.append_assoc]
  exact hl₁.step hi₁ hstep

/-! ## The handshake -/

/-- Packet `i` is `x`, the SYN of a client with the tuple `addr`, and makes the stream `a`. -/
structure BornOf (hash : Hash) (junk : StreamPtr → TcpStream) (ps : List Packet) (a : StreamPtr)
    (addr : Tuple4) (i : Nat) (x : Packet) : Prop where
  get : ps[i]? = some x
  syn : isFirst x.ip
  tuple : tupleOf x.ip = addr
  born : ∃ t es t' es', runTcp hash junk (ps.take i) = some (t, es) ∧
    runTcp hash junk (ps.take (i + 1)) = some (t', es') ∧ t.deref a = none ∧ (t'.deref a).isSome

/-- Packet `j` is `y`, the SYN with ACK of the server that acknowledges `x`. -/
structure AnsweredBy (ps : List Packet) (addr : Tuple4) (x : Packet) (j : Nat) (y : Packet) :
    Prop where
  get : ps[j]? = some y
  syn : hasFlag y.ip TH_SYN
  ack : hasFlag y.ip TH_ACK
  tuple : tupleOf y.ip = addr.reversed
  acks : thAck y.ip = thSeq x.ip + 1

/-- The packets of the handshake that the stream `s` has seen. -/
def Handshake (hash : Hash) (junk : StreamPtr → TcpStream) (ps : List Packet) (a : StreamPtr)
    (s : TcpStream) : Prop :=
  ∃ i x, BornOf hash junk ps a s.addr i x ∧ s.client.seq = thSeq x.ip + 1 ∧
    (s.server.state = .synRecv → ∃ j y, i < j ∧ AnsweredBy ps s.addr x j y ∧
      s.server.seq = thSeq y.ip + 1)

variable {ps : List Packet} {addr : Tuple4} {i j : Nat} {x y : Packet}

theorem BornOf.lt (h : BornOf hash junk ps a addr i x) : i < ps.length :=
  (List.getElem?_eq_some_iff.mp h.get).1

theorem BornOf.concat (h : BornOf hash junk ps a addr i x) (p : Packet) :
    BornOf hash junk (ps ++ [p]) a addr i x := by
  have hlt := h.lt
  refine ⟨?_, h.syn, h.tuple, ?_⟩
  · rw [List.getElem?_append_left hlt, h.get]
  · rw [List.take_append_of_le_length hlt.le, List.take_append_of_le_length hlt]
    exact h.born

theorem AnsweredBy.concat (h : AnsweredBy ps addr x j y) (p : Packet) :
    AnsweredBy (ps ++ [p]) addr x j y := by
  refine ⟨?_, h.syn, h.ack, h.tuple, h.acks⟩
  rw [List.getElem?_append_left (List.getElem?_eq_some_iff.mp h.get).1, h.get]

theorem Handshake.concat (h : Handshake hash junk ps a s) (p : Packet) :
    Handshake hash junk (ps ++ [p]) a s := by
  obtain ⟨i, x, hb, hseq, hans⟩ := h
  refine ⟨i, x, hb.concat p, hseq, fun hs => ?_⟩
  obtain ⟨j, y, hlt, hy, hseq'⟩ := hans hs
  exact ⟨j, y, hlt, hy.concat p, hseq'⟩

/-- Packets without SYN add nothing to the handshake. -/
theorem Handshake.extends {s' : TcpStream} (h : Handshake hash junk ps a s)
    (haddr : s'.addr = s.addr) (hc : s.client.Extends s'.client) (hs : s.server.Extends s'.server) :
    Handshake hash junk ps a s' := by
  obtain ⟨i, x, hb, hseq, hans⟩ := h
  refine ⟨i, x, haddr ▸ hb, hc.seq.trans hseq, fun hst => ?_⟩
  have hst' : s.server.state = .synRecv := by
    rcases hs.state with he | he
    · rw [← he, hst]
    · rw [hst] at he
      cases he
  obtain ⟨j, y, hlt, hy, hseq'⟩ := hans hst'
  exact ⟨j, y, hlt, haddr ▸ hy, hs.seq.trans hseq'⟩

/-- What a packet leaves of the stream it is for, with the packet added to the run. -/
theorem Stages.handshake {fc : Bool} {w w' : Work} (h : Stages a p fc w (.keep w'))
    (haddr : w.stream.addr = if fc then tupleOf p.ip else (tupleOf p.ip).reversed)
    (hs : Handshake hash junk ps a w.stream) : Handshake hash junk (ps ++ [p]) a w'.stream := by
  cases h with
  | ignored => exact hs.concat p
  | taken =>
    have hx := (takeAck_extends (a := a) (p := p) fc w).trans
      ((takeData_extends fc _).trans (updateWindow_extends fc _))
    exact (hs.concat p).extends hx.addr hx.client hx.server
  | synAck h =>
    obtain ⟨i, x, hb, hseq, -⟩ := hs
    refine ⟨i, x, h.addr ▸ hb.concat p, h.client.seq.trans hseq, fun _ => ?_⟩
    refine ⟨ps.length, p, hb.lt, ⟨by simp, h.syn, h.ack, ?_, ?_⟩, h.serverSeq⟩
    · rw [h.addr, haddr, h.fromServer]
      rfl
    · rw [← h.clientSeq, hseq]

/-- The packet that brings the connection callback. -/
structure Confirms (p : Packet) (fc : Bool) (s : TcpStream) : Prop where
  fromClient : fc = true
  ack : hasFlag p.ip TH_ACK
  synRecv : s.server.state = .synRecv
  acks : thAck p.ip = s.server.seq

theorem Stages.confirms {fc : Bool} {w : Work} {o : Outcome} (h : Stages a p fc w o)
    (hw : .connection ∉ w.callbacks) (hc : .connection ∈ o.work.callbacks) :
    Confirms p fc w.stream := by
  -- The other callbacks of a packet come from data or announce an end.
  have hend {w : Work} {cb : Callback} (hcb : cb.terminal)
      (h : .connection ∈ (w.end cb).callbacks) : .connection ∈ w.callbacks := by
    rw [Work.end] at h
    split at h
    · refine (List.mem_append.mp h).resolve_right fun h => ?_
      rw [← List.mem_singleton.mp h] at hcb
      cases hcb
    · exact h
  have hdata {w : Work} (h : .connection ∈ (takeData a p fc w).callbacks) :
      .connection ∈ w.callbacks := by
    rw [takeData] at h
    split at h
    · refine (List.mem_append.mp h).resolve_right fun h => ?_
      obtain ⟨c, -, hc⟩ := List.mem_map.mp h
      cases hc
    · exact h
  have hack (h : .connection ∈ (takeAck p fc w).callbacks) : Confirms p fc w.stream := by
    rw [takeAck] at h
    split at h
    · rename_i ha
      simp only [acknowledge, establish] at h
      split at h
      · rename_i hc
        exact ⟨hc.1, ha, hc.2.2.1, hc.2.2.2⟩
      · exact absurd h hw
    · exact absurd h hw
  cases h with
  | ignored => exact absurd hc hw
  | synAck h => exact absurd (h.callbacks ▸ hc) hw
  | rst => exact absurd (hend rfl hc) hw
  | closed => exact hack (hend rfl hc)
  | overflow => exact hack (hdata hc)
  | taken => exact hack (hdata hc)

/-- One packet more: each stream in the map has its handshake in the run. -/
theorem handshake_step (hr : runTcp hash junk ps = some (t, es))
    (hp : t.processTcp hash junk p = some (t', es'))
    (h : ∀ a s, t.deref a = some s → Handshake hash junk ps a s) (a : StreamPtr) (s : TcpStream)
    (hd : t'.deref a = some s) : Handshake hash junk (ps ++ [p]) a s := by
  have hi := runTcp_inv hr
  obtain ⟨D, t₁, es₁, t₂, es₂, hp', -, hc, hi₁, hstep⟩ := hi.processTcp junk p
  rw [hp] at hp'
  cases hp'
  have ht₁ : t₁ = t.without (D.map Prod.fst) := hc.eq
  have hsub {b : StreamPtr} {s : TcpStream} (hb : t₁.deref b = some s) : t.deref b = some s :=
    deref_of_without (ht₁ ▸ hb)
  have hold {b : StreamPtr} {s : TcpStream} (hb : t₁.deref b = some s) :
      Handshake hash junk (ps ++ [p]) b s := (h b s (hsub hb)).concat p
  -- A new stream is made by this packet.
  have hnew {u : TcpFragment} (hu : u.Inv hash) (hn : u.next = t.next) (hfirst : isFirst p.ip)
      (hsubu : ∀ {b s}, u.deref b = some s → t₁.deref b = some s)
      (hud : (u.create hash junk p).deref a = some s) : Handshake hash junk (ps ++ [p]) a s := by
    rw [hu.deref_create] at hud
    split at hud
    · rename_i ha
      cases hud
      have hno : t.deref a = none := by rw [ha, hn]; exact hi.deref_next
      refine ⟨ps.length, p, ⟨by simp, hfirst, rfl, t, es, t', es ++ (es₁ ++ es₂), ?_, ?_, hno, ?_⟩,
        rfl, fun hst => by cases hst⟩
      · rw [List.take_left, hr]
      · rw [List.take_of_length_le (by simp)]
        exact run_concat.mpr ⟨t, es, t', es₁ ++ es₂, hr, hp, rfl⟩
      · rw [hd]
        rfl
    · exact hold (hsubu hud)
  have hn₁ : t₁.next = t.next := by rw [ht₁]; rfl
  cases hstep with
  | ignored => exact hold hd
  | created _ _ hfirst => exact hnew hi₁ hn₁ hfirst id hd
  | cleared _ _ hfirst =>
    have he := hi₁.clearAllStream.eq
    rw [he] at hd
    exact hnew (hi₁.without _) hn₁ hfirst deref_of_without hd
  | replaced _ _ hfirst => exact hnew (hi₁.without _) hn₁ hfirst deref_of_without hd
  | @kept b fc s₀ w _ hf hd₀ hw =>
    rw [deref_conclude hd₀] at hd
    split at hd
    · rename_i ha
      subst ha
      cases hd
      obtain ⟨n, hn, hptr, haddr⟩ := exists_of_findStream hf
      have hd₁ := hi₁.deref hn
      rw [hptr, hd₀] at hd₁
      cases hd₁
      exact hw.handshake haddr (h a n.stream (hsub hd₀))
    · exact hold hd
  | freed => exact hold (deref_of_without hd)

theorem runTcp_handshake (h : runTcp hash junk ps = some (t, es)) (a : StreamPtr) (s : TcpStream)
    (hd : t.deref a = some s) : Handshake hash junk ps a s :=
  run_induction (I := fun ps t _ => ∀ a s, t.deref a = some s → Handshake hash junk ps a s)
    (fun a s hs => by cases hs) (fun hr hi hp => handshake_step hr hp hi) h a s hd

/-- A connection callback comes from the work on a stream that was there before. -/
theorem connection_work (hr : runTcp hash junk ps = some (t, es))
    (hp : t.processTcp hash junk p = some (t', es')) {e : Event} (he : e ∈ es')
    (hc : e.callback = .connection) :
    ∃ (t₁ : TcpFragment) (s : TcpStream) (fc : Bool) (o : Outcome), t.deref e.aTcp = some s ∧
      s.addr = (if fc then tupleOf p.ip else (tupleOf p.ip).reversed) ∧ e.addr = s.addr ∧
      Stages e.aTcp p fc (t₁.work s) o ∧ .connection ∈ o.work.callbacks := by
  obtain ⟨D, t₁, es₁, t₂, es₂, hp', -, hck, hi₁, hstep⟩ := (runTcp_inv hr).processTcp junk p
  rw [hp] at hp'
  cases hp'
  -- What ends streams does not announce any.
  have hend {u : TcpFragment} {D : List (StreamPtr × Callback)} {u' : TcpFragment} {us : List Event}
      (hu : u.Ended D u' us) : e ∉ us := by
    intro he
    rw [hu.events] at he
    obtain ⟨x, hx, he⟩ := List.mem_flatMap.mp he
    rw [ending] at he
    split at he
    · rw [notifyEnd] at he
      split at he
      · rw [List.mem_singleton.mp he] at hc
        rcases hu.terminal x hx with h | h <;> rw [h] at hc <;> cases hc
      · cases he
    · cases he
  have hwork {b : StreamPtr} {fc : Bool} {s : TcpStream} {o : Outcome}
      (hf : t₁.findStream hash p.ip = some (b, fc)) (hd : t₁.deref b = some s)
      (hw : Stages b p fc (t₁.work s) o) (he : e ∈ (t₁.conclude b o.work).2) :
      ∃ (t₁ : TcpFragment) (s : TcpStream) (fc : Bool) (o : Outcome), t.deref e.aTcp = some s ∧
        s.addr = (if fc then tupleOf p.ip else (tupleOf p.ip).reversed) ∧ e.addr = s.addr ∧
        Stages e.aTcp p fc (t₁.work s) o ∧ .connection ∈ o.work.callbacks := by
    obtain ⟨cb, hcb, rfl⟩ := List.mem_map.mp he
    obtain rfl : cb = .connection := hc
    obtain ⟨n, hn, hptr, hna⟩ := exists_of_findStream hf
    have hd' := hi₁.deref hn
    rw [hptr, hd] at hd'
    cases hd'
    exact ⟨t₁, n.stream, fc, o, deref_of_without (hck.eq ▸ hd), hna, hw.frames.addr, hw, hcb⟩
  have he := (List.mem_append.mp he).resolve_left (hend hck.toEnded)
  cases hstep with
  | ignored | created | replaced => cases he
  | cleared => exact absurd he (hend hi₁.clearAllStream)
  | kept _ hf hd hw => exact hwork hf hd hw he
  | freed _ hf hd hw => exact hwork hf hd hw he

/-- A connection callback of packet `p` is the last step of the handshake of its stream. -/
theorem connection_handshake (hr : runTcp hash junk ps = some (t, es))
    (hp : t.processTcp hash junk p = some (t', es')) {e : Event} (he : e ∈ es')
    (hc : e.callback = .connection) :
    ∃ i x j y, BornOf hash junk ps e.aTcp e.addr i x ∧ i < j ∧ AnsweredBy ps e.addr x j y ∧
      tupleOf p.ip = e.addr ∧ hasFlag p.ip TH_ACK ∧ thAck p.ip = thSeq y.ip + 1 := by
  obtain ⟨t₁, s, fc, o, hd, hna, haddr, hw, hcb⟩ := connection_work hr hp he hc
  have hconf := hw.confirms List.not_mem_nil hcb
  obtain ⟨i, x, hb, -, hans⟩ := runTcp_handshake hr e.aTcp s hd
  obtain ⟨j, y, hlt, hy, hseq⟩ := hans hconf.synRecv
  rw [hconf.fromClient] at hna
  exact ⟨i, x, j, y, haddr ▸ hb, hlt, haddr ▸ hy, (haddr.trans hna).symm, hconf.ack,
    hconf.acks.trans hseq⟩

/-- Over any packets the callbacks about a stream are none, or a connection, then
data, then at most one end, which leaves the stream out of the map; and
a connection follows the three packets of a handshake. -/
theorem callbacks_lifeCycle (hash : Hash) (junk : StreamPtr → TcpStream) (ps : List Packet) :
    ∃ t es, runTcp hash junk ps = some (t, es) ∧
      (∀ a, callbacksOf a es = [] ∨ ∃ data last, callbacksOf a es = .connection :: data ++ last ∧
        (∀ cb ∈ data, cb.isData) ∧
        (last = [] ∨ ∃ cb, last = [cb] ∧ cb.terminal ∧ t.deref a = none)) ∧
      ∀ p, ∃ t' es', t.processTcp hash junk p = some (t', es') ∧
        ∀ e ∈ es', e.callback = .connection →
          ∃ i x j y, BornOf hash junk ps e.aTcp e.addr i x ∧ i < j ∧ AnsweredBy ps e.addr x j y ∧
            tupleOf p.ip = e.addr ∧ hasFlag p.ip TH_ACK ∧ thAck p.ip = thSeq y.ip + 1 := by
  obtain ⟨t, es, hr, hi⟩ := runTcp_total hash junk ps
  refine ⟨t, es, hr, fun a => ?_, fun p => ?_⟩
  · obtain ⟨l, hl⟩ := runTcp_told hr a
    rcases Life.word_of_after hl.after with ⟨h, -⟩ | ⟨data, last, h, hdata, hlast⟩
    · exact .inl h
    · refine .inr ⟨data, last, h, hdata, hlast.imp And.left fun ⟨cb, hcb, hterm, he⟩ => ?_⟩
      refine ⟨cb, hcb, hterm, ?_⟩
      -- A stream in the map has not ended.
      cases hd : t.deref a with
      | none => rfl
      | some s =>
        have := (hl.live s hd).1
        rw [he, TcpStream.life] at this
        split at this <;> cases this
  · obtain ⟨D, t₁, es₁, t', es', hp, -⟩ := hi.processTcp junk p
    exact ⟨t', es₁ ++ es', hp, fun e he hc => connection_handshake hr hp he hc⟩

end Noff.Tcp
