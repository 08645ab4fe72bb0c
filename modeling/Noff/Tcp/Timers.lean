import Noff.Tcp.Invariant
import Noff.Tcp.Pieces

/-!
# The timers of live streams

A timer goes into an ordered set that compares seconds alone, so it is lost if
the timer of another stream has the same second. As long as no packet adds a
timer for a second that another stream's timer has, and none restarts a timer
without bringing data (`Apart`), every stream has one timer for its data, 30 seconds
after the packet that last advanced it, and one of its FINs, if it was given one
(`timers_timely`). Without that condition a stream can be left that never times out
(`timers_same_second`).
-/

namespace Noff.Tcp

/-! ## One direction -/

section

variable {a : Owner} {ts : Int} {q : Flow} {seg : Segment}

theorem Flow.Extends.restarted {q' : Flow}
    (h : Flow.Extends a ts { q with tcpTimeoutSet := updateTcptimeout q.tcpTimeoutSet a.aTcp ts } q') :
    q'.tcpTimeoutSet = updateTcptimeout q.tcpTimeoutSet a.aTcp ts := by
  rcases h.tcp with he | he
  · exact he
  · exact he.trans (updateTcptimeout_updateTcptimeout ..)

/-- `tcpQueue` restarts the timer exactly for these segments. -/
theorem tcpTimeoutSet_tcpQueue : (tcpQueue a ts q seg).tcpTimeoutSet =
    if inOrder q seg then updateTcptimeout q.tcpTimeoutSet a.aTcp ts else q.tcpTimeoutSet := by
  simp only [tcpQueue, inOrder, Bool.and_eq_true]
  by_cases h₁ : (!after seg.seq q.expSeq) = true
  · simp only [h₁, ite_true, true_and]
    split
    · -- What is drained after the segment restarts it again, at the same time.
      exact Flow.Extends.restarted ((addFromskb_extends _ _ _ _ _ _).trans (drain_extends _ _))
    · rfl
  · rw [if_neg h₁, if_neg fun h => h₁ h.1, enqueue]
    dsimp only
    split
    · split <;> rfl
    · rfl

/-- Whatever the other timers are, `addFintimeout` is called or not. -/
def Flow.setFin (q : Flow) (set : TimeoutSet) : Flow := { q with finTimeoutSet := set }

/-- What `f` does to `finTimeoutSet` is a call of `addFintimeout`, or nothing. -/
def CallsOrNot (a : Owner) (ts : Int) (f : Flow → Flow) (q : Flow) : Prop :=
  ∃ b : Bool, ∀ set, f (q.setFin set) =
    (f q).setFin (if b then addFintimeout set a.aTcp ts else set)

variable {set : TimeoutSet}

@[simp] theorem rcv_setFin : (q.setFin set).rcv = q.rcv := rfl

@[simp] theorem expSeq_setFin : (q.setFin set).expSeq = q.expSeq := rfl

theorem ite_setFin {c : Prop} [Decidable c] (q q' : Flow) (set : TimeoutSet) :
    (if c then q.setFin set else q'.setFin set) = (if c then q else q').setFin set := by
  split <;> rfl

theorem notify_setFin (q : Flow) (data : List Byte) (off len : Int) :
    notify a (q.setFin set) data off len = (notify a q data off len).setFin set := by
  cases h : a.isconnnection <;> cases h' : q.rcv.countNewUrg <;> simp [notify, Flow.setFin, h, h']

theorem noteUrgent_setFin (q : Flow) (urg : Bool) (urgPtr : BitVec 32) :
    noteUrgent (q.setFin set) urg urgPtr = (noteUrgent q urg urgPtr).setFin set := by
  rw [noteUrgent, noteUrgent, ← ite_setFin]
  rfl

theorem addPart_setFin (q : Flow) (data : List Byte) (off : Int) (n : BitVec 32) :
    addPart a (q.setFin set) data off n = (addPart a q data off n).setFin set := by
  rw [addPart, addPart, ← notify_setFin]
  rfl

theorem takeUrgent_setFin (q : Flow) (data : List Byte) (thisSeq : BitVec 32) :
    takeUrgent a (q.setFin set) data thisSeq = (takeUrgent a q data thisSeq).setFin set := by
  have h : notify a (Flow.setFin _ set) data 0 data.length = _ := notify_setFin
    { q with rcv.urgdata := byteAt data (q.rcv.urgPtr - thisSeq).toNat, rcv.countNewUrg := true }
    data 0 data.length
  exact congrArg (fun r : Flow => { r with
    rcv.countNewUrg := false, rcv.urgSeen := false, rcv.urgCount := r.rcv.urgCount + 1 }) h

theorem addPlain_setFin (q : Flow) (data : List Byte) (lost : BitVec 32) :
    addPlain a (q.setFin set) data lost = (addPlain a q data lost).setFin set := by
  rw [addPlain, addPlain, addPart_setFin, ite_setFin]

theorem addUrgent_setFin (q : Flow) (data : List Byte) (thisSeq lost : BitVec 32) :
    addUrgent a (q.setFin set) data thisSeq lost = (addUrgent a q data thisSeq lost).setFin set := by
  simp only [addUrgent, rcv_setFin, addPart_setFin, ite_setFin, takeUrgent_setFin]

theorem CallsOrNot.of_eq {f : Flow → Flow}
    (h : ∀ set, f (q.setFin set) = (f q).setFin set) : CallsOrNot a ts f q := ⟨false, h⟩

theorem CallsOrNot.comp {f g : Flow → Flow} (hf : CallsOrNot a ts f q)
    (hg : CallsOrNot a ts g (f q)) : CallsOrNot a ts (fun q => g (f q)) q := by
  obtain ⟨b, hb⟩ := hf
  obtain ⟨c, hc⟩ := hg
  refine ⟨b || c, fun set => ?_⟩
  dsimp only
  rw [hb, hc]
  cases b <;> cases c <;> simp

theorem addFin_callsOrNot (q : Flow) (fin : Bool) : CallsOrNot a ts (addFin a ts · fin) q := by
  cases fin with
  | false => exact .of_eq fun _ => rfl
  | true =>
    by_cases h : q.rcv.state = .closing
    · exact ⟨true, fun set => by simp [addFin, Flow.setFin, h]⟩
    · exact .of_eq fun set => by simp [addFin, Flow.setFin, h]

theorem addFromskb_callsOrNot (q : Flow) (data : List Byte) (thisSeq : BitVec 32) (fin urg : Bool)
    (urgPtr : BitVec 32) : CallsOrNot a ts (addFromskb a ts · data thisSeq fin urg urgPtr) q := by
  have h : CallsOrNot a ts (fun q =>
      let lost := q.expSeq - thisSeq
      let q := noteUrgent q urg urgPtr
      if q.rcv.urgSeen && after (q.rcv.urgPtr + 1) (thisSeq + lost) &&
          before q.rcv.urgPtr (thisSeq + lenVal data) then
        addUrgent a q data thisSeq lost
      else addPlain a q data lost) q := .of_eq fun set => by
    simp only [expSeq_setFin, noteUrgent_setFin, rcv_setFin, addUrgent_setFin, addPlain_setFin,
      ite_setFin]
  exact h.comp (addFin_callsOrNot _ fin)

theorem update_addFromskb_callsOrNot (q : Flow) (data : List Byte) (thisSeq : BitVec 32)
    (fin urg : Bool) (urgPtr : BitVec 32) :
    CallsOrNot a ts (fun q => addFromskb a ts
      { q with tcpTimeoutSet := updateTcptimeout q.tcpTimeoutSet a.aTcp ts }
      data thisSeq fin urg urgPtr) q := by
  have h : CallsOrNot a ts (fun q : Flow =>
      { q with tcpTimeoutSet := updateTcptimeout q.tcpTimeoutSet a.aTcp ts }) q :=
    .of_eq fun _ => rfl
  exact h.comp (addFromskb_callsOrNot _ data thisSeq fin urg urgPtr)

/-- The loop: one call, or as many as there are FINs, come to the same. -/
theorem drain_callsOrNot (q : Flow) (frags : List Skbuff) :
    CallsOrNot a ts (drain a ts · frags) q := by
  have hrmem (q : Flow) (frag : Skbuff) : CallsOrNot a ts (fun q : Flow =>
      { q with rcv.rmemAlloc := q.rcv.rmemAlloc - frag.truesize }) q := .of_eq fun _ => rfl
  induction frags generalizing q with
  | nil => exact .of_eq fun _ => rfl
  | cons frag rest ih =>
    by_cases h₁ : after frag.seq q.expSeq = true
    · refine .of_eq fun set => ?_
      rw [drain, expSeq_setFin, if_pos h₁, drain, if_pos h₁]
      rfl
    · by_cases h₂ : after (frag.seq + lenVal frag.data + flagVal frag.fin) q.expSeq = true
      · obtain ⟨b, hb⟩ := ((update_addFromskb_callsOrNot q frag.data frag.seq frag.fin frag.urg
          (frag.urgPtr + frag.seq - 1)).comp (hrmem _ frag)).comp (ih _)
        refine ⟨b, fun set => ?_⟩
        dsimp only
        rw [drain, drain, expSeq_setFin, if_neg h₁, if_neg h₁]
        simp only [h₂, ite_true]
        exact hb set
      · obtain ⟨b, hb⟩ := (hrmem q frag).comp (ih _)
        refine ⟨b, fun set => ?_⟩
        dsimp only
        rw [drain, drain, expSeq_setFin, if_neg h₁, if_neg h₁]
        simp only [h₂, Bool.false_eq_true, ite_false]
        exact hb set

theorem enqueue_callsOrNot (q : Flow) (seg : Segment) :
    CallsOrNot a ts (enqueue a ts · seg) q := by
  by_cases h₁ : seg.pakiet.fin = true
  · by_cases h₂ : q.rcv.state = .finSent ∨ q.rcv.state = .finConfirmed
    · exact ⟨true, fun set => by simp [enqueue, Flow.setFin, h₁, h₂]⟩
    · exact .of_eq fun set => by simp [enqueue, Flow.setFin, h₁, h₂]
  · exact .of_eq fun set => by simp [enqueue, Flow.setFin, h₁]

theorem tcpQueue_callsOrNot (q : Flow) (seg : Segment) :
    CallsOrNot a ts (tcpQueue a ts · seg) q := by
  by_cases h₁ : (!after seg.seq q.expSeq) = true
  · by_cases h₂ : after (seg.seq + lenVal seg.data + flagVal seg.fin) q.expSeq = true
    · have hd (q : Flow) : CallsOrNot a ts (fun q => drain a ts q q.rcv.fraglist) q :=
        drain_callsOrNot q q.rcv.fraglist
      obtain ⟨b, hb⟩ := (update_addFromskb_callsOrNot q seg.data seg.seq seg.fin seg.urg
        (seg.urp.setWidth 32 + seg.seq - 1)).comp (hd _)
      refine ⟨b, fun set => ?_⟩
      dsimp only
      rw [tcpQueue, tcpQueue, expSeq_setFin, if_pos h₁, if_pos h₁, if_pos h₂, if_pos h₂]
      exact hb set
    · refine .of_eq fun set => ?_
      rw [tcpQueue, tcpQueue, expSeq_setFin, if_pos h₁, if_pos h₁, if_neg h₂, if_neg h₂]
  · obtain ⟨b, hb⟩ : CallsOrNot a ts (enqueue a ts · seg) q := enqueue_callsOrNot q seg
    refine ⟨b, fun set => ?_⟩
    dsimp only
    rw [tcpQueue, tcpQueue, expSeq_setFin, if_neg h₁, if_neg h₁]
    exact hb set

end

/-! ## A stream -/

section

variable {a : StreamPtr} {p : Packet} {fc : Bool} {w w' : Work}

/-- A packet that is accepted and taken in order: the code restarts the timer. -/
structure RestartsWork (p : Packet) (fc : Bool) (w : Work) : Prop where
  accepted : Accepted p fc w
  data : 0 < datalen p.ip + (hasFlag p.ip TH_FIN).toNat
  inOrder : inOrder ((takeAck p fc w).flow fc) (segmentOf p)

/-- What is taken with it ends where it began: it is no more than a FIN. -/
structure IdleWork (p : Packet) (fc : Bool) (w : Work) : Prop extends RestartsWork p fc w where
  still : reach ((takeAck p fc w).flow fc).expSeq
    (takenBy ((takeAck p fc w).flow fc) (segmentOf p)) = ((takeAck p fc w).flow fc).expSeq

/-- From `s` to `s'`, one direction has received data in order. -/
def TcpStream.Advanced (s s' : TcpStream) : Prop :=
  ∃ fc, (s'.rcv fc).count ≠ (s.rcv fc).count ∨ (s'.rcv fc).urgCount ≠ (s.rcv fc).urgCount

theorem TcpStream.not_advanced_self (s : TcpStream) : ¬ s.Advanced s :=
  fun ⟨_, h⟩ => h.elim (fun h => h rfl) fun h => h rfl

/-- A packet that is accepted and for which `addFintimeout` is called: it puts a
timer into an empty set. -/
structure CallsFinWork (a : StreamPtr) (p : Packet) (fc : Bool) (w : Work) : Prop where
  accepted : Accepted p fc w
  calls : (takeData a p fc { takeAck p fc w with finTimeoutSet := ∅ }).finTimeoutSet ≠ ∅

theorem tcpTimeoutSet_takeAck : (takeAck p fc w).tcpTimeoutSet = w.tcpTimeoutSet := by
  simp only [takeAck, acknowledge, establish]
  repeat' split
  all_goals rfl

theorem finTimeoutSet_takeAck : (takeAck p fc w).finTimeoutSet = w.finTimeoutSet := by
  simp only [takeAck, acknowledge, establish]
  repeat' split
  all_goals rfl

theorem tcpTimeoutSet_takeData : (takeData a p fc w).tcpTimeoutSet =
    if 0 < datalen p.ip + (hasFlag p.ip TH_FIN).toNat ∧ inOrder (w.flow fc) (segmentOf p) then
      updateTcptimeout w.tcpTimeoutSet a p.timeStamp else w.tcpTimeoutSet := by
  rw [takeData]
  split
  · rename_i h
    simp only [h, true_and]
    exact tcpTimeoutSet_tcpQueue
  · rename_i h
    rw [if_neg fun h' => h h'.1]

theorem finTimeoutSet_takeData : (takeData a p fc w).finTimeoutSet =
    if (takeData a p fc { w with finTimeoutSet := ∅ }).finTimeoutSet = ∅ then w.finTimeoutSet
    else addFintimeout w.finTimeoutSet a p.timeStamp := by
  have hne (set : TimeoutSet) : set.insert ⟨a, p.timeStamp + 5⟩ = ∅ → set ≠ ∅ := by
    rintro h rfl
    have : (⟨a, p.timeStamp + 5⟩ : Timeout) ∈ (∅ : TimeoutSet) := by
      rw [← h]
      exact OrderedSet.mem_insert.mpr (.inr ⟨rfl, by simp⟩)
    exact OrderedSet.not_mem_empty _ this
  simp only [takeData]
  split
  · -- The call of `tcpQueue` does the same to both sets.
    obtain ⟨b, hb⟩ : CallsOrNot ⟨a, w.stream.isconnnection⟩ p.timeStamp
        (tcpQueue ⟨a, w.stream.isconnnection⟩ p.timeStamp · (segmentOf p)) (w.flow fc) :=
      tcpQueue_callsOrNot (w.flow fc) (segmentOf p)
    have h₁ := congrArg Flow.finTimeoutSet (hb w.finTimeoutSet)
    have h₂ := congrArg Flow.finTimeoutSet (hb ∅)
    cases b with
    | false =>
      refine Eq.trans h₁ (if_pos ?_).symm
      exact h₂
    | true =>
      refine Eq.trans h₁ (if_neg ?_).symm
      intro he
      exact hne ∅ (h₂.symm.trans he) rfl
  · rw [if_pos rfl]

/-- What becomes of the timer of a stream that stays. -/
theorem Stages.tcpTimeoutSet (h : Stages a p fc w (.keep w')) :
    RestartsWork p fc w ∧ w'.tcpTimeoutSet = updateTcptimeout w.tcpTimeoutSet a p.timeStamp ∨
      ¬ RestartsWork p fc w ∧ w'.tcpTimeoutSet = w.tcpTimeoutSet := by
  cases h with
  | ignored h =>
    refine .inr ⟨fun hadv => ?_, rfl⟩
    rcases h with h | h
    · rw [hadv.accepted.syn] at h
      cases h
    · rw [hadv.accepted.window] at h
      cases h
  | synAck h =>
    refine .inr ⟨fun hadv => ?_, h.tcp⟩
    have := h.syn
    rw [hadv.accepted.syn] at this
    cases this
  | taken hacc =>
    have he : (updateWindow p fc (takeData a p fc (takeAck p fc w))).tcpTimeoutSet = _ :=
      tcpTimeoutSet_takeData
    rw [he, tcpTimeoutSet_takeAck]
    split
    · rename_i h
      exact .inl ⟨⟨hacc, h.1, h.2⟩, rfl⟩
    · rename_i h
      exact .inr ⟨fun hadv => h ⟨hadv.data, hadv.inOrder⟩, rfl⟩

/-- What is not taken in order advances nothing. -/
theorem Stages.not_advanced (h : Stages a p fc w (.keep w')) (hno : ¬ RestartsWork p fc w) :
    ¬ w.stream.Advanced w'.stream := by
  rintro ⟨fc', hadv⟩
  suffices hr : (w'.stream.rcv fc').count = (w.stream.rcv fc').count ∧
      (w'.stream.rcv fc').urgCount = (w.stream.rcv fc').urgCount by
    exact hadv.elim (fun h => h hr.1) fun h => h hr.2
  cases h with
  | ignored => exact ⟨rfl, rfl⟩
  | synAck h => exact ⟨congrArg (·.2.2.1) (h.received fc'), congrArg (·.2.1) (h.received fc')⟩
  | taken hacc =>
    have hw := received_updateWindow p fc (takeData a p fc (takeAck p fc w)) fc'
    have hk := received_takeAck p fc w fc'
    suffices hq : ((takeData a p fc (takeAck p fc w)).stream.rcv fc').count =
        ((takeAck p fc w).stream.rcv fc').count ∧
        ((takeData a p fc (takeAck p fc w)).stream.rcv fc').urgCount =
          ((takeAck p fc w).stream.rcv fc').urgCount from
      ⟨(congrArg (·.2.2.1) hw).trans (hq.1.trans (congrArg (·.2.2.1) hk)),
        (congrArg (·.2.1) hw).trans (hq.2.trans (congrArg (·.2.1) hk))⟩
    rw [takeData]
    split
    · rename_i hd
      have hin : inOrder ((takeAck p fc w).flow fc) (segmentOf p) = false :=
        Bool.eq_false_iff.mpr fun hin => hno ⟨hacc, hd, hin⟩
      have hq := received_queueData a p fc (takeAck p fc w) fc'
      split at hq
      · rename_i hfc
        subst hfc
        obtain ⟨hc, hu⟩ := counts_tcpQueue ⟨a, _⟩ p.timeStamp hin
        exact ⟨(congrArg (·.2.2.1) hq).trans hc, (congrArg (·.2.1) hq).trans hu⟩
      · exact ⟨congrArg (·.2.2.1) hq, congrArg (·.2.1) hq⟩
    · exact ⟨rfl, rfl⟩

/-- What is taken in order advances the data, unless it is no more than a FIN. -/
theorem Stages.advanced (h : Stages a p fc w (.keep w')) (hyes : RestartsWork p fc w)
    (hidle : ¬ IdleWork p fc w) : w.stream.Advanced w'.stream := by
  cases h with
  | ignored h =>
    rcases h with h | h
    · rw [hyes.accepted.syn] at h
      cases h
    · rw [hyes.accepted.window] at h
      cases h
  | synAck h =>
    have hsyn := h.syn
    rw [hyes.accepted.syn] at hsyn
    cases hsyn
  | taken =>
    have hw := received_updateWindow p fc (takeData a p fc (takeAck p fc w)) fc
    have hk := received_takeAck p fc w fc
    have hq := received_queueData a p fc (takeAck p fc w) fc
    rw [if_pos rfl] at hq
    rw [takeData, if_pos hyes.data] at hw ⊢
    -- Were the counts as before, the same byte would be expected.
    by_contra hno
    rw [TcpStream.Advanced, not_exists] at hno
    have hno := not_or.mp (hno fc)
    refine hidle ⟨hyes, ?_⟩
    rw [← expSeq_tcpQueue ⟨a, (takeAck p fc w).stream.isconnnection⟩ p.timeStamp]
    have hc := ((congrArg (·.2.2.1) (hw.trans hq)).symm.trans (not_not.mp hno.1)).trans
      (congrArg (·.2.2.1) hk).symm
    have hu := ((congrArg (·.2.1) (hw.trans hq)).symm.trans (not_not.mp hno.2)).trans
      (congrArg (·.2.1) hk).symm
    rw [Flow.expSeq, Flow.expSeq, snd_tcpQueue]
    exact congrArg₂ (_ + · + ·) hc hu

theorem Stages.finTimeoutSet (h : Stages a p fc w (.keep w')) :
    CallsFinWork a p fc w ∧ w'.finTimeoutSet = addFintimeout w.finTimeoutSet a p.timeStamp ∨
      ¬ CallsFinWork a p fc w ∧ w'.finTimeoutSet = w.finTimeoutSet := by
  cases h with
  | ignored h =>
    refine .inr ⟨fun hadv => ?_, rfl⟩
    rcases h with h | h
    · rw [hadv.accepted.syn] at h
      cases h
    · rw [hadv.accepted.window] at h
      cases h
  | synAck h =>
    refine .inr ⟨fun hadv => ?_, h.fin⟩
    have := h.syn
    rw [hadv.accepted.syn] at this
    cases this
  | taken hacc =>
    have he : (updateWindow p fc (takeData a p fc (takeAck p fc w))).finTimeoutSet = _ :=
      finTimeoutSet_takeData
    rw [he, finTimeoutSet_takeAck]
    split
    · rename_i h
      exact .inr ⟨fun hcalls => hcalls.calls h, rfl⟩
    · rename_i h
      exact .inl ⟨⟨hacc, h⟩, rfl⟩

end

/-! ## The tables -/

variable {hash : Hash} {junk : StreamPtr → TcpStream}

/-- With the tables as `tcpChecktimeouts` leaves them, the packet restarts the timer of the
stream `a`. -/
def Restarts (hash : Hash) (t : TcpFragment) (p : Packet) (a : StreamPtr) : Prop :=
  wellFormed p.ip ∧ ∃ fc s, t.findStream hash p.ip = some (a, fc) ∧ t.deref a = some s ∧
    RestartsWork p fc (t.work s)

/-- It does, and brings no data: a FIN that comes alone, or once more. -/
def Idle (hash : Hash) (t : TcpFragment) (p : Packet) (a : StreamPtr) : Prop :=
  wellFormed p.ip ∧ ∃ fc s, t.findStream hash p.ip = some (a, fc) ∧ t.deref a = some s ∧
    IdleWork p fc (t.work s)

/-- `addFintimeout` is called for it. -/
def CallsFin (hash : Hash) (t : TcpFragment) (p : Packet) (a : StreamPtr) : Prop :=
  wellFormed p.ip ∧ ∃ fc s, t.findStream hash p.ip = some (a, fc) ∧ t.deref a = some s ∧
    CallsFinWork a p fc (t.work s)

/-- The packet creates the stream `a`. -/
def Creates (hash : Hash) (junk : StreamPtr → TcpStream) (t : TcpFragment) (p : Packet)
    (a : StreamPtr) : Prop :=
  t.deref a = none ∧ ∃ t' es, t.processTcp hash junk p = some (t', es) ∧ (t'.deref a).isSome

/-- The packet advances the data that the stream `a` has received in order. -/
def Advances (hash : Hash) (junk : StreamPtr → TcpStream) (t : TcpFragment) (p : Packet)
    (a : StreamPtr) : Prop :=
  ∃ s t' es s', t.deref a = some s ∧ t.processTcp hash junk p = some (t', es) ∧
    t'.deref a = some s' ∧ s.Advanced s'

/-- The packet creates the stream `a` or advances its data. -/
def Touches (hash : Hash) (junk : StreamPtr → TcpStream) (t : TcpFragment) (p : Packet)
    (a : StreamPtr) : Prop :=
  Creates hash junk t p a ∨ Advances hash junk t p a

/-- Of the packets of the run, `p` is the last to create the stream `a` or to advance its data. -/
def LastTouch (hash : Hash) (junk : StreamPtr → TcpStream) (ps : List Packet) (a : StreamPtr)
    (p : Packet) : Prop :=
  ∃ i t, Meets hash junk ps i p t ∧ Touches hash junk t p a ∧
    ∀ j q u, i < j → Meets hash junk ps j q u → ¬ Touches hash junk u q a

/-- A packet of the run has called `addFintimeout` for the stream `a`. -/
def FinCalled (hash : Hash) (junk : StreamPtr → TcpStream) (ps : List Packet) (a : StreamPtr) : Prop :=
  ∃ i p t t₁ es, Meets hash junk ps i p t ∧ t.tcpChecktimeouts p.timeStamp = some (t₁, es) ∧
    CallsFin hash t₁ p a

/-- No timer that the packet adds has the second of another stream's, in the
tables that `tcpChecktimeouts` leaves, and none is restarted without data. -/
structure Apart (hash : Hash) (t : TcpFragment) (p : Packet) : Prop where
  /-- A new stream; the timers of a full table and of the stream replaced are gone by then. -/
  start : wellFormed p.ip → isFirst p.ip →
    (t.findStream hash p.ip = none → t.tcphashmap.length < tcpStreamTableSize) →
    ∀ e ∈ t.tcpTimeoutSet, (∀ fc, t.findStream hash p.ip ≠ some (e.aTcp, fc)) →
      e.time ≠ p.timeStamp + 30
  restart : ∀ a, Restarts hash t p a → ∀ e ∈ t.tcpTimeoutSet, e.aTcp ≠ a →
    e.time ≠ p.timeStamp + 30
  /-- A FIN alone leaves the timer as it is only in the second that started it. -/
  idle : ∀ a, Idle hash t p a → ⟨a, p.timeStamp + 30⟩ ∈ t.tcpTimeoutSet
  /-- The first timer for FINs of a stream. -/
  fin : ∀ a, CallsFin hash t p a → (∀ e ∈ t.finTimeoutSet, e.aTcp ≠ a) →
    ∀ e ∈ t.finTimeoutSet, e.time ≠ p.timeStamp + 5

/-- Every packet of the run adds its timers apart from the others. -/
def RunApart (hash : Hash) (junk : StreamPtr → TcpStream) (ps : List Packet) : Prop :=
  ∀ i p t t₁ es, Meets hash junk ps i p t → t.tcpChecktimeouts p.timeStamp = some (t₁, es) →
    Apart hash t₁ p

/-- The set has one timer of the stream `a`, for the second `time`. -/
def OneTimer (set : TimeoutSet) (a : StreamPtr) (time : Int) : Prop :=
  ∀ e, e ∈ set ∧ e.aTcp = a ↔ e = ⟨a, time⟩

section

variable {set set' : TimeoutSet} {a b : StreamPtr} {time : Int}

/-- Timers of other streams may come and go. -/
theorem OneTimer.of_del (h : OneTimer set a time) (hne : a ≠ b)
    (hd : delTimeout set' b = delTimeout set b) : OneTimer set' a time := by
  have hmem (e : Timeout) (he : e.aTcp = a) : e ∈ set' ↔ e ∈ set := by
    have hb : e.aTcp ≠ b := he ▸ hne
    rw [← and_iff_left (a := e ∈ set') hb, ← and_iff_left (a := e ∈ set) hb, ← mem_delTimeout,
      ← mem_delTimeout, hd]
  intro e
  rw [← h e]
  exact and_congr_left (hmem e)

theorem oneTimer_insert (hno : ∀ e ∈ set, e.aTcp ≠ a) (hap : ∀ e ∈ set, e.time ≠ time) :
    OneTimer (set.insert ⟨a, time⟩) a time := by
  intro e
  rw [OrderedSet.mem_insert]
  constructor
  · rintro ⟨he | ⟨he, -⟩, ha⟩
    · exact absurd ha (hno e he)
    · exact he
  · rintro rfl
    exact ⟨.inr ⟨rfl, hap⟩, rfl⟩

theorem oneTimer_update {ts : Int} (hap : ∀ e ∈ set, e.aTcp ≠ a → e.time ≠ ts + 30) :
    OneTimer (updateTcptimeout set a ts) a (ts + 30) := by
  refine oneTimer_insert (fun e he => (mem_delTimeout.mp he).2) fun e he => ?_
  exact hap e (mem_delTimeout.mp he).1 (mem_delTimeout.mp he).2

end

open TcpFragment

variable {t t₁ t' : TcpFragment} {a b : StreamPtr} {s : TcpStream} {p : Packet}

/-- A first packet advances nothing. -/
theorem not_accepted_of_isFirst {fc : Bool} {w : Work} (h : isFirst p.ip) : ¬ Accepted p fc w := by
  intro hacc
  rw [isFirst, hacc.syn] at h
  cases h

theorem not_callsFin_of_isFirst (h : isFirst p.ip) : ¬ CallsFin hash t p a :=
  fun ⟨_, _, _, _, _, hadv⟩ => not_accepted_of_isFirst h hadv.accepted

theorem notMem_of_deref_without {D : List StreamPtr} (h : (t.without D).deref a = some s) :
    a ∉ D := by
  intro ha
  rw [deref_without, if_pos ha] at h
  cases h

theorem OneTimer.without {D : List StreamPtr} {time : Int} (h : OneTimer t.tcpTimeoutSet a time)
    (ha : a ∉ D) : OneTimer (t.without D).tcpTimeoutSet a time := by
  intro e
  rw [← h e, ← and_iff_left (a := e ∈ t.tcpTimeoutSet ∧ e.aTcp = a) trivial]
  have : e ∈ (t.without D).timeoutSet .tcp ↔ _ := mem_timeoutSet_without
  simp only [timeoutSet] at this
  rw [this]
  constructor
  · rintro ⟨⟨h₁, -⟩, h₂⟩
    exact ⟨⟨h₁, h₂⟩, trivial⟩
  · rintro ⟨⟨h₁, h₂⟩, -⟩
    exact ⟨⟨h₁, h₂ ▸ ha⟩, h₂⟩

/-- The timers with a new stream added to what is left of the tables. -/
theorem timer_create {u : TcpFragment} {D : List StreamPtr} (hu : u = t.without D) (hi : t.Inv hash)
    (hap : ∀ e ∈ u.tcpTimeoutSet, e.time ≠ p.timeStamp + 30)
    (hd : (u.create hash junk p).deref a = some s) :
    t.deref a = none ∧ OneTimer (u.create hash junk p).tcpTimeoutSet a (p.timeStamp + 30) ∨
      t.deref a = some s ∧ ∀ time, OneTimer t.tcpTimeoutSet a time →
        OneTimer (u.create hash junk p).tcpTimeoutSet a time := by
  have hiu : u.Inv hash := hu ▸ hi.without D
  rw [hiu.deref_create] at hd
  split at hd
  · rename_i ha
    subst ha
    left
    have hn : t.next = u.next := by rw [hu]; rfl
    refine ⟨hn ▸ hi.deref_next, oneTimer_insert (fun e he ha => ?_) hap⟩
    obtain ⟨n, hn, hptr⟩ := hiu.timers .tcp e he
    exact absurd (hiu.lt_next n hn) (by rw [hptr, ha]; exact Nat.lt_irrefl _)
  · rename_i ha
    right
    have hd' := hd
    rw [hu] at hd'
    refine ⟨deref_of_without hd', fun time h => ?_⟩
    have hu' : OneTimer u.tcpTimeoutSet a time := hu ▸ h.without (notMem_of_deref_without hd')
    exact hu'.of_del ha (delTimeout_insert ..)

/-- The timer of the stream that the packet is for. -/
theorem timer_kept (hap : Apart hash t p) (hwf : wellFormed p.ip) {fc : Bool} {w : Work}
    (hf : t.findStream hash p.ip = some (a, fc)) (hd : t.deref a = some s)
    (hw : Stages a p fc (t.work s) (.keep w)) :
    s.Advanced w.stream ∧ OneTimer w.tcpTimeoutSet a (p.timeStamp + 30) ∨
      ¬ s.Advanced w.stream ∧
        ∀ time, OneTimer t.tcpTimeoutSet a time → OneTimer w.tcpTimeoutSet a time := by
  rcases hw.tcpTimeoutSet with ⟨hyes, he⟩ | ⟨hno, he⟩
  · have hone : OneTimer w.tcpTimeoutSet a (p.timeStamp + 30) := by
      rw [he]
      exact oneTimer_update (hap.restart a ⟨hwf, fc, s, hf, hd, hyes⟩)
    by_cases hadv : s.Advanced w.stream
    · exact .inl ⟨hadv, hone⟩
    · -- A FIN alone: the timer was for this second before.
      have hidle : IdleWork p fc (t.work s) := by
        by_contra hidle
        exact hadv (hw.advanced hyes hidle)
      refine .inr ⟨hadv, fun time h => ?_⟩
      have hsame := (h _).mp ⟨hap.idle a ⟨hwf, fc, s, hf, hd, hidle⟩, rfl⟩
      rw [← (Timeout.mk.inj hsame).2]
      exact hone
  · have hkeep : w.tcpTimeoutSet = t.tcpTimeoutSet := he
    refine .inr ⟨hw.not_advanced hno, fun time h => ?_⟩
    rw [hkeep]
    exact h

/-- What a packet does to the timer of a stream that is there after it. -/
theorem timer_step (hi : t.Inv hash) (hap : Apart hash t p) {es : List Event}
    (hs : Step hash junk t p t' es) (hd : t'.deref a = some s) :
    (∀ s₀, t.deref a = some s₀ → s₀.Advanced s) ∧ OneTimer t'.tcpTimeoutSet a (p.timeStamp + 30) ∨
      ∃ s₀, t.deref a = some s₀ ∧ ¬ s₀.Advanced s ∧
        ∀ time, OneTimer t.tcpTimeoutSet a time → OneTimer t'.tcpTimeoutSet a time := by
  have hcreate {u : TcpFragment} : (t.deref a = none ∧ OneTimer u.tcpTimeoutSet a (p.timeStamp + 30) ∨
      t.deref a = some s ∧ ∀ time, OneTimer t.tcpTimeoutSet a time → OneTimer u.tcpTimeoutSet a time) →
      (∀ s₀, t.deref a = some s₀ → s₀.Advanced s) ∧ OneTimer u.tcpTimeoutSet a (p.timeStamp + 30) ∨
        ∃ s₀, t.deref a = some s₀ ∧ ¬ s₀.Advanced s ∧
          ∀ time, OneTimer t.tcpTimeoutSet a time → OneTimer u.tcpTimeoutSet a time := by
    rintro (⟨hnone, hone⟩ | ⟨hsome, hkeep⟩)
    · refine .inl ⟨fun s₀ h => ?_, hone⟩
      rw [hnone] at h
      cases h
    · exact .inr ⟨s, hsome, s.not_advanced_self, hkeep⟩
  cases hs with
  | ignored => exact .inr ⟨s, hd, s.not_advanced_self, fun _ h => h⟩
  | created hwf hf hfirst hlt =>
    exact hcreate (timer_create (without_nil t).symm hi
      (fun e he => hap.start hwf hfirst (fun _ => hlt) e he (by simp [hf])) hd)
  | cleared hwf hf hfirst =>
    -- No timer is left.
    have hnone : ∀ e, e ∉ t.clearAllStream.1.tcpTimeoutSet := by
      intro e he
      obtain ⟨n, hn, -⟩ := (hi.clearAllStream.eq ▸ hi.without _ : t.clearAllStream.1.Inv hash).timers
        .tcp e he
      rw [TcpFragment.clearAllStream, tcphashmap_tcpExit] at hn
      cases hn
    exact hcreate (timer_create hi.clearAllStream.eq hi (fun e he => absurd he (hnone e)) hd)
  | @replaced b fc hwf hf hfirst =>
    refine hcreate (timer_create rfl hi (fun e he => ?_) hd)
    have he : e ∈ t.tcpTimeoutSet ∧ e.aTcp ∉ [b] := mem_timeoutSet_without (k := .tcp).mp he
    refine hap.start hwf hfirst (fun h => by rw [hf] at h; cases h) e he.1 fun fc' h => ?_
    rw [hf] at h
    cases h
    exact he.2 (List.mem_singleton_self _)
  | @kept b fc s₀ w hwf hf hd₀ hw =>
    rw [deref_conclude hd₀] at hd
    by_cases hab : a = b
    · subst hab
      rw [if_pos rfl] at hd
      cases hd
      rcases timer_kept hap hwf hf hd₀ hw with ⟨hadv, hone⟩ | ⟨hno, hkeep⟩
      · refine .inl ⟨fun s₁ hs₁ => ?_, hone⟩
        rw [hd₀] at hs₁
        cases hs₁
        exact hadv
      · exact .inr ⟨s₀, hd₀, hno, hkeep⟩
    · rw [if_neg hab] at hd
      exact .inr ⟨s, hd, s.not_advanced_self, fun time h => h.of_del hab hw.frames.delTcp⟩
  | @freed b fc s₀ w hwf hf hd₀ hw =>
    exact .inr ⟨s, deref_of_without hd, s.not_advanced_self,
      fun time h => h.without (notMem_of_deref_without hd)⟩

/-- What it does to its timers for FINs. -/
theorem fin_step (hi : t.Inv hash) (hap : Apart hash t p) {es : List Event}
    (hs : Step hash junk t p t' es) (hd : t'.deref a = some s) :
    (CallsFin hash t p a ∧ ∃ e ∈ t'.finTimeoutSet, e.aTcp = a) ∨
      ¬ CallsFin hash t p a ∧ ∀ e ∈ t.finTimeoutSet, e.aTcp = a → e ∈ t'.finTimeoutSet := by
  have hcreate {u : TcpFragment} {D : List StreamPtr} (hu : u = t.without D) (hfirst : isFirst p.ip)
      (hd : (u.create hash junk p).deref a = some s) :
      ¬ CallsFin hash t p a ∧ ∀ e ∈ t.finTimeoutSet, e.aTcp = a →
        e ∈ (u.create hash junk p).finTimeoutSet := by
    subst hu
    refine ⟨not_callsFin_of_isFirst hfirst, fun e he ha => ?_⟩
    rw [(hi.without D).deref_create] at hd
    split at hd
    · -- No timer belongs to a stream that is not there yet.
      rename_i hnew
      obtain ⟨n, hn, hptr⟩ := hi.timers .fin e he
      have hlt : n.ptr < t.next := hi.lt_next n hn
      exact absurd (hptr.trans ha ▸ hlt) (by rw [hnew]; exact Nat.lt_irrefl _)
    · exact mem_timeoutSet_without (k := .fin).mpr ⟨he, ha ▸ notMem_of_deref_without hd⟩
  cases hs with
  | ignored h =>
    refine .inr ⟨fun ⟨hwf, fc, s, hf, _⟩ => ?_, fun _ h _ => h⟩
    rcases h with h | h
    · rw [h] at hwf
      cases hwf
    · rw [h] at hf
      cases hf
  | created hwf hf hfirst => exact .inr (hcreate (without_nil t).symm hfirst hd)
  | cleared hwf hf hfirst => exact .inr (hcreate hi.clearAllStream.eq hfirst hd)
  | replaced hwf hf hfirst => exact .inr (hcreate rfl hfirst hd)
  | @kept b fc s₀ w hwf hf hd₀ hw =>
    by_cases hab : a = b
    · subst hab
      rcases hw.finTimeoutSet with ⟨hcalls, he⟩ | ⟨hcalls, he⟩
      · have hC : CallsFin hash t p a := ⟨hwf, fc, s₀, hf, hd₀, hcalls⟩
        refine .inl ⟨hC, ?_⟩
        have he' : (t.conclude a w).1.finTimeoutSet = addFintimeout t.finTimeoutSet a p.timeStamp := he
        rw [he']
        by_cases hold : ∃ e ∈ t.finTimeoutSet, e.aTcp = a
        · obtain ⟨e, he, ha⟩ := hold
          exact ⟨e, OrderedSet.mem_insert.mpr (.inl he), ha⟩
        · -- The first timer of this stream is not lost to another's.
          refine ⟨_, OrderedSet.mem_insert.mpr (.inr ⟨rfl, fun e he => ?_⟩), rfl⟩
          exact hap.fin a hC (fun e he ha => hold ⟨e, he, ha⟩) e he
      · refine .inr ⟨fun ⟨_, fc', s', hf', hd', hcalls'⟩ => hcalls ?_, fun e h _ => ?_⟩
        · rw [hf] at hf'
          rw [hd₀] at hd'
          cases hf'
          cases hd'
          exact hcalls'
        · have : w.finTimeoutSet = t.finTimeoutSet := he
          rw [← this] at h
          exact h
    · refine .inr ⟨fun ⟨_, fc', s', hf', _⟩ => ?_, fun e he ha => ?_⟩
      · rw [hf] at hf'
        cases hf'
        exact hab rfl
      · have hdel : delTimeout w.finTimeoutSet b = delTimeout t.finTimeoutSet b := hw.frames.delFin
        have he' : e ∈ delTimeout t.finTimeoutSet b := mem_delTimeout.mpr ⟨he, ha ▸ hab⟩
        rw [← hdel] at he'
        exact (mem_delTimeout.mp he').1
  | @freed b fc s₀ w hwf hf hd₀ hw =>
    have hab := notMem_of_deref_without hd
    refine .inr ⟨fun ⟨_, fc', s', hf', _⟩ => ?_, fun e he ha => ?_⟩
    · rw [hf] at hf'
      cases hf'
      exact hab (List.mem_singleton_self _)
    · exact mem_timeoutSet_without (k := .fin).mpr ⟨he, ha ▸ hab⟩

/-! ## Any run -/

/-- The timers of the streams after the packets `ps`. -/
structure Timely (hash : Hash) (junk : StreamPtr → TcpStream) (ps : List Packet) (t : TcpFragment) :
    Prop where
  tcp : ∀ a s, t.deref a = some s → ∃ p, LastTouch hash junk ps a p ∧
    OneTimer t.tcpTimeoutSet a (p.timeStamp + 30)
  fin : ∀ a s, t.deref a = some s → FinCalled hash junk ps a → ∃ e ∈ t.finTimeoutSet, e.aTcp = a

variable {ps : List Packet} {es : List Event}

theorem LastTouch.unique {q : Packet} (h : LastTouch hash junk ps a p)
    (h' : LastTouch hash junk ps a q) : p = q := by
  obtain ⟨i, t, hm, ht, hlast⟩ := h
  obtain ⟨j, u, hm', ht', hlast'⟩ := h'
  rcases Nat.lt_trichotomy i j with hlt | rfl | hlt
  · exact absurd ht' (hlast j q u hlt hm')
  · exact Option.some.inj (hm.1.symm.trans hm'.1)
  · exact absurd ht (hlast' i p t hlt hm)

/-- The last packet of a run touches the stream. -/
theorem lastTouch_concat (hr : runTcp hash junk ps = some (t, es)) (h : Touches hash junk t p a) :
    LastTouch hash junk (ps ++ [p]) a p := by
  refine ⟨ps.length, t, (meets_concat hr).mpr (.inr ⟨rfl, rfl, rfl⟩), h, fun j q u hlt hm => ?_⟩
  have := hm.lt
  rw [List.length_append, List.length_singleton] at this
  omega

/-- It does not. -/
theorem LastTouch.concat {q : Packet} (h : LastTouch hash junk ps a p)
    (hr : runTcp hash junk ps = some (t, es)) (hno : ¬ Touches hash junk t q a) :
    LastTouch hash junk (ps ++ [q]) a p := by
  obtain ⟨i, u, hm, ht, hlast⟩ := h
  refine ⟨i, u, (meets_concat hr).mpr (.inl hm), ht, fun j x v hlt hx => ?_⟩
  rcases (meets_concat hr).mp hx with hx | ⟨-, rfl, rfl⟩
  · exact hlast j x v hlt hx
  · exact hno

theorem Inv.next_le (hi : t.Inv hash) (hp : t.processTcp hash junk p = some (t', es)) :
    t.next ≤ t'.next := by
  obtain ⟨D, t₁, es₁, t₂, es₂, hp', -, hc, hi₁, hs⟩ := hi.processTcp junk p
  rw [hp] at hp'
  cases hp'
  have hn : t.next = t₁.next := by rw [hc.eq]; rfl
  rw [hn]
  cases hs with
  | cleared =>
    rw [hi₁.clearAllStream.eq]
    exact Nat.le_succ _
  | created | replaced => exact Nat.le_succ _
  | ignored | kept | freed => exact Nat.le_refl _

/-- A FIN timer is only ever asked for a stream that has been in the map. -/
theorem FinCalled.lt_next (hr : runTcp hash junk ps = some (t, es)) (h : FinCalled hash junk ps a) :
    a < t.next := by
  refine run_induction (I := fun ps t _ => FinCalled hash junk ps a → a < t.next) ?_ ?_ hr h
  · rintro ⟨i, p, t, t₁, es, hm, -⟩
    exact absurd hm.lt (Nat.not_lt_zero _)
  · intro ps t es p t' es' hr ih hp hcall
    have hi := runTcp_inv hr
    obtain ⟨i, q, u, u₁, us, hm, hck, hcall⟩ := hcall
    rcases (meets_concat hr).mp hm with hm | ⟨-, rfl, rfl⟩
    · exact (ih ⟨i, q, u, u₁, us, hm, hck, hcall⟩).trans_le (Inv.next_le hi hp)
    · obtain ⟨D, t₁, es₁, hck', hc⟩ := hi.tcpChecktimeouts q.timeStamp
      rw [hck] at hck'
      cases hck'
      obtain ⟨-, fc, s, -, hd, -⟩ := hcall
      rw [hc.eq] at hd
      exact (hi.lt_of_deref (deref_of_without hd)).trans_le (Inv.next_le hi hp)

/-- One packet more. -/
theorem Timely.step (hr : runTcp hash junk ps = some (t, es)) (h : Timely hash junk ps t)
    {es' : List Event} (hp : t.processTcp hash junk p = some (t', es'))
    (hap : ∀ t₁ es, t.tcpChecktimeouts p.timeStamp = some (t₁, es) → Apart hash t₁ p) :
    Timely hash junk (ps ++ [p]) t' := by
  have hi := runTcp_inv hr
  obtain ⟨D, t₁, es₁, t₂, es₂, hp', hck, hc, hi₁, hs⟩ := hi.processTcp junk p
  rw [hp] at hp'
  cases hp'
  have ht₁ : t₁ = t.without (D.map Prod.fst) := hc.eq
  have hn : t₁.next = t.next := by rw [ht₁]; rfl
  have hap := hap t₁ es₁ hck
  -- A stream that is there before, too, has kept its timers through the check.
  have hlive {a : StreamPtr} {s : TcpStream} (hs : t₁.deref a = some s) :
      t.deref a = some s ∧ a ∉ D.map Prod.fst := by
    rw [ht₁] at hs
    exact ⟨deref_of_without hs, notMem_of_deref_without hs⟩
  refine ⟨fun a s hd => ?_, fun a s hd hcall => ?_⟩
  · rcases timer_step hi₁ hap hs hd with ⟨ht, hone⟩ | ⟨s₀, hd₁, hadv, hkeep⟩
    · refine ⟨p, lastTouch_concat hr ?_, hone⟩
      cases hd₁ : t₁.deref a with
      | none =>
        have ha := (hs.old_or_new hi₁ hd).resolve_left (not_not.mpr hd₁)
        refine .inl ⟨?_, t', es₁ ++ es₂, hp, by rw [hd]; rfl⟩
        rw [ha, hn]
        exact hi.deref_next
      | some s₀ => exact .inr ⟨s₀, t', _, s, (hlive hd₁).1, hp, hd, ht s₀ hd₁⟩
    · obtain ⟨hd₀, haD⟩ := hlive hd₁
      obtain ⟨q, hlast, hone⟩ := h.tcp a s₀ hd₀
      refine ⟨q, hlast.concat hr ?_, hkeep _ (ht₁ ▸ hone.without haD)⟩
      rintro (⟨hno, -⟩ | ⟨s₁, t'', es'', s₂, hs₁, hp', hs₂, hadv'⟩)
      · rw [hd₀] at hno
        cases hno
      · rw [hd₀] at hs₁
        rw [hp] at hp'
        cases hs₁
        cases hp'
        rw [hd] at hs₂
        cases hs₂
        exact hadv hadv'
  · rcases fin_step hi₁ hap hs hd with ⟨-, he⟩ | ⟨hno, hkeep⟩
    · exact he
    · -- The call was made before this packet, for a stream that is still there.
      have hold : FinCalled hash junk ps a := by
        obtain ⟨i, q, u, u₁, us, hm, hck', hcall⟩ := hcall
        rcases (meets_concat hr).mp hm with hm | ⟨-, rfl, rfl⟩
        · exact ⟨i, q, u, u₁, us, hm, hck', hcall⟩
        · rw [hck] at hck'
          cases hck'
          exact absurd hcall hno
      have ha := (hs.old_or_new hi₁ hd).resolve_right fun ha =>
        absurd (hold.lt_next hr) (by rw [ha, hn]; exact Nat.lt_irrefl _)
      obtain ⟨s₀, hd₁⟩ := Option.ne_none_iff_exists'.mp ha
      obtain ⟨hd₀, haD⟩ := hlive hd₁
      obtain ⟨e, he, hea⟩ := h.fin a s₀ hd₀ hold
      refine ⟨e, hkeep e ?_ hea, hea⟩
      rw [ht₁]
      exact mem_timeoutSet_without (k := .fin).mpr ⟨he, hea ▸ haD⟩

theorem RunApart.left {qs : List Packet} (h : RunApart hash junk (ps ++ qs)) :
    RunApart hash junk ps := by
  intro i p t t₁ es hm
  refine h i p t t₁ es ⟨?_, ?_⟩
  · rw [List.getElem?_append_left hm.lt]
    exact hm.1
  · rw [List.take_append_of_le_length hm.lt.le]
    exact hm.2

theorem runTcp_timely (hr : runTcp hash junk ps = some (t, es)) (h : RunApart hash junk ps) :
    Timely hash junk ps t := by
  refine run_induction (I := fun ps t _ => RunApart hash junk ps → Timely hash junk ps t) ?_ ?_ hr h
  · exact fun _ => ⟨fun a s hd => (by cases hd), fun a s hd => (by cases hd)⟩
  · intro ps t es p t' es' hr ih hp hap
    refine (ih hap.left).step hr hp fun t₁ es₁ hck => ?_
    exact hap ps.length p t t₁ es₁ ((meets_concat hr).mpr (.inr ⟨rfl, rfl, rfl⟩)) hck

/-- As long as no packet adds a timer for the second of another stream's or restarts one
without data, every stream has exactly one timer in `tcpTimeoutSet`, 30 seconds after the packet
that created it or last advanced its data, and one in `finTimeoutSet` if
`addFintimeout` has been called for it; so that checking the timers leaves no
stream that is due. -/
theorem timers_timely (hash : Hash) (junk : StreamPtr → TcpStream) (ps : List Packet)
    (h : RunApart hash junk ps) :
    ∃ t es, runTcp hash junk ps = some (t, es) ∧ Timely hash junk ps t ∧
      ∀ ts, ∃ t' es', t.tcpChecktimeouts ts = some (t', es') ∧ ∀ a s, t'.deref a = some s →
        (∀ p, LastTouch hash junk ps a p → ts < p.timeStamp + 30) ∧
          ∀ e ∈ t.finTimeoutSet, e.aTcp = a → ts < e.time := by
  obtain ⟨t, es, hr, hi⟩ := runTcp_total hash junk ps
  have ht := runTcp_timely hr h
  refine ⟨t, es, hr, ht, fun ts => ?_⟩
  obtain ⟨D, t', es', hck, hc⟩ := hi.tcpChecktimeouts ts
  have ht' : t' = t.without (D.map Prod.fst) := hc.eq
  refine ⟨t', es', hck, fun a s hd => ?_⟩
  rw [ht'] at hd
  have haD := notMem_of_deref_without hd
  have hrun (k : Timer) (e : Timeout) (he : e ∈ t.timeoutSet k) (hea : e.aTcp = a) : ts < e.time :=
    hc.running k e (ht' ▸ mem_timeoutSet_without.mpr ⟨he, hea ▸ haD⟩)
  refine ⟨fun p hp => ?_, fun e he hea => hrun .fin e he hea⟩
  obtain ⟨q, hq, hone⟩ := ht.tcp a s (deref_of_without hd)
  obtain rfl := hp.unique hq
  obtain ⟨he, hea⟩ := (hone ⟨a, p.timeStamp + 30⟩).mpr rfl
  exact hrun .tcp _ he hea

/-- The first packets of two connections. -/
def twoSyns (ts₁ ts₂ : Int) : List Packet :=
  [⟨headersOnly true 1 0 0 TH_SYN, 256, ts₁⟩, ⟨headersOnly true 2 0 0 TH_SYN, 256, ts₂⟩]

/-- Whether the seconds of the timers to come are free when packet `i` comes, and what it brings
in order is not a FIN alone. -/
def secondsFree (ps : List Packet) (i : Nat) (p : Packet) : Bool :=
  (runTcp Hash.plain (fun _ => emptyStream) (ps.take i)).all fun r =>
    (r.1.tcpChecktimeouts p.timeStamp).all fun r =>
      r.1.tcpTimeoutSet.elems.all (·.time ≠ p.timeStamp + 30) &&
        r.1.finTimeoutSet.elems.all (·.time ≠ p.timeStamp + 5) &&
        (r.1.findStream Hash.plain p.ip).all fun (a, fc) => (r.1.deref a).all fun s =>
          let q := (takeAck p fc (r.1.work s)).flow fc
          !inOrder q (segmentOf p) || reach q.expSeq (takenBy q (segmentOf p)) ≠ q.expSeq

theorem runApart_of_secondsFree {ps : List Packet}
    (h : ∀ i p, ps[i]? = some p → secondsFree ps i p = true) :
    RunApart Hash.plain (fun _ => emptyStream) ps := by
  rintro i p t t₁ es ⟨hp, es', hr⟩ hck
  have hf := h i p hp
  rw [secondsFree, hr, Option.all_some, hck, Option.all_some, Bool.and_eq_true, Bool.and_eq_true,
    List.all_eq_true, List.all_eq_true] at hf
  obtain ⟨⟨htcp, hfin⟩, hidle⟩ := hf
  refine ⟨fun _ _ _ e he _ => by simpa using htcp e he, fun _ _ e he _ => by simpa using htcp e he,
    ?_, fun _ _ _ e he => by simpa using hfin e he⟩
  rintro a ⟨-, fc, s, hfind, hd, hwork⟩
  rw [hfind, Option.all_some] at hidle
  dsimp only at hidle
  rw [hd, Option.all_some] at hidle
  have hin := hwork.inOrder
  have hstill := hwork.still
  simp only [hin, hstill, Bool.not_true, Bool.false_or, ne_eq, not_true_eq_false, decide_false] at hidle
  cases hidle

/-- Of two connections that start in different seconds, the first is given data. -/
def twoSynsThenData : List Packet :=
  twoSyns 0 1 ++ [{ dataPacket false 7 1 (TH_SYN ||| TH_ACK) [] with timeStamp := 2 },
    { dataPacket true 1 8 TH_ACK [] with timeStamp := 3 },
    { dataPacket true 1 8 TH_ACK [0x68, 0x69] with timeStamp := 4 }]

theorem timers_timely_data : ∃ t es, runTcp Hash.plain (fun _ => emptyStream) twoSynsThenData =
    some (t, es) ∧ Timely Hash.plain (fun _ => emptyStream) twoSynsThenData t := by
  obtain ⟨t, es, hr, ht, -⟩ := timers_timely Hash.plain (fun _ => emptyStream) twoSynsThenData
    (runApart_of_secondsFree fun i p hp => by
      rcases i with _ | _ | _ | _ | _ | i <;> cases hp <;> decide +kernel)
  exact ⟨t, es, hr, ht⟩

/-- Of two connections that start in the same second, the second has no timer, and stays. -/
theorem timers_same_second : ∃ t es, runTcp Hash.plain (fun _ => emptyStream) (twoSyns 0 0) =
    some (t, es) ∧ ¬ Timely Hash.plain (fun _ => emptyStream) (twoSyns 0 0) t := by
  have hcheck : (runTcp Hash.plain (fun _ => emptyStream) (twoSyns 0 0)).all (fun r =>
      (r.1.deref 1).isSome && r.1.tcpTimeoutSet.elems.all (·.aTcp ≠ 1)) = true := by decide +kernel
  obtain ⟨t, es, hr, -⟩ := runTcp_total Hash.plain (fun _ => emptyStream) (twoSyns 0 0)
  refine ⟨t, es, hr, fun ht => ?_⟩
  rw [hr] at hcheck
  simp only [Option.all_some, Bool.and_eq_true, List.all_eq_true, decide_eq_true_eq] at hcheck
  obtain ⟨s, hs⟩ := Option.isSome_iff_exists.mp hcheck.1
  obtain ⟨p, -, hone⟩ := ht.tcp 1 s hs
  obtain ⟨he, ha⟩ := (hone _).mpr rfl
  exact hcheck.2 _ he ha

end Noff.Tcp
