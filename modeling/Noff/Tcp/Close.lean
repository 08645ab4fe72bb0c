import Noff.Tcp.Handed
import Noff.Tcp.Urgent

/-!
# A close comes after all data

Each side of a stream sends a string of bytes, cut into segments in any way, and its FIN with the
last of them. `Reads` is what holds of one direction while its segments come: what is
counted is a prefix, and the sender is not taken to have closed before the prefix is everything.
So when both sides have closed and a packet with ACK brings the close callback, all bytes
of both sides have been counted, and each FIN has come and a packet with ACK after it
(`close_after_data`).
-/

namespace Noff.Tcp

open Reassembly Serial

/-! ## One direction -/

/-- The segment holds bytes of `S`; if it has the FIN, it ends where `S` ends, and `F` holds. -/
def Skbuff.Holds (S : List Byte) (F : Prop) (base : BitVec 32) (f : Skbuff) : Prop :=
  ∃ r, IsFrag S base f r ∧ (f.fin → r.stop = S.length ∧ F)

/-- `rcv` has counted the first `n` bytes of the string `S` that `snd` sends. The state of
`snd` tells of its FIN only if these are all, and if `F` holds; and of the acknowledgement
only if `A` holds. -/
structure Reads (S : List Byte) (F A : Prop) (snd rcv : HalfStream) (n : Nat) : Prop where
  count : rcv.count = BitVec.ofNat 32 n
  urgCount : rcv.urgCount = 0
  le : n ≤ S.length
  frags : ∀ f ∈ rcv.fraglist, f.Holds S F snd.firstDataSeq
  sent : snd.state = .finSent → n = S.length ∧ F
  confirmed : snd.state = .finConfirmed → n = S.length ∧ A

/-- No byte of `S` is at the urgent pointer of `rcv`. -/
def Unmarked (S : List Byte) (snd rcv : HalfStream) : Prop :=
  rcv.urgSeen → ∀ k < S.length, rcv.urgPtr ≠ pos snd.firstDataSeq k

section

variable {S : List Byte} {F A : Prop} {a : Owner} {ts : Int} {q : Flow} {n : Nat}

theorem Reads.expSeq (h : Reads S F A q.snd q.rcv n) : q.expSeq = pos q.snd.firstDataSeq n := by
  rw [Flow.expSeq, h.count, h.urgCount, add_zero, pos]

/-- `addPlain` adds what is new of a segment to the count. -/
theorem addPlain_eq (a : Owner) (q : Flow) (data : List Byte) (lost : BitVec 32) : ∃ cs cn,
    addPlain a q data lost = { q with
      chunks := cs, rcv.count := q.rcv.count + (lenVal data - lost), rcv.countNew := cn } := by
  rw [addPlain]
  split
  · simp only [addPart, notify]
    repeat' split
    all_goals exact ⟨_, _, rfl⟩
  · rename_i hzero
    rw [not_not.mp hzero, add_zero]
    exact ⟨_, _, rfl⟩

theorem addFin_snd (a : Owner) (ts : Int) (q : Flow) (fin : Bool) : (addFin a ts q fin).snd =
    if fin then { q.snd with state := .finSent } else q.snd := by
  simp only [addFin]
  split
  · split <;> rfl
  · rfl

/-- The bytes from `n` on up to the end of a segment do not hold the urgent byte. -/
theorem Unmarked.not_urgent (hu : Unmarked S q.snd q.rcv) {m : Nat} (hm : m ≤ 65535)
    (hS : n + m ≤ S.length) : (q.rcv.urgSeen && after (q.rcv.urgPtr + 1) (pos q.snd.firstDataSeq n) &&
      before q.rcv.urgPtr (pos q.snd.firstDataSeq n + BitVec.ofNat 32 m)) = false := by
  rw [Bool.and_assoc, urgent_test _ _ hm, Bool.and_eq_false_iff, decide_eq_false_iff_not]
  refine or_iff_not_imp_left.mpr fun hseen hlt => ?_
  refine hu (Bool.not_eq_false _ ▸ hseen)
    (n + (q.rcv.urgPtr - pos q.snd.firstDataSeq n).toNat) (by omega) ?_
  rw [← pos_add, BitVec.ofNat_toNat, BitVec.setWidth_eq]
  exact (add_sub_cancel ..).symm

/-- What `addFromskb` does with a segment of `S` that begins in what is counted, and ends behind it. -/
theorem Reads.addFromskb (h : Reads S F A q.snd q.rcv n) (hu : Unmarked S q.snd q.rcv) {r : Range}
    (h₁ : r.off ≤ n) (h₂ : n ≤ r.stop) (hS : r.stop ≤ S.length) (hl : r.len ≤ 65535) {fin : Bool}
    (hfin : fin → r.stop = S.length ∧ F) (ts : Int) (urgPtr : BitVec 32) :
    let q' := addFromskb a ts q (slice S r) (pos q.snd.firstDataSeq r.off) fin false urgPtr
    Reads S F A q'.snd q'.rcv r.stop ∧ Unmarked S q'.snd q'.rcv ∧
      q'.snd.firstDataSeq = q.snd.firstDataSeq := by
  have hstop : r.stop = n + (r.stop - n) := by omega
  have hlen : lenVal (slice S r) = BitVec.ofNat 32 r.len := by rw [lenVal, length_slice hS]
  have hend : pos q.snd.firstDataSeq r.off + BitVec.ofNat 32 r.len =
      pos q.snd.firstDataSeq n + BitVec.ofNat 32 (r.stop - n) := by
    rw [pos_add, pos_add, ← hstop, Range.stop]
  have hno : (q.rcv.urgSeen && after (q.rcv.urgPtr + 1) (pos q.snd.firstDataSeq r.off +
      BitVec.ofNat 32 (n - r.off)) && before q.rcv.urgPtr (pos q.snd.firstDataSeq r.off +
        BitVec.ofNat 32 r.len)) = false := by
    rw [hend, pos_add, Nat.add_sub_cancel' h₁]
    exact hu.not_urgent (by simp only [Range.stop] at h₂ ⊢; omega) (by omega)
  simp only [Tcp.addFromskb, noteUrgent, Bool.false_and, Bool.false_eq_true, if_false, h.expSeq,
    sub_eq _ h₁, hlen, hno]
  obtain ⟨cs, cn, he⟩ := addPlain_eq a q (slice S r) (BitVec.ofNat 32 (n - r.off))
  have hcount : q.rcv.count + (lenVal (slice S r) - BitVec.ofNat 32 (n - r.off)) =
      BitVec.ofNat 32 r.stop := by
    have hsum : r.stop + (n - r.off) = n + r.len := by simp only [Range.stop]; omega
    rw [h.count, hlen, ← add_sub_assoc, ← BitVec.ofNat_add, ← hsum, BitVec.ofNat_add]
    exact BitVec.add_sub_cancel ..
  rw [hcount] at he
  rw [(addFin_rcv a ts fin).1, addFin_snd, he]
  have hall {P : Prop} (hn : n = S.length ∧ P) : r.stop = S.length ∧ P := ⟨by omega, hn.2⟩
  split
  · rename_i hf
    exact ⟨⟨rfl, h.urgCount, hS, h.frags, fun _ => hfin hf, fun hs => by cases hs⟩, hu, rfl⟩
  · exact ⟨⟨rfl, h.urgCount, hS, h.frags, fun hs => hall (h.sent hs),
      fun hs => hall (h.confirmed hs)⟩, hu, rfl⟩

/-- A segment is compared with the bytes counted by its place in `S`. -/
theorem Reads.after_expSeq (h : Reads S F A q.snd q.rcv n) (hS : S.length < window) {m : Nat}
    (hm : m ≤ S.length) : after (pos q.snd.firstDataSeq m) q.expSeq = decide (n < m) := by
  have hle := h.le
  simp only [window] at hS
  rw [h.expSeq]
  exact after_pos _ (by omega) (by omega)

/-- The loop over the segments that have been kept. -/
theorem Reads.drain (h : Reads S F A q.snd q.rcv n) (hu : Unmarked S q.snd q.rcv)
    (hS : S.length < window) {frags : List Skbuff}
    (hf : ∀ f ∈ frags, f.Holds S F q.snd.firstDataSeq) (a : Owner) (ts : Int) :
    ∃ n', Reads S F A (drain a ts q frags).snd (drain a ts q frags).rcv n' := by
  induction frags generalizing q n with
  | nil => exact ⟨n, h.count, h.urgCount, h.le, fun f hf => (by cases hf), h.sent, h.confirmed⟩
  | cons frag rest ih =>
    obtain ⟨r, hr, hfin⟩ := hf frag (List.mem_cons_self ..)
    have hstop := hr.stop
    have hoff : r.off ≤ r.stop := Nat.le_add_right ..
    have hrest := fun f hf' => hf f (List.mem_cons_of_mem _ hf')
    simp only [Tcp.drain]
    rw [hr.seq, h.after_expSeq hS (hoff.trans hstop)]
    split
    · exact ⟨n, h.count, h.urgCount, h.le, hf, h.sent, h.confirmed⟩
    · rename_i hle
      have hle : r.off ≤ n := by simpa using hle
      have hend := after_end q.snd.firstDataSeq (n := n) hstop hr.len frag.fin hle
        (by have := h.le; omega)
      rw [hr.data, h.expSeq, hend, hr.urg]
      split
      · rename_i hgt
        have hgt : n < r.stop + frag.fin.toNat := of_decide_eq_true hgt
        have hone := Bool.toNat_le frag.fin
        obtain ⟨hadd, hu', hfirst⟩ := Reads.addFromskb (a := a)
          (q := { q with tcpTimeoutSet := updateTcptimeout q.tcpTimeoutSet a.aTcp ts }) h hu hle
          (by omega) hstop hr.len hfin ts (frag.urgPtr + pos q.snd.firstDataSeq r.off - 1)
        refine ih ⟨hadd.count, hadd.urgCount, hadd.le, hadd.frags, hadd.sent, hadd.confirmed⟩ hu' ?_
        dsimp only
        rw [hfirst]
        exact hrest
      · exact ih ⟨h.count, h.urgCount, h.le, h.frags, h.sent, h.confirmed⟩ hu hrest

/-- `tcpQueue` with a segment of `S`. -/
theorem Reads.tcpQueue (h : Reads S F A q.snd q.rcv n) (hu : Unmarked S q.snd q.rcv)
    (hS : S.length < window) {x : Arrival} (hx : x.Sent S) (hfin : x.fin → F) (a : Owner) (ts : Int) :
    let q' := tcpQueue a ts q (x.segment S q.snd.firstDataSeq)
    ∃ n', Reads S F A q'.snd q'.rcv n' := by
  have hstop := hx.stop
  have hoff : x.range.off ≤ x.range.stop := Nat.le_add_right ..
  have hends : x.fin → x.range.stop = S.length ∧ F := fun hf => ⟨hx.fin hf, hfin hf⟩
  have hcmp := h.after_expSeq hS (hoff.trans hstop)
  simp only [Tcp.tcpQueue, Arrival.segment, hcmp, Bool.not_eq_true', decide_eq_false_iff_not]
  split
  · rename_i hle
    have hle : x.range.off ≤ n := Nat.not_lt.mp hle
    have hend := after_end q.snd.firstDataSeq (n := n) hstop hx.len x.fin hle
      (by have := h.le; omega)
    simp only [h.expSeq, hend, decide_eq_true_eq]
    split
    · rename_i hgt
      have hone := Bool.toNat_le x.fin
      obtain ⟨hadd, hu', hfirst⟩ := Reads.addFromskb (a := a)
        (q := { q with tcpTimeoutSet := updateTcptimeout q.tcpTimeoutSet a.aTcp ts }) h hu hle
        (by omega) hstop hx.len hends ts
        (x.urp.setWidth 32 + pos q.snd.firstDataSeq x.range.off - 1)
      exact hadd.drain hu' hS hadd.frags a ts
    · exact ⟨n, h⟩
  · -- The segment is kept; a FIN in it does not count as sent yet.
    have hkept : ∀ f ∈ insertFrag (x.segment S q.snd.firstDataSeq).pakiet q.rcv.fraglist,
        f.Holds S F q.snd.firstDataSeq := by
      intro f hf
      rcases mem_insertFrag hf with rfl | hf
      · exact ⟨x.range, ⟨rfl, rfl, hstop, hx.len, rfl⟩, hends⟩
      · exact h.frags f hf
    refine ⟨n, ?_⟩
    simp only [enqueue]
    repeat' split
    · exact ⟨h.count, h.urgCount, h.le, hkept, fun hs => (by cases hs), fun hs => by cases hs⟩
    · exact ⟨h.count, h.urgCount, h.le, hkept, fun hs => (by cases hs), fun hs => by cases hs⟩
    · exact ⟨h.count, h.urgCount, h.le, hkept, h.sent, h.confirmed⟩

end

/-! ## A stream -/

/-- Both directions are read, and nothing is kept before the connection. -/
structure TcpStream.Reads (S : Bool → List Byte) (F A : Bool → Prop) (s : TcpStream) : Prop where
  reads : ∀ fc, ∃ n, Tcp.Reads (S fc) (F fc) (A fc) (s.snd fc) (s.rcv fc) n
  silent : s.isconnnection = false → ∀ fc, (s.rcv fc).fraglist = []

/-- Where the data of a packet is among the bytes of a sender whose first has the number `base`. -/
def place (base : BitVec 32) (p : Packet) : Range := ⟨(thSeq p.ip - base).toNat, (datalen p.ip).toNat⟩

/-- The packet carries some of the bytes `S` of its sender, no urgent ones, and a FIN at
their end only. -/
structure Carries (S : List Byte) (base : BitVec 32) (p : Packet) : Prop where
  urg : hasFlag p.ip TH_URG = false
  stop : (place base p).stop ≤ S.length
  data : (segmentOf p).data = slice S (place base p)
  fin : hasFlag p.ip TH_FIN → (place base p).stop = S.length

/-- The packet `p` carries bytes of its side for a stream that is connected. -/
structure Sends (S : Bool → List Byte) (p : Packet) (fc : Bool) (w : Work) : Prop where
  connected : w.stream.isconnnection
  carries : Carries (S fc) (w.stream.snd fc).firstDataSeq p

/-- `tcpQueue` is called with the packet. -/
structure TakesData (p : Packet) (fc : Bool) (w : Work) : Prop where
  accepted : Accepted p fc w
  data : 0 < datalen p.ip + (hasFlag p.ip TH_FIN).toNat

/-- The packet is looked at: it has no SYN and is in the window. -/
structure Comes (p : Packet) (fc : Bool) (w : Work) : Prop where
  syn : hasFlag p.ip TH_SYN = false
  window : outOfWindow p.ip (w.stream.rcv fc) = false

section

variable {S : Bool → List Byte} {F A F' A' : Bool → Prop} {a : StreamPtr} {p : Packet} {fc : Bool}
  {w w' : Work} {s : TcpStream} {T : List Byte} {base : BitVec 32}

/-- The packet as a segment of the bytes that it carries. -/
theorem Carries.segment (h : Carries T base p) : ∃ x : Arrival, x.Sent T ∧
    segmentOf p = x.segment T base ∧ x.fin = hasFlag p.ip TH_FIN := by
  have hlen := ipLen_lt p.ip
  refine ⟨⟨place base p, hasFlag p.ip TH_FIN, thUrp p.ip, p.skblen, p.timeStamp⟩,
    ⟨h.stop, ?_, h.fin⟩, ?_, rfl⟩
  · simp only [place, datalen]
    omega
  · have hseq : pos base (place base p).off = thSeq p.ip := by
      rw [pos, place, BitVec.ofNat_toNat, BitVec.setWidth_eq]
      exact add_sub_cancel ..
    simp only [Arrival.segment, hseq, ← h.data, ← h.urg]
    rfl

/-- One direction is still read if nothing is received, the sender keeps its first sequence
number and its FIN is acknowledged at most. -/
theorem Reads.of_eq {F A F' A' : Prop} {snd rcv snd' rcv' : HalfStream} {n : Nat}
    (h : Reads T F A snd rcv n) (hr : rcv'.received = rcv.received)
    (hf : rcv.fraglist = [] ∨ snd'.firstDataSeq = snd.firstDataSeq) (hF : F → F') (hA : A → A')
    (hs : snd'.state = .finSent → snd.state = .finSent)
    (hc : snd'.state = .finConfirmed →
      snd.state = .finConfirmed ∨ snd.state = .finSent ∧ (F → A')) :
    Reads T F' A' snd' rcv' n := by
  obtain ⟨-, he⟩ := Prod.mk.injEq .. ▸ hr
  obtain ⟨hu, he⟩ := Prod.mk.injEq .. ▸ he
  obtain ⟨hn, hl⟩ := Prod.mk.injEq .. ▸ he
  refine ⟨hn.trans h.count, hu.trans h.urgCount, h.le, fun f hmem => ?_, fun hst => ?_, fun hst => ?_⟩
  · rw [hl] at hmem
    rcases hf with hnil | hf
    · rw [hnil] at hmem
      cases hmem
    · obtain ⟨r, hr, hfin⟩ := h.frags f hmem
      exact ⟨r, hf ▸ hr, fun hfin' => (hfin hfin').imp_right hF⟩
  · exact (h.sent (hs hst)).imp_right hF
  · rcases hc hst with hst | ⟨hst, hA'⟩
    · exact (h.confirmed hst).imp_right hA
    · exact (h.sent hst).imp_right hA'

theorem TcpStream.Reads.mono (h : s.Reads S F A) (hF : ∀ fc, F fc → F' fc)
    (hA : ∀ fc, A fc → A' fc) : s.Reads S F' A' :=
  ⟨fun fc => (h.reads fc).imp fun _ hr => hr.of_eq rfl (.inr rfl) (hF fc) (hA fc) id .inl, h.silent⟩

theorem TcpStream.snd_not (s : TcpStream) {fc fc' : Bool} (h : fc' ≠ fc) : s.snd fc' = s.rcv fc := by
  cases fc <;> cases fc' <;> first | rfl | exact absurd rfl h

/-- What the ACK of a packet does to the state of a half that sends. -/
theorem state_takeAck (p : Packet) (fc : Bool) (w : Work) (fc' : Bool) :
    ((takeAck p fc w).stream.snd fc').firstDataSeq = (w.stream.snd fc').firstDataSeq ∧
    (((takeAck p fc w).stream.snd fc').state = .finSent → (w.stream.snd fc').state = .finSent) ∧
    (((takeAck p fc w).stream.snd fc').state = .finConfirmed →
      (w.stream.snd fc').state = .finConfirmed ∨
        (w.stream.snd fc').state = .finSent ∧ hasFlag p.ip TH_ACK ∧ fc' ≠ fc) := by
  have hest : ((establish p fc w).stream.snd fc').firstDataSeq = (w.stream.snd fc').firstDataSeq ∧
      (((establish p fc w).stream.snd fc').state = (w.stream.snd fc').state ∨
        ((establish p fc w).stream.snd fc').state = .established) := by
    simp only [establish]
    split
    · cases fc' <;> exact ⟨rfl, .inr rfl⟩
    · exact ⟨rfl, .inl rfl⟩
  have hold {st : TcpState} (hst : st ≠ .established)
      (h : ((establish p fc w).stream.snd fc').state = st) : (w.stream.snd fc').state = st := by
    rcases hest.2 with he | he
    · rw [← he, h]
    · exact absurd (h.symm.trans he) hst
  rw [takeAck]
  split
  · rename_i hack
    by_cases hfc : fc' = fc
    · subst hfc
      have hsnd : ((acknowledge p fc' (establish p fc' w)).stream.snd fc').firstDataSeq =
          ((establish p fc' w).stream.snd fc').firstDataSeq ∧
          ((acknowledge p fc' (establish p fc' w)).stream.snd fc').state =
            ((establish p fc' w).stream.snd fc').state := by
        rw [acknowledge, TcpStream.snd_withHalves, handleAck]
        split <;> exact ⟨rfl, rfl⟩
      rw [hsnd.1, hsnd.2]
      exact ⟨hest.1, hold (by decide), fun h => .inl (hold (by decide) h)⟩
    · rw [TcpStream.snd_not _ hfc, acknowledge, TcpStream.rcv_withHalves, ← TcpStream.snd_not _ hfc]
      split
      · rename_i hsent
        exact ⟨hest.1, fun h => (by cases h), fun _ => .inr ⟨hold (by decide) hsent, hack, hfc⟩⟩
      · exact ⟨hest.1, hold (by decide), fun h => .inl (hold (by decide) h)⟩
  · exact ⟨rfl, id, .inl⟩

theorem TcpStream.Reads.takeAck (h : w.stream.Reads S F A) (hF : ∀ fc', F fc' → F' fc')
    (hA : ∀ fc', A fc' → A' fc') (hack : hasFlag p.ip TH_ACK → ∀ fc' ≠ fc, F fc' → A' fc') :
    (takeAck p fc w).stream.Reads S F' A' := by
  refine ⟨fun fc' => (h.reads fc').imp fun n hr => ?_, fun hi fc' => ?_⟩
  · obtain ⟨hfirst, hsent, hconf⟩ := state_takeAck p fc w fc'
    refine hr.of_eq (received_takeAck p fc w fc') (.inr hfirst) (hF fc') (hA fc') hsent fun hst => ?_
    exact (hconf hst).imp_right fun hc => ⟨hc.1, hack hc.2.1 fc' hc.2.2⟩
  · have hr := received_takeAck p fc w fc'
    exact (congrArg (·.2.2.2) hr).trans (h.silent (isconnnection_takeAck hi) fc')

theorem TcpStream.Reads.takeData (h : w.stream.Reads S F A) (hS : ∀ fc, (S fc).length < window)
    (hsends : 0 < datalen p.ip + (hasFlag p.ip TH_FIN).toNat → Sends S p fc w ∧
      Unmarked (S fc) (w.stream.snd fc) (w.stream.rcv fc) ∧ (hasFlag p.ip TH_FIN → F fc)) :
    (takeData a p fc w).stream.Reads S F A := by
  rw [Tcp.takeData]
  split
  · rename_i hd
    obtain ⟨⟨hconn, hcarries⟩, hu, hfin⟩ := hsends hd
    obtain ⟨x, hx, hseg, hxfin⟩ := hcarries.segment
    refine ⟨fun fc' => ?_, fun hi => ?_⟩
    · by_cases hfc : fc' = fc
      · subst hfc
        obtain ⟨n, hr⟩ := h.reads fc'
        have hq := Reads.tcpQueue (q := w.flow fc') hr hu (hS fc') hx (fun hf => hfin (hxfin ▸ hf))
          ⟨a, w.stream.isconnnection⟩ p.timeStamp
        have hseg' : segmentOf p = x.segment (S fc') (w.flow fc').snd.firstDataSeq := hseg
        rw [← hseg'] at hq
        simp only [queueData, TcpStream.snd_withHalves, TcpStream.rcv_withHalves]
        exact hq
      · -- The other direction: its sender is left alone, and its receiver at most has sent a FIN.
        have hrcv := settings_tcpQueue ⟨a, w.stream.isconnnection⟩ p.timeStamp (w.flow fc) (segmentOf p)
        have hsnd := snd_tcpQueue ⟨a, w.stream.isconnnection⟩ p.timeStamp (w.flow fc) (segmentOf p)
        obtain ⟨hst, hset⟩ := Prod.mk.injEq .. ▸ hrcv
        have hfirst := congrArg Prod.fst hset
        obtain ⟨n, hr⟩ := h.reads fc'
        rw [TcpStream.snd_not _ hfc, TcpStream.rcv_not _ hfc] at hr
        rw [TcpStream.snd_not _ hfc, TcpStream.rcv_not _ hfc]
        simp only [queueData, TcpStream.snd_withHalves, TcpStream.rcv_withHalves]
        refine ⟨n, hr.of_eq ?_ (.inr hfirst) id id (fun hs => hst ▸ hs) fun hs => .inl (hst ▸ hs)⟩
        rw [hsnd]
        rfl
    · rw [queueData, TcpStream.isconnnection_withHalves] at hi
      rw [hi] at hconn
      cases hconn
  · exact h

theorem TcpStream.Reads.updateWindow (h : w.stream.Reads S F A) :
    (updateWindow p fc w).stream.Reads S F A := by
  have hr (fc' : Bool) : ((Tcp.updateWindow p fc w).stream.rcv fc').received =
      (w.stream.rcv fc').received := by
    rw [Tcp.updateWindow, received_withHalves]
    split
    · rename_i hfc
      rw [hfc]
    · rename_i hfc
      rw [w.stream.rcv_not hfc]
      rfl
  have hs (fc' : Bool) : ((Tcp.updateWindow p fc w).stream.snd fc').firstDataSeq =
      (w.stream.snd fc').firstDataSeq ∧
      ((Tcp.updateWindow p fc w).stream.snd fc').state = (w.stream.snd fc').state := by
    cases fc <;> cases fc' <;> exact ⟨rfl, rfl⟩
  refine ⟨fun fc' => (h.reads fc').imp fun n hn => ?_, fun hi fc' => ?_⟩
  · refine hn.of_eq (hr fc') (.inr (hs fc').1) id id (fun hst => ?_) fun hst => .inl ?_
    · rwa [(hs fc').2] at hst
    · rwa [(hs fc').2] at hst
  · rw [Tcp.updateWindow, TcpStream.isconnnection_withHalves] at hi
    exact (congrArg (·.2.2.2) (hr fc')).trans (h.silent hi fc')

/-- A SYN changes the first sequence number of the server before the connection only. -/
theorem TcpStream.Reads.processSyn (h : w.stream.Reads S F A) (hset : w.stream.Settled)
    (hk : processSyn p fc w = .keep w') : w'.stream.Reads S F A := by
  simp only [Tcp.processSyn] at hk
  split at hk
  · split at hk <;> cases hk
    exact h
  · split at hk
    · cases hk
      exact h
    · rename_i hst
      simp only [ne_eq, not_or, not_not] at hst
      split at hk <;> cases hk
      · exact h
      · have hno : w.stream.isconnnection = false :=
          Bool.not_eq_true _ ▸ fun hi => hset hi hst.1
        have hsilent := h.silent hno
        refine ⟨fun fc' => (h.reads fc').imp fun n hn => ?_, fun _ fc' => ?_⟩
        · refine hn.of_eq ?_ (.inl (hsilent fc')) id id ?_ ?_
          · dsimp only
            cases fc' <;> (repeat' split) <;> rfl
          · dsimp only
            cases fc' <;> (repeat' split) <;> first | exact id | exact fun hst => by cases hst
          · dsimp only
            cases fc' <;> (repeat' split) <;> first | exact .inl | exact fun hst => by cases hst
        · refine Eq.trans ?_ (hsilent fc')
          dsimp only
          cases fc' <;> (repeat' split) <;> rfl

/-- What a packet leaves of a stream that stays in the map. -/
theorem TcpStream.Reads.processStream (h : w.stream.Reads S F A) (hS : ∀ fc, (S fc).length < window)
    (hset : w.stream.Settled) (hF : ∀ fc', F fc' → F' fc') (hA : ∀ fc', A fc' → A' fc')
    (hsends : TakesData p fc w → Sends S p fc (Tcp.takeAck p fc w) ∧
      Unmarked (S fc) ((Tcp.takeAck p fc w).stream.snd fc) ((Tcp.takeAck p fc w).stream.rcv fc))
    (hfin : Comes p fc w → hasFlag p.ip TH_FIN → F' fc)
    (hack : Comes p fc w → hasFlag p.ip TH_ACK → ∀ fc' ≠ fc, F fc' → A' fc')
    (hk : processStream a p fc w = .keep w') : w'.stream.Reads S F' A' := by
  simp only [Tcp.processStream] at hk
  split at hk
  · exact (h.processSyn hset hk).mono hF hA
  · rename_i hsyn
    have hsyn : hasFlag p.ip TH_SYN = false := Bool.not_eq_true _ ▸ hsyn
    split at hk
    · cases hk
      exact h.mono hF hA
    · rename_i hout
      have hout : outOfWindow p.ip (w.stream.rcv fc) = false := Bool.not_eq_true _ ▸ hout
      split at hk
      · cases hk
      · rename_i hrst
        split at hk
        · cases hk
        · rename_i hclosed
          have hacc : Accepted p fc w := ⟨hsyn, hout, Bool.not_eq_true _ ▸ hrst, hclosed⟩
          split at hk <;> cases hk
          refine ((h.takeAck hF hA (hack ⟨hsyn, hout⟩)).takeData hS fun hd => ?_).updateWindow
          obtain ⟨hs, hu⟩ := hsends ⟨hacc, hd⟩
          exact ⟨hs, hu, hfin ⟨hsyn, hout⟩⟩

/-- The ACK of a packet closes the stream: everything has been counted. -/
theorem TcpStream.Reads.close (h : w.stream.Reads S F A) (hA : ∀ fc', A fc' → A' fc')
    (hack : Comes p fc w → hasFlag p.ip TH_ACK → ∀ fc' ≠ fc, F fc' → A' fc')
    (hnil : w.callbacks = []) (hk : Tcp.processStream a p fc w = .free w')
    (hcb : .close ∈ w'.callbacks) : w'.stream.closed ∧
      ∀ fc', (w'.stream.rcv fc').count = BitVec.ofNat 32 (S fc').length ∧ A' fc' := by
  have hdata {w : Work} (hno : .close ∉ w.callbacks) : .close ∉ (Tcp.takeData a p fc w).callbacks := by
    rw [Tcp.takeData]
    split
    · rw [queueData, List.mem_append, not_or]
      refine ⟨hno, fun hmem => ?_⟩
      obtain ⟨c, -, hc⟩ := List.mem_map.mp hmem
      cases hc
    · exact hno
  have hno : .close ∉ (Tcp.takeAck p fc w).callbacks := by
    simp only [Tcp.takeAck, acknowledge, establish]
    repeat' split
    all_goals simp [hnil]
  simp only [Tcp.processStream] at hk
  split at hk
  · -- A SYN does not free a stream.
    simp only [Tcp.processSyn] at hk
    repeat' split at hk
    all_goals cases hk
  · rename_i hsyn
    split at hk
    · cases hk
    · rename_i hout
      split at hk
      · cases hk
        rw [Work.end] at hcb
        split at hcb <;> simp [hnil] at hcb
      · split at hk
        · rename_i hclosed
          have hcomes : Comes p fc w := ⟨Bool.not_eq_true _ ▸ hsyn, Bool.not_eq_true _ ▸ hout⟩
          have hread : (Tcp.takeAck p fc w).stream.Reads S F A' :=
            h.takeAck (fun _ => id) hA (hack hcomes)
          have hstream : w'.stream = (Tcp.takeAck p fc w).stream := by
            cases hk
            rw [Work.end]
            split <;> rfl
          rw [hstream]
          refine ⟨hclosed.2, fun fc' => ?_⟩
          have hboth := hclosed.2
          rw [TcpStream.closed, Bool.and_eq_true, decide_eq_true_eq, decide_eq_true_eq] at hboth
          have hst : ((Tcp.takeAck p fc w).stream.snd fc').state = .finConfirmed := by
            cases fc' with
            | false => exact hboth.2
            | true => exact hboth.1
          obtain ⟨n, hn⟩ := hread.reads fc'
          obtain ⟨hlen, hA'⟩ := hn.confirmed hst
          exact ⟨hlen ▸ hn.count, hA'⟩
        · split at hk <;> cases hk
          exact absurd hcb (hdata hno)

end

instance Accepted.decidable (p : Packet) (fc : Bool) (w : Work) : Decidable (Accepted p fc w) :=
  decidable_of_iff (hasFlag p.ip TH_SYN = false ∧ outOfWindow p.ip (w.stream.rcv fc) = false ∧
      hasFlag p.ip TH_RST = false ∧ ¬ (hasFlag p.ip TH_ACK ∧ (takeAck p fc w).stream.closed))
    ⟨fun h => ⟨h.1, h.2.1, h.2.2.1, h.2.2.2⟩, fun h => ⟨h.syn, h.window, h.rst, h.stillOpen⟩⟩

instance TakesData.decidable (p : Packet) (fc : Bool) (w : Work) : Decidable (TakesData p fc w) :=
  decidable_of_iff (Accepted p fc w ∧ 0 < datalen p.ip + (hasFlag p.ip TH_FIN).toNat)
    ⟨fun h => ⟨h.1, h.2⟩, fun h => ⟨h.accepted, h.data⟩⟩

instance Carries.decidable (S : List Byte) (base : BitVec 32) (p : Packet) :
    Decidable (Carries S base p) :=
  decidable_of_iff (hasFlag p.ip TH_URG = false ∧ (place base p).stop ≤ S.length ∧
      (segmentOf p).data = slice S (place base p) ∧
      (hasFlag p.ip TH_FIN → (place base p).stop = S.length))
    ⟨fun h => ⟨h.1, h.2.1, h.2.2.1, h.2.2.2⟩, fun h => ⟨h.urg, h.stop, h.data, h.fin⟩⟩

instance Sends.decidable (S : Bool → List Byte) (p : Packet) (fc : Bool) (w : Work) :
    Decidable (Sends S p fc w) :=
  decidable_of_iff (w.stream.isconnnection ∧ Carries (S fc) (w.stream.snd fc).firstDataSeq p)
    ⟨fun h => ⟨h.1, h.2⟩, fun h => ⟨h.connected, h.carries⟩⟩

/-! ## Runs -/

/-- What `P` says of a packet whose data is taken for the stream `a`, and of the work on it then. -/
def OnData (hash : Hash) (a : StreamPtr) (P : Packet → Bool → Work → Prop) (t : TcpFragment)
    (p : Packet) : Prop :=
  ∀ fc w, t.target hash p = some (a, fc, w) → TakesData p fc w → P p fc (takeAck p fc w)

/-- No byte that the side `fc` sends is at an urgent pointer. -/
def NotUrgent (S : Bool → List Byte) (_p : Packet) (fc : Bool) (w : Work) : Prop :=
  Unmarked (S fc) (w.stream.snd fc) (w.stream.rcv fc)

instance NotUrgent.decidable (S : Bool → List Byte) (p : Packet) (fc : Bool) (w : Work) :
    Decidable (NotUrgent S p fc w) :=
  inferInstanceAs (Decidable ((w.stream.rcv fc).urgSeen → ∀ k < (S fc).length,
    (w.stream.rcv fc).urgPtr ≠ pos (w.stream.snd fc).firstDataSeq k))

instance OnData.decidable (hash : Hash) (a : StreamPtr) (P : Packet → Bool → Work → Prop)
    [∀ p fc w, Decidable (P p fc w)] (t : TcpFragment) (p : Packet) :
    Decidable (OnData hash a P t p) :=
  decidable_of_iff (∀ x ∈ t.target hash p, x.1 = a → TakesData p x.2.1 x.2.2 →
      P p x.2.1 (takeAck p x.2.1 x.2.2))
    ⟨fun h fc w hf => h (a, fc, w) hf rfl, fun h x hf ha => h x.2.1 x.2.2 (by rw [hf, ← ha])⟩

/-- Packet `i` of a run is `x`, and comes to the stream `a` from the side `fc`. -/
structure ComesTo (hash : Hash) (junk : StreamPtr → TcpStream) (ps : List Packet) (a : StreamPtr)
    (fc : Bool) (i : Nat) (x : Packet) : Prop where
  get : ps[i]? = some x
  comes : ∃ t es w, runTcp hash junk (ps.take i) = some (t, es) ∧
    t.target hash x = some (a, fc, w) ∧ Comes x fc w

/-- A FIN of the side `fc` has come. -/
def FinReceived (hash : Hash) (junk : StreamPtr → TcpStream) (ps : List Packet) (a : StreamPtr)
    (fc : Bool) : Prop :=
  ∃ i x, ComesTo hash junk ps a fc i x ∧ hasFlag x.ip TH_FIN

/-- A FIN of the side `fc` has come, and after it a packet with ACK of the other side. -/
def FinAcked (hash : Hash) (junk : StreamPtr → TcpStream) (ps : List Packet) (a : StreamPtr)
    (fc : Bool) : Prop :=
  ∃ i x j y, i < j ∧ ComesTo hash junk ps a fc i x ∧ hasFlag x.ip TH_FIN ∧
    ComesTo hash junk ps a (!fc) j y ∧ hasFlag y.ip TH_ACK

section

open TcpFragment

variable {hash : Hash} {junk : StreamPtr → TcpStream} {t t' : TcpFragment} {a : StreamPtr}
  {s : TcpStream} {p x : Packet} {es es' : List Event} {ps : List Packet} {fc : Bool} {i : Nat}
  {w w' : Work} {S : Bool → List Byte}

theorem ComesTo.lt (h : ComesTo hash junk ps a fc i x) : i < ps.length :=
  (List.getElem?_eq_some_iff.mp h.get).1

theorem ComesTo.concat (h : ComesTo hash junk ps a fc i x) (p : Packet) :
    ComesTo hash junk (ps ++ [p]) a fc i x := by
  have hlt := h.lt
  refine ⟨?_, ?_⟩
  · rw [List.getElem?_append_left hlt, h.get]
  · rw [List.take_append_of_le_length hlt.le]
    exact h.comes

/-- The last packet of a run. -/
theorem comesTo_last (hr : runTcp hash junk ps = some (t, es))
    (hf : t.target hash p = some (a, fc, w)) (hc : Comes p fc w) :
    ComesTo hash junk (ps ++ [p]) a fc ps.length p := by
  refine ⟨by simp, t, es, w, ?_, hf, hc⟩
  rw [List.take_left, hr]

theorem FinReceived.concat (h : FinReceived hash junk ps a fc) (p : Packet) :
    FinReceived hash junk (ps ++ [p]) a fc := by
  obtain ⟨i, x, hx, hfin⟩ := h
  exact ⟨i, x, hx.concat p, hfin⟩

theorem FinAcked.concat (h : FinAcked hash junk ps a fc) (p : Packet) :
    FinAcked hash junk (ps ++ [p]) a fc := by
  obtain ⟨i, x, j, y, hlt, hx, hfin, hy, hack⟩ := h
  exact ⟨i, x, j, y, hlt, hx.concat p, hfin, hy.concat p, hack⟩

/-- A packet with ACK acknowledges the FIN that has come from the other side. -/
theorem FinReceived.acked (h : FinReceived hash junk ps a (!fc))
    (hr : runTcp hash junk ps = some (t, es)) (hf : t.target hash p = some (a, fc, w))
    (hc : Comes p fc w) (hack : hasFlag p.ip TH_ACK) : FinAcked hash junk (ps ++ [p]) a (!fc) := by
  obtain ⟨i, x, hx, hfin⟩ := h
  refine ⟨i, x, ps.length, p, hx.lt, hx.concat p, hfin, ?_, hack⟩
  rw [Bool.not_not]
  exact comesTo_last hr hf hc

/-- The stream that a packet is for was there before the timers were looked at. -/
theorem TcpFragment.Inv.deref_target (hi : t.Inv hash) (hf : t.target hash p = some (a, fc, w)) :
    t.deref a = some w.stream ∧ w.callbacks = [] := by
  obtain ⟨D, t₁, es₁, hck, hc⟩ := hi.tcpChecktimeouts p.timeStamp
  simp only [target, hck, Option.bind_eq_bind, Option.bind_some, Option.bind_eq_some_iff] at hf
  obtain ⟨⟨b, fc₁⟩, -, s, hd, hw⟩ := hf
  split at hw
  · cases hw
    exact ⟨deref_of_without (hc.eq ▸ hd), rfl⟩
  · cases hw

/-- A stream as it is made. -/
theorem newStream_reads (S : Bool → List Byte) (F A : Bool → Prop) (junk : TcpStream) (d : List Byte)
    (ts : Int) : (newStream hash junk d ts).Reads S F A := by
  refine ⟨fun fc => ⟨0, ?_⟩, fun _ fc => ?_⟩
  · cases fc with
    | false => exact ⟨rfl, rfl, Nat.zero_le _, fun f hf => (by cases hf), fun hs => (by cases hs),
        fun hs => by cases hs⟩
    | true => exact ⟨rfl, rfl, Nat.zero_le _, fun f hf => (by cases hf), fun hs => (by cases hs),
        fun hs => by cases hs⟩
  · cases fc <;> rfl

/-- In every state of a run, both directions of the stream `a` are read. -/
theorem runTcp_reads (hS : ∀ fc, (S fc).length < window)
    (hsends : Along (processTcp hash junk) (OnData hash a (Sends S)) empty ps)
    (hmark : Along (processTcp hash junk) (OnData hash a (NotUrgent S)) empty ps)
    (hr : runTcp hash junk ps = some (t, es)) (hd : t.deref a = some s) :
    s.Reads S (FinReceived hash junk ps a) (FinAcked hash junk ps a) := by
  have hboth : Along (processTcp hash junk) (fun t p => OnData hash a (Sends S) t p ∧
      OnData hash a (NotUrgent S) t p) empty ps := fun is₁ i is₂ s₁ os₁ he hr =>
    ⟨hsends is₁ i is₂ s₁ os₁ he hr, hmark is₁ i is₂ s₁ os₁ he hr⟩
  refine run_induction_along (I := fun ps t _ => ∀ s, t.deref a = some s →
      s.Reads S (FinReceived hash junk ps a) (FinAcked hash junk ps a))
    (fun s hs => by cases hs) ?_ hr hboth s hd
  intro ps t es p t' es' hr ih hp hs s hd
  have hF (fc : Bool) (h : FinReceived hash junk ps a fc) := h.concat p
  have hA (fc : Bool) (h : FinAcked hash junk ps a fc) := h.concat p
  rcases (runTcp_inv hr).deref_processTcp hs hd with hd₀ | ⟨ha, rfl⟩ | ⟨fc, w, w', hf, hd₀, hk, rfl⟩
  · exact (ih s hd₀).mono hF hA
  · exact newStream_reads S _ _ _ _ _
  · obtain ⟨l, hl⟩ := runTcp_told hr a
    refine (ih w.stream hd₀).processStream hS (hl.live w.stream hd₀).2 hF hA
      (fun htake => ⟨hp.1 fc w hf htake, hp.2 fc w hf htake⟩)
      (fun hc hfin => ⟨ps.length, p, comesTo_last hr hf hc, hfin⟩) ?_ hk
    intro hc hack fc' hne hfin
    obtain rfl : fc' = !fc := Bool.eq_not.mpr hne
    exact hfin.acked hr hf hc hack

/-- Each side of the stream `a` sends bytes of a fixed string, without URG and with a FIN at their
end only, and nothing before the connection. If no byte is at an urgent pointer that was there
before, the close callback of an ACK comes when each FIN has been received and acknowledged, and
all bytes of both sides have been counted. -/
theorem close_after_data (hS : ∀ fc, (S fc).length < window)
    (hsends : Along (processTcp hash junk) (OnData hash a (Sends S)) empty ps)
    (hmark : Along (processTcp hash junk) (OnData hash a (NotUrgent S)) empty ps)
    (hr : runTcp hash junk ps = some (t, es)) (hf : t.target hash p = some (a, fc, w))
    (hk : processStream a p fc w = .free w') (hcb : .close ∈ w'.callbacks) :
    w'.stream.closed ∧ ∀ side, FinAcked hash junk (ps ++ [p]) a side ∧
      (w'.stream.rcv side).count.toInt = (S side).length := by
  obtain ⟨hd, hnil⟩ := (runTcp_inv hr).deref_target hf
  have hread := runTcp_reads hS hsends hmark hr hd
  obtain ⟨hclosed, hall⟩ := hread.close (fun side h => h.concat p)
    (fun hc hack side hne hfin => by
      obtain rfl : side = !fc := Bool.eq_not.mpr hne
      exact hfin.acked hr hf hc hack) hnil hk hcb
  refine ⟨hclosed, fun side => ⟨(hall side).2, ?_⟩⟩
  have hlt := hS side
  simp only [window] at hlt
  rw [(hall side).1, BitVec.toInt_eq_toNat_of_lt (by rw [BitVec.toNat_ofNat]; omega),
    BitVec.toNat_ofNat, Nat.mod_eq_of_lt (by omega)]

/-- What the two sides of `bothClose` send. -/
def hiBytes (fromClient : Bool) : List Byte := if fromClient then [0x68, 0x69] else []

/-- A handshake, two bytes and the FIN of the client, and the FIN of the server. -/
def bothClose : List Packet :=
  [dataPacket true 1 0 TH_SYN [], dataPacket false 7 2 (TH_SYN ||| TH_ACK) [],
    dataPacket true 2 8 TH_ACK [], dataPacket true 2 8 (TH_ACK ||| TH_FIN) [0x68, 0x69],
    dataPacket false 8 5 (TH_ACK ||| TH_FIN) []]

/-- The ACK that closes the connection. -/
def lastAck : Packet := dataPacket true 5 9 TH_ACK []

/-- The stream that the close callback of `lastAck` is invoked with, and its address. -/
def closedWith (junk : StreamPtr → TcpStream) : Option (StreamPtr × TcpStream) := do
  let (t, _) ← runTcp .plain junk bothClose
  let (a, fc, w) ← t.target .plain lastAck
  match processStream a lastAck fc w with
  | .free w' => if .close ∈ w'.callbacks then some (a, w'.stream) else none
  | _ => none

theorem close_after_data_bothClose : ∃ s, closedWith (fun _ => emptyStream) = some (0, s) ∧
    s.closed ∧ ∀ side, FinAcked .plain (fun _ => emptyStream) (bothClose ++ [lastAck]) 0 side ∧
      (s.rcv side).count.toInt = (hiBytes side).length := by
  have hcloses : (closedWith fun _ => emptyStream).map Prod.fst = some 0 := by decide +kernel
  obtain ⟨⟨a, s⟩, hs, rfl⟩ := Option.map_eq_some_iff.mp hcloses
  have hwith := hs
  simp only [closedWith, Option.bind_eq_bind, Option.bind_eq_some_iff] at hwith
  obtain ⟨⟨t, es⟩, hr, ⟨b, fc, w⟩, hf, hwith⟩ := hwith
  dsimp only at hf hwith
  split at hwith
  · rename_i w' hk
    split at hwith
    · rename_i hcb
      cases hwith
      exact ⟨_, hs, close_after_data (by decide) (by decide +kernel) (by decide +kernel) hr hf hk hcb⟩
    · cases hwith
  · cases hwith

/-- The memory of a new stream, with an urgent pointer of the past in it. -/
def markedStream : TcpStream := { emptyStream with server.urgSeen := true, server.urgPtr := 2 }

/-- In such memory, the same connection is closed before both bytes have been counted. -/
theorem close_marked :
    Along (processTcp .plain fun _ => markedStream) (OnData .plain 0 (Sends hiBytes)) empty bothClose ∧
      (closedWith fun _ => markedStream).any fun x => x.1 = 0 ∧ x.2.server.count = 1 := by
  decide +kernel

end

end Noff.Tcp
