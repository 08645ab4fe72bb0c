import Noff.Lib.Reassembly
import Noff.Tcp.Queue

/-!
# In-order delivery of a stream

One direction of a connected stream, without urgent data: the sender sends a
byte string `S`, cut into segments in any way (`Arrival`). `tcpQueue` acts as
`Buffer.receive` on their ranges (`tcpQueue_holds`), so that whatever order they
arrive in, and however they overlap, the bytes passed to the data callbacks
are the longest prefix of `S` that the segments cover (`tcpQueue_delivers`).

The arithmetic is that of serial numbers: `EXP_SEQ` is `pos base n` for `n` bytes
delivered, and a segment is compared with it while its offset is less than
`window` from `n`.
-/

namespace Noff.Tcp

open Reassembly Serial

/-- The bytes of `S` at the positions of `r`. -/
def slice (S : List Byte) (r : Range) : List Byte := (S.drop r.off).take r.len

theorem length_slice {S : List Byte} {r : Range} (h : r.stop ≤ S.length) :
    (slice S r).length = r.len := by
  rw [slice, List.length_take, List.length_drop]
  simp only [Range.stop] at h
  omega

/-- How far from the bytes delivered a segment may start. -/
def window : Nat := 2 ^ 31 - 2 ^ 16

/-- A call of `tcpQueue` for a segment that carries the positions `range` of the
sender's bytes. -/
structure Arrival where
  range : Range
  fin : Bool
  urp : BitVec 16
  skblen : BitVec 32
  timeStamp : Int

/-- The segment, for a sender whose first byte has sequence number `base`. -/
def Arrival.segment (S : List Byte) (base : BitVec 32) (x : Arrival) : Segment :=
  { seq := pos base x.range.off, fin := x.fin, urg := false, urp := x.urp,
    data := slice S x.range, skblen := x.skblen }

/-- A segment of `S`: at most 65535 of its bytes, and a FIN only at its end. -/
structure Arrival.Sent (S : List Byte) (x : Arrival) : Prop where
  stop : x.range.stop ≤ S.length
  len : x.range.len ≤ 65535
  fin : x.fin = true → x.range.stop = S.length

/-- The segment starts less than `window` from the `n` bytes delivered so far. -/
def Arrival.Near (n : Nat) (x : Arrival) : Prop :=
  x.range.off < n + window ∧ n < x.range.off + window

/-- The bytes given to the data callbacks. -/
def delivered (q : Flow) : List Byte := q.chunks.flatMap Chunk.bytes

/-- `rcv` has delivered the first `n` bytes of `S`, none of them urgent. -/
structure Delivered (S : List Byte) (base : BitVec 32) (q : Flow) (n : Nat) : Prop where
  first : q.snd.firstDataSeq = base
  count : q.rcv.count = BitVec.ofNat 32 n
  urgCount : q.rcv.urgCount = 0
  urgSeen : q.rcv.urgSeen = false
  countNewUrg : q.rcv.countNewUrg = false
  le : n ≤ S.length
  bytes : delivered q = S.take n

variable {S : List Byte} {base : BitVec 32} {q : Flow} {n : Nat}

theorem Delivered.expSeq (h : Delivered S base q n) : q.expSeq = pos base n := by
  simp only [Flow.expSeq, h.first, h.count, h.urgCount, pos, add_zero]

/-! ## `addFromskb` -/

theorem buffer_notify (a : Owner) (q : Flow) (data : List Byte) (off len : Int) :
    (notify a q data off len).rcv.buffer = q.rcv.buffer := by
  simp only [notify]
  repeat' split
  all_goals rfl

theorem buffer_addPart (a : Owner) (q : Flow) (data : List Byte) (off : Int) (n : BitVec 32) :
    (addPart a q data off n).rcv.buffer = q.rcv.buffer := buffer_notify ..

theorem buffer_takeUrgent (a : Owner) (q : Flow) (data : List Byte) (thisSeq : BitVec 32) :
    (takeUrgent a q data thisSeq).rcv.buffer = q.rcv.buffer := buffer_notify a _ data 0 data.length

/-- `addFromskb` leaves what waits in `rcv` alone. -/
theorem buffer_addFromskb (a : Owner) (ts : Int) (q : Flow) (data : List Byte)
    (thisSeq : BitVec 32) (fin urg : Bool) (urgPtr : BitVec 32) :
    (addFromskb a ts q data thisSeq fin urg urgPtr).rcv.buffer = q.rcv.buffer := by
  have hn : (noteUrgent q urg urgPtr).rcv.buffer = q.rcv.buffer := by
    rw [noteUrgent]; split <;> rfl
  have hu (q : Flow) (lost) : (addUrgent a q data thisSeq lost).rcv.buffer = q.rcv.buffer := by
    simp only [addUrgent]
    split <;> split <;> simp only [buffer_addPart, buffer_takeUrgent]
  have hp (q : Flow) (lost) : (addPlain a q data lost).rcv.buffer = q.rcv.buffer := by
    simp only [addPlain]
    split
    · exact buffer_addPart ..
    · rfl
  have hf (q : Flow) : (addFin a ts q fin).rcv.buffer = q.rcv.buffer := by
    simp only [addFin]
    repeat' split
    all_goals rfl
  simp only [addFromskb, hf]
  split <;> simp only [hu, hp, hn]

theorem rmemAlloc_addFromskb (a : Owner) (ts : Int) (q : Flow) (data : List Byte)
    (thisSeq : BitVec 32) (fin urg : Bool) (urgPtr : BitVec 32) :
    (addFromskb a ts q data thisSeq fin urg urgPtr).rcv.rmemAlloc = q.rcv.rmemAlloc :=
  congrArg Prod.fst (buffer_addFromskb ..)

/-- A segment from beyond `EXP_SEQ` is put among those that wait. -/
theorem buffer_enqueue (a : Owner) (ts : Int) (q : Flow) (seg : Segment) :
    (enqueue a ts q seg).rcv.buffer =
      (q.rcv.rmemAlloc + seg.skblen, insertFrag seg.pakiet q.rcv.fraglist) := by
  simp only [enqueue]
  split
  · split <;> rfl
  · rfl

theorem fraglist_addFromskb (a : Owner) (ts : Int) (q : Flow) (data : List Byte)
    (thisSeq : BitVec 32) (fin urg : Bool) (urgPtr : BitVec 32) :
    (addFromskb a ts q data thisSeq fin urg urgPtr).rcv.fraglist = q.rcv.fraglist :=
  congrArg Prod.snd (buffer_addFromskb ..)

/-- `addPlain` on a segment that reaches from at or before the `n` bytes delivered
to at or beyond them: the bytes beyond are delivered. -/
theorem Delivered.addPlain (h : Delivered S base q n) {a : Owner} (ha : a.isconnnection = true)
    {r : Range} (h₁ : r.off ≤ n) (h₂ : n ≤ r.stop) (hS : r.stop ≤ S.length) (hl : r.len ≤ 65535) :
    Delivered S base (addPlain a q (slice S r) (BitVec.ofNat 32 (n - r.off))) r.stop := by
  simp only [Range.stop] at h₂ hS ⊢
  have hnew : lenVal (slice S r) - BitVec.ofNat 32 (n - r.off) =
      BitVec.ofNat 32 (r.off + r.len - n) := by
    rw [lenVal, length_slice hS, show r.len = (r.off + r.len - n) + (n - r.off) by omega,
      BitVec.ofNat_add, show r.off + (r.off + r.len - n + (n - r.off)) - n = r.off + r.len - n by omega,
      BitVec.add_sub_cancel]
  have hlt : r.off + r.len - n < 2 ^ 31 := by omega
  have hnat : (BitVec.ofNat 32 (r.off + r.len - n)).toNat = r.off + r.len - n := by
    rw [BitVec.toNat_ofNat, Nat.mod_eq_of_lt (by omega)]
  have hlost : (BitVec.ofNat 32 (n - r.off)).toNat = n - r.off := by
    rw [BitVec.toNat_ofNat, Nat.mod_eq_of_lt (by omega)]
  have hint : (BitVec.ofNat 32 (r.off + r.len - n)).toInt = ((r.off + r.len - n : Nat) : Int) := by
    rw [BitVec.toInt_eq_toNat_of_lt (by omega), hnat]
  simp only [Tcp.addPlain, hnew]
  split
  · simp only [addPart, notify, ha, ite_true, h.countNewUrg, Bool.false_eq_true, ite_false, hint, hlost]
    refine ⟨h.first, ?_, h.urgCount, h.urgSeen, rfl, hS, ?_⟩
    · simp only [h.count, ← BitVec.ofNat_add]
      congr 1; omega
    · -- The new chunk continues the prefix delivered so far.
      have hc : Chunk.bytes ⟨slice S r, ((n - r.off : Nat) : Int), ((r.off + r.len - n : Nat) : Int)⟩ =
          (S.drop n).take (r.off + r.len - n) := by
        simp only [Chunk.bytes, slice, Int.toNat_natCast, List.drop_take, List.drop_drop,
          List.take_take]
        rw [show r.off + (n - r.off) = n by omega, Nat.min_eq_left (by omega)]
      have hb : delivered q = S.take n := h.bytes
      simp only [delivered, List.flatMap_append, List.flatMap_cons, List.flatMap_nil,
        List.append_nil] at hb ⊢
      rw [hb, hc, ← List.take_add, show n + (r.off + r.len - n) = r.off + r.len by omega]
  · rename_i h0
    have h0 : (BitVec.ofNat 32 (r.off + r.len - n)).toNat = 0 := by
      rw [Classical.not_not.mp h0]; rfl
    rwa [show r.off + r.len = n by omega]

theorem Delivered.addFin (h : Delivered S base q n) (a : Owner) (ts : Int) (fin : Bool) :
    Delivered S base (addFin a ts q fin) n := by
  simp only [Tcp.addFin]
  repeat' split
  all_goals exact ⟨h.first, h.count, h.urgCount, h.urgSeen, h.countNewUrg, h.le, h.bytes⟩

theorem Delivered.addFromskb (h : Delivered S base q n) {a : Owner} (ha : a.isconnnection = true)
    {r : Range} (h₁ : r.off ≤ n) (h₂ : n ≤ r.stop) (hS : r.stop ≤ S.length) (hl : r.len ≤ 65535)
    (ts : Int) (fin : Bool) (urgPtr : BitVec 32) :
    Delivered S base (addFromskb a ts q (slice S r) (pos base r.off) fin false urgPtr) r.stop := by
  simp only [Tcp.addFromskb, noteUrgent, Bool.false_and, Bool.false_eq_true, ite_false, h.urgSeen,
    h.expSeq, sub_eq base h₁]
  exact (h.addPlain ha h₁ h₂ hS hl).addFin a ts fin

/-! ## The drain loop -/

/-- A segment kept in `rcv->fraglist` for the positions `r` of `S`. -/
structure IsFrag (S : List Byte) (base : BitVec 32) (f : Skbuff) (r : Range) : Prop where
  seq : f.seq = pos base r.off
  data : f.data = slice S r
  stop : r.stop ≤ S.length
  len : r.len ≤ 65535
  urg : f.urg = false

variable (base) in
/-- Whether a segment reaches beyond the bytes delivered, as the code tells it
(a FIN counts as one more byte). -/
theorem after_end {r : Range} (hS : r.stop ≤ S.length) (hl : r.len ≤ 65535) (fin : Bool)
    (h₁ : r.off ≤ n) (h₂ : n < r.off + window) :
    after (pos base r.off + lenVal (slice S r) + flagVal fin) (pos base n) =
      decide (n < r.stop + fin.toNat) := by
  have := Bool.toNat_le fin
  rw [lenVal, flagVal, length_slice hS, pos_add, pos_add, Range.stop]
  exact after_pos base (by simp only [window] at h₂; omega) (by omega)

theorem drain_delivered {a : Owner} (ha : a.isconnnection = true) (ts : Int) {frags : List Skbuff}
    {rs : List Range} (hf : List.Forall₂ (IsFrag S base) frags rs) (hs : Sorted rs)
    (h : Delivered S base q n) (hn : ∀ r ∈ rs, n ≤ r.off + 65535 ∧ r.off < n + window) :
    Delivered S base (drain a ts q frags) (absorb n rs).done ∧
      List.Forall₂ (IsFrag S base) (drain a ts q frags).rcv.fraglist (absorb n rs).pending := by
  induction hf generalizing q n with
  | nil =>
    exact ⟨⟨h.first, h.count, h.urgCount, h.urgSeen, h.countNewUrg, h.le, h.bytes⟩, .nil⟩
  | @cons f r frags rs hfr hrest ih =>
    obtain ⟨hrs, hs'⟩ := List.pairwise_cons.mp hs
    obtain ⟨hn₁, hn₂⟩ := hn r (List.mem_cons_self ..)
    have hw : window = 2 ^ 31 - 2 ^ 16 := rfl
    have hcmp : after f.seq q.expSeq = decide (n < r.off) := by
      rw [hfr.seq, h.expSeq]; exact after_pos base (by omega) (by omega)
    simp only [drain, absorb, hcmp, decide_eq_true_eq]
    by_cases hlt : n < r.off
    · simp only [hlt, ite_true]
      exact ⟨⟨h.first, h.count, h.urgCount, h.urgSeen, h.countNewUrg, h.le, h.bytes⟩,
        .cons hfr hrest⟩
    · simp only [hlt, ite_false]
      have hend := after_end base (n := n) hfr.stop hfr.len f.fin (by omega) (by omega)
      rw [hfr.seq, hfr.data, h.expSeq, hfr.urg, hend]
      -- The rest starts no earlier than `r`, so what `r` delivers does not run far ahead of it.
      have hn' : ∀ x ∈ rs, max n r.stop ≤ x.off + 65535 ∧ x.off < max n r.stop + window := by
        intro x hx
        have h₁ := hn x (List.mem_cons_of_mem _ hx)
        have h₂ := hrs x hx
        have h₃ := hfr.len
        simp only [Range.stop]
        omega
      have hfin := Bool.toNat_le f.fin
      refine ih hs' ?_ hn'
      by_cases hgt : n < r.stop + f.fin.toNat
      · simp only [hgt, decide_true, ite_true, max_eq_right (show n ≤ r.stop by omega)]
        have h' : Delivered S base
            { q with tcpTimeoutSet := updateTcptimeout q.tcpTimeoutSet a.aTcp ts } n :=
          ⟨h.first, h.count, h.urgCount, h.urgSeen, h.countNewUrg, h.le, h.bytes⟩
        have := h'.addFromskb ha (by omega) (by omega) hfr.stop hfr.len ts f.fin
          (f.urgPtr + pos base r.off - 1)
        exact ⟨this.first, this.count, this.urgCount, this.urgSeen, this.countNewUrg, this.le,
          this.bytes⟩
      · simp only [hgt, decide_false, Bool.false_eq_true, ite_false,
          max_eq_left (show r.stop ≤ n by omega)]
        exact ⟨h.first, h.count, h.urgCount, h.urgSeen, h.countNewUrg, h.le, h.bytes⟩

/-! ## `tcpQueue` -/

/-- A flow and the buffer it stands for. -/
structure Holds (S : List Byte) (base : BitVec 32) (q : Flow) (b : Buffer) : Prop where
  delivered : Delivered S base q b.done
  frags : List.Forall₂ (IsFrag S base) q.rcv.fraglist b.pending
  near : ∀ r ∈ b.pending, r.off < b.done + window

theorem insertFrag_place {f : Skbuff} {r : Range} {frags : List Skbuff} {rs : List Range}
    (hf : List.Forall₂ (IsFrag S base) frags rs) (hfr : IsFrag S base f r)
    (hn : ∀ x ∈ rs, x.off < r.off + 2 ^ 31 ∧ r.off < x.off + 2 ^ 31) :
    List.Forall₂ (IsFrag S base) (insertFrag f frags) (place r rs) := by
  induction hf with
  | nil => exact .cons hfr .nil
  | @cons g x frags rs hg hrest ih =>
    obtain ⟨h₁, h₂⟩ := hn x (List.mem_cons_self ..)
    have hcmp : after g.seq f.seq = decide (r.off < x.off) := by
      rw [hg.seq, hfr.seq]; exact after_pos base (by omega) (by omega)
    simp only [insertFrag, place, hcmp, decide_eq_true_eq]
    split
    · exact .cons hfr (.cons hg hrest)
    · exact .cons hg (ih fun y hy => hn y (List.mem_cons_of_mem _ hy))

theorem enqueue_holds {a : Owner} {ts : Int} {b : Buffer} (h : Holds S base q b)
    (ha : ∀ r ∈ b.pending, b.done < r.off) {x : Arrival} (hx : x.Sent S)
    (hlt : b.done < x.range.off) (hnear : x.range.off < b.done + window) :
    Holds S base (enqueue a ts q (x.segment S base)) ⟨b.done, place x.range b.pending⟩ := by
  have hw : window = 2 ^ 31 - 2 ^ 16 := rfl
  have hd := h.delivered
  have hfr : IsFrag S base (x.segment S base).pakiet x.range := ⟨rfl, rfl, hx.stop, hx.len, rfl⟩
  have hins := insertFrag_place h.frags hfr fun y hy => by
    have h₁ := h.near y hy
    have h₂ := ha y hy
    omega
  have hnear' : ∀ r ∈ place x.range b.pending, r.off < b.done + window := fun r hr => by
    rcases mem_place.mp hr with rfl | hr
    · exact hnear
    · exact h.near r hr
  simp only [enqueue]
  repeat' split
  all_goals exact ⟨⟨hd.first, hd.count, hd.urgCount, hd.urgSeen, hd.countNewUrg, hd.le, hd.bytes⟩,
    hins, hnear'⟩

/-- `tcpQueue` receives the range of its segment. -/
theorem tcpQueue_holds {a : Owner} (ha : a.isconnnection = true) {ts : Int} {b : Buffer}
    {rcvd : List Range} (h : Holds S base q b) (hb : b.Inv rcvd) {x : Arrival} (hx : x.Sent S)
    (hn : x.Near b.done) :
    Holds S base (tcpQueue a ts q (x.segment S base)) (b.receive x.range) := by
  have hw : window = 2 ^ 31 - 2 ^ 16 := rfl
  obtain ⟨hn₁, hn₂⟩ := hn
  have hd := h.delivered
  have hfin := Bool.toNat_le x.fin
  have hcmp : after (pos base x.range.off) q.expSeq = decide (b.done < x.range.off) := by
    rw [hd.expSeq]; exact after_pos base (by omega) (by omega)
  simp only [tcpQueue, Buffer.receive, Arrival.segment, hcmp, Bool.not_eq_true',
    decide_eq_false_iff_not, Nat.not_lt]
  by_cases hle : x.range.off ≤ b.done
  · have hend := after_end base (n := b.done) hx.stop hx.len x.fin hle hn₂
    simp only [hle, ite_true, hd.expSeq, hend, decide_eq_true_eq]
    by_cases hgt : b.done < x.range.stop + x.fin.toNat
    · -- New data: it is delivered, and what it makes visible after it.
      simp only [hgt, ite_true, max_eq_right (show b.done ≤ x.range.stop by omega)]
      have hd' : Delivered S base
          { q with tcpTimeoutSet := updateTcptimeout q.tcpTimeoutSet a.aTcp ts } b.done :=
        ⟨hd.first, hd.count, hd.urgCount, hd.urgSeen, hd.countNewUrg, hd.le, hd.bytes⟩
      have hadd := hd'.addFromskb ha hle (by omega) hx.stop hx.len ts x.fin
        (x.urp.setWidth 32 + pos base x.range.off - 1)
      rw [fraglist_addFromskb]
      have hl := hx.len
      obtain ⟨h₁, h₂⟩ := drain_delivered ha ts h.frags hb.sorted hadd fun r hr => by
        have h₁ := hb.ahead r hr
        have h₂ := h.near r hr
        simp only [Range.stop] at hgt ⊢
        omega
      refine ⟨h₁, h₂, fun r hr => ?_⟩
      have h₃ := h.near r (absorb_mem hr)
      have h₄ := le_absorb_done b.pending x.range.stop
      omega
    · -- A retransmission of what has been delivered.
      simp only [hgt, ite_false, max_eq_left (show x.range.stop ≤ b.done by omega),
        absorb_of_ahead hb.ahead]
      exact h
  · simp only [hle, ite_false]
    exact enqueue_holds h hb.ahead hx (Nat.not_le.mp hle) hn₁

/-- Every segment kept stands for one of the pending ranges. -/
theorem Holds.exists_range {b : Buffer} (h : Holds S base q b) {f : Skbuff}
    (hf : f ∈ q.rcv.fraglist) : ∃ r ∈ b.pending, IsFrag S base f r := by
  have := h.frags
  generalize q.rcv.fraglist = frags at this hf
  generalize b.pending = rs at this
  induction this with
  | nil => simp at hf
  | cons hfr _ ih =>
    rcases List.mem_cons.mp hf with rfl | hf
    · exact ⟨_, List.mem_cons_self .., hfr⟩
    · obtain ⟨r, hr, h⟩ := ih hf
      exact ⟨r, List.mem_cons_of_mem _ hr, h⟩

/-! ## Any sequence of calls -/

/-- The flow after calls of `tcpQueue` for the segments `xs`. -/
def receiveAll (a : Owner) (S : List Byte) (base : BitVec 32) (q : Flow) (xs : List Arrival) : Flow :=
  xs.foldl (fun q x => tcpQueue a x.timeStamp q (x.segment S base)) q

/-- A direction in which nothing has been received yet. -/
structure Fresh (base : BitVec 32) (q : Flow) : Prop where
  first : q.snd.firstDataSeq = base
  count : q.rcv.count = 0
  urgCount : q.rcv.urgCount = 0
  urgSeen : q.rcv.urgSeen = false
  countNewUrg : q.rcv.countNewUrg = false
  fraglist : q.rcv.fraglist = []
  chunks : q.chunks = []

theorem Fresh.holds (h : Fresh base q) : Holds S base q ⟨0, []⟩ :=
  ⟨⟨h.first, h.count, h.urgCount, h.urgSeen, h.countNewUrg, Nat.zero_le _, by
    simp [delivered, h.chunks]⟩, by rw [h.fraglist]; exact .nil, by simp⟩

/-- The segments arrive one after the other, each near the bytes delivered when it does. -/
inductive Arrivals (a : Owner) (S : List Byte) (base : BitVec 32) : Flow → List Arrival → Prop where
  | nil (q : Flow) : Arrivals a S base q []
  | cons {q : Flow} {x : Arrival} {xs : List Arrival} :
      x.Sent S → x.Near (delivered q).length →
      Arrivals a S base (tcpQueue a x.timeStamp q (x.segment S base)) xs →
      Arrivals a S base q (x :: xs)

theorem receiveAll_holds {a : Owner} (ha : a.isconnnection = true) {xs : List Arrival}
    (hxs : Arrivals a S base q xs) {b : Buffer} {rcvd : List Range} (h : Holds S base q b)
    (hi : b.Inv rcvd) :
    ∃ b' : Buffer, Holds S base (receiveAll a S base q xs) b' ∧
      b'.Inv (rcvd ++ xs.map (·.range)) := by
  induction hxs generalizing b rcvd with
  | nil => exact ⟨b, h, by simpa using hi⟩
  | @cons q x xs hsent hnear _ ih =>
    rw [h.delivered.bytes, List.length_take, Nat.min_eq_left h.delivered.le] at hnear
    obtain ⟨b', h', hi'⟩ := ih (tcpQueue_holds ha h hi hsent hnear) (hi.receive x.range)
    exact ⟨b', h', by simpa using hi'⟩

/-- After any sequence of calls the bytes delivered are the longest prefix of
`S` that the segments received so far cover, `count` is its length, and what is
left in `fraglist` starts beyond it. -/
theorem tcpQueue_delivers (aTcp : StreamPtr) (S : List Byte) (base : BitVec 32) (q : Flow)
    (h₀ : Fresh base q) (xs : List Arrival) (hxs : Arrivals ⟨aTcp, true⟩ S base q xs) :
    let q' := receiveAll ⟨aTcp, true⟩ S base q xs
    let n := coveredLen (xs.map (·.range))
    delivered q' = S.take n ∧ n ≤ S.length ∧ q'.rcv.count = BitVec.ofNat 32 n ∧
      ∀ frag ∈ q'.rcv.fraglist, after frag.seq q'.expSeq = true := by
  obtain ⟨b, hb, hi⟩ := receiveAll_holds (a := ⟨aTcp, true⟩) rfl hxs h₀.holds Buffer.inv_empty
  have hd := hb.delivered
  rw [List.nil_append] at hi
  simp only [hi.coveredLen]
  refine ⟨hd.bytes, hd.le, hd.count, fun frag hfrag => ?_⟩
  have hw : window = 2 ^ 31 - 2 ^ 16 := rfl
  obtain ⟨r, hr, hf⟩ := hb.exists_range hfrag
  have h₁ := hi.ahead r hr
  have h₂ := hb.near r hr
  rw [hf.seq, hd.expSeq, after_pos base (by omega) (by omega)]
  exact decide_eq_true h₁

/-- The second half of a stream of six bytes first, with its FIN, then the first
four; the sequence numbers wrap around in between. -/
theorem tcpQueue_delivers_six :
    delivered (receiveAll ⟨0, true⟩ [1, 2, 3, 4, 5, 6] 0xfffffffe
      ⟨{ emptyHalf with firstDataSeq := 0xfffffffe }, emptyHalf, ∅, ∅, []⟩
      [⟨⟨3, 3⟩, true, 0, 0, 0⟩, ⟨⟨0, 4⟩, false, 0, 0, 1⟩]) = [1, 2, 3, 4, 5, 6] := by
  have h := tcpQueue_delivers 0 [1, 2, 3, 4, 5, 6] 0xfffffffe
    ⟨{ emptyHalf with firstDataSeq := 0xfffffffe }, emptyHalf, ∅, ∅, []⟩
    ⟨rfl, rfl, rfl, rfl, rfl, rfl, rfl⟩ [⟨⟨3, 3⟩, true, 0, 0, 0⟩, ⟨⟨0, 4⟩, false, 0, 0, 1⟩]
    (.cons ⟨by decide, by decide, by decide⟩ ⟨by decide, by decide⟩
      (.cons ⟨by decide, by decide, by decide⟩ ⟨by decide, by decide⟩ (.nil _)))
  have hn : coveredLen ([⟨⟨3, 3⟩, true, 0, 0, 0⟩, ⟨⟨0, 4⟩, false, 0, 0, 1⟩].map Arrival.range) = 6 :=
    coveredLen_eq_iff.mpr ⟨by decide, by decide⟩
  exact h.1.trans (by rw [hn]; rfl)

end Noff.Tcp
