import Noff.Tcp.Buffer
import Noff.Tcp.Handed

/-!
# Urgent data

A segment that starts at or before `EXP_SEQ` is taken by `addFromskb`. It is
handed over in one piece, or, if the byte that the urgent pointer names is new
in it, in three: what is in front of that byte, the byte, and what is behind it
(`addFromskb_hands`). For the second of these `notify` is given the segment as a
whole. So the new bytes are counted once, and handed over once only if there is
no urgent byte among them, or nothing else in the segment (`deliversOnce_iff`).
-/

namespace Noff.Tcp

open Serial

/-- The bytes of a segment that have been received before. -/
def lost (q : Flow) (seg : Segment) : Nat := (q.expSeq - seg.seq).toNat

/-- The urgent pointer of a segment, as a sequence number. -/
def Segment.urgPtr (seg : Segment) : BitVec 32 := seg.urp.setWidth 32 + seg.seq - 1

/-- The sequence number of the urgent byte: that of the segment if it is new, else one that was
announced before. -/
def urgentSeq (q : Flow) (seg : Segment) : Option (BitVec 32) :=
  if seg.urg ∧ after seg.urgPtr (q.expSeq - 1) ∧
      (!q.rcv.urgSeen ∨ after seg.urgPtr q.rcv.urgPtr) then some seg.urgPtr
  else if q.rcv.urgSeen then some q.rcv.urgPtr else none

/-- Where in the segment the urgent byte is, if it is one of its new bytes. -/
def urgentAt (q : Flow) (seg : Segment) : Option Nat :=
  ((urgentSeq q seg).map fun u => (u - seg.seq).toNat).filter fun i =>
    lost q seg ≤ i ∧ i < seg.data.length

/-- The bytes of a chunk, by their offsets in its segment. -/
def Chunk.offsets (c : Chunk) : List Nat := List.range' c.off.toNat c.len.toNat

/-- What the callbacks are handed from `q` to `q'`. -/
def newChunks (q q' : Flow) : List Chunk := q'.chunks.drop q.chunks.length

def handedOver (q q' : Flow) : List Nat := (newChunks q q').flatMap Chunk.offsets

/-- The flow with another account of the memory of `fraglist`. -/
def Flow.withRmemAlloc (q : Flow) (r : BitVec 32) : Flow := { q with rcv.rmemAlloc := r }

@[simp] theorem rmemAlloc_withRmemAlloc (q : Flow) (r : BitVec 32) :
    (q.withRmemAlloc r).rcv.rmemAlloc = r := rfl

@[simp] theorem expSeq_withRmemAlloc (q : Flow) (r : BitVec 32) :
    (q.withRmemAlloc r).expSeq = q.expSeq := rfl

section

variable (a : Owner) (ts : Int) (q : Flow) (seg : Segment)

/-- The call of `addFromskb` that `tcpQueue` makes for a packet's segment. -/
def deliver : Flow :=
  addFromskb a ts { q with tcpTimeoutSet := updateTcptimeout q.tcpTimeoutSet a.aTcp ts }
    seg.data seg.seq seg.fin seg.urg seg.urgPtr

/-- Every new byte of the segment is accounted for once. -/
structure DeliversOnce : Prop where
  /-- `EXP_SEQ` advances by the number of new bytes. -/
  advances : (deliver a ts q seg).rcv.count + (deliver a ts q seg).rcv.urgCount =
    q.rcv.count + q.rcv.urgCount + BitVec.ofNat 32 (seg.data.length - lost q seg)
  /-- What is handed over comes from the segment. -/
  chunks : q.chunks <+: (deliver a ts q seg).chunks ∧
    ∀ c ∈ newChunks q (deliver a ts q seg), c.data = seg.data ∧ 0 ≤ c.off ∧ 0 ≤ c.len
  /-- The new bytes but the urgent one are handed over once, in order, and no others. -/
  others : (handedOver q (deliver a ts q seg)).filter (fun i => some i ≠ urgentAt q seg) =
    (List.range' (lost q seg) (seg.data.length - lost q seg)).filter
      fun i => some i ≠ urgentAt q seg
  urgent : ∀ i, urgentAt q seg = some i → (handedOver q (deliver a ts q seg)).count i ≤ 1
  /-- The same happens if the segment comes from `fraglist`. -/
  fromFraglist : tcpQueue a ts q seg =
    drain a ts (q.withRmemAlloc (q.rcv.rmemAlloc + seg.skblen)) (seg.pakiet :: q.rcv.fraglist)

end

/-! ## Where the urgent byte is -/

/-- The comparisons of `addFromskb` place the urgent byte among the `n` bytes from `e` on. -/
theorem urgent_test (e u : BitVec 32) {n : Nat} (hn : n ≤ 65535) :
    (after (u + 1) e && before u (e + BitVec.ofNat 32 n)) = decide ((u - e).toNat < n) := by
  have hu : u = e + (u - e) := by rw [add_sub_cancel]
  generalize u - e = d at hu
  subst hu
  have h₁ : e - (e + d + 1) = -(d + 1) := by bv_omega
  have h₂ : e + d - (e + BitVec.ofNat 32 n) = d - BitVec.ofNat 32 n := by bv_omega
  have hone : (1 : BitVec 32).toNat = 1 := rfl
  have hnat : (BitVec.ofNat 32 n).toNat = n := by rw [BitVec.toNat_ofNat]; omega
  have hd := d.isLt
  rw [after, before, h₁, h₂, ← Bool.decide_and, decide_eq_decide, BitVec.toInt_eq_toNat_cond,
    BitVec.toInt_eq_toNat_cond, BitVec.toNat_neg, BitVec.toNat_add, BitVec.toNat_sub, hone, hnat]
  constructor
  · rintro ⟨h₁, h₂⟩
    split at h₁ <;> split at h₂ <;> omega
  · intro h
    split <;> split <;> omega

theorem noteUrgent_of_some {q : Flow} {seg : Segment} {u : BitVec 32}
    (h : urgentSeq q seg = some u) :
    noteUrgent q seg.urg seg.urgPtr = { q with rcv.urgPtr := u, rcv.urgSeen := true } := by
  simp only [urgentSeq] at h
  simp only [noteUrgent, Bool.and_eq_true, Bool.or_eq_true]
  split at h
  · rename_i hnew
    rw [if_pos ⟨⟨hnew.1, hnew.2.1⟩, hnew.2.2⟩, Option.some.inj h]
  · rename_i hold
    rw [if_neg fun hnew => hold ⟨hnew.1.1, hnew.1.2, hnew.2⟩]
    split at h
    · rename_i hseen
      rw [← Option.some.inj h, ← hseen]
    · cases h

theorem noteUrgent_of_none {q : Flow} {seg : Segment} (h : urgentSeq q seg = none) :
    noteUrgent q seg.urg seg.urgPtr = q ∧ q.rcv.urgSeen = false := by
  simp only [urgentSeq] at h
  simp only [noteUrgent, Bool.and_eq_true, Bool.or_eq_true]
  split at h
  · cases h
  · rename_i hold
    rw [if_neg fun hnew => hold ⟨hnew.1.1, hnew.1.2, hnew.2⟩]
    split at h
    · cases h
    · rename_i hseen
      exact ⟨rfl, Bool.not_eq_true _ ▸ hseen⟩

/-! ## What is handed over -/

/-- From `q` to `q'`, `n` bytes are counted, and those at `offs` in `data` handed over. -/
structure Flow.Hands (data : List Byte) (q q' : Flow) (n : Nat) (offs : List Nat) : Prop where
  total : q'.rcv.count + q'.rcv.urgCount = q.rcv.count + q.rcv.urgCount + BitVec.ofNat 32 n
  chunks : ∃ cs, q'.chunks = q.chunks ++ cs ∧
    (∀ c ∈ cs, c.data = data ∧ 0 ≤ c.off ∧ 0 ≤ c.len) ∧ cs.flatMap Chunk.offsets = offs

section

variable {a : Owner} {ts : Int} {q q' q'' : Flow} {data : List Byte} {n m : Nat}
  {offs offs' : List Nat}

theorem Flow.Hands.refl (data : List Byte) (q : Flow) : q.Hands data q 0 [] :=
  ⟨(BitVec.add_zero _).symm, [], (List.append_nil _).symm, by simp, rfl⟩

theorem Flow.Hands.trans (h : q.Hands data q' n offs) (h' : q'.Hands data q'' m offs') :
    q.Hands data q'' (n + m) (offs ++ offs') := by
  obtain ⟨cs, hcs, hdata, rfl⟩ := h.chunks
  obtain ⟨cs', hcs', hdata', rfl⟩ := h'.chunks
  refine ⟨?_, cs ++ cs', ?_, ?_, List.flatMap_append⟩
  · rw [h'.total, h.total, BitVec.ofNat_add, BitVec.add_assoc]
  · rw [hcs', hcs, List.append_assoc]
  · intro c hc
    exact (List.mem_append.mp hc).elim (hdata c) (hdata' c)

/-- A change of what is neither counted nor handed over. -/
theorem Flow.Hands.of_eq (h : q.Hands data q' n offs) (hcount : q''.rcv.count = q'.rcv.count)
    (hurg : q''.rcv.urgCount = q'.rcv.urgCount) (hc : q''.chunks = q'.chunks) :
    q.Hands data q'' n offs := by
  obtain ⟨htotal, hchunks⟩ := h
  refine ⟨?_, ?_⟩
  · rw [hcount, hurg, htotal]
  · rw [hc]
    exact hchunks

theorem Flow.Hands.handedOver (h : q.Hands data q' n offs) :
    handedOver q q' = offs ∧ q.chunks <+: q'.chunks ∧
      ∀ c ∈ newChunks q q', c.data = data ∧ 0 ≤ c.off ∧ 0 ≤ c.len := by
  obtain ⟨cs, hcs, hdata, rfl⟩ := h.chunks
  have hnew : newChunks q q' = cs := by rw [newChunks, hcs, List.drop_left]
  refine ⟨?_, ⟨cs, hcs.symm⟩, ?_⟩
  · rw [Tcp.handedOver, hnew]
  · rw [hnew]
    exact hdata

/-- A part of a segment, if there is one. -/
theorem hands_addPart (ha : a.isconnnection = true) (q : Flow) (data : List Byte) (off : Nat)
    (hn : n < 2 ^ 31) :
    q.Hands data (if 0 < (BitVec.ofNat 32 n).toInt then
      addPart a q data off (BitVec.ofNat 32 n) else q) n (List.range' off n) := by
  rw [toInt_ofNat_of_lt hn]
  split
  · refine ⟨?_, [⟨data, off, n⟩], ?_, ?_, ?_⟩
    · simp only [addPart, notify, ha, ite_true]
      split <;> exact add_right_comm ..
    · simp only [addPart, notify, ha, ite_true, toInt_ofNat_of_lt hn]
      split <;> rfl
    · intro c hc
      rw [List.mem_singleton.mp hc]
      exact ⟨rfl, Int.natCast_nonneg _, Int.natCast_nonneg _⟩
    · simp [Chunk.offsets]
  · rename_i hle
    obtain rfl : n = 0 := by omega
    exact .refl data q

theorem hands_takeUrgent (ha : a.isconnnection = true) (q : Flow) (data : List Byte)
    (seq : BitVec 32) : q.Hands data (takeUrgent a q data seq) 1 (List.range' 0 data.length) := by
  refine ⟨?_, [⟨data, 0, data.length⟩], ?_, ?_, ?_⟩
  · simp only [takeUrgent, notify, ha, ite_true]
    exact (add_assoc ..).symm
  · simp only [takeUrgent, notify, ha, ite_true]
  · intro c hc
    rw [List.mem_singleton.mp hc]
    exact ⟨rfl, le_refl _, Int.natCast_nonneg _⟩
  · simp [Chunk.offsets]

/-- The urgent byte, `d` new bytes into the segment: these, the whole segment, and what is behind
the byte. -/
theorem hands_addUrgent (ha : a.isconnnection = true) {seq : BitVec 32} {l d : Nat}
    (hl : data.length ≤ 65535) (hlt : l + d < data.length)
    (hptr : q.rcv.urgPtr = pos seq (l + d)) :
    q.Hands data (addUrgent a q data seq (BitVec.ofNat 32 l)) (data.length - l)
      (List.range' l d ++ (List.range' 0 data.length ++
        List.range' (l + d + 1) (data.length - (l + d + 1)))) := by
  have hcopy : pos seq (l + d) - (seq + BitVec.ofNat 32 l) = BitVec.ofNat 32 d := by
    have h := sub_eq seq (Nat.le_add_right l d)
    rwa [Nat.add_sub_cancel_left] at h
  have hcopy₂ : seq + lenVal data - pos seq (l + d) - 1 =
      BitVec.ofNat 32 (data.length - (l + d + 1)) := by
    have h := sub_eq seq (show l + d + 1 ≤ data.length from hlt)
    rw [← h, pos, pos, pos, lenVal, BitVec.ofNat_add (l + d) 1]
    abel
  have hoff : (l : Int) + (BitVec.ofNat 32 d).toInt + 1 = ((l + d + 1 : Nat) : Int) := by
    rw [toInt_ofNat_of_lt (by omega)]
    push_cast
    rfl
  have hoff₁ : ((BitVec.ofNat 32 l).toNat : Int) = l := by
    rw [BitVec.toNat_ofNat, Nat.mod_eq_of_lt (by omega)]
  have hsum : d + (1 + (data.length - (l + d + 1))) = data.length - l := by omega
  -- The three calls of `notify`.
  have h₁ := hands_addPart ha q data l (show d < 2 ^ 31 by omega)
  have hptr₁ : (if 0 < (BitVec.ofNat 32 d).toInt then
      addPart a q data l (BitVec.ofNat 32 d) else q).rcv.urgPtr = pos seq (l + d) := by
    split
    · rw [urgPtr_addPart, hptr]
    · exact hptr
  simp only [addUrgent, hptr, hcopy, hoff₁, hoff]
  generalize (if 0 < (BitVec.ofNat 32 d).toInt then
    addPart a q data l (BitVec.ofNat 32 d) else q) = q₁ at h₁ hptr₁ ⊢
  have h₂ := hands_takeUrgent ha q₁ data seq
  have hptr₂ : (takeUrgent a q₁ data seq).rcv.urgPtr = pos seq (l + d) := by
    rw [urgPtr_takeUrgent, hptr₁]
  rw [hptr₂, hcopy₂]
  have h₃ := hands_addPart ha (takeUrgent a q₁ data seq) data (l + d + 1)
    (show data.length - (l + d + 1) < 2 ^ 31 by omega)
  exact hsum ▸ h₁.trans (h₂.trans h₃)

/-- Without an urgent byte, the new bytes in one piece. -/
theorem hands_addPlain (ha : a.isconnnection = true) {l : Nat} (hl : data.length ≤ 65535)
    (hle : l ≤ data.length) :
    q.Hands data (addPlain a q data (BitVec.ofNat 32 l)) (data.length - l)
      (List.range' l (data.length - l)) := by
  have hnew : lenVal data - BitVec.ofNat 32 l = BitVec.ofNat 32 (data.length - l) := by
    have h := sub_eq 0#32 hle
    rwa [pos, pos, BitVec.zero_add, BitVec.zero_add] at h
  have hne : BitVec.ofNat 32 (data.length - l) ≠ 0 ↔
      0 < (BitVec.ofNat 32 (data.length - l)).toInt := by
    have hint := toInt_ofNat_of_lt (n := data.length - l) (by omega)
    constructor
    · intro h
      have hpos : (BitVec.ofNat 32 (data.length - l)).toInt ≠ 0 := fun h0 =>
        h (BitVec.eq_of_toInt_eq h0)
      omega
    · intro h h0
      rw [h0] at h
      exact absurd h (by decide)
  have hoff : ((BitVec.ofNat 32 l).toNat : Int) = l := by
    rw [BitVec.toNat_ofNat, Nat.mod_eq_of_lt (by omega)]
  rw [addPlain, hnew, hoff]
  simp only [hne]
  exact hands_addPart ha q data l (by omega)

theorem Flow.Hands.addFin (h : q.Hands data q' n offs) (fin : Bool) :
    q.Hands data (addFin a ts q' fin) n offs := by
  obtain ⟨hr, hc, -⟩ := addFin_rcv (q := q') a ts fin
  exact h.of_eq (by rw [hr]) (by rw [hr]) hc

/-- What the callbacks are handed of a segment. -/
def segmentOffsets (q : Flow) (seg : Segment) : List Nat :=
  match urgentAt q seg with
  | some i => List.range' (lost q seg) (i - lost q seg) ++
      (List.range' 0 seg.data.length ++ List.range' (i + 1) (seg.data.length - (i + 1)))
  | none => List.range' (lost q seg) (seg.data.length - lost q seg)

variable {seg : Segment}

/-- Where the urgent byte is follows from where it comes after `EXP_SEQ`. -/
theorem urgentAt_of_some {u : BitVec 32} (hu : urgentSeq q seg = some u)
    (h₁ : after seg.seq q.expSeq = false) (hl : seg.data.length ≤ 65535) :
    urgentAt q seg = if (u - q.expSeq).toNat < seg.data.length - lost q seg then
      some (lost q seg + (u - q.expSeq).toNat) else none := by
  obtain ⟨hof, hlt, he⟩ := exists_lost h₁
  have hsub : u - seg.seq = (u - q.expSeq) + (q.expSeq - seg.seq) := by abel
  have hd := (u - q.expSeq).isLt
  rw [urgentAt, hu, Option.map_some, Option.filter_some, hsub, BitVec.toNat_add, lost]
  split
  · rename_i hmem
    obtain ⟨hge, hlen⟩ := of_decide_eq_true hmem
    rw [if_pos (by omega)]
    congr 1
    omega
  · rename_i hmem
    rw [if_neg fun hnew => hmem (decide_eq_true ⟨by omega, by omega⟩)]

/-- `addFromskb` counts the new bytes of a segment, and hands them over in one piece or in three. -/
theorem addFromskb_hands (ha : a.isconnnection = true) (ts : Int) (hl : seg.data.length ≤ 65535)
    (hin : inOrder q seg = true) :
    q.Hands seg.data (addFromskb a ts q seg.data seg.seq seg.fin seg.urg seg.urgPtr)
      (seg.data.length - lost q seg) (segmentOffsets q seg) := by
  obtain ⟨h₁, h₂⟩ := Bool.and_eq_true .. ▸ hin
  have h₁ : after seg.seq q.expSeq = false := by simpa using h₁
  have hle : lost q seg ≤ seg.data.length := by
    have := lost_lt hl h₁ h₂
    have := Bool.toNat_le seg.fin
    rw [lost]
    omega
  obtain ⟨hof, hlt, he⟩ := exists_lost h₁
  have hend : seg.seq + lenVal seg.data =
      q.expSeq + BitVec.ofNat 32 (seg.data.length - lost q seg) := by
    conv_rhs => rw [he]
    rw [pos_add, ← lost, Nat.add_sub_cancel' hle]
    rfl
  have hstart : seg.seq + (q.expSeq - seg.seq) = q.expSeq := by abel
  simp only [addFromskb]
  refine Flow.Hands.addFin ?_ seg.fin
  rw [hstart, hend]
  cases hu : urgentSeq q seg with
  | none =>
    obtain ⟨hnote, hseen⟩ := noteUrgent_of_none hu
    have hat : urgentAt q seg = none := by rw [urgentAt, hu]; rfl
    rw [hnote, hseen, Bool.false_and, Bool.false_and, if_neg Bool.false_ne_true, segmentOffsets,
      hat, hof]
    exact hands_addPlain ha hl hle
  | some u =>
    rw [noteUrgent_of_some hu, Bool.true_and, urgent_test _ _ (by omega), segmentOffsets,
      urgentAt_of_some hu h₁ hl, hof]
    simp only [decide_eq_true_eq]
    have hq : q.Hands seg.data { q with rcv.urgPtr := u, rcv.urgSeen := true } 0 [] :=
      (Flow.Hands.refl seg.data q).of_eq rfl rfl rfl
    by_cases hd : (u - q.expSeq).toNat < seg.data.length - lost q seg
    · have hptr : u = pos seg.seq (lost q seg + (u - q.expSeq).toNat) := by
        rw [← pos_add, lost, ← he, BitVec.ofNat_toNat, BitVec.setWidth_eq]
        abel
      have hthree := hq.trans (hands_addUrgent ha hl (by omega) hptr)
      rw [Nat.zero_add, List.nil_append] at hthree
      simp only [if_pos hd, Nat.add_sub_cancel_left]
      exact hthree
    · have hone := hq.trans (hands_addPlain ha hl hle)
      rw [Nat.zero_add, List.nil_append] at hone
      simp only [if_neg hd]
      exact hone

end

/-! ## The same segment from `fraglist` -/

section

variable {a : Owner} {ts : Int} {q : Flow} {seg : Segment}

theorem withRmemAlloc_ite (c : Prop) [Decidable c] (q q' : Flow) (r : BitVec 32) :
    (if c then q else q').withRmemAlloc r =
      if c then q.withRmemAlloc r else q'.withRmemAlloc r := by
  split <;> rfl

theorem addPart_withRmemAlloc (q : Flow) (r : BitVec 32) (data : List Byte) (off : Int)
    (n : BitVec 32) :
    addPart a (q.withRmemAlloc r) data off n = (addPart a q data off n).withRmemAlloc r := by
  simp only [addPart, notify, Flow.withRmemAlloc]
  split <;> split <;> rfl

theorem takeUrgent_withRmemAlloc (q : Flow) (r : BitVec 32) (data : List Byte)
    (seq : BitVec 32) :
    takeUrgent a (q.withRmemAlloc r) data seq = (takeUrgent a q data seq).withRmemAlloc r := by
  simp only [takeUrgent, notify, Flow.withRmemAlloc]
  split <;> rfl

theorem addUrgent_withRmemAlloc (q : Flow) (r : BitVec 32) (data : List Byte)
    (seq lost : BitVec 32) : addUrgent a (q.withRmemAlloc r) data seq lost =
      (addUrgent a q data seq lost).withRmemAlloc r := by
  have hif (c : Prop) [Decidable c] (q : Flow) (off : Int) (n : BitVec 32) :
      (if c then addPart a (q.withRmemAlloc r) data off n else q.withRmemAlloc r) =
        (if c then addPart a q data off n else q).withRmemAlloc r := by
    rw [addPart_withRmemAlloc, withRmemAlloc_ite]
  simp only [addUrgent, hif, takeUrgent_withRmemAlloc]
  rfl

/-- `addFromskb` neither reads nor writes `rmem_alloc`. -/
theorem addFromskb_withRmemAlloc (q : Flow) (r : BitVec 32) (data : List Byte) (seq : BitVec 32)
    (fin urg : Bool) (urgPtr : BitVec 32) :
    addFromskb a ts (q.withRmemAlloc r) data seq fin urg urgPtr =
      (addFromskb a ts q data seq fin urg urgPtr).withRmemAlloc r := by
  have hnote : noteUrgent (q.withRmemAlloc r) urg urgPtr =
      (noteUrgent q urg urgPtr).withRmemAlloc r := by
    simp only [noteUrgent, withRmemAlloc_ite]
    rfl
  have hplain (q : Flow) (lost : BitVec 32) : addPlain a (q.withRmemAlloc r) data lost =
      (addPlain a q data lost).withRmemAlloc r := by
    simp only [addPlain, addPart_withRmemAlloc, withRmemAlloc_ite]
  have hfin (q : Flow) : addFin a ts (q.withRmemAlloc r) fin =
      (addFin a ts q fin).withRmemAlloc r := by
    simp only [addFin, withRmemAlloc_ite]
    rfl
  simp only [addFromskb, hnote, hplain, addUrgent_withRmemAlloc, expSeq_withRmemAlloc, ← hfin,
    withRmemAlloc_ite]
  rfl

theorem deliver_withRmemAlloc (q : Flow) (r : BitVec 32) (seg : Segment) :
    deliver a ts (q.withRmemAlloc r) seg = (deliver a ts q seg).withRmemAlloc r :=
  addFromskb_withRmemAlloc { q with tcpTimeoutSet := updateTcptimeout q.tcpTimeoutSet a.aTcp ts } r
    _ _ _ _ _

/-- A segment that comes from `fraglist` is delivered as it is when it comes in a packet. -/
theorem takeFrag_pakiet (hin : inOrder q seg = true) :
    takeFrag a ts q seg.pakiet =
      (deliver a ts q seg).withRmemAlloc (q.rcv.rmemAlloc - seg.skblen) := by
  obtain ⟨-, h₂⟩ := Bool.and_eq_true .. ▸ hin
  have h₂ : after (seg.pakiet.seq + lenVal seg.pakiet.data + flagVal seg.pakiet.fin) q.expSeq =
    true := h₂
  simp only [takeFrag, h₂, ite_true, rmemAlloc_addFromskb]
  rfl

/-- The segment with what follows it in `fraglist`. -/
theorem tcpQueue_eq_drain (hin : inOrder q seg = true) : tcpQueue a ts q seg =
    drain a ts (q.withRmemAlloc (q.rcv.rmemAlloc + seg.skblen))
      (seg.pakiet :: q.rcv.fraglist) := by
  obtain ⟨h₁, h₂⟩ := Bool.and_eq_true .. ▸ hin
  have h₀ : ¬ after seg.pakiet.seq
      (q.withRmemAlloc (q.rcv.rmemAlloc + seg.skblen)).expSeq = true := by
    rw [Bool.not_eq_true', ← Bool.not_eq_true] at h₁
    exact h₁
  have hrmem : (deliver a ts q seg).rcv.rmemAlloc = q.rcv.rmemAlloc := rmemAlloc_addFromskb ..
  have hfrags : (deliver a ts q seg).rcv.fraglist = q.rcv.fraglist := fraglist_addFromskb ..
  have hback : ((deliver a ts q seg).withRmemAlloc (q.rcv.rmemAlloc + seg.skblen)).withRmemAlloc
      (q.rcv.rmemAlloc + seg.skblen - seg.skblen) = deliver a ts q seg := by
    rw [BitVec.add_sub_cancel, ← hrmem]
    rfl
  have hin' : inOrder (q.withRmemAlloc (q.rcv.rmemAlloc + seg.skblen)) seg = true := hin
  rw [drain_cons, if_neg h₀, takeFrag_pakiet hin', deliver_withRmemAlloc]
  simp only [tcpQueue, h₁, h₂, ite_true]
  rw [rmemAlloc_withRmemAlloc, hback, ← hfrags]
  rfl

end

/-! ## Once -/

theorem filter_ne_range' {u n m : Nat} (h : ∀ i, n ≤ i → i < n + m → i ≠ u) :
    (List.range' n m).filter (fun i => some i ≠ some u) = List.range' n m := by
  refine List.filter_eq_self.mpr fun i hi => ?_
  obtain ⟨h₁, h₂⟩ := List.mem_range'_1.mp hi
  have hne : some i ≠ some u := fun he => h i h₁ h₂ (Option.some.inj he)
  exact decide_eq_true hne

/-- The numbers of a range but one of them. -/
theorem length_filter_range' {u n m : Nat} (h₁ : n ≤ u) (h₂ : u < n + m) :
    ((List.range' n m).filter fun i => some i ≠ some u).length = m - 1 := by
  have hsplit : List.range' n m =
      List.range' n (u - n) ++ (u :: List.range' (u + 1) (n + m - (u + 1))) := by
    rw [← List.range'_succ, show n + m - (u + 1) + 1 = n + m - u by omega]
    have h := List.range'_append_1 (s := n) (m := u - n) (n := n + m - u)
    rw [show n + (u - n) = u by omega] at h
    rw [h]
    congr 1
    omega
  rw [hsplit, List.filter_append, List.filter_cons_of_neg (by simp),
    filter_ne_range' (fun i _ _ => by omega), filter_ne_range' (fun i _ _ => by omega),
    List.length_append, List.length_range', List.length_range']
  omega

section

variable {a : Owner} {q : Flow} {seg : Segment}

theorem deliver_hands (ha : a.isconnnection = true) (ts : Int) (hl : seg.data.length ≤ 65535)
    (hin : inOrder q seg = true) :
    q.Hands seg.data (deliver a ts q seg) (seg.data.length - lost q seg)
      (segmentOffsets q seg) := by
  obtain ⟨htotal, hchunks⟩ := addFromskb_hands
    (q := { q with tcpTimeoutSet := updateTcptimeout q.tcpTimeoutSet a.aTcp ts }) ha ts hl hin
  exact ⟨htotal, hchunks⟩

theorem urgentAt_mem {i : Nat} (h : urgentAt q seg = some i) :
    lost q seg ≤ i ∧ i < seg.data.length := by
  rw [urgentAt, Option.filter_eq_some_iff] at h
  exact of_decide_eq_true h.2

/-- In three pieces, more than the new bytes are handed over unless the segment has one byte. -/
theorem segmentOffsets_eq_iff {i : Nat} (hi : urgentAt q seg = some i) :
    (segmentOffsets q seg).filter (fun j => some j ≠ some i) =
      (List.range' (lost q seg) (seg.data.length - lost q seg)).filter
        (fun j => some j ≠ some i) ↔ seg.data.length = 1 := by
  obtain ⟨h₁, h₂⟩ := urgentAt_mem hi
  have hoffs : segmentOffsets q seg = List.range' (lost q seg) (i - lost q seg) ++
      (List.range' 0 seg.data.length ++ List.range' (i + 1) (seg.data.length - (i + 1))) := by
    rw [segmentOffsets, hi]
  rw [hoffs]
  constructor
  · intro h
    have hlen := congrArg List.length h
    have hfront := filter_ne_range' (u := i) (n := lost q seg) (m := i - lost q seg)
      fun j _ _ => by omega
    have hback := filter_ne_range' (u := i) (n := i + 1) (m := seg.data.length - (i + 1))
      fun j _ _ => by omega
    rw [List.filter_append, List.filter_append, List.length_append, List.length_append, hfront,
      hback, length_filter_range' (Nat.zero_le i) (by omega), length_filter_range' h₁ (by omega),
      List.length_range', List.length_range'] at hlen
    omega
  · intro hone
    obtain ⟨hzero, hlost⟩ : i = 0 ∧ lost q seg = 0 := by omega
    rw [hone, hzero, hlost]
    rfl

/-- Urgent data is accounted for once exactly if no new byte of the segment is urgent, or the
segment has no other byte. -/
theorem deliversOnce_iff (ha : a.isconnnection = true) (ts : Int) (hl : seg.data.length ≤ 65535)
    (hin : inOrder q seg = true) :
    DeliversOnce a ts q seg ↔ urgentAt q seg = none ∨ seg.data.length = 1 := by
  have hands := deliver_hands ha ts hl hin
  obtain ⟨hover, hpre, hchunks⟩ := hands.handedOver
  constructor
  · intro h
    cases hi : urgentAt q seg with
    | none => exact .inl rfl
    | some i =>
      have hothers := h.others
      rw [hover, hi] at hothers
      exact .inr ((segmentOffsets_eq_iff hi).mp hothers)
  · intro h
    refine ⟨hands.total, ⟨hpre, hchunks⟩, ?_, ?_, tcpQueue_eq_drain hin⟩
    · rw [hover]
      cases hi : urgentAt q seg with
      | none => rw [segmentOffsets, hi]
      | some i =>
        have hone := h.resolve_left fun hnone => by rw [hi] at hnone; cases hnone
        exact (segmentOffsets_eq_iff hi).mpr hone
    · intro i hi
      have hone := h.resolve_left fun hnone => by rw [hi] at hnone; cases hnone
      obtain ⟨h₁, h₂⟩ := urgentAt_mem hi
      obtain ⟨rfl, hlost⟩ : i = 0 ∧ lost q seg = 0 := by omega
      rw [hover, segmentOffsets, hi, hone, hlost]
      decide

/-- A flow in which nothing has been received. -/
def idleFlow : Flow := ⟨emptyHalf, emptyHalf, ∅, ∅, []⟩

/-- An urgent byte alone. -/
theorem deliversOnce_urgentByte :
    let seg : Segment := ⟨0, false, true, 1, [7], 0⟩
    urgentAt idleFlow seg = some 0 ∧ DeliversOnce ⟨0, true⟩ 0 idleFlow seg :=
  ⟨by decide, (deliversOnce_iff rfl 0 (by decide) (by decide)).mpr (.inr rfl)⟩

/-- Two bytes, the first of them urgent: the second is handed over twice. -/
theorem urgentPair_twice :
    let seg : Segment := ⟨0, false, true, 1, [7, 8], 0⟩
    inOrder idleFlow seg = true ∧
      handedOver idleFlow (deliver ⟨0, true⟩ 0 idleFlow seg) = [0, 1, 1] ∧
      ¬ DeliversOnce ⟨0, true⟩ 0 idleFlow seg := by
  refine ⟨by decide, by decide, fun h => ?_⟩
  exact absurd h.others (by decide)

end

end Noff.Tcp
