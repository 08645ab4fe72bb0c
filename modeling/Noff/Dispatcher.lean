import Noff.Ip.Datagram
import Noff.Lib.Run
import Noff.Sharding

/-!
# `Dispatcher.cc`

Each captured packet goes into the queue of one worker. As long as no queue is
full, a worker takes the packets with its index, in order (`dispatch_fifo`). The
index is the same for the fragments of a datagram if they all have bytes behind
their header that look like its ports (`fragments_oneWorker_iff`).
-/

namespace Noff

/-- A closure that runs `startIpfragProc` on a copy of a packet. -/
structure Task where
  ip : List Byte
  timeStamp : Int

structure Dispatcher (nWorkers : Nat) where
  shard : Sharding
  maxQueueSize : Nat
  /-- The queues of the workers. -/
  workers : Fin nWorkers → List Task
  taskCounter : Fin nWorkers → BitVec 32

variable {nWorkers : Nat} [NeZero nWorkers]

/-- `index` in `onIpFragment`, if there is no exception. -/
def indexOf (nWorkers : Nat) [NeZero nWorkers] (shard : Sharding) (hdr : List Byte) :
    Option (Fin nWorkers) :=
  if hdr.length < ipHl hdr * 4 then none
  else (shard.ofPacket hdr).toOption.map (Fin.ofNat nWorkers)

namespace Dispatcher

def onIpFragment (d : Dispatcher nWorkers) (hdr : List Byte) (timeStamp : Int) :
    Dispatcher nWorkers :=
  match indexOf nWorkers d.shard hdr with
  | none => d
  | some index =>
    if (d.workers index).length < d.maxQueueSize then
      { d with
        workers := Function.update d.workers index (d.workers index ++ [⟨hdr, timeStamp⟩])
        taskCounter := Function.update d.taskCounter index (d.taskCounter index + 1) }
    else d

/-- `TaskQueue::take`, which waits as long as there is nothing. -/
def take (d : Dispatcher nWorkers) (index : Fin nWorkers) : Dispatcher nWorkers × List Task :=
  match d.workers index with
  | [] => (d, [])
  | t :: ts => ({ d with workers := Function.update d.workers index ts }, [t])

/-- What happens to the queues. -/
inductive Event (nWorkers : Nat) where
  | packet (t : Task)
  | take (index : Fin nWorkers)

/-- One event, with what a worker takes. -/
def step (d : Dispatcher nWorkers) : Event nWorkers → Dispatcher nWorkers × List (Fin nWorkers × Task)
  | .packet t => (d.onIpFragment t.ip t.timeStamp, [])
  | .take index => ((d.take index).1, (d.take index).2.map (index, ·))

/-- The packets with an index, among some events. -/
def packetsFor (shard : Sharding) (index : Fin nWorkers) (es : List (Event nWorkers)) : List Task :=
  es.filterMap fun e =>
    match e with
    | .packet t => if indexOf nWorkers shard t.ip = some index then some t else none
    | .take _ => none

/-- What one worker takes. -/
def takenBy (index : Fin nWorkers) (ts : List (Fin nWorkers × Task)) : List Task :=
  ts.filterMap fun t => if t.1 = index then some t.2 else none

/-- No packet finds its queue full. -/
def Room (d : Dispatcher nWorkers) (es : List (Event nWorkers)) : Prop :=
  ∀ es₁ t es₂ index, es = es₁ ++ .packet t :: es₂ → indexOf nWorkers d.shard t.ip = some index →
    ((trace step d es₁).1.workers index).length < d.maxQueueSize

theorem step_shard (d : Dispatcher nWorkers) (e : Event nWorkers) :
    (d.step e).1.shard = d.shard ∧ (d.step e).1.maxQueueSize = d.maxQueueSize := by
  cases e with
  | packet t =>
    rw [step, onIpFragment]
    cases indexOf nWorkers d.shard t.ip with
    | none => exact ⟨rfl, rfl⟩
    | some index => dsimp only; split <;> exact ⟨rfl, rfl⟩
  | take index =>
    rw [step, take]
    split <;> exact ⟨rfl, rfl⟩

/-- What is in a queue and what its worker takes, in one event. -/
theorem step_fifo (d : Dispatcher nWorkers) (e : Event nWorkers) (index : Fin nWorkers)
    (hroom : ∀ t i, e = .packet t → indexOf nWorkers d.shard t.ip = some i →
      (d.workers i).length < d.maxQueueSize) :
    takenBy index (d.step e).2 ++ (d.step e).1.workers index =
      d.workers index ++ packetsFor d.shard index [e] := by
  cases e with
  | packet t =>
    rw [step, onIpFragment, takenBy, packetsFor]
    cases hi : indexOf nWorkers d.shard t.ip with
    | none => simp [hi]
    | some i =>
      dsimp only
      rw [if_pos (hroom t i rfl hi)]
      by_cases heq : i = index
      · subst heq
        simp [hi]
      · simp [hi, heq, Function.update_of_ne (Ne.symm heq)]
  | take i =>
    rw [step, take, takenBy, packetsFor]
    by_cases heq : i = index
    · subst heq
      cases hq : d.workers i with
      | nil => simp [hq]
      | cons t ts => simp
    · cases d.workers i with
      | nil => simp
      | cons t ts => simp [heq, Function.update_of_ne (Ne.symm heq)]

/-- As long as no queue is full, a worker takes the packets with its index, in order. -/
theorem dispatch_fifo (d : Dispatcher nWorkers) (es : List (Event nWorkers)) (hroom : d.Room es)
    (index : Fin nWorkers) :
    takenBy index (trace step d es).2 ++ (trace step d es).1.workers index =
      d.workers index ++ packetsFor d.shard index es := by
  induction es generalizing d with
  | nil => simp [takenBy, packetsFor]
  | cons e es ih =>
    have hstep := d.step_fifo e index fun t i he hi => hroom [] t es i (by rw [he]; rfl) hi
    have hrest : (d.step e).1.Room es := by
      intro es₁ t es₂ i he hi
      rw [(d.step_shard e).1] at hi
      rw [(d.step_shard e).2]
      exact hroom (e :: es₁) t es₂ i (by rw [he]; rfl) hi
    have htail := ih _ hrest
    rw [(d.step_shard e).1] at htail
    rw [trace_cons, takenBy, List.filterMap_append, ← takenBy, ← takenBy, List.append_assoc, htail,
      ← List.append_assoc, hstep, List.append_assoc, packetsFor, packetsFor, packetsFor,
      ← List.filterMap_append, List.singleton_append]

end Dispatcher

/-! ## The fragments of a datagram -/

/-- The tuple of the connection to which a datagram belongs. -/
def Datagram.tuple (d : Datagram) : Tuple4 :=
  ⟨(portsAt d.proto d.payload 0).1, (portsAt d.proto d.payload 0).2, d.src, d.dst⟩

/-- A whole packet of the connection of `d`, in one direction or the other. -/
structure Datagram.Whole (d : Datagram) (f : List Byte) : Prop where
  proto : ipP f = d.proto
  tuple : packetTuple f = d.tuple ∨ packetTuple f = d.tuple.reversed
  header : thdr f + headerSize (ipP f) ≤ f.length
  offset : fragOffset f = 0
  more : moreFragments f = false

/-- All fragments of `d` among `fs`, and all whole packets of its connection, have the same index. -/
def OneWorker (nWorkers : Nat) [NeZero nWorkers] (shard : Sharding) (d : Datagram)
    (fs : List (List Byte)) : Prop :=
  ∃ index, ∀ f, f ∈ fs ∨ d.Whole f → indexOf nWorkers shard f = some index

/-- The XOR of the ports, in which the directions of a connection agree. -/
def Tuple4.portXor (t : Tuple4) : BitVec 16 := t.dest ^^^ t.source

theorem indexOf_eq (shard : Sharding) {f : List Byte} (hp : Sharded (ipP f))
    (hlen : thdr f ≤ f.length) : indexOf nWorkers shard f =
      if headerSize (ipP f) ≤ f.length - thdr f then
        some (Fin.ofNat nWorkers (shard.ofTuple (packetTuple f))) else none := by
  have hmap : (shard.ofPacket f).toOption = (getTuple4 f).toOption.map shard.ofTuple := by
    rw [Sharding.ofPacket]
    cases getTuple4 f <;> rfl
  rw [indexOf, if_neg (by rw [thdr] at hlen; omega), hmap, getTuple4_eq hp]
  split <;> rfl

theorem headerSize_le {proto : Byte} (hp : Sharded proto) (hicmp : proto ≠ IPPROTO_ICMP) :
    8 ≤ headerSize proto := by
  rcases hp with rfl | rfl | rfl
  · decide
  · decide
  · exact absurd rfl hicmp

/-- From the first bytes of a datagram, its tuple is read. -/
theorem Datagram.Fragment.tuple_eq {d : Datagram} {n : Nat} {more : Bool} {f : List Byte}
    (h : d.Fragment 0 n more f) (h4 : d.proto ≠ IPPROTO_ICMP → 4 ≤ n) :
    packetTuple f = d.tuple := by
  rw [packetTuple, Datagram.tuple, h.proto, h.src, h.dst, portsAt, portsAt]
  split_ifs with hicmp
  · rfl
  · have hbyte (i : Nat) (hi : i < 4) : byteAt f (thdr f + i) = byteAt d.payload i := by
      have h4 := h4 hicmp
      rw [h.byteAt_eq (by omega), Nat.zero_add]
    simp only [le16, Nat.add_assoc, Nat.reduceAdd, Nat.zero_add, hbyte 1 (by decide),
      hbyte 2 (by decide), hbyte 3 (by decide)]
    rw [← hbyte 0 (by decide), Nat.add_zero]

/-- The fragments of a datagram reach one worker, under every seed, if and only if each has
bytes enough for a transport header and, unless there is one worker only, its
first two words have the XOR of the ports. -/
theorem fragments_oneWorker_iff {d : Datagram} {fs : List (List Byte)} (hp : Sharded d.proto)
    (hlen : headerSize d.proto ≤ d.payload.length) (hcut : d.Cut 0 fs) :
    (∀ xors perm, OneWorker nWorkers (.create xors perm) d fs) ↔
      ∀ f ∈ fs, headerSize d.proto ≤ f.length - thdr f ∧
        (nWorkers = 1 ∨ (packetTuple f).portXor = d.tuple.portXor) := by
  have hfrag {f : List Byte} (hf : f ∈ fs) (shard : Sharding) : indexOf nWorkers shard f =
      if headerSize d.proto ≤ f.length - thdr f then
        some (Fin.ofNat nWorkers (shard.mix (d.dst ^^^ d.src) (packetTuple f).portXor)) else none := by
    obtain ⟨off, n, more, hf⟩ := hcut.exists_fragment hf
    have hcap := hf.captured
    rw [hf.len] at hcap
    rw [indexOf_eq shard (by rw [hf.proto]; exact hp) (by omega), hf.proto, ← hf.src, ← hf.dst]
    rfl
  constructor
  · intro h f hf
    obtain ⟨f₀, hf₀, n, more, h8, -, hfirst⟩ := hcut.first
    have htuple := hfirst.tuple_eq (fun hicmp => by
      have := headerSize_le hp hicmp
      omega)
    have hhdr : headerSize d.proto ≤ f.length - thdr f := by
      obtain ⟨index, hindex⟩ := h ⟨#[0, 0, 0, 0, 0, 0], rfl⟩ ⟨#[0, 0, 0, 0, 0, 0], rfl⟩
      by_contra hshort
      have hsome := hindex f (.inl hf)
      rw [hfrag hf, if_neg hshort] at hsome
      cases hsome
    refine ⟨hhdr, or_iff_not_imp_left.mpr fun hone => ?_⟩
    by_contra hne
    obtain ⟨xors, perm, hmix⟩ := exists_mix_ne (d.dst ^^^ d.src) hne
      (Nat.lt_of_le_of_ne (Nat.pos_of_neZero nWorkers) (Ne.symm hone))
    obtain ⟨index, hindex⟩ := h xors perm
    have hsame := (hindex f (.inl hf)).trans (hindex f₀ (.inl hf₀)).symm
    rw [hfrag hf, if_pos hhdr, hfrag hf₀, htuple] at hsame
    split at hsame
    · exact hmix (congrArg Fin.val (Option.some.inj hsame))
    · cases hsame
  · intro h xors perm
    refine ⟨Fin.ofNat nWorkers ((Sharding.create xors perm).ofTuple d.tuple), fun f hf => ?_⟩
    rcases hf with hf | hf
    · obtain ⟨hhdr, hone | hxor⟩ := h f hf
      · subst hone
        rw [hfrag hf, if_pos hhdr, Subsingleton.elim (Fin.ofNat 1 _)]
      · rw [hfrag hf, if_pos hhdr, hxor]
        rfl
    · have hhdr := hf.header
      rw [indexOf_eq _ (by rw [hf.proto]; exact hp) (by omega), if_pos (by omega)]
      rcases hf.tuple with htuple | htuple
      · rw [htuple]
      · rw [htuple, Sharding.ofTuple_reversed]

/-- A packet with UDP of `10.0.0.1` and eight bytes, at one of the offsets 0 and 8. -/
def udpFragment (second : Bool) (data : List Byte) : List Byte :=
  [0x45, 0, 0, 28, 0, 7, if second then 0 else 0x20, if second then 1 else 0, 64, 17, 0, 0,
    10, 0, 0, 1, 10, 0, 0, 2] ++ data

/-- A UDP header from port 1000 to port 53. -/
def udpHeader : List Byte := [3, 232, 0, 53, 0, 16, 0, 0]

/-- Eight bytes behind it, that start with the port numbers as well or with zeros. -/
def udpData (ports : Bool) : List Byte :=
  if ports then [0, 53, 3, 232, 0, 0, 0, 0] else [0, 0, 0, 0, 0, 0, 0, 0]

def udpDatagram (ports : Bool) : Datagram :=
  ⟨0x0100000a, 0x0200000a, 0x0700, IPPROTO_UDP, udpHeader ++ udpData ports⟩

def udpFragments (ports : Bool) : List (List Byte) :=
  [udpFragment false udpHeader, udpFragment true (udpData ports)]

theorem cut_udpFragments (ports : Bool) : (udpDatagram ports).Cut 0 (udpFragments ports) := by
  cases ports <;>
  exact .more (n := 8) (by decide) (by decide)
    ⟨by decide, by decide, by decide, by decide, by decide, by decide, by decide, by decide,
      by decide, by decide, by decide⟩
    (.last (by decide) ⟨by decide, by decide, by decide, by decide, by decide, by decide,
      by decide, by decide, by decide, by decide, by decide⟩)

/-- A second fragment that starts with the port numbers reaches the same worker. -/
theorem fragments_oneWorker_ports :
    OneWorker 2 (.create ⟨#[1, 2, 3, 4, 5, 6], rfl⟩ ⟨#[0, 0, 0, 0, 0, 0], rfl⟩)
      (udpDatagram true) (udpFragments true) :=
  (fragments_oneWorker_iff (.inr (.inl rfl)) (by decide) (cut_udpFragments _)).mpr (by decide) _ _

/-- A second fragment that starts with zeros goes to the other of two workers. -/
theorem fragments_apart :
    (udpDatagram false).Cut 0 (udpFragments false) ∧
      ¬ OneWorker 2 (.create ⟨#[0, 0, 0, 0, 0, 0], rfl⟩ ⟨#[0, 0, 0, 0, 0, 0], rfl⟩)
        (udpDatagram false) (udpFragments false) := by
  refine ⟨cut_udpFragments _, fun ⟨index, h⟩ => ?_⟩
  have h₁ := h _ (.inl (List.mem_cons_self ..))
  have h₂ := h _ (.inl (List.mem_cons_of_mem _ (List.mem_cons_self ..)))
  exact absurd (h₁.trans h₂.symm) (by decide +kernel)

end Noff
