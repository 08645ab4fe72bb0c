import Mathlib.Data.PNat.Defs
import Noff.Ip.Fragment
import Noff.Lib.DoublyLinked

/-!
# `IpFragment.cc`

The defragmenter of one thread. A `hostFrags` and an `ipq` are objects with numbers
for their addresses, given out in turn; the lists that join them are lists of these
numbers, but for the list of the timers, which keeps its pointers, since nodes
are taken from it twice. A step has no result where the code would use an object that is
freed, or a null pointer, and where it exits. Memory is always found; there is a bound on what is
charged (`runIp_bounded`), so that an `int` holds it.

`clock i` is what reading number `i` of the clock gives, in milliseconds since `time0`.
-/

namespace Noff

abbrev HostPtr := Nat

abbrev QueuePtr := Nat

/-- What the packets of one datagram have in common. -/
structure IpKey where
  id : BitVec 16
  src : BitVec 32
  dst : BitVec 32
  p : Byte
  deriving DecidableEq

def ipKey (iph : List Byte) : IpKey := ⟨ipId iph, ipSrc iph, ipDst iph, ipP iph⟩

/-- `struct hostFrags` -/
structure HostFrags where
  ipqueue : List QueuePtr
  ipFragMem : Int
  ip : BitVec 32
  hashIndex : Nat

/-- `struct ipq`. Of the buffer that `iph` points to, what the last `memcpy` has written. -/
structure Ipq where
  iph : List Byte
  len : Int
  ihlen : Nat
  expires : BitVec 32
  fragments : List IpFrag
  hf : HostPtr

/-- What `ipGlue` returns: the bytes of the buffer that have been written. -/
abbrev Glued := List (Option Byte)

structure IpFragment where
  hashSize : ℕ+
  fragtable : Nat → List HostPtr
  hosts : HostPtr → Option HostFrags
  queues : QueuePtr → Option Ipq
  thisHost : Option HostPtr
  timers : DoublyLinked QueuePtr
  timenow : BitVec 32
  /-- How often the clock has been read. -/
  reads : Nat
  /-- The number of the next object. -/
  next : Nat

/-- What can be seen of a call: the queues whose timers have run out and those to which fragments
were added, with the reading of the clock for it; and the result, one of `IPF_NOTF`, `IPF_ISF`
and `IPF_NEW`. -/
inductive IpEvent
  | expired (q : QueuePtr) (now : Int)
  | fragment (q : QueuePtr) (iph : List Byte) (now : Int)
  | notf
  | isf
  | new (q : QueuePtr) (iph : Glued)

/-- `IP_FRAG_TIME` -/
abbrev IP_FRAG_TIME : BitVec 32 := 30000

abbrev IPFRAG_HIGH_THRESH : Int := 262144

abbrev IPFRAG_LOW_THRESH : Int := 196608

/-- `sizeof(struct ipq)` -/
def sizeofIpq : Int := 88

/-- The size of the buffer for a header. -/
def sizeofIph : Int := 72

def ntohl (x : BitVec 32) : BitVec 32 :=
  x.extractLsb' 0 8 ++ x.extractLsb' 8 8 ++ x.extractLsb' 16 8 ++ x.extractLsb' 24 8

/-! ## One queue -/

namespace Ipq

/-- What is charged for a queue. -/
def charge (qp : Ipq) : Int := sizeofIpq + sizeofIph + (qp.fragments.map IpFrag.charge).sum

/-- `ipDone` -/
def done (qp : Ipq) : Bool := if qp.len = 0 then false else IpFrag.connected 0 qp.fragments

/-- The queue that `ipCreate` makes for a packet to the host `hf`. -/
def create (iph : List Byte) (expires : BitVec 32) (hf : HostPtr) : Ipq :=
  let ihlen := ipHl iph * 4
  ⟨bytesAt iph 0 (ihlen + 8), 0, ihlen, expires, [], hf⟩

/-- `ipDefrag` keeps the header of a fragment at offset 0. -/
def remember (qp : Ipq) (iph : List Byte) : Ipq :=
  if fragOffset iph = 0 then
    let ihl := ipHl iph * 4
    { qp with ihlen := ihl, iph := bytesAt iph 0 (ihl + 8) }
  else qp

/-- `ipDefrag` puts a fragment in its place; with the fragments that are freed for it. -/
def add (qp : Ipq) (iph : List Byte) (skb : SkBuff) : Ipq × List IpFrag :=
  let offset := fragOffset iph
  let ihl := ipHl iph * 4
  let endOff : Int := offset + ipLen iph - ihl
  let len := if moreFragments iph then qp.len else endOff
  let (fragments, freed) := IpFrag.place qp.fragments offset endOff skb ihl
  ({ qp with len := len, fragments := fragments }, freed)

end Ipq

/-- `memmove` to position `i` of a buffer. -/
def Glued.write (skb : Glued) (i : Nat) (bytes : List Byte) : Glued :=
  skb.take i ++ bytes.map some ++ skb.drop (i + bytes.length)

/-- The loop of `ipGlue` over the fragments, for a buffer of `len` bytes; with the count. -/
def Glued.copy (ihlen : Nat) (len : Int) : Glued → Int → List IpFrag → Option (Glued × Int)
  | skb, count, [] => some (skb, count)
  | skb, count, fp :: rest =>
    if fp.len < 0 ∨ fp.offset + ihlen + fp.len > len then none
    else
      copy ihlen len
        (skb.write (ihlen + fp.offset.toNat) (bytesAt fp.skb.data fp.ptr.toNat fp.len.toNat))
        (count + fp.len) rest

/-- The buffer that `ipGlue` returns, if it returns one. -/
def Ipq.glue (qp : Ipq) : Option Glued :=
  let len := qp.ihlen + qp.len
  if len > 65535 then none
  else do
    let skb : Glued := List.replicate len.toNat none
    let skb := skb.write 0 (bytesAt qp.iph 0 qp.ihlen)
    let (skb, count) ← skb.copy qp.ihlen len 0 qp.fragments
    let skb := skb.write 6 [0, 0]
    let iphl := ipHl (skb.map (·.getD 0))
    let ipLen := BitVec.ofInt 16 (iphl * 4 + count)
    return skb.write 2 [ipLen.extractLsb' 8 8, ipLen.extractLsb' 0 8]

namespace IpFragment

variable (s : IpFragment)

/-- The state after the constructor, for `n` buckets. -/
def create (n : ℕ+) : IpFragment :=
  ⟨n, fun _ => [], fun _ => none, fun _ => none, none, .empty, 0, 0, 0⟩

/-! ## Timers -/

/-- `jiffies`: its result is `timenow`. -/
def jiffies (clock : Nat → Int) : IpFragment :=
  if s.timenow ≠ 0 then s
  else { s with timenow := BitVec.ofInt 32 (clock s.reads), reads := s.reads + 1 }

/-- The reading that `timenow` is, as it was before it was made an `int`. -/
def instant (clock : Nat → Int) : Int := clock (s.reads - 1)

def addTimer (q : QueuePtr) : IpFragment := { s with timers := s.timers.pushBack q }

def delTimer (q : QueuePtr) : IpFragment := { s with timers := s.timers.remove q }

/-! ## Memory -/

def setHost (h : HostPtr) (hf : HostFrags) : IpFragment :=
  { s with hosts := Function.update s.hosts h (some hf) }

def setQueue (q : QueuePtr) (qp : Ipq) : IpFragment :=
  { s with queues := Function.update s.queues q (some qp) }

/-- `atomicAdd` for the current host -/
def atomicAdd (ile : Int) : Option IpFragment := do
  let h ← s.thisHost
  let hf ← s.hosts h
  return s.setHost h { hf with ipFragMem := hf.ipFragMem + ile }

/-- `atomicSub` for the current host, if there is one: `fragKfreeskb` and `fragKfrees` -/
def atomicSub (ile : Int) : Option IpFragment :=
  match s.thisHost with
  | none => some s
  | some h => do
    let hf ← s.hosts h
    return s.setHost h { hf with ipFragMem := hf.ipFragMem - ile }

def fragKfreeskb (skb : SkBuff) : Option IpFragment := s.atomicSub skb.truesize

/-- The fragments are freed, and their buffers. -/
def releaseAll : IpFragment → List IpFrag → Option IpFragment
  | s, [] => some s
  | s, fp :: rest => do
    let s ← s.fragKfreeskb fp.skb
    let s ← s.atomicSub IpFrag.sizeofIpFrag
    s.releaseAll rest

/-! ## Hosts -/

/-- `fragIndex`, of the address. -/
def fragIndex (ip : BitVec 32) : Nat := (ntohl ip).toNat % s.hashSize

/-- `hostfragFind` -/
def hostfragFind (iph : List Byte) : IpFragment :=
  { s with thisHost :=
      (s.fragtable (s.fragIndex (ipDst iph))).find? fun h => (s.hosts h).any (·.ip = ipDst iph) }

def hostfragCreate (iph : List Byte) : IpFragment :=
  let i := s.fragIndex (ipDst iph)
  { s with
    fragtable := Function.update s.fragtable i (s.next :: s.fragtable i)
    hosts := Function.update s.hosts s.next (some ⟨[], 0, ipDst iph, i⟩)
    thisHost := some s.next
    next := s.next + 1 }

def rmthisHost : Option IpFragment := do
  let h ← s.thisHost
  let hf ← s.hosts h
  return { s with
    fragtable := Function.update s.fragtable hf.hashIndex ((s.fragtable hf.hashIndex).erase h)
    hosts := Function.update s.hosts h none
    thisHost := none }

/-! ## Queues -/

/-- `ipFind`: a queue that is found has its timer stopped. -/
def ipFind (iph : List Byte) : Option (IpFragment × Option QueuePtr) := do
  let h ← s.thisHost
  let hf ← s.hosts h
  match hf.ipqueue.find? fun q => (s.queues q).any (ipKey ·.iph = ipKey iph) with
  | none => return (s, none)
  | some q => return (s.delTimer q, some q)

/-- The queue that `ipDefrag` finds for a packet. -/
def findQueue (iph : List Byte) : Option (IpFragment × Option QueuePtr) :=
  match s.thisHost with
  | none => some (s, none)
  | some _ => s.ipFind iph

/-- `ipCreate` -/
def ipCreate (clock : Nat → Int) (iph : List Byte) : Option (IpFragment × QueuePtr) := do
  let s ← s.atomicAdd sizeofIpq
  let s ← s.atomicAdd sizeofIph
  let h ← s.thisHost
  let s := s.jiffies clock
  let q := s.next
  let s := s.setQueue q (.create iph (s.timenow + IP_FRAG_TIME) h)
  let s := { s with next := q + 1 }
  let s := s.addTimer q
  let hf ← s.hosts h
  return (s.setHost h { hf with ipqueue := q :: hf.ipqueue }, q)

/-- What `ipDefrag` does first with a fragment for a queue that is there: its timer is restarted. -/
def ipRefresh (clock : Nat → Int) (q : QueuePtr) (iph : List Byte) : Option IpFragment := do
  let qp ← s.queues q
  let s := s.delTimer q
  let s := s.jiffies clock
  let s := s.setQueue q { qp.remember iph with expires := s.timenow + IP_FRAG_TIME }
  return s.addTimer q

/-- A queue is taken from the list of its host, which must be the current one. A host without queues
is removed. -/
def unlink (q : QueuePtr) (qp : Ipq) : Option IpFragment := do
  let h ← s.thisHost
  let hf ← s.hosts h
  if qp.hf ≠ h ∨ q ∉ hf.ipqueue then none
  else
    let s := s.setHost h { hf with ipqueue := hf.ipqueue.erase q }
    if hf.ipqueue.erase q = [] then s.rmthisHost else return s

def ipFree (q : QueuePtr) : Option IpFragment := do
  let qp ← s.queues q
  let s := s.delTimer q
  let s ← s.unlink q qp
  let s ← s.releaseAll qp.fragments
  let s ← s.atomicSub sizeofIph
  let s ← s.atomicSub sizeofIpq
  return { s with queues := Function.update s.queues q none }

/-- The loop of `ipEvictor`, for at most so many rounds. -/
def ipEvictor : Nat → IpFragment → Option IpFragment
  | 0, _ => none
  | fuel + 1, s =>
    match s.thisHost with
    | none => some s
    | some h => do
      let hf ← s.hosts h
      if hf.ipFragMem > IPFRAG_LOW_THRESH then
        match hf.ipqueue with
        | [] => none -- "ipEvictor: memcount"
        | q :: _ =>
          let s ← s.ipFree q
          ipEvictor fuel s
      else return s

/-- The call of `ipEvictor` in `ipDefrag`. -/
def evict : Option IpFragment :=
  match s.thisHost with
  | none => some s
  | some h => do
    let hf ← s.hosts h
    if hf.ipFragMem > IPFRAG_HIGH_THRESH then s.ipEvictor (hf.ipqueue.length + 1) else return s

/-! ## Fragments -/

/-- `ipGlue`: the queue is freed, whether the fragments fit or not. -/
def ipGlue (q : QueuePtr) : Option (IpFragment × Option Glued) := do
  let qp ← s.queues q
  let s ← s.ipFree q
  return (s, qp.glue)

/-- What `ipDefrag` does with a fragment for the queue `q`, from the check of its size on. -/
def addFragment (q : QueuePtr) (iph : List Byte) (skb : SkBuff) :
    Option (IpFragment × Option Glued) := do
  if ipLen iph + fragOffset iph > 65535 then return (s, none)
  else
    let qp ← s.queues q
    let (qp, freed) := qp.add iph skb
    let s ← s.releaseAll freed
    let s ← s.atomicAdd IpFrag.sizeofIpFrag
    let s ← s.atomicAdd skb.truesize
    let s := s.setQueue q qp
    if qp.done then s.ipGlue q else return (s, none)

/-- A packet that is not a fragment. -/
def isWhole (iph : List Byte) : Bool := !moreFragments iph && fragOffset iph = 0

/-- `ipDefrag`, with the buffer for a fragment, or a null pointer for a whole packet. -/
def ipDefrag (clock : Nat → Int) (iph : List Byte) (skb : Option SkBuff) :
    Option (IpFragment × List IpEvent) := do
  let s := s.hostfragFind iph
  let s := if s.thisHost = none ∧ skb.isSome then s.hostfragCreate iph else s
  let s ← s.evict
  let (s, qp) ← s.findQueue iph
  if isWhole iph then
    match qp with
    | some q => return (← s.ipFree q, [])
    | none => return (s, [])
  else
    let s := if s.thisHost = none then s.hostfragCreate iph else s
    let (s, q) ← match qp with
      | some q => (s.ipRefresh clock q iph).map (·, q)
      | none => s.ipCreate clock iph
    let skb ← skb
    let taken := IpEvent.fragment q iph (s.instant clock)
    let (s, skb2) ← s.addFragment q iph skb
    return (s, [taken, skb2.elim .isf (.new q)])

/-- The loop of `ipDefragStub` over the timers, for at most so many rounds. -/
def expireLoop (clock : Nat → Int) : Nat → IpFragment → Option (IpFragment × List IpEvent)
  | 0, _ => none
  | fuel + 1, s =>
    match s.timers.head with
    | none => some (s, [])
    | some q => do
      let qp ← s.queues q
      let s := s.jiffies clock
      if qp.expires.slt s.timenow then
        let expired := IpEvent.expired q (s.instant clock)
        let s ← { s with thisHost := some qp.hf }.ipFree q
        let (s, es) ← expireLoop clock fuel s
        return (s, expired :: es)
      else return (s, [])

/-- The first part of `ipDefragStub`: the clock will be read anew, and the timers are looked at. -/
def expire (clock : Nat → Int) : Option (IpFragment × List IpEvent) :=
  expireLoop clock (s.next + 1) { s with timenow := 0 }

def ipDefragStub (clock : Nat → Int) (iph : List Byte) :
    Option (IpFragment × List IpEvent) := do
  let (s, es) ← s.expire clock
  if isWhole iph then
    let (s, es') ← s.ipDefrag clock iph none
    return (s, es ++ es' ++ [.notf])
  else
    let skb := SkBuff.create iph
    let (s, es') ← s.ipDefrag clock skb.data (some skb)
    return (s, es ++ es')

/-! ## Calls -/

/-- The check in `startIpfragProc` of a packet that is captured. -/
def accepted (data : List Byte) : Bool :=
  20 ≤ data.length && 5 ≤ ipHl data && ipV data = 4 && ipLen data ≤ data.length &&
    4 * ipHl data ≤ ipLen data

/-- `startIpfragProc` up to the call of `genIpProc`. -/
def startIpfragProc (clock : Nat → Int) (data : List Byte) : Option (IpFragment × List IpEvent) :=
  if accepted data then s.ipDefragStub clock data else some (s, [])

/-- What `startIpfragProc` passes on with the packet, as its length. -/
def skblenOf (iph : List Byte) (needFree : Bool) : Nat :=
  let skblen := ipLen iph + 16
  let skblen := if needFree then skblen else skblen - 1
  (skblen + 15) / 16 * 16 + 168

/-- What it passes to `genIpProc`, by the result of `ipDefragStub`. -/
def passed (data : List Byte) : IpEvent → Option (List Byte × Nat)
  | .notf => some (data, skblenOf data false)
  | .new _ iph => some (iph.map (·.getD 0), skblenOf (iph.map (·.getD 0)) true)
  | _ => none

end IpFragment

end Noff
