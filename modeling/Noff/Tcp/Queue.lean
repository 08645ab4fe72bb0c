import Noff.Tcp.Stream

/-!
# Queueing the data of a stream: `tcpQueue`, `addFromskb`, `notify`

These three work on one direction of a stream, from `snd` to `rcv`, and on the
two timeout sets. What they change is a `Flow`; the data callbacks they invoke
are listed in its `chunks`, oldest first.
-/

namespace Noff.Tcp

structure Flow where
  snd : HalfStream
  rcv : HalfStream
  tcpTimeoutSet : TimeoutSet
  finTimeoutSet : TimeoutSet
  chunks : List Chunk
  deriving DecidableEq

/-- `EXP_SEQ`, the sequence number of the first byte not yet seen in order. -/
def Flow.expSeq (q : Flow) : BitVec 32 := q.snd.firstDataSeq + q.rcv.count + q.rcv.urgCount

/-- What `tcpQueue` reads of a packet. -/
structure Segment where
  seq : BitVec 32
  fin : Bool
  urg : Bool
  urp : BitVec 16
  data : List Byte
  skblen : BitVec 32
  deriving DecidableEq, Repr

/-- A flag as the number the code adds to a sequence number. -/
def flagVal (b : Bool) : BitVec 32 := BitVec.ofNat 32 b.toNat

/-- The length of a segment's data, as a 32-bit number. -/
def lenVal (data : List Byte) : BitVec 32 := BitVec.ofNat 32 data.length

/-- The stream a flow belongs to: its address and `isconnnection`. -/
structure Owner where
  aTcp : StreamPtr
  isconnnection : Bool

variable (a : Owner) (timeStamp : Int)

/-- The data callbacks are invoked only for a connected stream. -/
def notify (q : Flow) (data : List Byte) (off len : Int) : Flow :=
  let q := if a.isconnnection then { q with chunks := q.chunks ++ [⟨data, off, len⟩] } else q
  if q.rcv.countNewUrg then q else { q with rcv.countNew := 0 }

/-- The urgent data announced by this segment, if it is new. -/
def noteUrgent (q : Flow) (urg : Bool) (urgPtr : BitVec 32) : Flow :=
  if urg && after urgPtr (q.expSeq - 1) && (!q.rcv.urgSeen || after urgPtr q.rcv.urgPtr) then
    { q with rcv.urgPtr := urgPtr, rcv.urgSeen := true }
  else q

/-- `n` bytes of a segment, from byte `off` on, are counted and passed on. -/
def addPart (q : Flow) (data : List Byte) (off : Int) (n : BitVec 32) : Flow :=
  notify a { q with rcv.countNew := n, rcv.count := q.rcv.count + n } data off n.toInt

/-- The urgent byte of a segment: the segment is passed on as a whole. -/
def takeUrgent (q : Flow) (data : List Byte) (thisSeq : BitVec 32) : Flow :=
  let q := { q with
    rcv.urgdata := byteAt data (q.rcv.urgPtr - thisSeq).toNat, rcv.countNewUrg := true }
  let q := notify a q data 0 data.length
  { q with rcv.countNewUrg := false, rcv.urgSeen := false, rcv.urgCount := q.rcv.urgCount + 1 }

/-- The branch of `addFromskb` for a segment that holds the urgent byte. -/
def addUrgent (q : Flow) (data : List Byte) (thisSeq lost : BitVec 32) : Flow :=
  let toCopy := q.rcv.urgPtr - (thisSeq + lost)
  let q := if 0 < toCopy.toInt then addPart a q data lost.toNat toCopy else q
  let q := takeUrgent a q data thisSeq
  let toCopy2 := thisSeq + lenVal data - q.rcv.urgPtr - 1
  if 0 < toCopy2.toInt then addPart a q data (lost.toNat + toCopy.toInt + 1) toCopy2 else q

/-- The branch of `addFromskb` for a segment without the urgent byte. `datalen -
lost` is unsigned, so it is positive unless it is 0. -/
def addPlain (q : Flow) (data : List Byte) (lost : BitVec 32) : Flow :=
  if lenVal data - lost ≠ 0 then addPart a q data lost.toNat (lenVal data - lost) else q

/-- The end of `addFromskb`: the sender has closed its side. -/
def addFin (q : Flow) (fin : Bool) : Flow :=
  if fin then
    let q := { q with snd.state := .finSent }
    if q.rcv.state = .closing then
      { q with finTimeoutSet := addFintimeout q.finTimeoutSet a.aTcp timeStamp }
    else q
  else q

def addFromskb (q : Flow) (data : List Byte) (thisSeq : BitVec 32) (fin urg : Bool)
    (urgPtr : BitVec 32) : Flow :=
  let lost := q.expSeq - thisSeq
  let q := noteUrgent q urg urgPtr
  let q :=
    if q.rcv.urgSeen && after (q.rcv.urgPtr + 1) (thisSeq + lost) &&
        before q.rcv.urgPtr (thisSeq + lenVal data) then
      addUrgent a q data thisSeq lost
    else addPlain a q data lost
  addFin a timeStamp q fin

/-- The loop of `tcpQueue` over `rcv->fraglist`: the segments that the data
received so far reaches are added and removed from it. -/
def drain (q : Flow) : List Skbuff → Flow
  | [] => { q with rcv.fraglist := [] }
  | frag :: rest =>
    if after frag.seq q.expSeq then { q with rcv.fraglist := frag :: rest }
    else
      let q :=
        if after (frag.seq + lenVal frag.data + flagVal frag.fin) q.expSeq then
          addFromskb a timeStamp
            { q with tcpTimeoutSet := updateTcptimeout q.tcpTimeoutSet a.aTcp timeStamp }
            frag.data frag.seq frag.fin frag.urg (frag.urgPtr + frag.seq - 1)
        else q
      drain { q with rcv.rmemAlloc := q.rcv.rmemAlloc - frag.truesize } rest

/-- Where a segment goes in `rcv->fraglist`: in front of the first that is after it. -/
def insertFrag (pakiet : Skbuff) : List Skbuff → List Skbuff
  | [] => [pakiet]
  | frag :: rest =>
    if after frag.seq pakiet.seq then pakiet :: frag :: rest else frag :: insertFrag pakiet rest

/-- The `Skbuff` that a segment is kept in. -/
def Segment.pakiet (seg : Segment) : Skbuff :=
  { data := seg.data, truesize := seg.skblen, urgPtr := seg.urp.setWidth 32, fin := seg.fin,
    urg := seg.urg, seq := seg.seq }

/-- A segment that starts beyond `EXP_SEQ` is kept for later. -/
def enqueue (q : Flow) (seg : Segment) : Flow :=
  let pakiet := seg.pakiet
  let q := { q with rcv.rmemAlloc := q.rcv.rmemAlloc + pakiet.truesize }
  let q :=
    if pakiet.fin then
      let q := { q with snd.state := .closing }
      if q.rcv.state = .finSent ∨ q.rcv.state = .finConfirmed then
        { q with finTimeoutSet := addFintimeout q.finTimeoutSet a.aTcp timeStamp }
      else q
    else q
  { q with rcv.fraglist := insertFrag pakiet q.rcv.fraglist }

def tcpQueue (q : Flow) (seg : Segment) : Flow :=
  if !after seg.seq q.expSeq then
    if after (seg.seq + lenVal seg.data + flagVal seg.fin) q.expSeq then
      let q := { q with tcpTimeoutSet := updateTcptimeout q.tcpTimeoutSet a.aTcp timeStamp }
      let q := addFromskb a timeStamp q seg.data seg.seq seg.fin seg.urg
        (seg.urp.setWidth 32 + seg.seq - 1)
      drain a timeStamp q q.rcv.fraglist
    else q
  else enqueue a timeStamp q seg

end Noff.Tcp
