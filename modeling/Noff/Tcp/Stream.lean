import Noff.Lib.OrderedSet
import Noff.Util

/-!
# `TcpFragment.h`: streams, segments and timeouts

The records of `TcpFragment`. A pointer to a `TcpStream` is a number
(`StreamPtr`). Counters and sequence numbers are 32 bits wide and wrap as
in the code; fields that are only ever set to 0 or 1 and tested are `Bool`.
Fields that nothing reads or writes (`offset`, `bufsize`, `acked` of a half,
`ack` of a segment) are left out.
-/

namespace Noff.Tcp

/-- The values that `HalfStream::state` takes. -/
inductive TcpState where
  | established | synSent | synRecv | close | closing | finSent | finConfirmed
  deriving DecidableEq, Repr

/-- `Skbuff`: a segment waiting in a `fraglist`. Its `len` is the length of `data`. -/
structure Skbuff where
  data : List Byte
  truesize : BitVec 32
  urgPtr : BitVec 32
  fin : Bool
  urg : Bool
  seq : BitVec 32
  deriving DecidableEq, Repr

structure HalfStream where
  state : TcpState
  count : BitVec 32
  countNew : BitVec 32
  rmemAlloc : BitVec 32
  urgCount : BitVec 32
  seq : BitVec 32
  ackSeq : BitVec 32
  firstDataSeq : BitVec 32
  urgdata : Byte
  countNewUrg : Bool
  urgSeen : Bool
  urgPtr : BitVec 32
  window : BitVec 16
  wscaleOn : Bool
  wscale : BitVec 32
  fraglist : List Skbuff
  deriving DecidableEq, Repr

/-- What waits in a half, with the memory that is counted for it. -/
def HalfStream.buffer (h : HalfStream) : BitVec 32 × List Skbuff := (h.rmemAlloc, h.fraglist)

structure TcpStream where
  hashIndex : Nat
  addr : Tuple4
  client : HalfStream
  server : HalfStream
  isconnnection : Bool
  ts : Int
  deriving DecidableEq, Repr

/-- A half of a stream in which everything is 0, for the examples of the development. -/
def emptyHalf : HalfStream :=
  { state := .established, count := 0, countNew := 0, rmemAlloc := 0, urgCount := 0, seq := 0,
    ackSeq := 0, firstDataSeq := 0, urgdata := 0, countNewUrg := false, urgSeen := false,
    urgPtr := 0, window := 0, wscaleOn := false, wscale := 1, fraglist := [] }

def emptyStream : TcpStream := ⟨0, ⟨0, 0, 0, 0⟩, emptyHalf, emptyHalf, false, 0⟩

/-- The address of a `TcpStream` in `tcphashmap_`. -/
abbrev StreamPtr := Nat

/-- `Timeout`; of its `time` only the seconds are ever compared. -/
structure Timeout where
  aTcp : StreamPtr
  time : Int
  deriving DecidableEq, Repr

/-- `std::set<Timeout>`. `operator<` compares the seconds alone, so two
elements with the same second are equivalent. -/
abbrev TimeoutSet := OrderedSet Timeout.time

def addTcptimeout (set : TimeoutSet) (aTcp : StreamPtr) (timeStamp : Int) : TimeoutSet :=
  set.insert ⟨aTcp, timeStamp + 30⟩

def addFintimeout (set : TimeoutSet) (aTcp : StreamPtr) (timeStamp : Int) : TimeoutSet :=
  set.insert ⟨aTcp, timeStamp + 5⟩

/-- `delTcptimeout` and `delFintimeout`, each on its own set. -/
def delTimeout (set : TimeoutSet) (aTcp : StreamPtr) : TimeoutSet := set.filter (·.aTcp ≠ aTcp)

def updateTcptimeout (set : TimeoutSet) (aTcp : StreamPtr) (timeStamp : Int) : TimeoutSet :=
  addTcptimeout (delTimeout set aTcp) aTcp timeStamp

@[simp] theorem mem_delTimeout {set : TimeoutSet} {a : StreamPtr} {e : Timeout} :
    e ∈ delTimeout set a ↔ e ∈ set ∧ e.aTcp ≠ a := by simp [delTimeout]

/-- What a data callback is given: `len` bytes from byte `off` of a segment's data on. -/
structure Chunk where
  data : List Byte
  off : Int
  len : Int
  deriving DecidableEq, Repr

def Chunk.bytes (c : Chunk) : List Byte := (c.data.drop c.off.toNat).take c.len.toNat

end Noff.Tcp
