import Noff.App.Timer
import Noff.Lib.Run
import Noff.Lib.Wheel
import Noff.Sharding

/-!
# `TcpSession.cc`

The sessions of one thread. A `SessionData` is owned by the map alone, an `Entry`
by the buckets of the wheel alone; a weak pointer to either is the number of the object,
numbers being given out in turn, and it can be locked as long as an owner is
there. Where a bucket is overwritten, the entries that no other bucket holds are destroyed, and
with each its session is reported. The order in which that happens is the order of the list
here, and that of the addresses in the code.
-/

namespace Noff

abbrev TH_PUSH : Byte := 0x08

/-- `struct timeval` -/
structure Timeval where
  sec : Int
  usec : Int
  deriving DecidableEq

/-- What `TcpSession::onTcpData` is called with. -/
structure TcpData where
  iphdr : List Byte
  len : Int
  timeStamp : Timeval

/-- One half of `SessionData::info`, the counters of one direction: those from `upFlowSize`
on, or from `downFlowSize` on. -/
structure Counters where
  flowSize : BitVec 32
  packetNum : BitVec 32
  syn : BitVec 32
  fin : BitVec 32
  psh : BitVec 32
  rst : BitVec 32
  smallPacketNum : BitVec 32
  deriving DecidableEq

def Counters.zero : Counters := ⟨0, 0, 0, 0, 0, 0, 0⟩

/-- What `updateSession` adds in one direction. -/
def Counters.add (c : Counters) (len : Int) (flag : Byte) : Counters where
  flowSize := c.flowSize + BitVec.ofInt 32 len
  packetNum := c.packetNum + 1
  syn := if flag &&& TH_SYN != 0 then c.syn + 1 else c.syn
  fin := if flag &&& TH_FIN != 0 then c.fin + 1 else c.fin
  psh := if flag &&& TH_PUSH != 0 then c.psh + 1 else c.psh
  rst := if flag &&& TH_RST != 0 then c.rst + 1 else c.rst
  smallPacketNum := c.smallPacketNum + if len ≤ 64 then 1 else 0

abbrev SessionPtr := Nat

abbrev EntryPtr := Nat

/-- `endTime_` has no value until it is assigned, `context_` is empty or a weak pointer. -/
structure SessionData where
  t4 : Tuple4
  startTime : Timeval
  endTime : Option Timeval
  up : Counters
  down : Counters
  normallyClosed : Bool
  context : Option EntryPtr
  deriving DecidableEq

def SessionData.create (t4 : Tuple4) (timeStamp : Timeval) : SessionData :=
  ⟨t4, timeStamp, none, .zero, .zero, true, none⟩

/-- `updateSession` -/
def SessionData.update (data : SessionData) (t4 : Tuple4) (len : Int) (flag : Byte) :
    SessionData :=
  if t4 = data.t4 then { data with up := data.up.add len flag }
  else { data with down := data.down.add len flag }

/-- An `Entry`, with the number that it has as an object. -/
structure Entry where
  ptr : EntryPtr
  weak : SessionPtr
  deriving DecidableEq

/-- An element of `sessionDataMap_`: a tuple, and a session with its number. -/
structure SessionNode where
  key : Tuple4
  ptr : SessionPtr
  data : SessionData
  deriving DecidableEq

/-- What the callbacks are given, with the number of the session. -/
structure Report where
  ptr : SessionPtr
  data : SessionData
  deriving DecidableEq

/-- `Tuple4HashEqual` -/
def tuple4HashEqual (lhs rhs : Tuple4) : Bool :=
  if lhs = rhs then true
  else lhs.source = rhs.dest && lhs.dest = rhs.source && lhs.saddr = rhs.daddr &&
    lhs.daddr = rhs.saddr

/-- The state, for `n` as `timeoutSeconds`. -/
structure TcpSession (n : Nat) where
  sharding : Sharding
  sessionDataMap : List SessionNode
  timer : Timer
  sessionBuckets : Wheel Entry n
  nextSession : SessionPtr
  nextEntry : EntryPtr

namespace TcpSession

variable {n : Nat} (s : TcpSession n)

/-- The state that the constructor leaves, for the hash of the map. -/
def create (n : Nat) (sharding : Sharding) : TcpSession n := ⟨sharding, [], ⟨0⟩, .empty, 0, 0⟩

/-! ## Pointers and the map -/

/-- The element is the one of this tuple: the hashes agree, and the keys compare equal. -/
def isKey (t4 : Tuple4) (m : SessionNode) : Bool :=
  s.sharding.ofTuple t4 = s.sharding.ofTuple m.key && tuple4HashEqual t4 m.key

def find (t4 : Tuple4) : Option SessionNode := s.sessionDataMap.find? (s.isKey t4)

def erase (t4 : Tuple4) : TcpSession n :=
  { s with sessionDataMap := s.sessionDataMap.eraseP (s.isKey t4) }

/-- `lock` of a weak pointer to a session. -/
def lockSession (ptr : SessionPtr) : Option SessionNode :=
  s.sessionDataMap.find? (·.ptr = ptr)

/-- `lock` of a weak pointer to an entry. -/
def lockEntry (ptr : EntryPtr) : Option Entry :=
  s.sessionBuckets.buckets.flatten.find? (·.ptr = ptr)

/-- An assignment to the session that is the object `ptr`. -/
def modify (ptr : SessionPtr) (f : SessionData → SessionData) : TcpSession n :=
  { s with
    sessionDataMap := s.sessionDataMap.map fun m =>
      if m.ptr = ptr then { m with data := f m.data } else m }

/-- `getEntryPtr`; no result where its assertion fails. -/
def getEntryPtr (data : SessionData) : Option (Option Entry) := data.context.map s.lockEntry

/-! ## The member functions -/

def onConnection (ptr : SessionPtr) : Option (TcpSession n) := do
  let entry : Entry := ⟨s.nextEntry, ptr⟩
  let buckets ← s.sessionBuckets.insert entry
  return { s.modify ptr fun data => { data with context := some entry.ptr } with
    sessionBuckets := buckets, nextEntry := s.nextEntry + 1 }

def onTimeOut (m : SessionNode) : TcpSession n × List Report :=
  let data := { m.data with
    normallyClosed := false, endTime := some ⟨s.timer.lastCheckTime, 0⟩ }
  (s.erase data.t4, [⟨m.ptr, data⟩])

/-- `~Entry` -/
def destroy (entry : Entry) : TcpSession n × List Report :=
  match s.lockSession entry.weak with
  | none => (s, [])
  | some m => s.onTimeOut m

/-- `onTimer`: the new bucket is in place when the entries are destroyed. -/
def onTimer : TcpSession n × List Report :=
  trace destroy { s with sessionBuckets := s.sessionBuckets.push } s.sessionBuckets.dropped

/-- The check of the timer in `onTcpData`. -/
def checkTimeout (timeStamp : Timeval) : TcpSession n × List Report :=
  let (timer, timeout) := s.timer.checkTime timeStamp.sec
  let s := { s with timer := timer }
  if timeout then s.onTimer else (s, [])

/-- The first packet of a connection, with SYN: a session is made and inserted. -/
def firstConnection (t4 : Tuple4) (timeStamp : Timeval) (len : Int) (flag : Byte) :
    Option (TcpSession n) := do
  let ptr := s.nextSession
  let m : SessionNode := ⟨t4, ptr, .create t4 timeStamp⟩
  let s := { s with sessionDataMap := s.sessionDataMap ++ [m], nextSession := ptr + 1 }
  let s ← s.onConnection ptr
  return s.modify ptr (·.update t4 len flag)

/-- A packet of a session whose entry is gone. -/
def deadConnection (m : SessionNode) (t4 : Tuple4) (timeStamp : Timeval) (len : Int)
    (flag : Byte) : Option (TcpSession n) :=
  if flag &&& TH_SYN != 0 then do
    let s := s.modify m.ptr fun _ => .create t4 timeStamp
    let s ← s.onConnection m.ptr
    return s.modify m.ptr (·.update t4 len flag)
  else some (s.erase t4)

/-- `onTcpData` after the check of the timer. -/
def handle (t4 : Tuple4) (timeStamp : Timeval) (len : Int) (flag : Byte) :
    Option (TcpSession n × List Report) :=
  match s.find t4 with
  | none =>
    if flag &&& TH_SYN != 0 then (s.firstConnection t4 timeStamp len flag).map (·, [])
    else some (s, [])
  | some m => do
    match ← s.getEntryPtr m.data with
    | none => return (← s.deadConnection m t4 timeStamp len flag, [])
    | some entry =>
      if flag &&& TH_FIN != 0 || flag &&& TH_RST != 0 then
        let data := { m.data with endTime := some timeStamp }.update t4 len flag
        return (s.erase t4, [⟨m.ptr, data⟩])
      else
        let buckets ← s.sessionBuckets.insert entry
        let s := { s with sessionBuckets := buckets }
        return (s.modify m.ptr (·.update t4 len flag), [])

end TcpSession

namespace TcpData

variable (p : TcpData)

/-- `len` without the IP header. -/
def size : Int := p.len - 4 * ipHl p.iphdr

/-- The packet passes the check of its length. -/
def accepted : Bool := sizeofTcphdr ≤ p.size

def t4 : Tuple4 := ⟨thSport p.iphdr, thDport p.iphdr, ipSrc p.iphdr, ipDst p.iphdr⟩

def flag : Byte := thFlags p.iphdr

end TcpData

/-- `onTcpData`. It has no result where the back of an empty wheel is used, or
an assertion fails. -/
def TcpSession.onTcpData {n : Nat} (s : TcpSession n) (p : TcpData) :
    Option (TcpSession n × List Report) :=
  if !p.accepted then some (s, [])
  else do
    let (s, es) := s.checkTimeout p.timeStamp
    let (s, es') ← s.handle p.t4 p.timeStamp p.size p.flag
    return (s, es ++ es')

/-- The packets given to a new `TcpSession`, one after the other. -/
def runSession (n : Nat) (sharding : Sharding) (ps : List TcpData) :
    Option (TcpSession n × List Report) :=
  run TcpSession.onTcpData (TcpSession.create n sharding) ps

end Noff
