import Noff.Hash
import Noff.Tcp.Queue

/-!
# The stream table of `TcpFragment`

The multimap `tcphashmap_` with the two timeout sets, and the functions that
find, add and free streams. A `TcpStream` is named by its address in the map;
addresses are numbers given out in turn (`next`), so that the address of a
freed stream is not that of a later one. Reading a stream through an address
that is not in the map has no result (`none`): it would read freed memory.
-/

namespace Noff.Tcp

/-- An element of `tcphashmap_`: `key` and `stream` are its two components. -/
structure Node where
  key : Nat
  ptr : StreamPtr
  stream : TcpStream

structure TcpFragment where
  /-- In the order in which the map iterates. -/
  tcphashmap : List Node
  tcpTimeoutSet : TimeoutSet
  finTimeoutSet : TimeoutSet
  next : StreamPtr

/-- The state that the constructor leaves. -/
def TcpFragment.empty : TcpFragment := ⟨[], ∅, ∅, 0⟩

/-- `tcpStreamTableSize_` -/
def tcpStreamTableSize : Nat := 500000

/-- A packet given to `processTcp`. -/
structure Packet where
  ip : List Byte
  skblen : BitVec 32
  timeStamp : Int

/-- The callbacks of `TcpFragment`. -/
inductive Callback where
  | connection
  /-- With `FROMCLIENT` or `FROMSERVER`. -/
  | data (fromClient : Bool) (chunk : Chunk)
  | close
  | rst
  | timeout
  deriving DecidableEq

/-- A callback, with the stream it is given. -/
structure Event where
  aTcp : StreamPtr
  addr : Tuple4
  callback : Callback
  deriving DecidableEq

/-- The tuple of a packet, as `findStream` and `addNewtcp` fill it. -/
def tupleOf (d : List Byte) : Tuple4 := ⟨thSport d, thDport d, ipSrc d, ipDst d⟩

def getKey (hash : Hash) (addr : Tuple4) : Nat :=
  hash.getKey addr.saddr addr.source addr.daddr addr.dest tcpStreamTableSize

namespace TcpFragment

/-- The stream at an address. -/
def deref (t : TcpFragment) (aTcp : StreamPtr) : Option TcpStream :=
  (t.tcphashmap.find? (·.ptr = aTcp)).map (·.stream)

/-- The streams of the map, each changed by `f` if it is at address `aTcp`. -/
def modify (t : TcpFragment) (aTcp : StreamPtr) (f : TcpStream → TcpStream) : TcpFragment :=
  { t with tcphashmap := t.tcphashmap.map fun n =>
      if n.ptr = aTcp then { n with stream := f n.stream } else n }

def freeTcpstream (t : TcpFragment) (aTcp : StreamPtr) : Option TcpFragment :=
  (t.deref aTcp).map fun s =>
    { t with
      tcpTimeoutSet := delTimeout t.tcpTimeoutSet aTcp
      finTimeoutSet := delTimeout t.finTimeoutSet aTcp
      tcphashmap := t.tcphashmap.filter fun n => ¬ (n.key = s.hashIndex ∧ n.ptr = aTcp) }

/-- `tcpExit`; `clear` empties the map and both sets. -/
def tcpExit (t : TcpFragment) : TcpFragment :=
  if t.tcphashmap = [] then t
  else { t with tcphashmap := [], finTimeoutSet := ∅, tcpTimeoutSet := ∅ }

/-- The callback `cb` about a stream, if it is connected. -/
def notifyEnd (aTcp : StreamPtr) (s : TcpStream) (cb : Callback) : List Event :=
  if s.isconnnection then [⟨aTcp, s.addr, cb⟩] else []

def clearAllStream (t : TcpFragment) : TcpFragment × List Event :=
  (t.tcpExit, t.tcphashmap.flatMap fun n => notifyEnd n.ptr n.stream .timeout)

/-- `findStream_aux`: the last stream of the bucket with this tuple. -/
def findStreamAux (hash : Hash) (t : TcpFragment) (addr : Tuple4) : Option StreamPtr :=
  ((t.tcphashmap.filter fun n => n.key = getKey hash addr ∧ n.stream.addr = addr).getLast?).map
    (·.ptr)

/-- `findStream`, with `from_client`. -/
def findStream (hash : Hash) (t : TcpFragment) (d : List Byte) : Option (StreamPtr × Bool) :=
  match findStreamAux hash t (tupleOf d) with
  | some aTcp => some (aTcp, true)
  | none =>
    match findStreamAux hash t (tupleOf d).reversed with
    | some aTcp => some (aTcp, false)
    | none => none

end TcpFragment

/-! ## Options -/

/-- `options[i]` -/
def optionAt (d : List Byte) (i : Nat) : Nat := (byteAt d (thdr d + sizeofTcphdr + i)).toNat

/-- The loop of `getWscale` from byte `ind` of the options on, with the values
of `ret` and `*ws` so far. -/
def getWscaleFrom (d : List Byte) (ind : Nat) (ret : Bool) (ws : BitVec 32) : Bool × BitVec 32 :=
  if 4 * thOff d < ind + sizeofTcphdr + 3 then (ret, ws)
  else if optionAt d ind = 0 then (ret, ws)
  else if optionAt d ind = 1 then getWscaleFrom d (ind + 1) ret ws
  else
    let shift := optionAt d (ind + 2)
    let ws := if optionAt d ind = 3 then BitVec.ofNat 32 (2 ^ min 14 shift) else ws
    let ret := if optionAt d ind = 3 then true else ret
    if optionAt d (ind + 1) < 2 then (ret, ws)
    else getWscaleFrom d (ind + optionAt d (ind + 1)) ret ws
termination_by 4 * thOff d - ind

/-- `getWscale`: whether the option is there, and `*ws`. -/
def getWscale (d : List Byte) : Bool × BitVec 32 := getWscaleFrom d 0 false 1

/-! ## New streams -/

/-- The stream that `addNewtcp` makes of its local variable `junk`, whose
fields it does not all assign. The constructor of `a_tcp` leaves two empty lists. -/
def newStream (hash : Hash) (junk : TcpStream) (d : List Byte) (timeStamp : Int) : TcpStream :=
  let (wscaleOn, wscale) := getWscale d
  { junk with
    hashIndex := getKey hash (tupleOf d)
    addr := tupleOf d
    isconnnection := false
    ts := timeStamp
    client := { junk.client with
      count := 0, rmemAlloc := 0, ackSeq := 0, urgCount := 0, state := .synSent
      seq := thSeq d + 1, firstDataSeq := thSeq d + 1, window := thWin d
      wscaleOn := wscaleOn, wscale := wscale, fraglist := [] }
    server := { junk.server with
      count := 0, rmemAlloc := 0, ackSeq := 0, urgCount := 0, state := .close, fraglist := [] } }

namespace TcpFragment

/-- `tcphashmap_.insert` -/
def insert (t : TcpFragment) (s : TcpStream) : TcpFragment :=
  { t with tcphashmap := t.tcphashmap ++ [⟨s.hashIndex, t.next, s⟩], next := t.next + 1 }

/-- `addNewtcp`. `junk` gives the initial contents of its local variable. -/
def addNewtcp (hash : Hash) (junk : StreamPtr → TcpStream) (t : TcpFragment) (d : List Byte)
    (timeStamp : Int) : TcpFragment × List Event :=
  let (t, es) := if tcpStreamTableSize ≤ t.tcphashmap.length then t.clearAllStream else (t, [])
  let t := t.insert (newStream hash (junk t.next) d timeStamp)
  match findStreamAux hash t (tupleOf d) with
  | some temp => ({ t with tcpTimeoutSet := addTcptimeout t.tcpTimeoutSet temp timeStamp }, es)
  | none => (t, es)

end TcpFragment

/-! ## Timeouts -/

/-- The two timeout sets. -/
inductive Timer where
  | tcp | fin

/-- The callback of each of the two loops of `tcpChecktimeouts`. -/
def Timer.callback : Timer → Callback
  | .tcp => .timeout
  | .fin => .close

namespace TcpFragment

def timeoutSet (t : TcpFragment) : Timer → TimeoutSet
  | .tcp => t.tcpTimeoutSet
  | .fin => t.finTimeoutSet

theorem timeoutSet_freeTcpstream {t t' : TcpFragment} {a : StreamPtr}
    (h : t.freeTcpstream a = some t') (k : Timer) :
    t'.timeoutSet k = delTimeout (t.timeoutSet k) a := by
  obtain ⟨s, -, rfl⟩ := Option.map_eq_some_iff.mp h
  cases k <;> rfl

/-- One of the two loops of `tcpChecktimeouts`, with the callbacks so far. -/
def expire (k : Timer) (timeStamp : Int) (t : TcpFragment) (es : List Event) :
    Option (TcpFragment × List Event) :=
  match _he : (t.timeoutSet k).elems with
  | [] => some (t, es)
  | it :: _ =>
    if timeStamp < it.time then some (t, es)
    else
      match t.deref it.aTcp, _hf : t.freeTcpstream it.aTcp with
      | some s, some t' => expire k timeStamp t' (es ++ notifyEnd it.aTcp s k.callback)
      | _, _ => none
termination_by (t.timeoutSet k).elems.length
decreasing_by
  rw [timeoutSet_freeTcpstream _hf, delTimeout, OrderedSet.elems_filter, _he]
  rw [List.filter_cons_of_neg (by simp), List.length_cons]
  exact Nat.lt_succ_of_le (List.length_filter_le ..)

def tcpChecktimeouts (t : TcpFragment) (timeStamp : Int) : Option (TcpFragment × List Event) := do
  let (t, es) ← expire .tcp timeStamp t []
  expire .fin timeStamp t es

end TcpFragment

end Noff.Tcp
