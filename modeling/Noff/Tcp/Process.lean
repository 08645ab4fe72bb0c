import Noff.Tcp.Table

/-!
# `processTcp`

What a packet does to the stream it belongs to is a function of the stream
alone and of the two timeout sets (`processStream`); `processTcp` finds the
stream and carries the outcome out on the table.
-/

namespace Noff.Tcp

/-- The half of a stream that the packet comes from: `snd`. -/
def TcpStream.snd (s : TcpStream) (fromClient : Bool) : HalfStream :=
  if fromClient then s.client else s.server

def TcpStream.rcv (s : TcpStream) (fromClient : Bool) : HalfStream :=
  if fromClient then s.server else s.client

/-- The stream with these two halves. -/
def TcpStream.withHalves (s : TcpStream) (fromClient : Bool) (snd rcv : HalfStream) : TcpStream :=
  if fromClient then { s with client := snd, server := rcv }
  else { s with client := rcv, server := snd }

section

variable (s : TcpStream) (fromClient : Bool) (snd rcv : HalfStream)

@[simp] theorem TcpStream.snd_withHalves :
    (s.withHalves fromClient snd rcv).snd fromClient = snd := by cases fromClient <;> rfl

@[simp] theorem TcpStream.rcv_withHalves :
    (s.withHalves fromClient snd rcv).rcv fromClient = rcv := by cases fromClient <;> rfl

@[simp] theorem TcpStream.addr_withHalves : (s.withHalves fromClient snd rcv).addr = s.addr := by
  cases fromClient <;> rfl

@[simp] theorem TcpStream.hashIndex_withHalves :
    (s.withHalves fromClient snd rcv).hashIndex = s.hashIndex := by cases fromClient <;> rfl

@[simp] theorem TcpStream.isconnnection_withHalves :
    (s.withHalves fromClient snd rcv).isconnnection = s.isconnnection := by
  cases fromClient <;> rfl

end

/-- A stream, the timeout sets, and the callbacks invoked for it so far. -/
structure Work where
  stream : TcpStream
  tcpTimeoutSet : TimeoutSet
  finTimeoutSet : TimeoutSet
  callbacks : List Callback

/-- What becomes of a stream: it stays, it is freed, or it is freed and a new one
is made of the packet. -/
inductive Outcome where
  | keep (w : Work)
  | free (w : Work)
  | renew (w : Work)

/-- `ntohs(ip_len) - 4 * ip_hl - 4 * th_off` -/
def datalen (d : List Byte) : Int := ipLen d - 4 * ipHl d - 4 * thOff d

/-- The packet as `tcpQueue` reads it. -/
def segmentOf (p : Packet) : Segment :=
  { seq := thSeq p.ip, fin := hasFlag p.ip TH_FIN, urg := hasFlag p.ip TH_URG, urp := thUrp p.ip,
    data := bytesAt p.ip (thdr p.ip + 4 * thOff p.ip) (datalen p.ip).toNat, skblen := p.skblen }

/-- A SYN without ACK and RST, the first packet of a connection. -/
def isFirst (d : List Byte) : Bool := hasFlag d TH_SYN && !hasFlag d TH_ACK && !hasFlag d TH_RST

/-- The callback `cb`, if the stream is connected. -/
def Work.end (w : Work) (cb : Callback) : Work :=
  if w.stream.isconnnection then { w with callbacks := w.callbacks ++ [cb] } else w

/-- A packet with SYN for a stream already there. -/
def processSyn (p : Packet) (fromClient : Bool) (w : Work) : Outcome :=
  let s := w.stream
  if fromClient then
    if s.ts + 1800 < p.timeStamp ∧ !hasFlag p.ip TH_ACK ∧ !hasFlag p.ip TH_RST then .renew w
    else .keep w
  else if s.client.state ≠ .synSent ∨ s.server.state ≠ .close ∨ !hasFlag p.ip TH_ACK then .keep w
  else if s.client.seq ≠ thAck p.ip then .keep w
  else
    let server := { s.server with
      state := .synRecv, seq := thSeq p.ip + 1, firstDataSeq := thSeq p.ip + 1
      ackSeq := thAck p.ip, window := thWin p.ip }
    let (wscaleOn, wscale) := getWscale p.ip
    let (client, server) :=
      if s.client.wscaleOn then
        if wscaleOn then (s.client, { server with wscaleOn := true, wscale := wscale })
        else ({ s.client with wscaleOn := false, wscale := 1 },
          { server with wscaleOn := false, wscale := 1 })
      else (s.client, { server with wscaleOn := false, wscale := 1 })
    .keep { w with stream := { s with ts := p.timeStamp, client := client, server := server } }

/-- Whether a packet is outside of the window of `rcv`. -/
def outOfWindow (d : List Byte) (rcv : HalfStream) : Bool :=
  !(datalen d = 0 && thSeq d = rcv.ackSeq) &&
    (!before (thSeq d) (rcv.ackSeq + rcv.window.setWidth 32 * rcv.wscale) ||
      before (thSeq d + BitVec.ofInt 32 (datalen d)) rcv.ackSeq)

/-- The last packet of the handshake. -/
def establish (p : Packet) (fromClient : Bool) (w : Work) : Work :=
  let s := w.stream
  if fromClient ∧ s.client.state = .synSent ∧ s.server.state = .synRecv ∧
      thAck p.ip = s.server.seq then
    { w with
      stream := { s with
        client := { s.client with state := .established, ackSeq := thAck p.ip }
        server := { s.server with state := .established }
        ts := p.timeStamp
        isconnnection := true }
      callbacks := w.callbacks ++ [.connection] }
  else w

def handleAck (snd : HalfStream) (acknum : BitVec 32) : HalfStream :=
  if 0 < (acknum - snd.ackSeq).toInt then { snd with ackSeq := acknum } else snd

/-- What an ACK confirms: data, or the FIN of the other side. -/
def acknowledge (p : Packet) (fromClient : Bool) (w : Work) : Work :=
  let snd := handleAck (w.stream.snd fromClient) (thAck p.ip)
  let rcv := w.stream.rcv fromClient
  let rcv := if rcv.state = .finSent then { rcv with state := .finConfirmed } else rcv
  { w with stream := w.stream.withHalves fromClient snd rcv }

/-- Both sides have closed, and the last FIN is acknowledged. -/
def TcpStream.closed (s : TcpStream) : Bool :=
  s.client.state = .finConfirmed && s.server.state = .finConfirmed

/-- The handshake and the acknowledgement, for a packet with ACK. -/
def takeAck (p : Packet) (fromClient : Bool) (w : Work) : Work :=
  if hasFlag p.ip TH_ACK then acknowledge p fromClient (establish p fromClient w) else w

/-- One direction of the stream, as `tcpQueue` is given it. -/
def Work.flow (w : Work) (fromClient : Bool) : Flow :=
  ⟨w.stream.snd fromClient, w.stream.rcv fromClient, w.tcpTimeoutSet, w.finTimeoutSet, []⟩

/-- The call of `tcpQueue`. -/
def queueData (aTcp : StreamPtr) (p : Packet) (fromClient : Bool) (w : Work) : Work :=
  let q := tcpQueue ⟨aTcp, w.stream.isconnnection⟩ p.timeStamp (w.flow fromClient) (segmentOf p)
  ⟨w.stream.withHalves fromClient q.snd q.rcv, q.tcpTimeoutSet, q.finTimeoutSet,
    w.callbacks ++ q.chunks.map (.data fromClient)⟩

/-- Data and FIN of a packet, if it has any. -/
def takeData (aTcp : StreamPtr) (p : Packet) (fromClient : Bool) (w : Work) : Work :=
  if 0 < datalen p.ip + (hasFlag p.ip TH_FIN).toNat then queueData aTcp p fromClient w else w

def updateWindow (p : Packet) (fromClient : Bool) (w : Work) : Work :=
  let snd := { w.stream.snd fromClient with window := thWin p.ip }
  { w with stream := w.stream.withHalves fromClient snd (w.stream.rcv fromClient) }

/-- `processTcp` once the stream of the packet is found. -/
def processStream (aTcp : StreamPtr) (p : Packet) (fromClient : Bool) (w : Work) : Outcome :=
  if hasFlag p.ip TH_SYN then processSyn p fromClient w
  else if outOfWindow p.ip (w.stream.rcv fromClient) then .keep w
  else if hasFlag p.ip TH_RST then .free (w.end .rst)
  else
    let w := takeAck p fromClient w
    if hasFlag p.ip TH_ACK ∧ w.stream.closed then .free (w.end .close)
    else
      let w := updateWindow p fromClient (takeData aTcp p fromClient w)
      -- The limit on what is buffered: the stream goes without a callback.
      if 65535 < (w.stream.rcv fromClient).rmemAlloc.toInt then .free w else .keep w

/-- The checks of the packet alone. -/
def wellFormed (d : List Byte) : Bool :=
  4 * ipHl d + sizeofTcphdr ≤ ipLen d && 0 ≤ datalen d && ipSrc d ||| ipDst d ≠ 0

variable (hash : Hash) (junk : StreamPtr → TcpStream)

namespace TcpFragment

/-- The stream, as its work starts. -/
def work (t : TcpFragment) (s : TcpStream) : Work := ⟨s, t.tcpTimeoutSet, t.finTimeoutSet, []⟩

/-- The outcome for a stream, carried out. -/
def conclude (t : TcpFragment) (aTcp : StreamPtr) (w : Work) : TcpFragment × List Event :=
  ({ t.modify aTcp fun _ => w.stream with
      tcpTimeoutSet := w.tcpTimeoutSet, finTimeoutSet := w.finTimeoutSet },
    w.callbacks.map fun cb => ⟨aTcp, w.stream.addr, cb⟩)

/-- `processTcp` after `tcpChecktimeouts`. -/
def processPacket (t : TcpFragment) (p : Packet) : Option (TcpFragment × List Event) :=
  if !wellFormed p.ip then some (t, [])
  else
    match t.findStream hash p.ip with
    | none => if isFirst p.ip then some (t.addNewtcp hash junk p.ip p.timeStamp) else some (t, [])
    | some (aTcp, fromClient) => do
      if isFirst p.ip then
        let t ← t.freeTcpstream aTcp
        return t.addNewtcp hash junk p.ip p.timeStamp
      else
        let s ← t.deref aTcp
        match processStream aTcp p fromClient (t.work s) with
        | .keep w => return t.conclude aTcp w
        | .free w =>
          let (t, es) := t.conclude aTcp w
          return (← t.freeTcpstream aTcp, es)
        | .renew w =>
          let (t, es) := t.conclude aTcp w
          let t ← t.freeTcpstream aTcp
          let (t, es') := t.addNewtcp hash junk p.ip p.timeStamp
          return (t, es ++ es')

def processTcp (t : TcpFragment) (p : Packet) : Option (TcpFragment × List Event) := do
  let (t, es) ← t.tcpChecktimeouts p.timeStamp
  let (t, es') ← t.processPacket hash junk p
  return (t, es ++ es')

end TcpFragment

/-- The headers of a packet without data between port `port` of a client and
port 80 of a server, for the examples of the development. -/
def headersOnly (fromClient : Bool) (port seq ack flags : Byte) : List Byte :=
  [0x45, 0, 0, 40, 0, 0, 0, 0, 64, 6, 0, 0] ++
    (if fromClient then [10, 0, 0, 1, 10, 0, 0, 2, 0, port, 0, 80]
    else [10, 0, 0, 2, 10, 0, 0, 1, 0, 80, 0, port]) ++
    [0, 0, 0, seq, 0, 0, 0, ack, 0x50, flags, 0xff, 0xff, 0, 0, 0, 0]

/-- A packet with data of the connection from port 1 to port 80. -/
def dataPacket (fromClient : Bool) (seq ack flags : Byte) (data : List Byte) : Packet :=
  ⟨(headersOnly fromClient 1 seq ack flags).set 3 (BitVec.ofNat 8 (40 + data.length)) ++ data, 256, 0⟩

end Noff.Tcp
