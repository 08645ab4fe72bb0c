import Noff.Ip.Passed
import Noff.Sharding
import Noff.App.TcpSession
import Noff.Tcp.Origins
import Noff.Lib.Reading

/-!
# The consumers of a datagram

`genIpProc` gives a datagram to the callbacks that are bound: `processTcp`,
`processTcpHeader` and `onTcpData` for TCP, `processUdp` for UDP. They are modelled
here with the positions at which they read the datagram. Only `processTcp` compares
`ip_len` with what it reads, and none compares `th_off` with the size of `struct
tcphdr`. So each of them stays within the datagram exactly if it is not too short for
it, and `processTcp` passes on a part of the header as data exactly if it takes a
segment whose `th_off` is below 5 (`sound_iff`).
-/

namespace Noff

open Reading Tcp

/-- The part of a datagram that is passed on: where it starts, and the length given with it. -/
structure Payload where
  start : Nat
  len : Int
  deriving DecidableEq

section

variable (d : List Byte)

def readIpHl : Reading Nat := field 0 1 (ipHl d)

def readIpLen : Reading Nat := field 2 2 (ipLen d)

/-- The ports, at the same place for TCP and UDP, and the addresses. -/
def readTuple : Reading Tuple4 := do
  let source ← field (thdr d) 2 (thSport d)
  let dest ← field (thdr d + 2) 2 (thDport d)
  let saddr ← field 12 4 (ipSrc d)
  let daddr ← field 16 4 (ipDst d)
  return ⟨source, dest, saddr, daddr⟩

def readSeq : Reading (BitVec 32) := field (thdr d + 4) 4 (thSeq d)

def readAck : Reading (BitVec 32) := field (thdr d + 8) 4 (thAck d)

def readOff : Reading Nat := field (thdr d + 12) 1 (thOff d)

def readFlags : Reading Byte := field (thdr d + 13) 1 (thFlags d)

def readWin : Reading (BitVec 16) := field (thdr d + 14) 2 (thWin d)

def readUrp : Reading (BitVec 16) := field (thdr d + 18) 2 (thUrp d)

/-! ## UDP, TCP headers and sessions -/

/-- `processUdp`: what the callbacks are given. The length is computed unsigned, and given as an
`int`. -/
def processUdp : Reading (Tuple4 × Payload) := do
  let iplen ← readIpLen d
  let hl ← readIpHl d
  let datalen : Int := iplen - 4 * hl - sizeofUdphdr
  let udptuple ← readTuple d
  return (udptuple, ⟨thdr d + sizeofUdphdr, datalen⟩)

/-- `tcpheader` -/
structure TcpHeaderData where
  tuple : Tuple4
  flag : Byte
  len : Int

/-- `processTcpHeader`: what the callbacks are given. -/
def processTcpHeader : Reading TcpHeaderData := do
  let hl ← readIpHl d
  let tuple ← readTuple d
  let flag ← readFlags d
  let iplen ← readIpLen d
  return ⟨tuple, flag, iplen - 4 * hl⟩

/-- What `onTcpData` reads of a packet that it has been given as `len` bytes. -/
def readTcpData (len : Int) : Reading (Option (Tuple4 × Int × Byte)) := do
  let hl ← readIpHl d
  let size := len - 4 * hl
  if size < sizeofTcphdr then return none
  let t4 ← readTuple d
  let flag ← readFlags d
  return some (t4, size, flag)

end

/-- `onTcpData` with what has been read. -/
theorem onTcpData_eq {n : Nat} (s : TcpSession n) (p : TcpData) :
    s.onTcpData p = match (readTcpData p.iphdr p.len).value with
      | none => some (s, [])
      | some (t4, size, flag) => do
        let (s, es) := s.checkTimeout p.timeStamp
        let (s, es') ← s.handle t4 p.timeStamp size flag
        return (s, es ++ es') := by
  by_cases h : p.size < sizeofTcphdr
  · have hnone : (readTcpData p.iphdr p.len).value = none := by
      rw [readTcpData, value_bind]
      exact congrArg value (if_pos h)
    rw [hnone, TcpSession.onTcpData, TcpData.accepted, if_pos (by simpa using h)]
  · have hsome : (readTcpData p.iphdr p.len).value = some (p.t4, p.size, p.flag) := by
      rw [readTcpData, value_bind]
      exact congrArg value (if_neg h)
    rw [hsome, TcpSession.onTcpData, TcpData.accepted, if_neg (by simpa using h)]

/-! ## `processTcp` -/

/-- The option of kind 3: what is read for it, with the values of `ret` and `*ws` then. -/
def readShift (d : List Byte) (ind kind : Nat) (ret : Bool) (ws : BitVec 32) :
    Reading (Bool × BitVec 32) :=
  if kind = 3 then do
    let shift ← field (thdr d + sizeofTcphdr + (ind + 2)) 1 (optionAt d (ind + 2))
    return (true, BitVec.ofNat 32 (2 ^ min 14 shift))
  else return (ret, ws)

/-- The loop of `getWscale`. -/
def readWscaleFrom (d : List Byte) (ind : Nat) (ret : Bool) (ws : BitVec 32) :
    Reading (Bool × BitVec 32) :=
  let options := thdr d + sizeofTcphdr
  if 4 * thOff d < ind + sizeofTcphdr + 3 then return (ret, ws)
  else do
    let kind ← field (options + ind) 1 (optionAt d ind)
    if kind = 0 then return (ret, ws)
    else if kind = 1 then readWscaleFrom d (ind + 1) ret ws
    else
      let r ← readShift d ind kind ret ws
      let size ← field (options + (ind + 1)) 1 (optionAt d (ind + 1))
      if size < 2 then return r
      else readWscaleFrom d (ind + size) r.1 r.2
termination_by 4 * thOff d - ind

/-- `getWscale` -/
def readWscale (d : List Byte) : Reading (Bool × BitVec 32) := do
  let _ ← readOff d
  readWscaleFrom d 0 false 1

/-- What `addNewtcp` reads. -/
def readNewtcp (d : List Byte) : Reading Unit := do
  let _ ← readTuple d
  let _ ← readSeq d
  let _ ← readWin d
  let _ ← readWscale d

section

variable (p : Packet) (fromClient : Bool) (w : Work)

/-- What is read of a packet with SYN for a stream already there. -/
def readSyn : Reading Unit := do
  let s := w.stream
  if fromClient then
    if s.ts + 1800 < p.timeStamp then
      let flags ← readFlags p.ip
      if flags &&& TH_ACK = 0 ∧ flags &&& TH_RST = 0 then readNewtcp p.ip
  else if s.client.state = .synSent ∧ s.server.state = .close then
    let flags ← readFlags p.ip
    if flags &&& TH_ACK ≠ 0 then
      let ack ← readAck p.ip
      if s.client.seq = ack then
        let _ ← readSeq p.ip
        let _ ← readWin p.ip
        if s.client.wscaleOn then
          let _ ← readWscale p.ip

/-- The data of a segment: `tcpQueue` is given it, and copies it or passes it on. -/
def readPayload (d : List Byte) (pl : Payload) : Reading (List Byte) :=
  field pl.start pl.len.toNat (bytesAt d pl.start pl.len.toNat)

/-- What is read of a packet once its stream is found, with the data that `tcpQueue` is given. -/
def readStream : Reading (Option Payload) := do
  let flags ← readFlags p.ip
  if flags &&& TH_SYN ≠ 0 then
    readSyn p fromClient w
    return none
  let _ ← readSeq p.ip
  if outOfWindow p.ip (w.stream.rcv fromClient) then return none
  if flags &&& TH_RST ≠ 0 then return none
  if flags &&& TH_ACK ≠ 0 then
    let _ ← readAck p.ip
  if flags &&& TH_ACK ≠ 0 ∧ (takeAck p fromClient w).stream.closed then return none
  let _ ← readWin p.ip
  let off ← readOff p.ip
  let pl : Payload := ⟨thdr p.ip + 4 * off, datalen p.ip⟩
  if pl.len + (flags &&& TH_FIN).toNat ≤ 0 then return none
  let _ ← readUrp p.ip
  let _ ← readPayload p.ip pl
  return some pl

end

/-- What the checks of a packet alone read. -/
def readWellFormed (d : List Byte) : Reading Bool := do
  let hl ← readIpHl d
  let iplen ← readIpLen d
  if iplen < 4 * hl + sizeofTcphdr then return false
  let off ← readOff d
  if (iplen : Int) - 4 * hl - 4 * off < 0 then return false
  let saddr ← field 12 4 (ipSrc d)
  let daddr ← field 16 4 (ipDst d)
  return saddr ||| daddr ≠ 0

/-- What `processTcp` reads after `tcpChecktimeouts`, with the data that `tcpQueue` is given. -/
def readPacket (hash : Hash) (t : TcpFragment) (p : Packet) : Reading (Option Payload) := do
  if !(← readWellFormed p.ip) then return none
  let _ ← readTuple p.ip
  let flags ← readFlags p.ip
  let first := flags &&& TH_SYN ≠ 0 ∧ flags &&& TH_ACK = 0 ∧ flags &&& TH_RST = 0
  match t.findStream hash p.ip with
  | none =>
    if first then readNewtcp p.ip
    return none
  | some (aTcp, fromClient) =>
    if first then
      readNewtcp p.ip
      return none
    match t.deref aTcp with
    | none => return none
    | some s => readStream p fromClient (t.work s)

/-- `processTcp`: what it reads, and the data that `tcpQueue` is given. -/
def readTcp (hash : Hash) (t : TcpFragment) (p : Packet) : Reading (Option Payload) :=
  match t.tcpChecktimeouts p.timeStamp with
  | none => pure none
  | some (t, _) => readPacket hash t p

/-! ## What is read -/

theorem value_readShift (d : List Byte) (ind kind : Nat) (ret : Bool) (ws : BitVec 32) :
    (readShift d ind kind ret ws).value = (if kind = 3 then true else ret,
      if kind = 3 then BitVec.ofNat 32 (2 ^ min 14 (optionAt d (ind + 2))) else ws) := by
  rw [readShift]
  split <;> rfl

theorem value_readWscale (d : List Byte) : (readWscale d).value = getWscale d := by
  have hfrom (ind : Nat) (ret : Bool) (ws : BitVec 32) :
      (readWscaleFrom d ind ret ws).value = getWscaleFrom d ind ret ws := by
    fun_induction getWscaleFrom d ind ret ws with
    | case1 ind ret ws hend => rw [readWscaleFrom, if_pos hend]; rfl
    | case2 ind ret ws hend hzero =>
      rw [readWscaleFrom, if_neg hend]
      simp [hzero]
    | case3 ind ret ws hend hzero hone ih =>
      rw [readWscaleFrom, if_neg hend]
      simp [hone, ih]
    | case4 ind ret ws hend hzero hone shift ws' ret' hsize =>
      rw [readWscaleFrom, if_neg hend]
      simp only [value_bind, value_field, hzero, hone, if_false, value_readShift]
      exact congrArg value (if_pos hsize)
    | case5 ind ret ws hend hzero hone shift ws' ret' hsize ih =>
      rw [readWscaleFrom, if_neg hend, ← ih]
      simp only [value_bind, value_field, hzero, hone, if_false, value_readShift]
      exact congrArg value (if_neg hsize)
  rw [readWscale, value_bind, hfrom, getWscale]

section

variable {d : List Byte} {n : Nat}

theorem within_readTuple (h : 20 ≤ n) : (readTuple d).Within n ↔ thdr d + 4 ≤ n := by
  simp only [readTuple, within_bind, within_field, within_pure, and_true]
  omega

theorem within_readShift (h : thdr d + 4 * thOff d ≤ n) {ind : Nat}
    (hind : ¬ 4 * thOff d < ind + sizeofTcphdr + 3) (kind : Nat) (ret : Bool) (ws : BitVec 32) :
    (readShift d ind kind ret ws).Within n := by
  rw [readShift]
  split
  · simp only [within_bind, within_field, within_pure, and_true]
    omega
  · exact within_pure _

/-- The loop of `getWscale` ends before the end of the header. -/
theorem within_readWscaleFrom (h : thdr d + 4 * thOff d ≤ n) (ind : Nat) (ret : Bool)
    (ws : BitVec 32) : (readWscaleFrom d ind ret ws).Within n := by
  fun_induction getWscaleFrom d ind ret ws with
  | case1 ind ret ws hend =>
    rw [readWscaleFrom, if_pos hend]
    exact within_pure _
  | case2 ind ret ws hend hzero =>
    rw [readWscaleFrom, if_neg hend]
    simp only [within_bind, within_field, value_field, hzero, if_true, within_pure, and_true]
    omega
  | case3 ind ret ws hend hzero hone ih =>
    rw [readWscaleFrom, if_neg hend]
    simp only [within_bind, within_field, value_field, hone]
    exact ⟨by omega, ih⟩
  | case4 ind ret ws hend hzero hone shift ws' ret' hsize =>
    rw [readWscaleFrom, if_neg hend]
    simp only [within_bind, within_field, value_field, hzero, hone, if_false]
    refine ⟨by omega, within_readShift h hend _ ret ws, by omega, ?_⟩
    exact (congrArg (Within n) (if_pos hsize)).mpr (within_pure _)
  | case5 ind ret ws hend hzero hone shift ws' ret' hsize ih =>
    rw [readWscaleFrom, if_neg hend]
    simp only [within_bind, within_field, value_field, hzero, hone, if_false, value_readShift]
    refine ⟨by omega, within_readShift h hend _ ret ws, by omega, ?_⟩
    exact (congrArg (Within n) (if_neg hsize)).mpr ih

theorem within_readWscale (h₁ : thdr d + 20 ≤ n) (h₂ : thdr d + 4 * thOff d ≤ n) :
    (readWscale d).Within n := by
  simp only [readWscale, readOff, within_bind, within_field]
  exact ⟨by omega, within_readWscaleFrom h₂ 0 false 1⟩

/-- The parts of a segment are in front of position `n`. -/
structure Room (d : List Byte) (n : Nat) : Prop where
  ip : 20 ≤ n
  header : thdr d + 20 ≤ n
  options : thdr d + 4 * thOff d ≤ n
  data : thdr d + 4 * thOff d + (datalen d).toNat ≤ n

namespace Room

variable (h : Room d n)

include h

theorem tuple : (readTuple d).Within n := by
  have := h.header
  exact (within_readTuple h.ip).mpr (by omega)

theorem seq : (readSeq d).Within n := by
  have := h.header
  exact within_field.mpr (.inr (by omega))

theorem ack : (readAck d).Within n := by
  have := h.header
  exact within_field.mpr (.inr (by omega))

theorem win : (readWin d).Within n := by
  have := h.header
  exact within_field.mpr (.inr (by omega))

theorem flags : (readFlags d).Within n := by
  have := h.header
  exact within_field.mpr (.inr (by omega))

theorem wscale : (readWscale d).Within n := within_readWscale h.header h.options

theorem off : (readOff d).Within n := by
  have := h.header
  exact within_field.mpr (.inr (by omega))

theorem urp : (readUrp d).Within n := by
  have := h.header
  exact within_field.mpr (.inr (by omega))

theorem payload : (readPayload d ⟨thdr d + 4 * thOff d, datalen d⟩).Within n :=
  within_field.mpr (.inr h.data)

theorem newtcp : (readNewtcp d).Within n := by
  simp only [readNewtcp, within_bind]
  exact ⟨h.tuple, h.seq, h.win, h.wscale, within_pure _⟩

end Room

theorem within_readSyn {p : Packet} (h : Room p.ip n) (fc : Bool) (w : Work) :
    (readSyn p fc w).Within n := by
  simp only [readSyn, within_ite, within_bind, within_pure, h.flags, h.newtcp, h.ack, h.seq, h.win,
    h.wscale, and_self, implies_true]

theorem within_readStream {p : Packet} (h : Room p.ip n) (fc : Bool) (w : Work) :
    (readStream p fc w).Within n := by
  have hoff : (readOff p.ip).value = thOff p.ip := rfl
  simp only [readStream, within_ite, within_bind, within_pure, hoff, h.flags, h.ack, h.seq, h.win,
    h.off, h.urp, h.payload, within_readSyn h, and_self, implies_true]

theorem hasFlag_iff {mask : Byte} : hasFlag d mask = true ↔ thFlags d &&& mask ≠ 0 := by
  rw [hasFlag, bne_iff_ne]

/-- A mask of one bit gives the flag as a number. -/
theorem toNat_fin (d : List Byte) : (thFlags d &&& TH_FIN).toNat = (hasFlag d TH_FIN).toNat := by
  have h (b : Byte) : (b &&& TH_FIN).toNat = (b &&& TH_FIN != 0).toNat := by
    revert b
    decide +kernel
  exact h (thFlags d)

/-- The data that is given to `tcpQueue`: all that is behind the header that `th_off` gives. -/
theorem value_readStream {p : Packet} {fc : Bool} {w : Work} {pl : Payload} :
    (readStream p fc w).value = some pl ↔ Accepted p fc w ∧
      0 < datalen p.ip + (hasFlag p.ip TH_FIN).toNat ∧
      pl = ⟨thdr p.ip + 4 * thOff p.ip, datalen p.ip⟩ := by
  have hflags : (readFlags p.ip).value = thFlags p.ip := rfl
  have hoff : (readOff p.ip).value = thOff p.ip := rfl
  have hvalue : (readStream p fc w).value =
      if hasFlag p.ip TH_SYN then none
      else if outOfWindow p.ip (w.stream.rcv fc) then none
      else if hasFlag p.ip TH_RST then none
      else if hasFlag p.ip TH_ACK ∧ (takeAck p fc w).stream.closed then none
      else if datalen p.ip + (hasFlag p.ip TH_FIN).toNat ≤ 0 then none
      else some ⟨thdr p.ip + 4 * thOff p.ip, datalen p.ip⟩ := by
    simp only [readStream, value_bind, value_ite, value_pure, hflags, hoff, ← hasFlag_iff,
      toNat_fin, ite_self]
  rw [hvalue]
  constructor
  · intro h
    split at h
    · cases h
    · split at h
      · cases h
      · split at h
        · cases h
        · split at h
          · cases h
          · split at h
            · cases h
            · rename_i hsyn hwin hrst hopen hlen
              refine ⟨⟨?_, ?_, ?_, hopen⟩, by omega, (Option.some.inj h).symm⟩
              · simpa using hsyn
              · simpa using hwin
              · simpa using hrst
  · rintro ⟨⟨hsyn, hwin, hrst, hopen⟩, hlen, rfl⟩
    simp only [hsyn, hwin, hrst, hopen, Int.not_le.mpr hlen, Bool.false_eq_true, if_false]

theorem value_readWellFormed (d : List Byte) : (readWellFormed d).value = wellFormed d := by
  have hhl : (readIpHl d).value = ipHl d := rfl
  have hlen : (readIpLen d).value = ipLen d := rfl
  have hoff : (readOff d).value = thOff d := rfl
  simp only [readWellFormed, value_bind, value_ite, value_pure, value_field, hhl, hlen, hoff]
  rw [wellFormed, datalen]
  by_cases h₁ : 4 * ipHl d + sizeofTcphdr ≤ ipLen d
  · rw [if_neg (by omega), decide_eq_true h₁, Bool.true_and]
    by_cases h₂ : 0 ≤ (ipLen d : Int) - 4 * ipHl d - 4 * thOff d
    · rw [if_neg (by omega), decide_eq_true h₂, Bool.true_and]
      rfl
    · rw [if_pos (by omega), decide_eq_false h₂, Bool.false_and]
  · rw [if_pos (by omega), decide_eq_false h₁, Bool.false_and, Bool.false_and]

theorem within_readWellFormed (h : 20 ≤ ipLen d) : (readWellFormed d).Within (ipLen d) := by
  have hsize : sizeofTcphdr = 20 := rfl
  have hhl : (readIpHl d).value = ipHl d := rfl
  have hlen : (readIpLen d).value = ipLen d := rfl
  simp only [readWellFormed, within_bind, within_ite, within_pure, hhl, hlen, implies_true,
    true_and, and_true]
  refine ⟨within_field.mpr (.inr (by omega)), within_field.mpr (.inr (by omega)), fun hshort => ?_⟩
  refine ⟨within_field.mpr (.inr ?_), fun _ => ⟨within_field.mpr ?_, within_field.mpr ?_⟩⟩
  · rw [thdr]
    omega
  · omega
  · omega

theorem room_of_wellFormed (h : wellFormed d) (hhl : 5 ≤ ipHl d) : Room d (ipLen d) := by
  have hsize : sizeofTcphdr = 20 := rfl
  simp only [wellFormed, Bool.and_eq_true, decide_eq_true_eq] at h
  obtain ⟨⟨h₁, h₂⟩, -⟩ := h
  have h₃ := h₂
  rw [datalen] at h₃
  refine ⟨by omega, ?_, ?_, ?_⟩
  · rw [thdr]
    omega
  · rw [thdr]
    omega
  · rw [thdr, datalen]
    omega

end

/-! ## What is passed on -/

section

variable {hash : Hash} {t : TcpFragment} {p : Packet} {pl : Payload}

theorem first_iff (d : List Byte) : (thFlags d &&& TH_SYN ≠ 0 ∧ thFlags d &&& TH_ACK = 0 ∧
    thFlags d &&& TH_RST = 0) ↔ isFirst d = true := by
  simp only [isFirst, hasFlag, Bool.and_eq_true, Bool.not_eq_true', bne_iff_ne, bne_eq_false_iff_eq,
    and_assoc]

theorem value_readTcp : (readTcp hash t p).value = some pl ↔
    Queues hash t p ∧ pl = ⟨thdr p.ip + 4 * thOff p.ip, datalen p.ip⟩ := by
  have hflags : (readFlags p.ip).value = thFlags p.ip := rfl
  rw [readTcp]
  constructor
  · intro h
    cases hcheck : t.tcpChecktimeouts p.timeStamp with
    | none =>
      rw [hcheck] at h
      cases h
    | some r =>
      obtain ⟨t₁, es⟩ := r
      rw [hcheck] at h
      simp only [readPacket, value_bind, value_ite, value_readWellFormed, hflags, first_iff] at h
      split at h
      · cases h
      · rename_i hwf
        split at h
        · rw [value_ite] at h
          split at h <;> cases h
        · rename_i a fc hfind
          rw [value_ite] at h
          split at h
          · cases h
          · split at h
            · cases h
            · rename_i s hderef
              obtain ⟨hacc, hlen, rfl⟩ := value_readStream.mp h
              exact ⟨⟨t₁, es, a, fc, s, hcheck, by simpa using hwf, hfind, hderef, hacc, hlen⟩, rfl⟩
  · rintro ⟨⟨t₁, es, a, fc, s, hcheck, hwf, hfind, hderef, hacc, hlen⟩, rfl⟩
    have hfirst : isFirst p.ip = false := by rw [isFirst, hacc.syn, Bool.false_and, Bool.false_and]
    have hstream := value_readStream.mpr ⟨hacc, hlen, rfl⟩
    simp only [hcheck, readPacket, value_bind, value_readWellFormed, hflags, first_iff, hwf,
      Bool.not_true, Bool.false_eq_true, if_false, hfind, hfirst, hderef]
    exact hstream

theorem within_readTcp (hlen : 20 ≤ ipLen p.ip) (hhl : 5 ≤ ipHl p.ip) :
    (readTcp hash t p).Within (ipLen p.ip) := by
  rw [readTcp]
  split
  · exact within_pure _
  · simp only [readPacket, within_bind, within_ite, value_readWellFormed, within_pure]
    refine ⟨within_readWellFormed hlen, fun _ => trivial, fun hwf => ?_⟩
    have hroom := room_of_wellFormed (by simpa using hwf) hhl
    refine ⟨hroom.tuple, hroom.flags, ?_⟩
    split
    · simp only [within_bind, within_ite, within_pure]
      exact ⟨fun _ => ⟨hroom.newtcp, trivial⟩, fun _ => trivial⟩
    · simp only [within_bind, within_ite, within_pure]
      refine ⟨fun _ => ⟨hroom.newtcp, trivial⟩, fun _ => ?_⟩
      split
      · exact within_pure _
      · exact within_readStream hroom _ _

end

/-! ## The calls -/

/-- A datagram as `processTcp` is given it. -/
def Handed.packet (h : Handed Int) : Packet := ⟨h.iph, BitVec.ofNat 32 h.skblen, h.timeStamp⟩

/-- The datagrams that `processTcp` is given. -/
def tcpPackets (hs : List (Handed Int)) : List Packet :=
  (hs.filter fun h => ipP h.iph = IPPROTO_TCP).map Handed.packet

/-- The callbacks that are bound. -/
inductive Consumer where
  | processTcp | processTcpHeader | onTcpData | processUdp
  deriving DecidableEq

namespace Consumer

/-- The `ip_p` of the datagrams that it is given. -/
def protocol : Consumer → Byte
  | processUdp => IPPROTO_UDP
  | _ => IPPROTO_TCP

/-- A call, with what is passed on of the datagram: `processTcpHeader` gives the length of the
segment, and `onTcpData` keeps what it reads. -/
def call (hash : Hash) (t : TcpFragment) (h : Handed Int) : Consumer → Reading (Option Payload)
  | processTcp => readTcp hash t h.packet
  | processTcpHeader => do
    let hdr ← Noff.processTcpHeader h.iph
    return some ⟨thdr h.iph, hdr.len⟩
  | onTcpData => do
    let _ ← readTcpData h.iph h.skblen
    return none
  | processUdp => do
    let (_, data) ← Noff.processUdp h.iph
    return some data

/-- The call stays inside of the datagram. -/
structure Sound (hash : Hash) (t : TcpFragment) (h : Handed Int) (c : Consumer) : Prop where
  reads : (c.call hash t h).Within (ipLen h.iph)
  length : ∀ pl, (c.call hash t h).value = some pl → 0 ≤ pl.len
  inside : ∀ pl, (c.call hash t h).value = some pl → pl.start + pl.len ≤ ipLen h.iph
  /-- Data of a TCP segment is none of its header. -/
  data : c = processTcp → ∀ pl, (c.call hash t h).value = some pl →
    pl.len = 0 ∨ thdr h.iph + sizeofTcphdr ≤ pl.start

/-- The datagram is not too short for the consumer, and its data not in the header. -/
def Fits (hash : Hash) (t : TcpFragment) (h : Handed Int) : Consumer → Prop
  | processTcp => 5 ≤ thOff h.iph ∨ ¬ Queues hash t h.packet
  | processTcpHeader | onTcpData => thdr h.iph + 14 ≤ ipLen h.iph
  | processUdp => thdr h.iph + sizeofUdphdr ≤ ipLen h.iph

variable {hash : Hash} {t : TcpFragment} {h : Handed Int}

/-- A call that passes on nothing of the datagram. -/
theorem Sound.iff_none {c : Consumer} (hv : (c.call hash t h).value = none) :
    c.Sound hash t h ↔ (c.call hash t h).Within (ipLen h.iph) := by
  have hno {pl : Payload} (hpl : (c.call hash t h).value = some pl) : False := by
    rw [hv] at hpl
    cases hpl
  exact ⟨Sound.reads, fun hr => ⟨hr, fun _ hpl => (hno hpl).elim, fun _ hpl => (hno hpl).elim,
    fun _ _ hpl => (hno hpl).elim⟩⟩

theorem processTcp_sound_iff (hw : h.WellFormed) :
    processTcp.Sound hash t h ↔ processTcp.Fits hash t h := by
  have hsize : sizeofTcphdr = 20 := rfl
  have hthdr : thdr h.iph = 4 * ipHl h.iph := rfl
  have hhl := hw.header
  have hle := hw.header_le
  have hcall : processTcp.call hash t h = readTcp hash t h.packet := rfl
  have hip : h.packet.ip = h.iph := rfl
  constructor
  · intro hs
    by_cases hq : Queues hash t h.packet
    · -- What is left of `ip_len` behind a header that is too short cannot be empty.
      have hwf : wellFormed h.iph := by
        obtain ⟨-, -, -, -, -, -, hwf, -⟩ := hq
        exact hwf
      have hroom := (room_of_wellFormed hwf hhl).header
      have hdata := hs.data rfl _ (hcall ▸ value_readTcp.mpr ⟨hq, rfl⟩)
      rw [hip, datalen] at hdata
      dsimp only at hdata
      refine .inl ?_
      omega
    · exact .inr hq
  · intro hf
    have hpl {pl : Payload} (hv : (processTcp.call hash t h).value = some pl) :
        5 ≤ thOff h.iph ∧ 0 ≤ datalen h.iph ∧ pl = ⟨thdr h.iph + 4 * thOff h.iph, datalen h.iph⟩ := by
      rw [hcall] at hv
      obtain ⟨hq, rfl⟩ := value_readTcp.mp hv
      refine ⟨hf.resolve_right fun hno => hno hq, ?_, rfl⟩
      obtain ⟨-, -, -, -, -, -, hwf, -⟩ := hq
      simp only [wellFormed, Bool.and_eq_true, decide_eq_true_eq] at hwf
      exact hwf.1.2
    have hreads : (processTcp.call hash t h).Within (ipLen h.iph) := by
      rw [hcall, ← hip]
      exact within_readTcp (by rw [hip]; omega) hhl
    refine ⟨hreads, fun pl hv => ?_, fun pl hv => ?_, fun _ pl hv => ?_⟩
    · obtain ⟨-, h₂, rfl⟩ := hpl hv
      exact h₂
    · obtain ⟨-, -, rfl⟩ := hpl hv
      rw [datalen]
      push_cast
      omega
    · obtain ⟨h₁, -, rfl⟩ := hpl hv
      refine .inr ?_
      dsimp only
      omega

theorem processTcpHeader_sound_iff (hw : h.WellFormed) :
    processTcpHeader.Sound hash t h ↔ processTcpHeader.Fits hash t h := by
  have hthdr : thdr h.iph = 4 * ipHl h.iph := rfl
  have hhl := hw.header
  have hle := hw.header_le
  have hlen : 20 ≤ ipLen h.iph := by omega
  have hreads : (processTcpHeader.call hash t h).Within (ipLen h.iph) ↔
      thdr h.iph + 14 ≤ ipLen h.iph := by
    simp only [call, Noff.processTcpHeader, readIpHl, readFlags, readIpLen, within_bind, within_field,
      within_pure, within_readTuple hlen, and_true]
    omega
  have hvalue : (processTcpHeader.call hash t h).value =
      some ⟨thdr h.iph, ipLen h.iph - 4 * ipHl h.iph⟩ := rfl
  constructor
  · intro hs
    exact hreads.mp hs.reads
  · intro hf
    refine ⟨hreads.mpr hf, fun pl hv => ?_, fun pl hv => ?_, fun he => by cases he⟩
    · obtain rfl := Option.some.inj (hvalue.symm.trans hv)
      dsimp only
      omega
    · obtain rfl := Option.some.inj (hvalue.symm.trans hv)
      dsimp only
      omega

/-- The length with which `onTcpData` is called leaves room for `struct tcphdr` in any case. -/
theorem onTcpData_sound_iff (hw : h.WellFormed) :
    onTcpData.Sound hash t h ↔ onTcpData.Fits hash t h := by
  have hthdr : thdr h.iph = 4 * ipHl h.iph := rfl
  have hhl := hw.header
  have hle := hw.header_le
  have hlen : 20 ≤ ipLen h.iph := by omega
  have hskblen : (sizeofTcphdr : Int) ≤ h.skblen - 4 * ipHl h.iph := by
    obtain ⟨needFree, he⟩ := hw.skblen
    have hsize : sizeofTcphdr = 20 := rfl
    rw [he, IpFragment.skblenOf]
    split <;> omega
  have hif := Int.not_lt.mpr hskblen
  have hreads : (onTcpData.call hash t h).Within (ipLen h.iph) ↔
      thdr h.iph + 14 ≤ ipLen h.iph := by
    simp only [call, readTcpData, within_bind, value_field, hif, if_false, readIpHl, readFlags,
      within_field, within_pure, within_readTuple hlen, and_true]
    omega
  constructor
  · intro hs
    exact hreads.mp hs.reads
  · intro hf
    have hnone : (onTcpData.call hash t h).value = none := rfl
    rw [Sound.iff_none hnone]
    exact hreads.mpr hf

theorem processUdp_sound_iff (hw : h.WellFormed) :
    processUdp.Sound hash t h ↔ processUdp.Fits hash t h := by
  have hsize : sizeofUdphdr = 8 := rfl
  have hthdr : thdr h.iph = 4 * ipHl h.iph := rfl
  have hhl := hw.header
  have hle := hw.header_le
  have hlen : 20 ≤ ipLen h.iph := by omega
  have hvalue : (processUdp.call hash t h).value =
      some ⟨thdr h.iph + sizeofUdphdr, ipLen h.iph - 4 * ipHl h.iph - sizeofUdphdr⟩ := rfl
  constructor
  · intro hs
    have hnonneg := hs.length _ hvalue
    dsimp only at hnonneg
    rw [Fits]
    omega
  · intro hf
    simp only [Fits] at hf
    refine ⟨?_, fun pl hv => ?_, fun pl hv => ?_, fun he => nomatch he⟩
    · simp only [call, Noff.processUdp, readIpHl, readIpLen, within_bind, within_field, within_pure,
        within_readTuple hlen, and_true]
      omega
    · obtain rfl := Option.some.inj (hvalue.symm.trans hv)
      dsimp only
      omega
    · obtain rfl := Option.some.inj (hvalue.symm.trans hv)
      push_cast
      omega

/-- A call stays inside of the datagram exactly if the datagram fits the consumer. -/
theorem sound_iff (hw : h.WellFormed) (c : Consumer) : c.Sound hash t h ↔ c.Fits hash t h := by
  cases c with
  | processTcp => exact processTcp_sound_iff hw
  | processTcpHeader => exact processTcpHeader_sound_iff hw
  | onTcpData => exact onTcpData_sound_iff hw
  | processUdp => exact processUdp_sound_iff hw

end Consumer

/-! ## Runs -/

section

variable {hash : Hash} {junk : StreamPtr → TcpStream} {hs : List (Handed Int)}

/-- The property holds of every call that is made for these datagrams. -/
def AtCalls (hash : Hash) (junk : StreamPtr → TcpStream) (hs : List (Handed Int))
    (P : TcpFragment → Handed Int → Consumer → Prop) : Prop :=
  ∀ hs₁ h hs₂ t es, hs = hs₁ ++ h :: hs₂ → runTcp hash junk (tcpPackets hs₁) = some (t, es) →
    ∀ c : Consumer, c.protocol = ipP h.iph → P t h c

/-- The calls for these datagrams stay inside of them, and the data callbacks `es` are given parts
of what `processTcp` has passed on. -/
structure CallsSound (hash : Hash) (junk : StreamPtr → TcpStream) (hs : List (Handed Int))
    (es : List Event) : Prop where
  calls : AtCalls hash junk hs fun t h c => c.Sound hash t h
  data : ∀ e ∈ es, ∀ fc chunk, e.callback = .data fc chunk → ∃ hs₁ h hs₂ t es₁ pl,
    hs = hs₁ ++ h :: hs₂ ∧ ipP h.iph = IPPROTO_TCP ∧
      runTcp hash junk (tcpPackets hs₁) = some (t, es₁) ∧
      (Consumer.processTcp.call hash t h).value = some pl ∧
      chunk.PartOf (bytesAt h.iph pl.start pl.len.toNat)

theorem tcpPackets_eq_append_cons {ps₁ ps₂ : List Packet} {p : Packet}
    (he : tcpPackets hs = ps₁ ++ p :: ps₂) : ∃ hs₁ h hs₂, hs = hs₁ ++ h :: hs₂ ∧
      ipP h.iph = IPPROTO_TCP ∧ tcpPackets hs₁ = ps₁ ∧ h.packet = p := by
  obtain ⟨l₁, l₂, hl, h₁, h₂⟩ := List.map_eq_append_iff.mp he
  obtain ⟨h, l₃, rfl, rfl, rfl⟩ := List.map_eq_cons_iff.mp h₂
  obtain ⟨hs₁, hs₂, rfl, rfl, h₃⟩ := List.filter_eq_append_iff.mp hl
  obtain ⟨hs₃, hs₄, rfl, hno, hyes, -⟩ := List.filter_eq_cons_iff.mp h₃
  refine ⟨hs₁ ++ hs₃, h, hs₄, by rw [List.append_assoc], by simpa using hyes, ?_, rfl⟩
  rw [tcpPackets, List.filter_append, List.filter_eq_nil_iff.mpr hno, List.append_nil, ← h₁]

/-- What a data callback is given has been passed on. -/
theorem data_of_runTcp {t : TcpFragment} {es : List Event}
    (ht : runTcp hash junk (tcpPackets hs) = some (t, es)) :
    ∀ e ∈ es, ∀ fc chunk, e.callback = .data fc chunk → ∃ hs₁ h hs₂ t es₁ pl,
      hs = hs₁ ++ h :: hs₂ ∧ ipP h.iph = IPPROTO_TCP ∧
        runTcp hash junk (tcpPackets hs₁) = some (t, es₁) ∧
        (Consumer.processTcp.call hash t h).value = some pl ∧
        chunk.PartOf (bytesAt h.iph pl.start pl.len.toNat) := by
  intro e he fc chunk hcb
  obtain ⟨seg, ⟨i, p, t₁, ⟨hp, es₁, hr⟩, hq, rfl⟩, hpart⟩ := (runTcp_from ht).2 e he fc chunk hcb
  obtain ⟨hlt, hget⟩ := List.getElem?_eq_some_iff.mp hp
  have hsplit : tcpPackets hs = (tcpPackets hs).take i ++ p :: (tcpPackets hs).drop (i + 1) := by
    rw [← hget, List.cons_getElem_drop_succ, List.take_append_drop]
  obtain ⟨hs₁, h, hs₂, rfl, htcp, htake, rfl⟩ := tcpPackets_eq_append_cons hsplit
  exact ⟨hs₁, h, hs₂, t₁, es₁, _, rfl, htcp, htake ▸ hr, value_readTcp.mpr ⟨hq, rfl⟩, hpart⟩

/-- The calls of a run stay inside of their datagrams exactly if each datagram fits the consumers
that it is given to. -/
theorem callsSound_iff (clock : Nat → Int) (n : ℕ+) (hash : Hash) (junk : StreamPtr → TcpStream)
    (xs : List (List Byte × Int)) :
    ∃ s hs t es, IpFragment.runHanded clock n xs = some (s, hs) ∧
      runTcp hash junk (tcpPackets hs) = some (t, es) ∧
      (CallsSound hash junk hs es ↔ AtCalls hash junk hs fun t h c => c.Fits hash t h) := by
  obtain ⟨s, hs, hr⟩ := IpFragment.runHanded_total clock n xs
  obtain ⟨t, es, ht, -⟩ := runTcp_total hash junk (tcpPackets hs)
  refine ⟨s, hs, t, es, hr, ht, fun hsound => ?_, fun hfits => ⟨?_, data_of_runTcp ht⟩⟩
  · intro hs₁ h hs₂ t₁ es₁ he h₁ c hc
    have hw := IpFragment.runHanded_wellFormed hr h (by rw [he]; simp)
    exact (Consumer.sound_iff hw c).mp (hsound.calls hs₁ h hs₂ t₁ es₁ he h₁ c hc)
  · intro hs₁ h hs₂ t₁ es₁ he h₁ c hc
    have hw := IpFragment.runHanded_wellFormed hr h (by rw [he]; simp)
    exact (Consumer.sound_iff hw c).mpr (hfits hs₁ h hs₂ t₁ es₁ he h₁ c hc)

/-- An IP header for UDP with nothing behind it. -/
def bareUdp : List Byte := [0x45, 0, 0, 20, 0, 0, 0, 0, 64, 17, 0, 0, 10, 0, 0, 1, 10, 0, 0, 2]

/-- It is handed on, and `processUdp` passes on a length of -8. -/
theorem bareUdp_not_sound :
    ∃ s h, IpFragment.runHanded (fun _ => 0) 1 [(bareUdp, 0)] = some (s, [h]) ∧
      runTcp .plain (fun _ => emptyStream) (tcpPackets [h]) = some (.empty, []) ∧
      (Consumer.processUdp.call .plain .empty h).value = some ⟨28, -8⟩ ∧
      ¬ CallsSound .plain (fun _ => emptyStream) [h] [] := by
  have hrun : (IpFragment.runHanded (fun _ => 0) 1 [(bareUdp, (0 : Int))]).any (fun r =>
      r.2.map (·.iph) = [bareUdp]) := by decide
  obtain ⟨⟨s, hs⟩, hr, hs'⟩ := (Option.any_eq_true ..).mp hrun
  obtain ⟨⟨iph, skblen, ts⟩, hs₁, rfl, rfl, hnil⟩ := List.map_eq_cons_iff.mp (of_decide_eq_true hs')
  obtain rfl := List.map_eq_nil_iff.mp hnil
  have hvalue : (Consumer.processUdp.call .plain .empty ⟨bareUdp, skblen, ts⟩).value =
      some ⟨28, -8⟩ := by
    have hdata : (processUdp bareUdp).value.2 = ⟨28, -8⟩ := by decide
    exact congrArg some hdata
  refine ⟨s, ⟨bareUdp, skblen, ts⟩, hr, rfl, hvalue, fun hsound => ?_⟩
  have hlen := (hsound.calls [] _ [] .empty [] rfl rfl .processUdp rfl).length _ hvalue
  exact absurd hlen (by decide)

end

end Noff
