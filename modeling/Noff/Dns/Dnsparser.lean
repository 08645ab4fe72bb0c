import Noff.Header
import Noff.Lib.Reading
import Noff.Util

/-!
# `Dnsparser.cc`

The parser of DNS messages, with the positions at which it reads. Positions are
`u_int32_t`, and the bytes are signed: `char` is an `int` of 8 bits when it is
added to something. A string is the list of its bytes, and `none` is `NULL`.
-/

namespace Noff.Dns

abbrev Pos := BitVec 32

/-! ## Names -/

section

variable (data : List Byte)

/-- `data[pos]` -/
def readAt (pos : Pos) : Reading Byte := .found pos.toNat (byteAt data pos.toNat)

theorem value_readAt (pos : Pos) : (readAt data pos).value = byteAt data pos.toNat := rfl

variable {data} in
@[simp] theorem within_readAt {n : Nat} {pos : Pos} :
    (readAt data pos).Within n ↔ pos.toNat < n := Reading.within_found

/-- Two bytes as `(data[pos] << 8) + data[pos + 1]` has them, in 16 bits. -/
def readWord (pos : Pos) : Reading (BitVec 16) := do
  let a ← readAt data pos
  let b ← readAt data (pos + 1)
  return (a.signExtend 16 <<< 8) + b.signExtend 16

/-- `pos < datalen`, where `datalen` is converted to the type of `pos`. -/
def below (pos : Pos) : Bool := pos.toNat < data.length

/-- Whether a byte is the first of a pointer. -/
def isPointer (c : Byte) : Bool := c &&& 0xc0 = 0xc0

/-- Where a pointer leads. -/
def target (idPos : Pos) (c d : Byte) : Pos :=
  idPos + ((c &&& 0x3f).zeroExtend 32 <<< 8) + d.signExtend 32

/-- The variables of the first loop of `readRRname`, without `steps`. -/
structure NameScan where
  pos : Pos
  next : Pos
  endPos : Pos
  nameLen : Nat

/-- The condition of the first loop, without that on `steps`. -/
def scanning (v : NameScan) : Reading Bool :=
  if below data v.pos then
    if v.next = v.pos then do
      let c ← readAt data v.pos
      return c ≠ 0
    else return true
  else return false

/-- The body of the first loop; `none` is the `return 0` in it. -/
def scanByte (idPos : Pos) (v : NameScan) : Reading (Option NameScan) := do
  let c ← readAt data v.pos
  if v.next = v.pos then
    if isPointer c then
      if below data (v.pos + 1) then do
        let d ← readAt data (v.pos + 1)
        return some { v with
          endPos := if v.endPos = 0 then v.pos + 1 else v.endPos
          pos := target idPos c d, next := target idPos c d }
      else return none
    else return some { v with
      nameLen := v.nameLen + 1, pos := v.pos + 1, next := v.next + c.signExtend 32 + 1 }
  else
    let printable := 0x21 ≤ c ∧ c ≤ 0x7a ∧ c ≠ 0x5c
    return some { v with nameLen := v.nameLen + if printable then 1 else 4, pos := v.pos + 1 }

/-- The first loop, in which `left` steps are left: its variables behind it, and the steps left. -/
def scanName (idPos : Pos) : Nat → NameScan → Reading (Option (NameScan × Nat))
  | left, v => do
    if ← scanning data v then
      match left with
      | 0 => return some (v, 0)
      | left + 1 =>
        match ← scanByte data idPos v with
        | none => return none
        | some v => scanName idPos left v
    else return some (v, left)

/-- A byte of a name as it is written, escaped where need be. -/
def escape (c : Byte) : List Byte :=
  if 0x21 ≤ c ∧ c ≤ 0x7e ∧ c ≠ 0x5c then [c]
  else
    let digit (x : Byte) : Byte := if x + 0x30 > 0x39 then x + 0x30 + 0x27 else x + 0x30
    [0x5c, 0x78, digit (c / 16), digit (c % 16)]

/-- The condition of the second loop. -/
def copying (pos next : Pos) : Reading Bool :=
  if next = pos then do
    let c ← readAt data pos
    return c ≠ 0
  else return true

/-- The second loop, for at most `fuel` rounds; `none` if these are not enough. -/
def copyName (idPos : Pos) : Nat → Pos → Pos → List Byte → Reading (Option (List Byte))
  | fuel, pos, next, name => do
    if ← copying data pos next then
      match fuel with
      | 0 => return none
      | fuel + 1 =>
        let c ← readAt data pos
        if pos = next then
          if isPointer c then do
            let d ← readAt data (pos + 1)
            copyName idPos fuel (target idPos c d) (target idPos c d) name
          else
            let name := if name ≠ [] then name ++ [0x2e] else name
            copyName idPos fuel (pos + 1) (pos + c.signExtend 32 + 1) name
        else copyName idPos fuel (pos + 1) next (name ++ escape c)
    else return some name

/-- `readRRname`: the name, with the new `*now_pos`. The second loop goes the way of the
first, and takes no more rounds (`readRRname_within`). -/
def readRRname (nowPos idPos : Pos) : Reading (Option (List Byte × Pos)) := do
  match ← scanName data idPos (2 * data.length) ⟨nowPos, nowPos, 0, 0⟩ with
  | none => return none
  | some (v, left) =>
    let endPos := if v.endPos = 0 then v.pos else v.endPos
    if left = 0 ∨ ¬ below data v.pos then return none
    else
      match ← copyName data idPos (2 * data.length) nowPos nowPos [] with
      | none => return none
      | some name => return some (name, endPos + 1)

end

/-! ## Questions and records -/

structure DnsQuestion where
  name : List Byte
  type : BitVec 16
  cls : BitVec 16

/-- A record, with those of its fields that are read. -/
structure DnsRR where
  name : Option (List Byte)
  type : BitVec 16
  cls : BitVec 16
  ttl : BitVec 16
  rdlength : BitVec 16
  data : Option String

/-- What `processDns` gathers. The name is not initialized. -/
structure DnsInfo where
  name : Option (List Byte)
  queries : List DnsQuestion
  answers : List DnsRR

section

variable (data : List Byte)

/-- The loop of `parserQuestions`, for `count` more questions; the position 0 is an error. -/
def parserQuestions (startPos : Pos) : Nat → Pos → DnsInfo → Reading (Pos × DnsInfo)
  | 0, pos, info => return (pos, info)
  | count + 1, pos, info => do
    match ← readRRname data pos startPos with
    | none => return (0, { info with name := none })
    | some (name, pos) =>
      let info := { info with name := some name }
      if below data (pos + 2) then do
        let type ← readWord data pos
        let cls ← readWord data (pos + 2)
        parserQuestions startPos count (pos + 4)
          { info with queries := info.queries ++ [⟨name, type, cls⟩] }
      else return (0, info)

/-- `A`, with the decimal numbers that it prints. -/
def a (pos : Pos) (rdlength : BitVec 16) : Reading (Option String) :=
  if rdlength ≠ 4 then return none
  else do
    let a ← readAt data pos
    let b ← readAt data (pos + 1)
    let c ← readAt data (pos + 2)
    let d ← readAt data (pos + 3)
    return some (toString a.toNat ++ "." ++ toString b.toNat ++ "." ++ toString c.toNat ++ "." ++
      toString d.toNat)

/-- `ttl`, of which the 16 bits of the field are left. -/
def readTtl (pos : Pos) : Reading (BitVec 16) := do
  let a ← readAt data pos
  let b ← readAt data (pos + 1)
  let c ← readAt data (pos + 2)
  let d ← readAt data (pos + 3)
  return [a, b, c, d].foldl (fun ttl x => (ttl <<< 8) + x.signExtend 16) 0

/-- The name of a record: read if there is none yet, skipped as a pointer otherwise. -/
def recordName (pos : Pos) (rr : DnsRR) : Reading (Option (List Byte × Pos)) :=
  match rr.name with
  | none => readRRname data pos pos
  | some name => return some (name, pos + 2)

/-- The fields in front of the data, without the type and the length, and where the data begins. -/
def recordFields (pos : Pos) (rr : DnsRR) : Reading (Pos × DnsRR) :=
  if rr.type = 41 then return (pos + 2, { rr with cls := 0, ttl := 0 })
  else do
    let cls ← readWord data (pos + 2)
    let ttl ← readTtl data (pos + 4)
    return (pos + 10, { rr with cls := cls, ttl := ttl })

/-- `rr.data` -/
def recordData (pos : Pos) (rr : DnsRR) : Reading (Option String) :=
  if rr.type = 1 then a data pos rr.rdlength else return none

def parseRR (rrStart : Pos) (rr : DnsRR) : Reading (Pos × DnsRR) := do
  match ← recordName data rrStart rr with
  | none => return (0, { rr with name := none, type := 0, cls := 0, ttl := 0, data := none })
  | some (name, pos) =>
    let rr := { rr with name := some name, data := none }
    if BitVec.ofNat 32 data.length - pos < 10 then return (0, rr)
    else
      let type ← readWord data pos
      let rdlength ← readWord data (pos + 8)
      let (pos, rr) ← recordFields data pos { rr with type := type, rdlength := rdlength }
      if data.length < (rrStart + 10 + rr.rdlength.zeroExtend 32).toNat then return (0, rr)
      else
        let rdata ← recordData data pos rr
        return (pos + rr.rdlength.zeroExtend 32, { rr with data := rdata })

/-- The loop of `parseRRset`, for `count` more records. -/
def parseRRset : Nat → Pos → DnsRR → DnsInfo → Reading (Pos × DnsInfo)
  | 0, pos, _, info => return (pos, info)
  | count + 1, pos, current, info => do
    let (pos, current) ← parseRR data pos { current with data := none }
    if pos = 0 then return (0, info)
    else
      let info := if current.type = 1 then
        { info with answers := info.answers ++ [current] } else info
      parseRRset count pos current info

end

/-! ## Messages -/

/-- The record of a request. The class of a question is assigned to `Qtype`, as its type
is before it, and `Qclass` to nothing. -/
structure DnsRequest where
  timeStamp : Int
  srcip : BitVec 32
  dstip : BitVec 32
  qname : List Byte
  qtype : BitVec 16
  qclass : BitVec 16

structure DnsResponse where
  timeStamp : Int
  srcip : BitVec 32
  dstip : BitVec 32
  rname : List Byte
  rtype : BitVec 16
  rclass : BitVec 16
  ttl : BitVec 32
  result : String

/-- A record that is passed to the callbacks. -/
inductive DnsRecord where
  | request (r : DnsRequest)
  | response (r : DnsResponse)

structure DnsParser where
  numRequest : BitVec 32
  numResponse : BitVec 32
  numUdp : BitVec 32

/-- What the variables of `processDns` and `parseRRset` hold that are not initialized. -/
structure Uninitialized where
  name : Option (List Byte)
  rr : DnsRR
  request : DnsRequest
  response : DnsResponse

section

variable (data : List Byte)

/-- The header, of which the numbers of questions and answers are used; `none` if there is an
error code above 5. -/
def readHeader : Reading (Option (BitVec 16 × BitVec 16)) := do
  let _ ← readWord data 0
  let _ ← readAt data 2
  let flags ← readAt data 3
  if (flags &&& 0x0f).toNat > 5 then return none
  else
    let qdcount ← readWord data 4
    let ancount ← readWord data 6
    let _ ← readWord data 8
    let _ ← readWord data 10
    return some (qdcount, ancount)

variable (junk : Uninitialized)

/-- The part of `processDns` for a response, as far as it reads the message. -/
def readResponse (qdcount ancount : BitVec 16) : Reading (Pos × DnsInfo) := do
  let (pos, info) ← parserQuestions data 12 qdcount.toNat 12 ⟨junk.name, [], []⟩
  if pos ≠ 0 then parseRRset data ancount.toNat pos { junk.rr with name := info.name } info
  else return (pos, { info with answers := [] })

/-- The record of a response, of which the last answer is left; an answer without data is
not survived. -/
def responseOf (t4 : Tuple4) (timeStamp : Int) (answers : List DnsRR) : Option DnsResponse :=
  answers.foldlM (fun _ res => do
    let name ← res.name
    let result ← res.data
    return ⟨timeStamp, t4.saddr, t4.daddr, name, res.type, res.cls, res.ttl.zeroExtend 32, result⟩)
    { junk.response with rname := [] }

/-- The record of a request, of which the last question is left. -/
def requestOf (t4 : Tuple4) (timeStamp : Int) (queries : List DnsQuestion) : DnsRequest :=
  queries.foldl (fun r res => ⟨timeStamp, t4.saddr, t4.daddr, res.name, res.cls, r.qclass⟩)
    { junk.request with qname := [] }

/-- `processDns`: its result, the parser, and the records passed on; `none` if it crashes. -/
def processDns (parser : DnsParser) (t4 : Tuple4) (timeStamp : Int) :
    Reading (Option (Pos × DnsParser × List DnsRecord)) := do
  let parser := { parser with numUdp := parser.numUdp + 1 }
  if t4.source = 53 then
    if data.length < 12 then return some (0, parser, [])
    else
      match ← readHeader data with
      | none => return some (12, parser, [])
      | some (qdcount, ancount) =>
        let (pos, info) ← readResponse data junk qdcount ancount
        let parser := { parser with numResponse := parser.numResponse + 1 }
        return (responseOf junk t4 timeStamp info.answers).map fun r =>
          (pos, parser, if r.rname ≠ [] then [.response r] else [])
  else if t4.dest = 53 then
    if data.length < 12 then return some (0, parser, [])
    else
      match ← readHeader data with
      | none => return some (12, parser, [])
      | some (qdcount, _) =>
        let (pos, info) ← parserQuestions data 12 qdcount.toNat 12 ⟨junk.name, [], []⟩
        let parser := { parser with numRequest := parser.numRequest + 1 }
        return some (pos, parser, [.request (requestOf junk t4 timeStamp info.queries)])
  else return some (0, parser, [])

end

end Noff.Dns
