import Noff.HttpParser.Switch

/-!
# `http_parser_execute`

The loop over the bytes of a call around the switch, with the marks, the count of
header bytes, and the callbacks. Five states read on in the data of the call: what
they do is a `Turn`, which says how far. Positions in the data are numbers, and a string that is
reported is what lies between two of them. No result means that an assertion fails.
The members other than `http_errno` are not looked at any more behind an error.
-/

namespace Noff.HttpParser

open Http

variable {δ ρ : Type}

/-! ## The states that read on -/

/-- What the code does on the bytes at hand: it goes on by `skip` bytes, to the end of the
data at most, and has the effects there. -/
structure Turn where
  skip : Nat
  effects : List Effect
  members : Members
  deriving DecidableEq

/-- The loop of `s_header_field`: how many bytes it takes, and the members behind it. -/
def headerFieldLoop (s : Members) : List Byte → Nat × Option Members
  | [] => (0, some s)
  | ch :: bs =>
    if tokens ch = 0 then (0, some s)
    else
      match headerFieldByte s ch with
      | none => (0, none)
      | some s => ((headerFieldLoop s bs).1 + 1, (headerFieldLoop s bs).2)

def headerField (s : Members) (bs : List Byte) : Turn :=
  match headerFieldLoop s bs with
  | (n, none) => ⟨n, [.assert false], s⟩
  | (n, some s) =>
    match bs.drop n with
    | [] => ⟨n, [.countHeaderSize n], s⟩
    | ch :: _ =>
      if ch = 0x3a then
        let s := { s with state := .headerValueDiscardWs }
        ⟨n, [.countHeaderSize n, .data .headerField true s], s⟩
      else ⟨n, [.countHeaderSize n, .error .invalidHeaderToken], s⟩

/-- Where the loop of `s_header_value` stops. -/
inductive Stop where
  | atEnd | cr | lf
  | error (e : HttpErrno)
  /-- At an assertion. -/
  | failed
  deriving DecidableEq

/-- The first CR or LF that `memchr` finds in what may be a header at most, or the end. -/
def lineEnd (bs : List Byte) : Nat :=
  ((bs.take httpMaxHeaderSize).findIdx? fun ch => ch = CR || ch = LF).getD bs.length

/-- The loop of `s_header_value`: how many bytes it takes, where it stops, and the members
behind it. -/
def headerValueLoop (s : Members) : List Byte → Nat × Stop × Members
  | [] => (0, .atEnd, s)
  | ch :: bs =>
    if ch = CR then (0, .cr, s)
    else if ch = LF then (0, .lf, s)
    else if !s.lenientHttpHeaders && !isHeaderChar ch then (0, .error .invalidHeaderToken, s)
    else if s.headerState = .general then
      -- The next byte that the loop looks at is at the end of the line.
      (lineEnd (ch :: bs),
        match (ch :: bs)[lineEnd (ch :: bs)]? with
        | none => .atEnd
        | some c => if c = CR then .cr else .lf, s)
    else
      match headerValueByte s ch with
      | none => (0, .failed, s)
      | some (.error e) => (0, .error e, s)
      | some (.ok s) => ((headerValueLoop s bs).1 + 1, (headerValueLoop s bs).2)

def headerValue (s : Members) (bs : List Byte) : Turn :=
  match headerValueLoop s bs with
  | (n, .atEnd, s) => ⟨n, [.countHeaderSize n], s⟩
  | (n, .cr, s) =>
    let s := { s with state := .headerAlmostDone }
    ⟨n, [.data .headerValue true s, .countHeaderSize n], s⟩
  | (n, .lf, s) =>
    let s := { s with state := .headerAlmostDone }
    let o := headerAlmostDone s LF
    ⟨n, .countHeaderSize n :: .data .headerValue false s :: o.1, o.2⟩
  | (n, .error e, s) => ⟨n, [.error e], s⟩
  | (n, .failed, s) => ⟨n, [.assert false], s⟩

/-- `MIN(content_length, (uint64_t) ((data + len) - p))` -/
def toRead (s : Members) (bs : List Byte) : Nat := min s.contentLength.toNat bs.length

/-- `content_length`, less what is read. -/
def Members.read (s : Members) (n : Nat) : Members :=
  { s with contentLength := s.contentLength - BitVec.ofNat 64 n }

def bodyIdentity (s : Members) (bs : List Byte) : Turn :=
  let s' := s.read (toRead s bs)
  let o :=
    if s'.contentLength = 0 then
      Effect.dataBody.then (messageDone { s' with state := .messageDone })
    else ([], s')
  ⟨toRead s bs - 1,
    .assert (s.contentLength ≠ 0 && s.contentLength ≠ ullongMax) :: .markBody :: o.1, o.2⟩

def bodyIdentityEof (s : Members) (bs : List Byte) : Turn := ⟨bs.length - 1, [.markBody], s⟩

def chunkData (s : Members) (bs : List Byte) : Turn :=
  let s' := s.read (toRead s bs)
  ⟨toRead s bs - 1,
    [.assert s.flags.chunked, .assert (s.contentLength ≠ 0 && s.contentLength ≠ ullongMax),
      .markBody],
    if s'.contentLength = 0 then { s' with state := .chunkDataAlmostDone } else s'⟩

/-- The switch, at the first of the bytes that are left. -/
def turn (s : Members) (ch : Byte) (bs : List Byte) : Turn :=
  match s.state with
  | .headerField => headerField s (ch :: bs)
  | .headerValue => headerValue s (ch :: bs)
  | .bodyIdentity => bodyIdentity s (ch :: bs)
  | .bodyIdentityEof => bodyIdentityEof s (ch :: bs)
  | .chunkData => chunkData s (ch :: bs)
  | _ => ⟨0, (switch s ch).1, (switch s ch).2⟩

/-! ## A call -/

/-- `struct HttpParser` -/
structure Parser where
  members : Members
  nread : BitVec 32
  /-- Nothing is `HPE_OK`. -/
  httpErrno : Option HttpErrno
  deriving DecidableEq

/-- `http_parser_init` -/
def httpParserInit (t : HttpParserType) : Parser := ⟨.init t, 0, none⟩

/-- How a call ends in front of the end of its data. -/
inductive Exit where
  | returned (parsed : Nat)
  | aborted
  deriving DecidableEq

/-- The variables of a call. -/
structure Vars (δ ρ : Type) where
  parser : Parser
  mark : Element → Option Nat
  /-- `body_mark != NULL` -/
  bodyMark : Bool
  data : δ
  records : List ρ
  exit : Option Exit

/-- `HPE_CB_##FOR` -/
def cbErrno : Element → HttpErrno
  | .url => .cbUrl
  | .status => .cbStatus
  | .headerField => .cbHeaderField
  | .headerValue => .cbHeaderValue

namespace Vars

def error (v : Vars δ ρ) (e : HttpErrno) (parsed : Nat) : Vars δ ρ :=
  { v with parser.httpErrno := some e, exit := some (.returned parsed) }

def assert (v : Vars δ ρ) (b : Bool) : Vars δ ρ := if b then v else { v with exit := some .aborted }

/-- `COUNT_HEADER_SIZE` -/
def countHeaderSize (v : Vars δ ρ) (p n : Nat) : Vars δ ρ :=
  let v := { v with parser.nread := v.parser.nread + BitVec.ofNat 32 n }
  if httpMaxHeaderSize < v.parser.nread.toNat then v.error .headerOverflow p else v

/-- `CALLBACK_DATA_` -/
def callbackData (settings : Settings Members δ ρ) (input : List Byte) (p : Nat) (v : Vars δ ρ)
    (k : Element) (advance : Bool) (s : Members) : Vars δ ρ :=
  match v.mark k with
  | none => v
  | some m =>
    match settings.onData ⟨s.type, s, false⟩ k ((input.take p).drop m) v.data with
    | some d => { v with mark := Function.update v.mark k none, data := d }
    | none => v.error (cbErrno k) (if advance then p + 1 else p)

variable (settings : Settings Members δ ρ) (input : List Byte)

/-- An effect of the switch, with the pointer at `p`. -/
def perform (p : Nat) (v : Vars δ ρ) (a : Effect) : Vars δ ρ :=
  if v.exit.isSome then v
  else
    match a with
    | .mark k => { v with mark := Function.update v.mark k ((v.mark k).or (some p)) }
    | .data k advance s => v.callbackData settings input p k advance s
    | .markBody => { v with bodyMark := true }
    | .dataBody => { v with bodyMark := false }
    | .headersComplete s =>
      let (d, rs) := settings.onHeadersComplete ⟨s.type, s, false⟩ v.data
      { v with data := d, records := v.records ++ rs }
    | .countHeaderSize n => v.countHeaderSize p n
    | .resetNread => { v with parser.nread := 0 }
    | .assert b => v.assert b
    | .assertNread => v.assert (v.parser.nread = 1)
    | .error e => v.error e p
    | .exit => { v with exit := some (.returned (p + 1)) }

/-- The byte `ch` is counted. -/
def count (p : Nat) (v : Vars δ ρ) : Vars δ ρ :=
  if v.parser.members.state.parsingHeader then v.perform settings input p (.countHeaderSize 1)
  else v

/-- The effects of a turn. -/
def take (p : Nat) (v : Vars δ ρ) (t : Turn) : Vars δ ρ :=
  t.effects.foldl (perform settings input (p + t.skip)) { v with parser.members := t.members }

/-- The loop; `n` bytes are passed over first. -/
def loop (p : Nat) (v : Vars δ ρ) : List Byte → Nat → Vars δ ρ
  | [], _ => v
  | _ :: bs, n + 1 => loop (p + 1) v bs n
  | ch :: bs, 0 =>
    let v := v.count settings input p
    if v.exit.isSome then v
    else
      let t := turn v.parser.members ch bs
      loop (p + 1) (v.take settings input p t) bs t.skip

/-- The strings that are marked at the end of a call are reported. -/
def finish (v : Vars δ ρ) : Vars δ ρ :=
  let n := [v.mark .headerField, v.mark .headerValue, v.mark .url, v.mark .status].countP
    Option.isSome + v.bodyMark.toNat
  ([.assert (n ≤ 1), .data .headerField false v.parser.members,
      .data .headerValue false v.parser.members, .data .url false v.parser.members, .dataBody,
      .data .status false v.parser.members] : List Effect).foldl
    (perform settings input input.length) v

end Vars

/-- The string whose mark is set to the start of the data. -/
def marked : State → Option Element
  | .headerField => some .headerField
  | .headerValue => some .headerValue
  | .reqPath | .reqSchema | .reqSchemaSlash | .reqSchemaSlashSlash | .reqServerStart | .reqServer
  | .reqServerWithAt | .reqQueryStringStart | .reqQueryString | .reqFragmentStart
  | .reqFragment => some .url
  | .resStatus => some .status
  | _ => none

/-- The variables in front of the loop. -/
def Vars.start (parser : Parser) (d : δ) : Vars δ ρ where
  parser := parser
  mark := fun k => if marked parser.members.state = some k then some 0 else none
  bodyMark := false
  data := d
  records := []
  exit := none

/-- The states in which a stream may end. -/
def atEof : State → Bool
  | .bodyIdentityEof | .dead | .startRes | .startReq => true
  | _ => false

/-- What a call leaves of the parser, how many bytes it has parsed, what the `data` of the
parser points to, and the records that are passed on. -/
structure Result (δ ρ : Type) where
  parser : Parser
  parsed : Nat
  data : δ
  records : List ρ

variable (settings : Settings Members δ ρ)

def httpParserExecute (parser : Parser) (data : List Byte) (d : δ) : Option (Result δ ρ) :=
  if parser.httpErrno.isSome then some ⟨parser, 0, d, []⟩
  else if data = [] then
    if atEof parser.members.state then some ⟨parser, 0, d, []⟩
    else some ⟨{ parser with httpErrno := some .invalidEofState }, 1, d, []⟩
  else
    let v := (Vars.start parser d).loop settings data 0 data 0
    let v := if v.exit.isSome then v else v.finish settings data
    match v.exit with
    | none => some ⟨v.parser, data.length, v.data, v.records⟩
    | some (.returned parsed) => some ⟨v.parser, parsed, v.data, v.records⟩
    | some .aborted => none

end Noff.HttpParser
