import Noff.HttpParser.Chars

/-!
# The switch of `http_parser_execute`

The switch over the state is a function to what it does on a byte (`Effect`) and the
members that it leaves. A `REEXECUTE` goes to a state that is known where it stands,
and is an application of what the switch does there.
-/

namespace Noff.HttpParser

open Http

/-- `flags` -/
structure Flags where
  chunked : Bool
  connectionKeepAlive : Bool
  connectionClose : Bool
  connectionUpgrade : Bool
  trailing : Bool
  upgrade : Bool
  skipbody : Bool
  contentlength : Bool
  deriving DecidableEq, Repr

def Flags.none : Flags := ⟨false, false, false, false, false, false, false, false⟩

/-- The members of `struct HttpParser` that the switch works on. -/
structure Members where
  type : HttpParserType
  flags : Flags
  state : State
  headerState : HeaderState
  index : Nat
  lenientHttpHeaders : Bool
  contentLength : BitVec 64
  httpMajor : Nat
  httpMinor : Nat
  statusCode : Nat
  method : HttpMethod
  upgrade : Bool
  deriving DecidableEq, Repr

/-- `start_state` -/
def startState : HttpParserType → State
  | .request => .startReq
  | .response => .startRes

/-- `http_parser_init` -/
def Members.init (t : HttpParserType) : Members where
  type := t
  flags := .none
  state := startState t
  headerState := .general
  index := 0
  lenientHttpHeaders := false
  contentLength := 0
  httpMajor := 0
  httpMinor := 0
  statusCode := 0
  method := .delete
  upgrade := false

/-- What the switch does. `s` are the members that a callback is given. -/
inductive Effect where
  /-- `MARK` -/
  | mark (k : Element)
  /-- `CALLBACK_DATA`, or `CALLBACK_DATA_NOADVANCE` -/
  | data (k : Element) (advance : Bool) (s : Members)
  /-- `MARK(body)` -/
  | markBody
  /-- `CALLBACK_DATA(body)`; there is no callback. -/
  | dataBody
  /-- The call of `on_headers_complete`, which returns 0. -/
  | headersComplete (s : Members)
  /-- `COUNT_HEADER_SIZE` -/
  | countHeaderSize (n : Nat)
  /-- `nread = 0` -/
  | resetNread
  | assert (b : Bool)
  /-- `assert(nread == 1)` -/
  | assertNread
  /-- `SET_ERRNO`, and `goto error` -/
  | error (e : HttpErrno)
  /-- `RETURN` behind the byte -/
  | exit
  deriving DecidableEq, Repr

/-- What the switch does on a byte, and the members it leaves. -/
abbrev Out := List Effect × Members

/-- An effect in front of what the switch does then. -/
def Effect.then (a : Effect) (o : Out) : Out := (a :: o.1, o.2)

/-- `UPDATE_STATE`, and `break` -/
def go (s : Members) (st : State) : Out := ([], { s with state := st })

def fail (s : Members) (e : HttpErrno) : Out := ([.error e], s)

/-- `STRICT_CHECK(ch != c)`, and `UPDATE_STATE` -/
def expect (s : Members) (ch c : Byte) (st : State) : Out :=
  if ch = c then go s st else fail s .strict

def digit (ch : Byte) : Nat := (ch - 0x30).toNat

/-- A number of at most three digits, with one digit more. -/
def addDigit (n : Nat) (ch : Byte) : Option Nat :=
  if n * 10 + digit ch > 999 then none else some (n * 10 + digit ch)

/-- `ULLONG_MAX` -/
def ullongMax : BitVec 64 := BitVec.allOnes 64

/-- `base * t + d`, unless `t` is too large by a conservative limit. -/
def addLength (base : BitVec 64) (t : BitVec 64) (d : Nat) : Option (BitVec 64) :=
  if (ullongMax - base) / base < t then none else some (t * base + BitVec.ofNat 64 d)

/-- `HTTP_MAX_HEADER_SIZE` -/
def httpMaxHeaderSize : Nat := 80 * 1024

/-! ## The end of a message -/

/-- `http_message_needs_eof` -/
def httpMessageNeedsEof (s : Members) : Bool :=
  if s.type = .request then false
  else if s.statusCode / 100 = 1 || s.statusCode = 204 || s.statusCode = 304 || s.flags.skipbody
    then false
  else if s.flags.chunked || s.contentLength ≠ ullongMax then false
  else true

/-- `http_should_keep_alive` -/
def httpShouldKeepAlive (s : Members) : Bool :=
  if 0 < s.httpMajor && 0 < s.httpMinor then
    if s.flags.connectionClose then false else !httpMessageNeedsEof s
  else if !s.flags.connectionKeepAlive then false
  else !httpMessageNeedsEof s

/-- `NEW_MESSAGE` -/
def newMessage (s : Members) : State := if httpShouldKeepAlive s then startState s.type else .dead

def messageDone (s : Members) : Out :=
  ((if s.upgrade then [.exit] else []), { s with state := newMessage s })

def headersDone (s : Members) (ch : Byte) : Out :=
  if ch ≠ LF then fail s .strict
  else
    let hasBody := s.flags.chunked || (0 < s.contentLength && s.contentLength ≠ ullongMax)
    if s.upgrade && (s.method = .connect || s.flags.skipbody || !hasBody) then
      ([.resetNread, .exit], { s with state := newMessage s })
    else
      Effect.resetNread.then <| go s <|
        if s.flags.skipbody then newMessage s
        else if s.flags.chunked then .chunkSizeStart
        else if s.contentLength = 0 then newMessage s
        else if s.contentLength ≠ ullongMax then .bodyIdentity
        else if !httpMessageNeedsEof s then newMessage s
        else .bodyIdentityEof

def headersAlmostDone (s : Members) (ch : Byte) : Out :=
  if ch ≠ LF then fail s .strict
  else if s.flags.trailing then messageDone { s with state := .messageDone }
  else if s.flags.chunked && s.flags.contentlength then fail s .unexpectedContentLength
  else
    let s := { s with
      state := .headersDone
      upgrade := s.flags.upgrade && s.flags.connectionUpgrade || s.method = .connect }
    (Effect.headersComplete s).then (headersDone s ch)

/-! ## Headers -/

def headerFieldStart (s : Members) (ch : Byte) : Out :=
  if ch = CR then go s .headersAlmostDone
  else if ch = LF then headersAlmostDone { s with state := .headersAlmostDone } ch
  else
    let c := tokens ch
    if c = 0 then fail s .invalidHeaderToken
    else
      let h :=
        if c = 0x63 then HeaderState.c
        else if c = 0x70 then .matchingProxyConnection
        else if c = 0x74 then .matchingTransferEncoding
        else if c = 0x75 then .matchingUpgrade
        else .general
      ([.mark .headerField], { s with index := 0, state := .headerField, headerState := h })

/-- One byte more of a string that is matched, which is now at `index`. -/
def matching (name : List Byte) (index : Nat) (c : Byte) (go done miss : HeaderState) :
    HeaderState :=
  if index > name.length || c ≠ name.getD index 0 then miss
  else if index = name.length - 1 then done
  else go

/-- The switch in the loop of `s_header_field`. It has no result where the code
asserts that it does not come. -/
def headerFieldByte (s : Members) (ch : Byte) : Option Members :=
  let c := tokens ch
  let next h := some { s with index := s.index + 1, headerState := h }
  let name n done := next (matching (text n) (s.index + 1) c s.headerState done .general)
  match s.headerState with
  | .general => some s
  | .c => next (if c = 0x6f then .co else .general)
  | .co => next (if c = 0x6e then .con else .general)
  | .con =>
    next (if c = 0x6e then .matchingConnection
      else if c = 0x74 then .matchingContentLength else .general)
  | .matchingConnection => name "connection" .connection
  | .matchingProxyConnection => name "proxy-connection" .connection
  | .matchingContentLength => name "content-length" .contentLength
  | .matchingTransferEncoding => name "transfer-encoding" .transferEncoding
  | .matchingUpgrade => name "upgrade" .upgrade
  | .connection | .contentLength | .transferEncoding | .upgrade =>
    some (if ch ≠ 0x20 then { s with headerState := .general } else s)
  | _ => none

def headerValueStart (s : Members) (ch : Byte) : Out :=
  let s := { s with state := .headerValue, index := 0 }
  let c := lower ch
  let become h := ([Effect.mark .headerValue], { s with headerState := h })
  match s.headerState with
  | .upgrade =>
    ([.mark .headerValue], { s with flags.upgrade := true, headerState := .general })
  | .transferEncoding => become (if c = 0x63 then .matchingTransferEncodingChunked else .general)
  | .contentLength =>
    if !isNum ch then ([.mark .headerValue, .error .invalidContentLength], s)
    else if s.flags.contentlength then
      ([.mark .headerValue, .error .unexpectedContentLength], s)
    else
      ([.mark .headerValue],
        { s with flags.contentlength := true, contentLength := BitVec.ofNat 64 (digit ch) })
  | .connection =>
    become (if c = 0x6b then .matchingConnectionKeepAlive
      else if c = 0x63 then .matchingConnectionClose
      else if c = 0x75 then .matchingConnectionUpgrade
      else .matchingConnectionToken)
  | .matchingConnectionTokenStart => become .matchingConnectionTokenStart
  | _ => become .general

/-- The flag that a value sets at its end, or at a comma. -/
def setFlag (h : HeaderState) (f : Flags) : Flags :=
  match h with
  | .connectionKeepAlive => { f with connectionKeepAlive := true }
  | .connectionClose => { f with connectionClose := true }
  | .transferEncodingChunked => { f with chunked := true }
  | .connectionUpgrade => { f with connectionUpgrade := true }
  | _ => f

/-- The switch in the loop of `s_header_value`: the members, or an error, or nothing
where the code asserts that it does not come. -/
def headerValueByte (s : Members) (ch : Byte) : Option (Except HttpErrno Members) :=
  let c := lower ch
  let become h := some (.ok { s with headerState := h })
  let name n done miss :=
    some (.ok { s with
      index := s.index + 1
      headerState := matching (text n) (s.index + 1) c s.headerState done miss })
  match s.headerState with
  | .connection | .transferEncoding => none
  | .contentLength =>
    if ch = 0x20 then some (.ok s)
    else if !isNum ch then some (.error .invalidContentLength)
    else
      match addLength 10 s.contentLength (digit ch) with
      | none => some (.error .invalidContentLength)
      | some t => some (.ok { s with contentLength := t })
  | .matchingTransferEncodingChunked => name "chunked" .transferEncodingChunked .general
  | .matchingConnectionTokenStart =>
    become (if c = 0x6b then .matchingConnectionKeepAlive
      else if c = 0x63 then .matchingConnectionClose
      else if c = 0x75 then .matchingConnectionUpgrade
      else if tokens c ≠ 0 then .matchingConnectionToken
      else if c = 0x20 || c = 0x09 then .matchingConnectionTokenStart
      else .general)
  | .matchingConnectionKeepAlive =>
    name "keep-alive" .connectionKeepAlive .matchingConnectionToken
  | .matchingConnectionClose => name "close" .connectionClose .matchingConnectionToken
  | .matchingConnectionUpgrade => name "upgrade" .connectionUpgrade .matchingConnectionToken
  | .matchingConnectionToken =>
    if ch = 0x2c then
      some (.ok { s with headerState := .matchingConnectionTokenStart, index := 0 })
    else some (.ok s)
  | .transferEncodingChunked => if ch ≠ 0x20 then become .general else some (.ok s)
  | .connectionKeepAlive | .connectionClose | .connectionUpgrade =>
    if ch = 0x2c then
      some (.ok { s with
        flags := setFlag s.headerState s.flags, headerState := .matchingConnectionTokenStart
        index := 0 })
    else if ch ≠ 0x20 then become .matchingConnectionToken
    else some (.ok s)
  | _ => some (.ok { s with state := .headerValue, headerState := .general })

def headerAlmostDone (s : Members) (ch : Byte) : Out :=
  if ch ≠ LF then fail s .lfExpected else go s .headerValueLws

def headerValueLws (s : Members) (ch : Byte) : Out :=
  if ch = 0x20 || ch = 0x09 then headerValueStart { s with state := .headerValueStart } ch
  else
    headerFieldStart
      { s with flags := setFlag s.headerState s.flags, state := .headerFieldStart } ch

def headerValueDiscardWs (s : Members) (ch : Byte) : Out :=
  if ch = 0x20 || ch = 0x09 then ([], s)
  else if ch = CR then go s .headerValueDiscardWsAlmostDone
  else if ch = LF then go s .headerValueDiscardLws
  else headerValueStart s ch

def headerValueDiscardLws (s : Members) (ch : Byte) : Out :=
  if ch = 0x20 || ch = 0x09 then go s .headerValueDiscardWs
  else
    let s := { s with flags := setFlag s.headerState s.flags, state := .headerFieldStart }
    (Effect.mark .headerValue).then
      ((Effect.data .headerValue false s).then (headerFieldStart s ch))

/-! ## Request and status lines -/

def startRes (s : Members) (ch : Byte) : Out :=
  let s := { s with flags := .none, contentLength := ullongMax }
  if ch = 0x48 then go s .resH
  else if ch = CR || ch = LF then ([], s)
  else fail s .invalidConstant

def resStatusCode (s : Members) (ch : Byte) : Out :=
  if !isNum ch then
    if ch = 0x20 then go s .resStatusStart
    else if ch = CR then go s .resLineAlmostDone
    else if ch = LF then go s .headerFieldStart
    else fail s .invalidStatus
  else
    match addDigit s.statusCode ch with
    | none => fail s .invalidStatus
    | some n => ([], { s with statusCode := n })

def resStatusStart (s : Members) (ch : Byte) : Out :=
  if ch = CR then go s .resLineAlmostDone
  else if ch = LF then go s .headerFieldStart
  else ([.mark .status], { s with state := .resStatus, index := 0 })

/-- `CALLBACK_DATA(k)` in the state `st`. -/
def report (s : Members) (k : Element) (st : State) : Out :=
  ([.data k true { s with state := st }], { s with state := st })

def resStatus (s : Members) (ch : Byte) : Out :=
  if ch = CR then report s .status .resLineAlmostDone
  else if ch = LF then report s .status .headerFieldStart
  else ([], s)

/-- A further digit of a version number, which is put into the members by `set`. -/
def versionDigit (s : Members) (n : Nat) (ch : Byte) (set : Nat → Members) : Out :=
  if !isNum ch then fail s .invalidVersion
  else
    match addDigit n ch with
    | none => fail s .invalidVersion
    | some n => ([], set n)

/-- The methods that the first letter of a request stands for at first. -/
def firstMethods : List (Byte × HttpMethod) :=
  [(0x41, .acl), (0x42, .bind), (0x43, .connect), (0x44, .delete), (0x47, .get), (0x48, .head),
    (0x4c, .lock), (0x4d, .mkcol), (0x4e, .notify), (0x4f, .options), (0x50, .post),
    (0x52, .report), (0x53, .subscribe), (0x54, .trace), (0x55, .unlock)]

def startReq (s : Members) (ch : Byte) : Out :=
  if ch = CR || ch = LF then ([], s)
  else
    let s := { s with flags := .none, contentLength := ullongMax }
    match firstMethods.lookup ch with
    | none => fail s .invalidMethod
    | some m => ([], { s with method := m, index := 1, state := .reqMethod })

/-- The cases of the switch over `method << 16 | index << 8 | ch`. -/
def methodChanges : List ((HttpMethod × Nat × Byte) × HttpMethod) :=
  [((.post, 1, 0x55), .put), ((.post, 1, 0x41), .patch), ((.connect, 1, 0x48), .checkout),
    ((.connect, 2, 0x50), .copy), ((.mkcol, 1, 0x4f), .move), ((.mkcol, 1, 0x45), .merge),
    ((.mkcol, 2, 0x41), .mkactivity), ((.mkcol, 3, 0x41), .mkcalendar),
    ((.subscribe, 1, 0x45), .search), ((.report, 2, 0x42), .rebind), ((.post, 1, 0x52), .propfind),
    ((.propfind, 4, 0x50), .proppatch), ((.put, 2, 0x52), .purge), ((.lock, 1, 0x49), .link),
    ((.unlock, 2, 0x53), .unsubscribe), ((.unlock, 2, 0x42), .unbind), ((.unlock, 3, 0x49), .unlink)]

def reqMethod (s : Members) (ch : Byte) : Out :=
  if ch = 0 then fail s .invalidMethod
  else
    -- The string ends in a NUL; behind it there is nothing to read.
    match (s.method.string ++ [0])[s.index]? with
    | none => ([.assert false], s)
    | some c =>
      if ch = 0x20 && c = 0 then ([], { s with state := .reqSpacesBeforeUrl, index := s.index + 1 })
      else if ch = c then ([], { s with index := s.index + 1 })
      else if isAlpha ch then
        match methodChanges.lookup (s.method, s.index, ch) with
        | none => fail s .invalidMethod
        | some m => ([], { s with method := m, index := s.index + 1 })
      else if ch = 0x2d && s.index = 1 && s.method = .mkcol then
        ([], { s with method := .msearch, index := s.index + 1 })
      else fail s .invalidMethod

/-- `parse_url_char`, and the check behind it. -/
def url (s : Members) (st : State) (ch : Byte) : Out :=
  let s := { s with state := parseUrlChar st ch }
  if s.state = .dead then fail s .invalidUrl else ([], s)

def reqSpacesBeforeUrl (s : Members) (ch : Byte) : Out :=
  if ch = 0x20 then ([], s)
  else
    let st := if s.method = .connect then .reqServerStart else .reqSpacesBeforeUrl
    (Effect.mark .url).then (url s st ch)

/-- The states in front of a server's name. -/
def reqSchema (s : Members) (ch : Byte) : Out :=
  if ch = 0x20 || ch = CR || ch = LF then fail s .invalidUrl else url s s.state ch

/-- The states in which a URL can end. -/
def reqUrl (s : Members) (ch : Byte) : Out :=
  if ch = 0x20 then report s .url .reqHttpStart
  else if ch = CR || ch = LF then
    report { s with httpMajor := 0, httpMinor := 9 } .url
      (if ch = CR then .reqLineAlmostDone else .headerFieldStart)
  else url s s.state ch

/-! ## Chunks -/

def chunkSizeStart (s : Members) (ch : Byte) : Out :=
  Effect.assertNread.then <| (Effect.assert s.flags.chunked).then <|
    match unhex ch with
    | none => fail s .invalidChunkSize
    | some d => ([], { s with contentLength := BitVec.ofNat 64 d, state := .chunkSize })

def chunkSize (s : Members) (ch : Byte) : Out :=
  (Effect.assert s.flags.chunked).then <|
    if ch = CR then go s .chunkSizeAlmostDone
    else
      match unhex ch with
      | none =>
        if ch = 0x3b || ch = 0x20 then go s .chunkParameters else fail s .invalidChunkSize
      | some d =>
        match addLength 16 s.contentLength d with
        | none => fail s .invalidContentLength
        | some t => ([], { s with contentLength := t })

def chunkParameters (s : Members) (ch : Byte) : Out :=
  (Effect.assert s.flags.chunked).then <|
    if ch = CR then go s .chunkSizeAlmostDone else ([], s)

def chunkSizeAlmostDone (s : Members) (ch : Byte) : Out :=
  (Effect.assert s.flags.chunked).then <|
    if ch ≠ LF then fail s .strict
    else
      Effect.resetNread.then <|
        if s.contentLength = 0 then
          ([], { s with flags.trailing := true, state := .headerFieldStart })
        else go s .chunkData

def chunkDataAlmostDone (s : Members) (ch : Byte) : Out :=
  (Effect.assert s.flags.chunked).then <| (Effect.assert (s.contentLength = 0)).then <|
    if ch ≠ CR then fail s .strict else ([.dataBody], { s with state := .chunkDataDone })

def chunkDataDone (s : Members) (ch : Byte) : Out :=
  (Effect.assert s.flags.chunked).then <|
    if ch ≠ LF then fail s .strict else ([.resetNread], { s with state := .chunkSizeStart })

/-! ## The switch -/

/-- The states that look at one byte. -/
def switch (s : Members) (ch : Byte) : Out :=
  match s.state with
  | .dead => if ch = CR || ch = LF then ([], s) else fail s .closedConnection
  | .startRes => startRes s ch
  | .resH => expect s ch 0x54 .resHT
  | .resHT => expect s ch 0x54 .resHTT
  | .resHTT => expect s ch 0x50 .resHTTP
  | .resHTTP => expect s ch 0x2f .resFirstHttpMajor
  | .resFirstHttpMajor =>
    if !isNum ch then fail s .invalidVersion
    else ([], { s with httpMajor := digit ch, state := .resHttpMajor })
  | .resHttpMajor =>
    if ch = 0x2e then go s .resFirstHttpMinor
    else versionDigit s s.httpMajor ch fun n => { s with httpMajor := n }
  | .resFirstHttpMinor =>
    if !isNum ch then fail s .invalidVersion
    else ([], { s with httpMinor := digit ch, state := .resHttpMinor })
  | .resHttpMinor =>
    if ch = 0x20 then go s .resFirstStatusCode
    else versionDigit s s.httpMinor ch fun n => { s with httpMinor := n }
  | .resFirstStatusCode =>
    if !isNum ch then if ch = 0x20 then ([], s) else fail s .invalidStatus
    else ([], { s with statusCode := digit ch, state := .resStatusCode })
  | .resStatusCode => resStatusCode s ch
  | .resStatusStart => resStatusStart s ch
  | .resStatus => resStatus s ch
  | .resLineAlmostDone => expect s ch LF .headerFieldStart
  | .startReq => startReq s ch
  | .reqMethod => reqMethod s ch
  | .reqSpacesBeforeUrl => reqSpacesBeforeUrl s ch
  | .reqSchema | .reqSchemaSlash | .reqSchemaSlashSlash | .reqServerStart => reqSchema s ch
  | .reqServer | .reqServerWithAt | .reqPath | .reqQueryStringStart | .reqQueryString
  | .reqFragmentStart | .reqFragment => reqUrl s ch
  | .reqHttpStart =>
    if ch = 0x48 then go s .reqHttpH
    else if ch = 0x20 then ([], s)
    else fail s .invalidConstant
  | .reqHttpH => expect s ch 0x54 .reqHttpHT
  | .reqHttpHT => expect s ch 0x54 .reqHttpHTT
  | .reqHttpHTT => expect s ch 0x50 .reqHttpHTTP
  | .reqHttpHTTP => expect s ch 0x2f .reqFirstHttpMajor
  | .reqFirstHttpMajor =>
    if !isNum ch || ch = 0x30 then fail s .invalidVersion
    else ([], { s with httpMajor := digit ch, state := .reqHttpMajor })
  | .reqHttpMajor =>
    if ch = 0x2e then go s .reqFirstHttpMinor
    else versionDigit s s.httpMajor ch fun n => { s with httpMajor := n }
  | .reqFirstHttpMinor =>
    if !isNum ch then fail s .invalidVersion
    else ([], { s with httpMinor := digit ch, state := .reqHttpMinor })
  | .reqHttpMinor =>
    if ch = CR then go s .reqLineAlmostDone
    else if ch = LF then go s .headerFieldStart
    else versionDigit s s.httpMinor ch fun n => { s with httpMinor := n }
  | .reqLineAlmostDone => if ch ≠ LF then fail s .lfExpected else go s .headerFieldStart
  | .headerFieldStart => headerFieldStart s ch
  | .headerValueDiscardWs => headerValueDiscardWs s ch
  | .headerValueDiscardWsAlmostDone => expect s ch LF .headerValueDiscardLws
  | .headerValueDiscardLws => headerValueDiscardLws s ch
  | .headerValueStart => headerValueStart s ch
  | .headerValueLws => headerValueLws s ch
  | .headerAlmostDone => headerAlmostDone s ch
  | .headersAlmostDone => headersAlmostDone s ch
  | .headersDone => headersDone s ch
  | .messageDone => messageDone s
  | .chunkSizeStart => chunkSizeStart s ch
  | .chunkSize => chunkSize s ch
  | .chunkParameters => chunkParameters s ch
  | .chunkSizeAlmostDone => chunkSizeAlmostDone s ch
  | .chunkDataAlmostDone => chunkDataAlmostDone s ch
  | .chunkDataDone => chunkDataDone s ch
  -- These states read on in the data.
  | .headerField | .headerValue | .bodyIdentity | .bodyIdentityEof | .chunkData => ([], s)

end Noff.HttpParser
