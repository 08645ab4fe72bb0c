import Noff.Http.Output

/-!
# The states of `http_parser_execute`, and the bytes they tell apart

`HTTP_PARSER_STRICT` is 1, as `HttpParser.h` has it. The parsers of this program are
initialised for requests or for responses; the two states that only a parser for
both can be in are left out.
-/

namespace Noff.HttpParser

open Http

/-! ## Bytes -/

def CR : Byte := 0x0d

def LF : Byte := 0x0a

def lower (c : Byte) : Byte := c ||| 0x20

def isAlpha (c : Byte) : Bool := 0x61 ≤ lower c && lower c ≤ 0x7a

def isNum (c : Byte) : Bool := 0x30 ≤ c && c ≤ 0x39

def isAlphanum (c : Byte) : Bool := isAlpha c || isNum c

def isMark (c : Byte) : Bool := (text "-_.!~*'()").contains c

def isUserinfoChar (c : Byte) : Bool := isAlphanum c || isMark c || (text "%;:&=+$,").contains c

/-- The separators' complement: what `tokens` has besides letters and digits. -/
def tokenMarks : List Byte := 0x60 :: text "!#$%&'*+-.^_|~"

/-- `tokens`: letters in lower case, and 0 for what is not in a token. -/
def tokens (c : Byte) : Byte :=
  if isAlpha c then lower c else if isNum c || tokenMarks.contains c then c else 0

/-- `unhex`. The table lists 128 entries; those behind them are 0, and not -1. -/
def unhex (c : Byte) : Option Nat :=
  if isNum c then some (c.toNat - 0x30)
  else if 0x61 ≤ lower c && lower c ≤ 0x66 then some (lower c - 0x61 + 10).toNat
  else if 0x80 ≤ c then some 0
  else none

/-- `normal_url_char` -/
def isUrlChar (c : Byte) : Bool := 0x21 ≤ c && c ≤ 0x7e && c ≠ 0x23 && c ≠ 0x3f

def isHeaderChar (c : Byte) : Bool := c = CR || c = LF || c = 0x09 || (31 < c && c ≠ 127)

/-! ## Enumerations -/

/-- `enum state` -/
inductive State where
  | dead
  | startRes | resH | resHT | resHTT | resHTTP
  | resFirstHttpMajor | resHttpMajor | resFirstHttpMinor | resHttpMinor
  | resFirstStatusCode | resStatusCode | resStatusStart | resStatus | resLineAlmostDone
  | startReq | reqMethod | reqSpacesBeforeUrl
  | reqSchema | reqSchemaSlash | reqSchemaSlashSlash
  | reqServerStart | reqServer | reqServerWithAt
  | reqPath | reqQueryStringStart | reqQueryString | reqFragmentStart | reqFragment
  | reqHttpStart | reqHttpH | reqHttpHT | reqHttpHTT | reqHttpHTTP
  | reqFirstHttpMajor | reqHttpMajor | reqFirstHttpMinor | reqHttpMinor | reqLineAlmostDone
  | headerFieldStart | headerField
  | headerValueDiscardWs | headerValueDiscardWsAlmostDone | headerValueDiscardLws
  | headerValueStart | headerValue | headerValueLws | headerAlmostDone
  | chunkSizeStart | chunkSize | chunkParameters | chunkSizeAlmostDone
  | headersAlmostDone | headersDone
  | chunkData | chunkDataAlmostDone | chunkDataDone
  | bodyIdentity | bodyIdentityEof
  | messageDone
  deriving DecidableEq, Repr

/-- `PARSING_HEADER` -/
def State.parsingHeader : State → Bool
  | .chunkData | .chunkDataAlmostDone | .chunkDataDone | .bodyIdentity | .bodyIdentityEof
  | .messageDone => false
  | _ => true

/-- `enum header_states` -/
inductive HeaderState where
  | general | c | co | con
  | matchingConnection | matchingProxyConnection | matchingContentLength
  | matchingTransferEncoding | matchingUpgrade
  | connection | contentLength | transferEncoding | upgrade
  | matchingTransferEncodingChunked
  | matchingConnectionTokenStart | matchingConnectionKeepAlive | matchingConnectionClose
  | matchingConnectionUpgrade | matchingConnectionToken
  | transferEncodingChunked | connectionKeepAlive | connectionClose | connectionUpgrade
  deriving DecidableEq, Repr

/-- `enum http_method` -/
inductive HttpMethod where
  | delete | get | head | post | put | connect | options | trace | copy | lock | mkcol | move
  | propfind | proppatch | search | unlock | bind | rebind | unbind | acl | report | mkactivity
  | checkout | merge | msearch | notify | subscribe | unsubscribe | patch | purge | mkcalendar
  | link | unlink
  deriving DecidableEq, Repr

/-- `method_strings` of a method. -/
def HttpMethod.string (m : HttpMethod) : List Byte := httpMethodStr m.ctorIdx

/-- The values of `enum http_errno` that the parser of this program can have, besides `HPE_OK`. -/
inductive HttpErrno where
  | cbUrl | cbHeaderField | cbHeaderValue | cbStatus
  | invalidEofState | headerOverflow | closedConnection
  | invalidVersion | invalidStatus | invalidMethod | invalidUrl
  | lfExpected | invalidHeaderToken | invalidContentLength | unexpectedContentLength
  | invalidChunkSize | invalidConstant | strict
  deriving DecidableEq, Repr

/-! ## `parse_url_char` -/

/-- The cases of `parse_url_char` that read the query and the fragment: what follows
a URL character or a question mark, and what follows a `#`. -/
def parseUrlRest (next hash : State) (ch : Byte) : State :=
  if isUrlChar ch || ch = 0x3f then next else if ch = 0x23 then hash else .dead

/-- The case of `s_req_server_start` and `s_req_server`. -/
def parseUrlServer (ch : Byte) : State :=
  if ch = 0x2f then .reqPath
  else if ch = 0x3f then .reqQueryStringStart
  else if ch = 0x40 then .reqServerWithAt
  else if isUserinfoChar ch || ch = 0x5b || ch = 0x5d then .reqServer
  else .dead

def parseUrlChar (s : State) (ch : Byte) : State :=
  if ch = 0x20 || ch = CR || ch = LF || ch = 0x09 || ch = 0x0c then .dead
  else
    match s with
    | .reqSpacesBeforeUrl =>
      if ch = 0x2f || ch = 0x2a then .reqPath else if isAlpha ch then .reqSchema else .dead
    | .reqSchema =>
      if isAlpha ch then .reqSchema else if ch = 0x3a then .reqSchemaSlash else .dead
    | .reqSchemaSlash => if ch = 0x2f then .reqSchemaSlashSlash else .dead
    | .reqSchemaSlashSlash => if ch = 0x2f then .reqServerStart else .dead
    | .reqServerWithAt => if ch = 0x40 then .dead else parseUrlServer ch
    | .reqServerStart | .reqServer => parseUrlServer ch
    | .reqPath =>
      if isUrlChar ch then .reqPath
      else if ch = 0x3f then .reqQueryStringStart
      else if ch = 0x23 then .reqFragmentStart
      else .dead
    | .reqQueryStringStart | .reqQueryString => parseUrlRest .reqQueryString .reqFragmentStart ch
    | .reqFragmentStart => parseUrlRest .reqFragment .reqFragmentStart ch
    | .reqFragment => parseUrlRest .reqFragment .reqFragment ch
    | _ => .dead

end Noff.HttpParser
