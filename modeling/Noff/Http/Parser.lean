import Noff.Header

/-!
# `http_parser_execute`

The vendored parser is one loop over the bytes of a call, around a switch over
the parser's state. The loop is modelled here, with the marks it sets and the
callbacks it invokes; the switch is a parameter (`Grammar`). A string that is
being read when a call ends is reported as far as it goes, and is marked again
at the start of the next call.
-/

namespace Noff.Http

/-- `enum http_parser_type` -/
inductive HttpParserType where
  | request | response
  deriving DecidableEq, Repr

/-- The strings that the data callbacks report. -/
inductive Element where
  | url | status | headerField | headerValue
  deriving DecidableEq, Repr

/-- What the switch does besides changing the state: `MARK`, `CALLBACK_DATA`, the call
of `on_headers_complete`, and `SET_ERRNO`. The string that `CALLBACK_DATA` reports
ends in front of the byte at hand. -/
inductive Action where
  | mark (k : Element)
  | data (k : Element)
  | headersComplete
  | error
  deriving DecidableEq, Repr

/-- The parts of `HttpParser.cc` that are not modelled; `σ` are the states of a parser. -/
structure Grammar (σ : Type) where
  /-- `http_parser_init` -/
  init : HttpParserType → σ
  /-- The switch over the state, on one byte. -/
  step : σ → Byte → List Action × σ
  /-- The string that is marked at the start of a call in this state. -/
  marked : σ → Option Element
  /-- Whether the end of the stream is expected in this state. -/
  atEof : σ → Bool
  /-- `http_method_str` of the method read. -/
  method : σ → List Byte
  /-- `status_code` -/
  statusCode : σ → Nat

structure HttpParser (σ : Type) where
  type : HttpParserType
  state : σ
  /-- `http_errno != 0` -/
  httpErrno : Bool

/-- `http_parser_settings`: callbacks that change what `HttpParser::data` points
to, and pass records on. A data callback that does not return 0 has no result. -/
structure Settings (σ δ ρ : Type) where
  onData : HttpParser σ → Element → List Byte → δ → Option δ
  onHeadersComplete : HttpParser σ → δ → δ × List ρ

/-- The variables of a call of `http_parser_execute`. A mark is kept as the
string from the marked byte on; at most one is set. -/
structure Exec (σ δ ρ : Type) where
  parser : HttpParser σ
  mark : Option (Element × List Byte)
  data : δ
  records : List ρ

variable {σ δ ρ : Type} (g : Grammar σ) (settings : Settings σ δ ρ)

namespace Exec

/-- `CALLBACK_DATA` -/
def report (e : Exec σ δ ρ) (k : Element) : Exec σ δ ρ :=
  match e.mark with
  | none => e
  | some (k', at_) =>
    if k' = k then
      match settings.onData e.parser k at_ e.data with
      | some d => { e with mark := none, data := d }
      | none => { e with mark := none, parser.httpErrno := true }
    else e

def act (e : Exec σ δ ρ) (a : Action) : Exec σ δ ρ :=
  if e.parser.httpErrno then e
  else
    match a with
    | .mark k => { e with mark := e.mark.or (some (k, [])) }
    | .data k => e.report settings k
    | .headersComplete =>
      let (d, rs) := settings.onHeadersComplete e.parser e.data
      { e with data := d, records := e.records ++ rs }
    | .error => { e with parser.httpErrno := true }

/-- The body of the loop. -/
def byte (e : Exec σ δ ρ) (ch : Byte) : Exec σ δ ρ :=
  if e.parser.httpErrno then e
  else
    let (as, s) := g.step e.parser.state ch
    let e := as.foldl (act settings) { e with parser.state := s }
    { e with mark := e.mark.map fun (k, at_) => (k, at_ ++ [ch]) }

/-- The callbacks behind the loop, for a mark left over. -/
def finish (e : Exec σ δ ρ) : Exec σ δ ρ :=
  match e.mark with
  | some (k, _) => e.act settings (.data k)
  | none => e

end Exec

/-- The variables in front of the loop. -/
def Exec.start (parser : HttpParser σ) (d : δ) : Exec σ δ ρ :=
  ⟨parser, (g.marked parser.state).map (·, []), d, []⟩

/-- The parser and what its `data` points to after a call, and the records passed on. -/
def httpParserExecute (parser : HttpParser σ) (data : List Byte) (d : δ) :
    HttpParser σ × δ × List ρ :=
  if parser.httpErrno then (parser, d, [])
  else if data = [] then
    (if g.atEof parser.state then parser else { parser with httpErrno := true }, d, [])
  else
    let e := (data.foldl (Exec.byte g settings) (Exec.start g parser d)).finish settings
    (e.parser, e.data, e.records)

end Noff.Http
