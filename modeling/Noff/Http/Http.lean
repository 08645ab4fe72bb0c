import Mathlib.Logic.Function.Basic
import Noff.Http.Parser
import Noff.Tcp.Process
import Noff.Lib.Run

/-!
# `Http.cc`

The callbacks that gather a request or a response, and the table of the
connections to port 80. A connection that is already in the table when it is
announced fails an assertion: `onTcpConnection` has no result.
-/

namespace Noff.Http

open Noff.Tcp

/-! ## Messages -/

/-- The fields that `HttpRequest` and `HttpResponse` share. -/
structure HttpCommon where
  t4 : Tuple4
  headers : List Byte → Option (List Byte)
  bytes : BitVec 32
  currentHeaderField : List Byte
  timeStamp : Int

structure HttpRequest extends HttpCommon where
  method : List Byte
  url : List Byte

structure HttpResponse extends HttpCommon where
  status : List Byte
  /-- Not there before it is first assigned. -/
  statusCode : Option Nat

def HttpCommon.create (t4 : Tuple4) (timeStamp : Int) : HttpCommon :=
  ⟨t4, fun _ => none, 0, [], timeStamp⟩

def HttpRequest.create (t4 : Tuple4) (timeStamp : Int) : HttpRequest :=
  ⟨.create t4 timeStamp, [], []⟩

def HttpResponse.create (t4 : Tuple4) (timeStamp : Int) : HttpResponse :=
  ⟨.create t4 timeStamp, [], none⟩

/-- What is passed to the request and to the response callbacks. -/
inductive HttpRecord where
  | request (r : HttpRequest)
  | response (r : HttpResponse)

/-- `currentHttpRequest` and `currentHttpResponse` -/
structure Current where
  request : HttpRequest
  response : HttpResponse

def tolower (c : Byte) : Byte := if 0x41 ≤ c ∧ c ≤ 0x5a then c + 0x20 else c

def HttpCommon.addBytes (m : HttpCommon) (len : Nat) : HttpCommon :=
  { m with bytes := m.bytes + BitVec.ofNat 32 len }

def HttpCommon.onHeaderFiled (m : HttpCommon) (data : List Byte) : HttpCommon :=
  { m with currentHeaderField := data.map tolower }.addBytes data.length

def HttpCommon.onHeaderValue (m : HttpCommon) (data : List Byte) : Option HttpCommon :=
  if m.currentHeaderField = [] then none
  else some ({ m with
    headers := Function.update m.headers m.currentHeaderField (some data) }.addBytes data.length)

/-- What `onHeadersComplete` leaves of a message. -/
def HttpCommon.clear (m : HttpCommon) : HttpCommon := { m with headers := fun _ => none, bytes := 0 }

def onHeaderFiled (type : HttpParserType) (data : List Byte) (c : Current) : Current :=
  match type with
  | .request => { c with request.toHttpCommon := c.request.onHeaderFiled data }
  | .response => { c with response.toHttpCommon := c.response.onHeaderFiled data }

def onHeaderValue (type : HttpParserType) (data : List Byte) (c : Current) : Option Current :=
  match type with
  | .request =>
    (c.request.onHeaderValue data).map fun m => { c with request.toHttpCommon := m }
  | .response =>
    (c.response.onHeaderValue data).map fun m => { c with response.toHttpCommon := m }

def onUrl (data : List Byte) (c : Current) : Current :=
  { c with
    request.url := data, request.toHttpCommon := c.request.addBytes data.length }

def onStatus (statusCode : Nat) (data : List Byte) (c : Current) : Current :=
  { c with
    response.statusCode := some statusCode, response.status := data
    response.toHttpCommon := c.response.addBytes data.length }

def onHeadersComplete (type : HttpParserType) (method : List Byte) (c : Current) :
    Current × List HttpRecord :=
  match type with
  | .request =>
    let r := { c.request with method := method }
    ({ c with request := { r with toHttpCommon := r.clear } }, [.request r])
  | .response =>
    ({ c with response.toHttpCommon := c.response.clear }, [.response c.response])

/-- `Http::settings` -/
def settings {σ : Type} (g : Grammar σ) : Settings σ Current HttpRecord where
  onData := fun parser k data c =>
    match k with
    | .url => some (onUrl data c)
    | .status => some (onStatus (g.statusCode parser.state) data c)
    | .headerField => some (onHeaderFiled parser.type data c)
    | .headerValue => onHeaderValue parser.type data c
  onHeadersComplete := fun parser => onHeadersComplete parser.type (g.method parser.state)

/-! ## Connections -/

structure HttpDetail (σ : Type) where
  requestData : HttpRequest
  responseData : HttpResponse
  requestParser : HttpParser σ
  responseParser : HttpParser σ

variable {σ : Type} (g : Grammar σ)

def httpParserInit (type : HttpParserType) : HttpParser σ := ⟨type, g.init type, false⟩

def HttpDetail.create (t4 : Tuple4) (timeStamp : Int) : HttpDetail σ :=
  ⟨.create t4 timeStamp, .create t4 timeStamp, httpParserInit g .request,
    httpParserInit g .response⟩

/-- `onTcpData` for the connection found. -/
def HttpDetail.onTcpData (detail : HttpDetail σ) (fromClient : Bool) (data : List Byte) :
    HttpDetail σ × List HttpRecord :=
  let current : Current := ⟨detail.requestData, detail.responseData⟩
  if fromClient then
    let (parser, c, rs) := httpParserExecute g (settings g) detail.requestParser data current
    (⟨c.request, c.response, parser, detail.responseParser⟩, rs)
  else
    let (parser, c, rs) := httpParserExecute g (settings g) detail.responseParser data current
    (⟨c.request, c.response, detail.requestParser, parser⟩, rs)

structure Http (σ : Type) where
  table : Tuple4 → Option (HttpDetail σ)

namespace Http

def empty : Http σ := ⟨fun _ => none⟩

/-- The table with the entry `x` for a connection. -/
def set (http : Http σ) (t4 : Tuple4) (x : Option (HttpDetail σ)) : Http σ :=
  ⟨Function.update http.table t4 x⟩

@[simp] theorem table_set_self (http : Http σ) (t4 : Tuple4) (x : Option (HttpDetail σ)) :
    (http.set t4 x).table t4 = x := Function.update_self ..

theorem table_set_of_ne (http : Http σ) {t4 t4' : Tuple4} (x : Option (HttpDetail σ))
    (h : t4' ≠ t4) : (http.set t4 x).table t4' = http.table t4' := Function.update_of_ne h ..

@[simp] theorem set_table (http : Http σ) (t4 : Tuple4) : http.set t4 (http.table t4) = http :=
  congrArg Http.mk (Function.update_eq_self ..)

def onTcpConnection (http : Http σ) (t4 : Tuple4) (timeStamp : Int) : Option (Http σ) :=
  if t4.dest ≠ 80 then some http
  else if (http.table t4).isSome then none
  else some (http.set t4 (some (.create g t4 timeStamp)))

def onTcpData (http : Http σ) (t4 : Tuple4) (data : List Byte) (fromClient : Bool) :
    Http σ × List HttpRecord :=
  if t4.dest ≠ 80 then (http, [])
  else
    match http.table t4 with
    | none => (http, [])
    | some detail =>
      let (detail, rs) := detail.onTcpData g fromClient data
      (http.set t4 (some detail), rs)

/-- `table.erase`, for a connection to port 80. -/
def erase (http : Http σ) (t4 : Tuple4) : Http σ :=
  if t4.dest ≠ 80 then http else http.set t4 none

def onTcpClose (http : Http σ) (t4 : Tuple4) : Http σ := http.erase t4

def onTcpRst (http : Http σ) (t4 : Tuple4) : Http σ := http.erase t4

def onTcpTimeout (http : Http σ) (t4 : Tuple4) : Http σ := http.erase t4

/-- The callback that `setHttpInThread` binds to a callback of `TcpFragment`. -/
def onEvent (timeStamp : Int) (http : Http σ) (e : Event) : Option (Http σ × List HttpRecord) :=
  match e.callback with
  | .connection => (http.onTcpConnection g e.addr timeStamp).map (·, [])
  | .data fromClient chunk => some (http.onTcpData g e.addr chunk.bytes fromClient)
  | .close => some (http.onTcpClose e.addr, [])
  | .rst => some (http.onTcpRst e.addr, [])
  | .timeout => some (http.onTcpTimeout e.addr, [])

end Http

/-- `processTcp` with `Http` bound to it. -/
def processTcp (hash : Hash) (junk : StreamPtr → TcpStream) (w : TcpFragment × Http σ)
    (p : Packet) : Option ((TcpFragment × Http σ) × List HttpRecord) := do
  let (t, es) ← w.1.processTcp hash junk p
  let (http, rs) ← run (Http.onEvent g p.timeStamp) w.2 es
  return ((t, http), rs)

/-- The state and the records after the packets `ps`. -/
def runHttp (hash : Hash) (junk : StreamPtr → TcpStream) (ps : List Packet) :
    Option ((TcpFragment × Http σ) × List HttpRecord) :=
  run (processTcp g hash junk) (.empty, .empty) ps

end Noff.Http
