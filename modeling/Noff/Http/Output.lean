import Noff.Http.Http
import Noff.Hash
import Noff.Lib.Fields

/-!
# The lines of `Http.cc`

`to_string` prints a record as a line of fields with tabs between them. The destination address
is printed from `srcAddr`, and header values are printed as they are, with the tabs that the
parser allows in them. So a line gives its record's fields back if and only if the two addresses
are the same and no value that is printed has a tab (`HttpRequest.splits_iff`,
`HttpResponse.splits_iff`); the fields tell all that they print apart
(`HttpRequest.shown_of_fields`). The method of a request is the name of one in every run
(`runHttp_emits`), so that no tab is in it.
-/

namespace Noff.Http

open Noff.Tcp

def tab : Byte := 0x09

/-! ## Addresses -/

def htons (x : BitVec 16) : BitVec 16 := x.extractLsb' 0 8 ++ x.extractLsb' 8 8

def ntohs (x : BitVec 16) : BitVec 16 := x.extractLsb' 0 8 ++ x.extractLsb' 8 8

theorem ntohs_htons (x : BitVec 16) : ntohs (htons x) = x := by
  refine BitVec.eq_of_getLsbD_eq fun i hi => ?_
  simp only [ntohs, htons, BitVec.getLsbD_append, BitVec.getLsbD_extractLsb']
  rcases (by omega : i < 8 ∨ 8 ≤ i ∧ i - 8 < 8) with h | ⟨h₁, h₂⟩
  · simp [h]
  · simp [h₂, Nat.not_lt.mpr h₁, Nat.add_sub_cancel' h₁]

/-- `muduo::net::InetAddress`, as far as it is used: the constructor from a port and an address
in network order, and two members. -/
structure InetAddress (A : Type) where
  ofSockaddr : BitVec 16 → BitVec 32 → A
  toIp : A → List Byte
  toPort : A → BitVec 16

variable {A : Type}

/-- The members give the address in dotted decimals, and the port in host order. -/
structure InetAddress.Documented (net : InetAddress A) : Prop where
  toIp : ∀ port addr, net.toIp (net.ofSockaddr port addr) = dotted (bytesOf32 addr)
  toPort : ∀ port addr, net.toPort (net.ofSockaddr port addr) = ntohs port

section

variable (net : InetAddress A)

def toSrcInetAddress (t4 : Tuple4) : A := net.ofSockaddr (htons t4.source) t4.saddr

def toDstInetAddress (t4 : Tuple4) : A := net.ofSockaddr (htons t4.dest) t4.daddr

/-- The member that the constructor of a message sets, and nothing changes. -/
def HttpCommon.srcAddr (m : HttpCommon) : A := toSrcInetAddress net m.t4

def HttpCommon.dstAddr (m : HttpCommon) : A := toDstInetAddress net m.t4

/-! ## `to_string` -/

/-- The names of the methods, from `HTTP_METHOD_MAP`. -/
def methodStrings : List String :=
  ["DELETE", "GET", "HEAD", "POST", "PUT", "CONNECT", "OPTIONS", "TRACE", "COPY", "LOCK", "MKCOL",
    "MOVE", "PROPFIND", "PROPPATCH", "SEARCH", "UNLOCK", "BIND", "REBIND", "UNBIND", "ACL",
    "REPORT", "MKACTIVITY", "CHECKOUT", "MERGE", "M-SEARCH", "NOTIFY", "SUBSCRIBE", "UNSUBSCRIBE",
    "PATCH", "PURGE", "MKCALENDAR", "LINK", "UNLINK"]

/-- The bytes of a text. -/
def text (s : String) : List Byte := textBytes s.toList

def httpMethodStr (m : Nat) : List Byte := text (methodStrings.getD m "<unknown>")

/-- `onHttpCommon`. The destination address is that of `srcAddr`, as in the code. -/
def onHttpCommon (buffer : List Byte) (data : HttpCommon) : List Byte :=
  let buffer := buffer ++ decimalInt data.timeStamp
  let buffer := buffer ++ [tab] ++ decimalInt data.bytes.toInt
  let buffer := buffer ++ [tab] ++ net.toIp (data.srcAddr net)
  let buffer := buffer ++ [tab] ++ decimal (net.toPort (data.srcAddr net)).toNat
  let buffer := buffer ++ [tab] ++ net.toIp (data.srcAddr net)
  buffer ++ [tab] ++ decimal (net.toPort (data.dstAddr net)).toNat

/-- `getVaule` -/
def getVaule (map : List Byte → Option (List Byte)) (key : String) : List Byte :=
  (map (text key)).getD []

/-- `to_string(const HttpRequest &)` -/
def HttpRequest.toString (rqst : HttpRequest) : List Byte :=
  let buffer := onHttpCommon net [] rqst.toHttpCommon
  let buffer := buffer ++ [tab] ++ rqst.method
  let buffer := buffer ++ [tab] ++ getVaule rqst.headers "host"
  let buffer := buffer ++ [tab] ++ getVaule rqst.headers "referer"
  buffer ++ [tab] ++ getVaule rqst.headers "user-agent"

/-- `statusCode`, which is `junk` until it is assigned. -/
def HttpResponse.statusCodeOr (junk : Int) (rsps : HttpResponse) : Int :=
  rsps.statusCode.elim junk Nat.cast

/-- `to_string(const HttpResponse &)` -/
def HttpResponse.toString (junk : Int) (rsps : HttpResponse) : List Byte :=
  let buffer := onHttpCommon net [] rsps.toHttpCommon
  let buffer := buffer ++ [tab] ++ decimalInt (rsps.statusCodeOr junk)
  buffer ++ [tab] ++ getVaule rsps.headers "content-type"

end

/-! ## What a line should hold -/

/-- The first six fields, with `daddr` as the destination address. -/
def commonFields (m : HttpCommon) (daddr : BitVec 32) : List (List Byte) :=
  [decimalInt m.timeStamp, decimalInt m.bytes.toInt, dotted (bytesOf32 m.t4.saddr),
    decimal m.t4.source.toNat, dotted (bytesOf32 daddr), decimal m.t4.dest.toNat]

theorem commonFields_ne_nil (m : HttpCommon) (daddr : BitVec 32) : commonFields m daddr ≠ [] :=
  List.cons_ne_nil _ _

/-- The fields of a request that are its own. -/
def HttpRequest.ownFields (r : HttpRequest) : List (List Byte) :=
  [r.method, getVaule r.headers "host", getVaule r.headers "referer",
    getVaule r.headers "user-agent"]

def HttpResponse.ownFields (junk : Int) (r : HttpResponse) : List (List Byte) :=
  [decimalInt (r.statusCodeOr junk), getVaule r.headers "content-type"]

/-- The ten values of a request, in the order of the line. -/
def HttpRequest.fields (r : HttpRequest) : List (List Byte) :=
  commonFields r.toHttpCommon r.t4.daddr ++ r.ownFields

/-- The eight values of a response. -/
def HttpResponse.fields (junk : Int) (r : HttpResponse) : List (List Byte) :=
  commonFields r.toHttpCommon r.t4.daddr ++ r.ownFields junk

/-- The line splits into the fields. -/
def HttpRequest.Splits (net : InetAddress A) (r : HttpRequest) : Prop :=
  (r.toString net).splitOn tab = r.fields

def HttpResponse.Splits (net : InetAddress A) (junk : Int) (r : HttpResponse) : Prop :=
  (r.toString net junk).splitOn tab = r.fields junk

section

variable {net : InetAddress A}

/-- `buffer` with more fields. -/
def addFields (buffer : List Byte) (ls : List (List Byte)) : List Byte :=
  ls.foldl (fun buffer l => buffer ++ [tab] ++ l) buffer

theorem addFields_eq (l : List Byte) (ls : List (List Byte)) :
    addFields l ls = [tab].intercalate (l :: ls) := by
  induction ls generalizing l with
  | nil => exact List.intercalate_singleton.symm
  | cons l' ls ih =>
    have hstep : addFields l (l' :: ls) = addFields (l ++ [tab] ++ l') ls := rfl
    rw [hstep, ih, List.intercalate_cons_cons]
    cases ls with
    | nil => rw [List.intercalate_singleton, List.intercalate_singleton]
    | cons l'' ls =>
      rw [List.intercalate_cons_cons, List.intercalate_cons_cons, List.append_assoc,
        List.append_assoc, List.append_assoc, List.append_assoc, List.append_assoc]

theorem addFields_intercalate {ls : List (List Byte)} (hne : ls ≠ []) (ls' : List (List Byte)) :
    addFields ([tab].intercalate ls) ls' = [tab].intercalate (ls ++ ls') := by
  cases ls with
  | nil => exact absurd rfl hne
  | cons l ls =>
    rw [← addFields_eq, List.cons_append, ← addFields_eq]
    exact (List.foldl_append ..).symm

/-- What is printed in front: the source address in the place of the destination's. -/
theorem onHttpCommon_eq (hnet : net.Documented) (m : HttpCommon) :
    onHttpCommon net [] m = [tab].intercalate (commonFields m m.t4.saddr) := by
  have hsrc : net.toIp (m.srcAddr net) = dotted (bytesOf32 m.t4.saddr) := hnet.toIp ..
  have hsport : net.toPort (m.srcAddr net) = m.t4.source :=
    (hnet.toPort ..).trans (ntohs_htons _)
  have hdport : net.toPort (m.dstAddr net) = m.t4.dest := (hnet.toPort ..).trans (ntohs_htons _)
  rw [commonFields, ← addFields_eq]
  simp only [onHttpCommon, hsrc, hsport, hdport, List.nil_append]
  rfl

theorem HttpRequest.toString_eq (hnet : net.Documented) (r : HttpRequest) :
    r.toString net = [tab].intercalate (commonFields r.toHttpCommon r.t4.saddr ++ r.ownFields) := by
  rw [← addFields_intercalate (commonFields_ne_nil _ _), ← onHttpCommon_eq hnet]
  rfl

theorem HttpResponse.toString_eq (hnet : net.Documented) (junk : Int) (r : HttpResponse) :
    r.toString net junk =
      [tab].intercalate (commonFields r.toHttpCommon r.t4.saddr ++ r.ownFields junk) := by
  rw [← addFields_intercalate (commonFields_ne_nil _ _), ← onHttpCommon_eq hnet]
  rfl

/-! ## When a line splits into its fields -/

theorem tab_not_mem_method (k : Nat) : tab ∉ httpMethodStr k := by
  have htable : ∀ s ∈ "<unknown>" :: methodStrings, tab ∉ text s := by decide
  refine htable _ ?_
  rw [List.getD_eq_getElem?_getD]
  cases h : methodStrings[k]? with
  | none => exact List.mem_cons_self ..
  | some s => exact List.mem_cons_of_mem _ (List.mem_of_getElem? h)

/-- No tab is in the numbers and the addresses. -/
theorem tab_not_mem_commonFields (m : HttpCommon) (daddr : BitVec 32) :
    ∀ l ∈ commonFields m daddr, tab ∉ l := by
  intro l hl
  simp only [commonFields, List.mem_cons, List.not_mem_nil, or_false] at hl
  rcases hl with rfl | rfl | rfl | rfl | rfl | rfl
  · exact not_mem_decimalInt (by decide) _
  · exact not_mem_decimalInt (by decide) _
  · exact not_mem_dotted (by decide) _
  · exact not_mem_decimal (by decide) _
  · exact not_mem_dotted (by decide) _
  · exact not_mem_decimal (by decide) _

theorem bytesOf32_injective {x y : BitVec 32} (h : bytesOf32 x = bytesOf32 y) : x = y := by
  rw [bytesOf32_eq, bytesOf32_eq] at h
  simp only [List.cons.injEq, and_true] at h
  obtain ⟨h₀, h₁, h₂, h₃⟩ := h
  refine BitVec.eq_of_toNat_eq ?_
  have e₀ := congrArg BitVec.toNat h₀
  have e₁ := congrArg BitVec.toNat h₁
  have e₂ := congrArg BitVec.toNat h₂
  have e₃ := congrArg BitVec.toNat h₃
  simp only [BitVec.extractLsb'_toNat, Nat.shiftRight_eq_div_pow] at e₀ e₁ e₂ e₃
  have hx := x.isLt
  have hy := y.isLt
  omega

theorem dotted_bytesOf32_injective {x y : BitVec 32}
    (h : dotted (bytesOf32 x) = dotted (bytesOf32 y)) : x = y := by
  refine bytesOf32_injective (dotted_injective ?_ ?_ h) <;>
  · rw [bytesOf32_eq]
    exact List.cons_ne_nil _ _

/-- A line of the six fields and some others splits into the right ones, if and only if the
addresses are the same and the others hold no tab. -/
theorem splits_common_iff (m : HttpCommon) (own : List (List Byte)) :
    ([tab].intercalate (commonFields m m.t4.saddr ++ own)).splitOn tab =
      commonFields m m.t4.daddr ++ own ↔ m.t4.saddr = m.t4.daddr ∧ ∀ l ∈ own, tab ∉ l := by
  have hlen : (commonFields m m.t4.daddr ++ own).length =
      (commonFields m m.t4.saddr ++ own).length := rfl
  rw [splitOn_intercalate_iff (List.append_ne_nil_of_left_ne_nil (commonFields_ne_nil _ _) own) hlen,
    List.append_left_inj]
  have hsame : commonFields m m.t4.saddr = commonFields m m.t4.daddr ↔
      m.t4.saddr = m.t4.daddr := by
    constructor
    · intro h
      simp only [commonFields, List.cons.injEq, true_and, and_true] at h
      exact dotted_bytesOf32_injective h
    · intro h
      rw [h]
  rw [hsame]
  refine and_congr_right fun _ => ?_
  simp only [List.mem_append]
  constructor
  · intro h l hl
    exact h l (.inr hl)
  · rintro h l (hl | hl)
    · exact tab_not_mem_commonFields m _ l hl
    · exact h l hl

theorem HttpRequest.splits_iff (hnet : net.Documented) (r : HttpRequest)
    (hmethod : ∃ k, r.method = httpMethodStr k) :
    r.Splits net ↔ r.t4.saddr = r.t4.daddr ∧ tab ∉ getVaule r.headers "host" ∧
      tab ∉ getVaule r.headers "referer" ∧ tab ∉ getVaule r.headers "user-agent" := by
  obtain ⟨k, hk⟩ := hmethod
  rw [Splits, r.toString_eq hnet, fields, splits_common_iff]
  simp only [ownFields, List.forall_mem_cons, hk]
  simp [tab_not_mem_method]

theorem HttpResponse.splits_iff (hnet : net.Documented) (junk : Int) (r : HttpResponse) :
    r.Splits net junk ↔ r.t4.saddr = r.t4.daddr ∧ tab ∉ getVaule r.headers "content-type" := by
  rw [Splits, r.toString_eq hnet, fields, splits_common_iff]
  simp only [ownFields, List.forall_mem_cons]
  simp [not_mem_decimalInt (show tab.toNat < 0x2d by decide)]

/-! ## What the fields tell apart -/

/-- What is printed of both kinds of records. -/
def HttpCommon.shown (m : HttpCommon) : Int × BitVec 32 × Tuple4 := (m.timeStamp, m.bytes, m.t4)

theorem shown_of_commonFields {m m' : HttpCommon}
    (h : commonFields m m.t4.daddr = commonFields m' m'.t4.daddr) : m.shown = m'.shown := by
  simp only [commonFields, List.cons.injEq, and_true] at h
  obtain ⟨hts, hbytes, hsaddr, hsource, hdaddr, hdest⟩ := h
  have hport {x y : BitVec 16} (h : decimal x.toNat = decimal y.toNat) : x = y :=
    BitVec.eq_of_toNat_eq (decimal_injective h)
  have ht4 : m.t4 = m'.t4 := by
    show (⟨m.t4.source, m.t4.dest, m.t4.saddr, m.t4.daddr⟩ : Tuple4) =
      ⟨m'.t4.source, m'.t4.dest, m'.t4.saddr, m'.t4.daddr⟩
    rw [hport hsource, hport hdest, dotted_bytesOf32_injective hsaddr,
      dotted_bytesOf32_injective hdaddr]
  rw [HttpCommon.shown, HttpCommon.shown, decimalInt_injective hts,
    BitVec.eq_of_toInt_eq (decimalInt_injective hbytes), ht4]

/-- What is printed of a request. -/
def HttpRequest.shown (r : HttpRequest) : (Int × BitVec 32 × Tuple4) × List (List Byte) :=
  (r.toHttpCommon.shown, r.ownFields)

def HttpResponse.shown (junk : Int) (r : HttpResponse) :
    (Int × BitVec 32 × Tuple4) × Int × List Byte :=
  (r.toHttpCommon.shown, r.statusCodeOr junk, getVaule r.headers "content-type")

theorem HttpRequest.shown_of_fields {r r' : HttpRequest} (h : r.fields = r'.fields) :
    r.shown = r'.shown := by
  obtain ⟨hcommon, hown⟩ := List.append_inj h rfl
  rw [shown, shown, shown_of_commonFields hcommon, hown]

theorem HttpResponse.shown_of_fields {junk : Int} {r r' : HttpResponse}
    (h : r.fields junk = r'.fields junk) : r.shown junk = r'.shown junk := by
  obtain ⟨hcommon, hown⟩ := List.append_inj h rfl
  obtain ⟨hcode, htype⟩ := List.cons.inj hown
  rw [shown, shown, shown_of_commonFields hcommon, decimalInt_injective hcode,
    (List.cons.inj htype).1]

end

/-! ## The records that are emitted -/

section

variable {σ : Type} {g : Grammar σ}

/-- The method of a request is one that the parser gives a name. -/
def Emits (g : Grammar σ) : HttpRecord → Prop
  | .request r => ∃ s, r.method = g.method s
  | .response _ => True

theorem emits_onHeadersComplete (type : HttpParserType) (s : σ) (c : Current) :
    ∀ r ∈ (onHeadersComplete type (g.method s) c).2, Emits g r := by
  cases type with
  | request =>
    intro r hr
    rw [List.mem_singleton.mp hr]
    exact ⟨s, rfl⟩
  | response =>
    intro r hr
    rw [List.mem_singleton.mp hr]
    trivial

theorem records_report (e : Exec σ Current HttpRecord) (k : Element) :
    (e.report (settings g) k).records = e.records := by
  unfold Exec.report
  split
  · rfl
  · split
    · split <;> rfl
    · rfl

theorem emits_act {e : Exec σ Current HttpRecord} (he : ∀ r ∈ e.records, Emits g r) (a : Action) :
    ∀ r ∈ (e.act (settings g) a).records, Emits g r := by
  unfold Exec.act
  split
  · exact he
  · cases a with
    | mark k => exact he
    | data k => rw [records_report]; exact he
    | headersComplete =>
      intro r hr
      rcases List.mem_append.mp hr with hr | hr
      · exact he r hr
      · exact emits_onHeadersComplete e.parser.type e.parser.state e.data r hr
    | error => exact he

theorem emits_byte {e : Exec σ Current HttpRecord} (he : ∀ r ∈ e.records, Emits g r) (ch : Byte) :
    ∀ r ∈ (e.byte g (settings g) ch).records, Emits g r := by
  have hfold (as : List Action) : ∀ e : Exec σ Current HttpRecord,
      (∀ r ∈ e.records, Emits g r) →
      ∀ r ∈ (as.foldl (Exec.act (settings g)) e).records, Emits g r := by
    induction as with
    | nil => exact fun e he => he
    | cons a as ih => exact fun e he => ih _ (emits_act he a)
  unfold Exec.byte
  split
  · exact he
  · exact hfold _ _ he

theorem emits_execute (parser : HttpParser σ) (data : List Byte) (c : Current) :
    ∀ r ∈ (httpParserExecute g (settings g) parser data c).2.2, Emits g r := by
  have hfold (data : List Byte) : ∀ e : Exec σ Current HttpRecord,
      (∀ r ∈ e.records, Emits g r) →
      ∀ r ∈ (data.foldl (Exec.byte g (settings g)) e).records, Emits g r := by
    induction data with
    | nil => exact fun e he => he
    | cons ch data ih => exact fun e he => ih _ (emits_byte he ch)
  unfold httpParserExecute
  split
  · exact nofun
  · split
    · exact nofun
    · have hend := hfold data (Exec.start g parser c) fun r hr => absurd hr List.not_mem_nil
      dsimp only [Exec.finish]
      split
      · exact emits_act hend _
      · exact hend

theorem emits_detail (detail : HttpDetail σ) (fromClient : Bool) (data : List Byte) :
    ∀ r ∈ (detail.onTcpData g fromClient data).2, Emits g r := by
  cases fromClient with
  | true => exact emits_execute _ _ _
  | false => exact emits_execute _ _ _

theorem emits_onTcpData (http : Http σ) (t4 : Tuple4) (data : List Byte) (fromClient : Bool) :
    ∀ r ∈ (http.onTcpData g t4 data fromClient).2, Emits g r := by
  unfold Http.onTcpData
  split
  · exact nofun
  · split
    · exact nofun
    · exact emits_detail _ _ _

theorem emits_onEvent {ts : Int} {http http' : Http σ} {e : Event} {rs : List HttpRecord}
    (h : Http.onEvent g ts http e = some (http', rs)) : ∀ r ∈ rs, Emits g r := by
  unfold Http.onEvent at h
  split at h
  · obtain ⟨_, -, he⟩ := Option.map_eq_some_iff.mp h
    cases he
    exact nofun
  · have hrs : (http.onTcpData g e.addr _ _).2 = rs := congrArg Prod.snd (Option.some.inj h)
    exact hrs ▸ emits_onTcpData http _ _ _
  all_goals
    cases h
    exact nofun

/-- The method of every request of a run is the name of a method. -/
theorem runHttp_emits {hash : Hash} {junk : StreamPtr → TcpStream} {ps : List Packet}
    {w : TcpFragment × Http σ} {rs : List HttpRecord}
    (h : runHttp g hash junk ps = some (w, rs)) : ∀ r ∈ rs, Emits g r := by
  refine run_induction (I := fun _ _ rs => ∀ r ∈ rs, Emits g r) nofun ?_ h
  intro ps w rs p w' rs' _ ih hp r hr
  rcases List.mem_append.mp hr with hr | hr
  · exact ih r hr
  · obtain ⟨⟨t, es⟩, -, hp⟩ := Option.bind_eq_some_iff.mp hp
    obtain ⟨⟨http, rs₁⟩, hrun, he⟩ := Option.bind_eq_some_iff.mp hp
    cases he
    refine run_induction (I := fun _ _ rs => ∀ r ∈ rs, Emits g r) nofun ?_ hrun r hr
    intro es http rs e http' rs' _ ih he r hr
    rcases List.mem_append.mp hr with hr | hr
    · exact ih r hr
    · exact emits_onEvent he r hr

end

/-- The line of a request gives its ten values back, and that of a response its eight, exactly if
the addresses are the same and no header value that is printed has a tab. Records with such lines
that differ in a value have lines that differ. -/
theorem lines_split_iff (net : InetAddress A) (hnet : net.Documented) :
    (∀ r : HttpRequest, (∃ k, r.method = httpMethodStr k) → (r.Splits net ↔
      r.t4.saddr = r.t4.daddr ∧ tab ∉ getVaule r.headers "host" ∧
        tab ∉ getVaule r.headers "referer" ∧ tab ∉ getVaule r.headers "user-agent")) ∧
    (∀ r r' : HttpRequest, r.Splits net → r'.Splits net → r.toString net = r'.toString net →
      r.shown = r'.shown) ∧
    (∀ (junk : Int) (r : HttpResponse), r.Splits net junk ↔
      r.t4.saddr = r.t4.daddr ∧ tab ∉ getVaule r.headers "content-type") ∧
    ∀ (junk : Int) (r r' : HttpResponse), r.Splits net junk → r'.Splits net junk →
      r.toString net junk = r'.toString net junk → r.shown junk = r'.shown junk := by
  refine ⟨fun r hr => r.splits_iff hnet hr, fun r r' h h' he => ?_,
    fun junk r => r.splits_iff hnet junk, fun junk r r' h h' he => ?_⟩
  · refine HttpRequest.shown_of_fields ?_
    rw [← h, ← h', he]
  · refine HttpResponse.shown_of_fields ?_
    rw [← h, ← h', he]

/-- Addresses and ports that are kept as they come, and printed as the documentation says. -/
def plainInetAddress : InetAddress (BitVec 16 × BitVec 32) where
  ofSockaddr port addr := (port, addr)
  toIp a := dotted (bytesOf32 a.2)
  toPort a := ntohs a.1

theorem documented_plainInetAddress : plainInetAddress.Documented := ⟨fun _ _ => rfl, fun _ _ => rfl⟩

/-- `GET /` from port 1 of `10.0.0.1` to `10.0.0.x`, without headers. -/
def getRequest (x : BitVec 32) : HttpRequest :=
  { HttpRequest.create ⟨1, 80, 0x0100000a, x * 0x1000000 + 0x0000000a⟩ 7 with
    method := httpMethodStr 1, url := text "/" }

theorem lines_split_loopback : (getRequest 1).Splits plainInetAddress :=
  ((lines_split_iff plainInetAddress documented_plainInetAddress).1 (getRequest 1) ⟨1, rfl⟩).mpr
    ⟨rfl, List.not_mem_nil, List.not_mem_nil, List.not_mem_nil⟩

/-- A request to another host is printed with the address of its client twice. -/
theorem getRequest_not_splits :
    ¬ ∀ r : HttpRequest, (∃ k, r.method = httpMethodStr k) → r.Splits plainInetAddress := by
  intro h
  have hsame := (HttpRequest.splits_iff documented_plainInetAddress (getRequest 2) ⟨1, rfl⟩).mp
    (h _ ⟨1, rfl⟩)
  exact absurd hsame.1 (by decide)

end Noff.Http
