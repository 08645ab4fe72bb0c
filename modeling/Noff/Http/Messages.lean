import Noff.Http.Split

/-!
# Messages that are pipelined

The callbacks for a message, and the record that is made of them. One object
gathers all messages of a direction, and is cleared when a record has been
passed on. What comes behind that, the trailers, counts for the next
message, a status code stays until there is a reason phrase, and of a value that
is folded over several lines the last is kept (`run_messages`).
-/

namespace Noff.Http

variable {σ : Type} {g : Grammar σ} {ty : HttpParserType} {c : Current}

/-- A message, as far as it is reported. -/
structure Message where
  method : List Byte
  url : List Byte
  statusCode : Nat
  reason : List Byte
  headers : List (List Byte × List Byte)
  trailers : List (List Byte × List Byte)

/-- A callback, with what it can see of the parser. -/
inductive Report where
  | url (data : List Byte)
  | status (statusCode : Nat) (data : List Byte)
  | headerField (data : List Byte)
  | headerValue (data : List Byte)
  | headersComplete (method : List Byte)
  deriving DecidableEq

def Call.report (g : Grammar σ) : Call σ → Report
  | .data _ .url at_ => .url at_
  | .data s .status at_ => .status (g.statusCode s) at_
  | .data _ .headerField at_ => .headerField at_
  | .data _ .headerValue at_ => .headerValue at_
  | .headersComplete s => .headersComplete (g.method s)

/-- The callbacks for some headers. -/
def headerReports (hs : List (List Byte × List Byte)) : List Report :=
  hs.flatMap fun h => [.headerField h.1, .headerValue h.2]

/-- The callbacks for the first line. There is none for a reason phrase that is empty. -/
def Message.firstLine (ty : HttpParserType) (m : Message) : List Report :=
  match ty with
  | .request => [.url m.url]
  | .response => if m.reason = [] then [] else [.status m.statusCode m.reason]

/-- The callbacks for a message. The trailers of a chunked body are reported as headers are. -/
def Message.reports (ty : HttpParserType) (m : Message) : List Report :=
  m.firstLine ty ++ (headerReports m.headers ++ (.headersComplete m.method :: headerReports m.trailers))

/-- A header, with its value in the lines that it is reported in: one, unless it is folded. -/
structure Header where
  name : List Byte
  lines : List (List Byte)
  deriving DecidableEq

def Header.value (h : Header) : List Byte := h.lines.flatten

/-- The name under which it is kept. -/
def Header.key (h : Header) : List Byte := h.name.map tolower

/-- What is kept of its value. -/
def Header.lastLine (h : Header) : List Byte := h.lines.getLast?.getD []

/-- A message as it comes, with values that may be folded. -/
structure Folded where
  method : List Byte
  url : List Byte
  statusCode : Nat
  reason : List Byte
  headers : List Header
  trailers : List Header

/-- The message that it is, each value in one piece. -/
def Folded.message (m : Folded) : Message where
  method := m.method
  url := m.url
  statusCode := m.statusCode
  reason := m.reason
  headers := m.headers.map fun h => (h.name, h.value)
  trailers := m.trailers.map fun h => (h.name, h.value)

/-- The callbacks for some headers, one for each line of a value. -/
def lineReports (hs : List Header) : List Report :=
  hs.flatMap fun h => .headerField h.name :: h.lines.map .headerValue

/-- The callbacks for a message as it comes. -/
def Folded.reports (ty : HttpParserType) (m : Folded) : List Report :=
  m.message.firstLine ty ++
    (lineReports m.headers ++ (.headersComplete m.method :: lineReports m.trailers))

/-! ## What a record should say -/

def headersSize (hs : List (List Byte × List Byte)) : Nat :=
  (hs.map fun h => h.1.length + h.2.length).sum

/-- The length of the URL or the reason phrase. -/
def Message.firstSize (ty : HttpParserType) (m : Message) : Nat :=
  match ty with
  | .request => m.url.length
  | .response => m.reason.length

/-- A header, put into a map under its name in lower case. -/
def putHeader (h : List Byte → Option (List Byte)) (x : List Byte × List Byte) :
    List Byte → Option (List Byte) := Function.update h (x.1.map tolower) (some x.2)

/-- The map of some headers; of those with one name, the last counts. -/
def headerMap (hs : List (List Byte × List Byte)) : List Byte → Option (List Byte) :=
  hs.foldl putHeader fun _ => none

/-- A record describes a message. -/
structure HttpRecord.Describes (ty : HttpParserType) (r : HttpRecord) (m : Message) : Prop where
  headers : r.common.headers = headerMap m.headers
  bytes : r.common.bytes = BitVec.ofNat 32 (m.firstSize ty + headersSize m.headers)
  own : match r with
    | .request r => ty = .request ∧ r.method = m.method ∧ r.url = m.url
    | .response r => ty = .response ∧ r.statusCode = some m.statusCode

/-- Headers have a name, and a value in at least one line. -/
def Header.Ok (h : Header) : Prop := h.name ≠ [] ∧ h.lines ≠ []

instance (h : Header) : Decidable h.Ok := inferInstanceAs (Decidable (_ ∧ _))

/-- The length of headers, with their values in one piece. -/
def linesSize (hs : List Header) : Nat := (hs.map fun h => h.name.length + h.value.length).sum

theorem linesSize_cons (h : Header) (hs : List Header) :
    linesSize (h :: hs) = h.name.length + h.value.length + linesSize hs := List.sum_cons

theorem headersSize_map (hs : List Header) :
    headersSize (hs.map fun h => (h.name, h.value)) = linesSize hs := by
  rw [headersSize, List.map_map]
  rfl

/-- The trailers are no longer than the `int` that is the length of the call they come in. -/
structure Folded.Ok (m : Folded) : Prop where
  headers : ∀ h ∈ m.headers, h.Ok
  trailers : ∀ h ∈ m.trailers, h.Ok
  size : linesSize m.trailers < 2 ^ 31

/-! ## The map of the last lines -/

/-- The last header of a name. -/
def lastNamed (hs : List Header) (k : List Byte) : Option Header := hs.reverse.find? (·.key = k)

/-- Of the headers with one name, the last, which counts, has its value in its last line. -/
def Unfolded (hs : List Header) : Prop :=
  ∀ h ∈ hs, lastNamed hs h.key = some h → ∀ l ∈ h.lines.dropLast, l = []

instance (hs : List Header) : Decidable (Unfolded hs) := List.decidableBAll ..

/-- A header, put into a map with `f` of it. -/
def putWith (f : Header → List Byte) (m : List Byte → Option (List Byte)) (h : Header) :
    List Byte → Option (List Byte) := Function.update m h.key (some (f h))

/-- Of some headers that are put into a map one after the other, the last of a name is found. -/
theorem foldl_putWith (f : Header → List Byte) (hs : List Header) (k : List Byte) :
    hs.foldl (putWith f) (fun _ => none) k = (lastNamed hs k).map f := by
  induction hs using List.reverseRecOn with
  | nil => rfl
  | append_singleton hs h ih =>
    rw [List.foldl_concat, putWith, lastNamed, List.reverse_concat, List.find?_cons]
    by_cases hk : h.key = k
    · subst hk
      rw [Function.update_self]
      simp
    · rw [Function.update_of_ne (Ne.symm hk), ih, lastNamed]
      simp [hk]

/-- The map that `Http` makes of some headers. -/
def lineMap (hs : List Header) : List Byte → Option (List Byte) :=
  hs.foldl (putWith Header.lastLine) fun _ => none

theorem headerMap_map (hs : List Header) : headerMap (hs.map fun h => (h.name, h.value)) =
    hs.foldl (putWith Header.value) fun _ => none := by
  rw [headerMap, List.foldl_map]
  rfl

theorem lastLine_eq_value_iff (h : Header) : h.lastLine = h.value ↔ ∀ l ∈ h.lines.dropLast, l = [] := by
  obtain ⟨name, lines⟩ := h
  rw [Header.lastLine, Header.value]
  induction lines using List.reverseRecOn with
  | nil => simp
  | append_singleton ls l =>
    rw [List.getLast?_concat, Option.getD_some, List.dropLast_concat, List.flatten_append,
      List.flatten_singleton, eq_comm, List.append_left_eq_self, List.flatten_eq_nil_iff]

/-- The map is right exactly if the headers that count are not folded. -/
theorem lineMap_eq_iff (hs : List Header) :
    lineMap hs = headerMap (hs.map fun h => (h.name, h.value)) ↔ Unfolded hs := by
  rw [headerMap_map, lineMap, funext_iff]
  simp only [foldl_putWith]
  constructor
  · intro hmap h _ hlast
    have := hmap h.key
    rw [hlast] at this
    exact (lastLine_eq_value_iff h).mp (Option.some.inj this)
  · intro hun k
    cases hlast : lastNamed hs k with
    | none => rfl
    | some h =>
      have hkey : h.key = k := by simpa using List.find?_some hlast
      have hmem : h ∈ hs := List.mem_reverse.mp (List.mem_of_find?_eq_some hlast)
      exact congrArg some ((lastLine_eq_value_iff h).mpr (hun h hmem (hkey ▸ hlast)))

/-! ## The callbacks of `Http` -/

/-- A callback, invoked. -/
def Report.invoke (ty : HttpParserType) (c : Current) : Report → Option (Current × List HttpRecord)
  | .url data => some (onUrl data c, [])
  | .status code data => some (onStatus code data c, [])
  | .headerField data => some (onHeaderFiled ty data c, [])
  | .headerValue data => (onHeaderValue ty data c).map (·, [])
  | .headersComplete method => some (onHeadersComplete ty method c)

theorem invoke_report (call : Call σ) :
    call.invoke (settings g) ty c = (call.report g).invoke ty c := by
  cases call with
  | data s k at_ => cases k <;> rfl
  | headersComplete s => rfl

/-- Callbacks none of which fails. -/
theorem replay_eq_run {cs : List (Call σ)} {c' : Current} {rs : List HttpRecord}
    (h : run (Report.invoke ty) c (cs.map (Call.report g)) = some (c', rs)) :
    replay (settings g) ty c cs = (rs, some c') := by
  induction cs generalizing c rs with
  | nil =>
    cases h
    rfl
  | cons call cs ih =>
    obtain ⟨c₁, rs₁, c₂, rs₂, h₁, h₂, he⟩ := run_cons.mp h
    cases he
    rw [replay, invoke_report, h₁]
    dsimp only
    rw [ih h₂]

/-- The message in one direction, replaced. -/
def Current.setCommon (ty : HttpParserType) (c : Current) (m : HttpCommon) : Current :=
  match ty with
  | .request => { c with request.toHttpCommon := m }
  | .response => { c with response.toHttpCommon := m }

/-- The lines of a value. -/
def HttpCommon.addLines (m : HttpCommon) (ls : List (List Byte)) : HttpCommon :=
  { m with
    headers := Function.update m.headers m.currentHeaderField (some (ls.getLast?.getD []))
    bytes := m.bytes + BitVec.ofNat 32 ls.flatten.length }

/-- One header more. -/
def HttpCommon.addHeader (m : HttpCommon) (h : Header) : HttpCommon :=
  { m with
    currentHeaderField := h.key
    headers := Function.update m.headers h.key (some h.lastLine)
    bytes := m.bytes + BitVec.ofNat 32 (h.name.length + h.value.length) }

@[simp] theorem common_setCommon (m : HttpCommon) : (c.setCommon ty m).common ty = m := by
  cases ty <;> rfl

@[simp] theorem setCommon_setCommon (m m' : HttpCommon) :
    (c.setCommon ty m).setCommon ty m' = c.setCommon ty m' := by
  cases ty <;> rfl

@[simp] theorem setCommon_common : c.setCommon ty (c.common ty) = c := by cases ty <;> rfl

/-- Each line takes the place of the one before it. -/
theorem run_lines (hne : (c.common ty).currentHeaderField ≠ []) (l : List Byte) (ls : List (List Byte)) :
    run (Report.invoke ty) c ((l :: ls).map .headerValue) =
      some (c.setCommon ty ((c.common ty).addLines (l :: ls)), []) := by
  have hvalue (m : HttpCommon) (hm : m.currentHeaderField ≠ []) (l : List Byte) :
      m.onHeaderValue l = some (m.addLines [l]) := by
    rw [HttpCommon.onHeaderValue, if_neg hm]
    simp [HttpCommon.addBytes, HttpCommon.addLines]
  have hstep (c : Current) (hne : (c.common ty).currentHeaderField ≠ []) (l : List Byte) :
      (Report.headerValue l).invoke ty c =
        some (c.setCommon ty ((c.common ty).addLines [l]), []) := by
    rw [Report.invoke]
    cases ty <;>
    · rw [onHeaderValue, hvalue _ (by exact hne)]
      rfl
  induction ls generalizing l c with
  | nil =>
    rw [List.map_singleton, run_singleton]
    exact hstep c hne l
  | cons l' ls ih =>
    refine run_cons.mpr ⟨_, _, _, _, hstep c hne l, ih (by rw [common_setCommon]; exact hne) l', ?_⟩
    rw [common_setCommon, setCommon_setCommon, List.nil_append]
    simp [HttpCommon.addLines, BitVec.ofNat_add, BitVec.add_assoc, List.getLast?_cons_cons]

theorem run_header (h : Header) (hok : h.Ok) :
    run (Report.invoke ty) c (.headerField h.name :: h.lines.map .headerValue) =
      some (c.setCommon ty ((c.common ty).addHeader h), []) := by
  obtain ⟨name, lines⟩ := h
  obtain ⟨hname, hlines⟩ := hok
  obtain ⟨l, ls, rfl⟩ := List.exists_cons_of_ne_nil hlines
  have hfield : ((onHeaderFiled ty name c).common ty).currentHeaderField ≠ [] := by
    rw [common_onHeaderFiled]
    exact fun he => hname (List.map_eq_nil_iff.mp he)
  refine run_cons.mpr ⟨_, _, _, _, rfl, run_lines hfield l ls, ?_⟩
  rw [common_onHeaderFiled, List.nil_append]
  simp [HttpCommon.onHeaderFiled, HttpCommon.addBytes, HttpCommon.addHeader, HttpCommon.addLines,
    Header.key, Header.value, Header.lastLine, BitVec.ofNat_add, BitVec.add_assoc]
  cases ty <;> rfl

theorem run_headers {hs : List Header} (hok : ∀ h ∈ hs, h.Ok) :
    run (Report.invoke ty) c (lineReports hs) =
      some (c.setCommon ty (hs.foldl HttpCommon.addHeader (c.common ty)), []) := by
  induction hs generalizing c with
  | nil =>
    rw [List.foldl_nil, setCommon_common]
    rfl
  | cons h hs ih =>
    rw [lineReports, List.flatMap_cons, run_append]
    refine ⟨_, _, _, _, run_header h (hok h (List.mem_cons_self ..)),
      ih fun x hx => hok x (List.mem_cons_of_mem _ hx), ?_⟩
    rw [common_setCommon, setCommon_setCommon, List.foldl_cons]
    rfl

theorem foldl_addHeader (m : HttpCommon) (hs : List Header) :
    (hs.foldl HttpCommon.addHeader m).headers = hs.foldl (putWith Header.lastLine) m.headers ∧
      (hs.foldl HttpCommon.addHeader m).bytes = m.bytes + BitVec.ofNat 32 (linesSize hs) := by
  induction hs generalizing m with
  | nil => exact ⟨rfl, (BitVec.add_zero _).symm⟩
  | cons h hs ih =>
    obtain ⟨hheaders, hbytes⟩ := ih (m.addHeader h)
    refine ⟨hheaders, hbytes.trans ?_⟩
    rw [HttpCommon.addHeader, linesSize_cons, BitVec.ofNat_add _ (linesSize hs), ← BitVec.add_assoc]

/-! ## Message after message -/

/-- The status code that is known behind the first line of a message. -/
def Message.nextStatus (ty : HttpParserType) (m : Message) (st : Option Nat) : Option Nat :=
  if ty = .response ∧ m.reason ≠ [] then some m.statusCode else st

/-- Between two messages: the trailers of the last and the last status code are left. -/
structure Between (ty : HttpParserType) (c : Current) (trailers : List Header) (st : Option Nat) :
    Prop where
  headers : (c.common ty).headers = lineMap trailers
  bytes : (c.common ty).bytes = BitVec.ofNat 32 (linesSize trailers)
  statusCode : c.response.statusCode = st

/-- The first line. -/
theorem run_firstLine (ty : HttpParserType) (c : Current) (m : Message) :
    ∃ c', run (Report.invoke ty) c (m.firstLine ty) = some (c', []) ∧
    (c'.common ty).headers = (c.common ty).headers ∧
    (c'.common ty).bytes = (c.common ty).bytes + BitVec.ofNat 32 (m.firstSize ty) ∧
    c'.response.statusCode = m.nextStatus ty c.response.statusCode ∧
    (ty = .request → c'.request.url = m.url) := by
  cases ty with
  | request => exact ⟨_, rfl, rfl, rfl, by simp [Message.nextStatus, onUrl], fun _ => rfl⟩
  | response =>
    by_cases hr : m.reason = []
    · refine ⟨c, ?_, rfl, ?_, ?_, fun h => by cases h⟩
      · rw [Message.firstLine, if_pos hr]
        rfl
      · rw [Message.firstSize, hr]
        exact (BitVec.add_zero _).symm
      · rw [Message.nextStatus, if_neg (by simp [hr])]
    · refine ⟨onStatus m.statusCode m.reason c, ?_, rfl, rfl, ?_, fun h => by cases h⟩
      · rw [Message.firstLine, if_neg hr]
        rfl
      · rw [Message.nextStatus, if_pos ⟨rfl, hr⟩]
        rfl

/-- A message, with what is left of those before it. -/
theorem run_message {m : Folded} (hm : m.Ok) {ts : List Header} {st : Option Nat}
    (hc : Between ty c ts st) : ∃ c' r, run (Report.invoke ty) c (m.reports ty) = some (c', [r]) ∧
      Between ty c' m.trailers (m.message.nextStatus ty st) ∧
      r.common.headers = lineMap (ts ++ m.headers) ∧
      r.common.bytes = BitVec.ofNat 32 (linesSize ts + (m.message.firstSize ty + linesSize m.headers)) ∧
      match r with
      | .request r => ty = .request ∧ r.method = m.method ∧ r.url = m.url
      | .response r => ty = .response ∧ r.statusCode = m.message.nextStatus ty st := by
  obtain ⟨c₁, hfirst, hheaders, hbytes, hstatus, hurl⟩ := run_firstLine ty c m.message
  obtain ⟨hfold, hfoldBytes⟩ := foldl_addHeader (c₁.common ty) m.headers
  set c₂ := c₁.setCommon ty (m.headers.foldl HttpCommon.addHeader (c₁.common ty)) with hc₂
  have hcommon : c₂.common ty = m.headers.foldl HttpCommon.addHeader (c₁.common ty) :=
    common_setCommon _
  have hcode : c₂.response.statusCode = m.message.nextStatus ty st := by
    rw [← hc.statusCode, ← hstatus]
    cases ty <;> rfl
  have hurl₂ : ty = .request → c₂.request.url = m.url := by
    rintro rfl
    exact hurl rfl
  have hclear : ((onHeadersComplete ty m.method c₂).1.common ty).headers = lineMap [] ∧
      ((onHeadersComplete ty m.method c₂).1.common ty).bytes = 0 ∧
      (onHeadersComplete ty m.method c₂).1.response.statusCode = c₂.response.statusCode := by
    cases ty <;> exact ⟨rfl, rfl, rfl⟩
  obtain ⟨htrail, htrailBytes⟩ :=
    foldl_addHeader ((onHeadersComplete ty m.method c₂).1.common ty) m.trailers
  refine ⟨(onHeadersComplete ty m.method c₂).1.setCommon ty (m.trailers.foldl HttpCommon.addHeader
    ((onHeadersComplete ty m.method c₂).1.common ty)), recordOf ty m.method c₂, ?_, ⟨?_, ?_, ?_⟩,
    ?_, ?_, ?_⟩
  · refine run_append.mpr ⟨_, _, _, _, hfirst, run_append.mpr ⟨_, _, _, _, run_headers hm.headers,
      run_cons.mpr ⟨_, _, _, _, rfl, run_headers hm.trailers, rfl⟩, rfl⟩, ?_⟩
    cases ty <;> rfl
  · rw [common_setCommon, htrail, hclear.1]
    rfl
  · rw [common_setCommon, htrailBytes, hclear.2.1]
    exact BitVec.zero_add _
  · rw [← hcode, ← hclear.2.2]
    cases ty <;> rfl
  · rw [common_recordOf, hcommon, hfold, hheaders, hc.headers, lineMap, lineMap, List.foldl_append]
  · rw [common_recordOf, hcommon, hfoldBytes, hbytes, hc.bytes, BitVec.ofNat_add, BitVec.ofNat_add,
      BitVec.add_assoc]
  · cases ty with
    | request => exact ⟨rfl, rfl, hurl₂ rfl⟩
    | response => exact ⟨rfl, hcode⟩

theorem linesSize_eq_zero {hs : List Header} (hok : ∀ h ∈ hs, h.Ok) : linesSize hs = 0 ↔ hs = [] := by
  cases hs with
  | nil => exact iff_of_true rfl rfl
  | cons h hs =>
    have hpos := List.length_pos_iff.mpr (hok h (List.mem_cons_self ..)).1
    rw [linesSize_cons]
    exact iff_of_false (by omega) (List.cons_ne_nil _ _)

/-- No message has trailers of the one before it, none of the values that count is folded, and
for a response the status code is known: there is a reason phrase, or the last reason
phrase came with the same code. -/
def Own (ty : HttpParserType) : List Header → Option Nat → List Folded → Prop
  | _, _, [] => True
  | trailers, st, m :: ms => trailers = [] ∧ Unfolded m.headers ∧
    (ty = .response → m.message.nextStatus ty st = some m.statusCode) ∧
    Own ty m.trailers (m.message.nextStatus ty st) ms

theorem run_messages {ms : List Folded} (hm : ∀ m ∈ ms, m.Ok) {ts : List Header}
    {st : Option Nat} (hc : Between ty c ts st) (hts : ∀ h ∈ ts, h.Ok) (hsize : linesSize ts < 2 ^ 31) :
    ∃ c' rs, run (Report.invoke ty) c (ms.flatMap fun m => m.reports ty) = some (c', rs) ∧
      (List.Forall₂ (fun r m => HttpRecord.Describes ty r m.message) rs ms ↔ Own ty ts st ms) := by
  induction ms generalizing c ts st with
  | nil => exact ⟨c, [], rfl, iff_of_true .nil trivial⟩
  | cons m ms ih =>
    have hok := hm m (List.mem_cons_self ..)
    obtain ⟨c₁, r, hrun, hc₁, hheaders, hbytes, hown⟩ := run_message hok hc
    obtain ⟨c₂, rs, hrest, hiff⟩ := ih (fun m' hm' => hm m' (List.mem_cons_of_mem _ hm')) hc₁
      hok.trailers hok.size
    refine ⟨c₂, r :: rs, run_append.mpr ⟨_, _, _, _, hrun, hrest, rfl⟩, ?_⟩
    rw [List.forall₂_cons, hiff, Own, ← and_assoc, ← and_assoc]
    refine and_congr_left fun _ => ?_
    have hsum (n : Nat) : BitVec.ofNat 32 (linesSize ts + n) = BitVec.ofNat 32 n ↔ linesSize ts = 0 := by
      rw [← BitVec.toNat_inj, BitVec.toNat_ofNat, BitVec.toNat_ofNat]
      omega
    have hsize' : headersSize m.message.headers = linesSize m.headers := headersSize_map _
    constructor
    · intro h
      have hb := h.bytes
      rw [hsize', hbytes, hsum, linesSize_eq_zero hts] at hb
      have hh := h.headers
      rw [hheaders, hb] at hh
      refine ⟨⟨hb, (lineMap_eq_iff _).mp hh⟩, fun hty => ?_⟩
      have ho := h.own
      cases r with
      | request r => exact absurd (hty.symm.trans ho.1) (by decide)
      | response r => exact hown.2.symm.trans ho.2
    · rintro ⟨⟨rfl, hunfolded⟩, hst⟩
      refine ⟨hheaders.trans ((lineMap_eq_iff _).mpr hunfolded), by rw [hsize', hbytes, hsum]; rfl, ?_⟩
      cases r with
      | request r => exact hown
      | response r => exact ⟨hown.1, hown.2.trans (hst hown.1)⟩

end Noff.Http
