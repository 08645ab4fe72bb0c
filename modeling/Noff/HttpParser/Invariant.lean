import Noff.Http.Order
import Noff.HttpParser.Execute

/-!
# The invariant of `http_parser_execute`

`Inv` says what the members can be between two bytes, and how far a header
section has then come. The effects of a turn are `Fine`: no assertion fails, strings
are marked and reported in order, and the invariant is kept (`turn_fine`).
-/

namespace Noff.HttpParser

open Http

/-! ## States -/

/-- The type of the parsers that come into a state. -/
def State.line : State → Option HttpParserType
  | .startRes | .resH | .resHT | .resHTT | .resHTTP | .resFirstHttpMajor | .resHttpMajor
  | .resFirstHttpMinor | .resHttpMinor | .resFirstStatusCode | .resStatusCode | .resStatusStart
  | .resStatus | .resLineAlmostDone => some .response
  | .startReq | .reqMethod | .reqSpacesBeforeUrl | .reqSchema | .reqSchemaSlash
  | .reqSchemaSlashSlash | .reqServerStart | .reqServer | .reqServerWithAt | .reqPath
  | .reqQueryStringStart | .reqQueryString | .reqFragmentStart | .reqFragment | .reqHttpStart
  | .reqHttpH | .reqHttpHT | .reqHttpHTT | .reqHttpHTTP | .reqFirstHttpMajor | .reqHttpMajor
  | .reqFirstHttpMinor | .reqHttpMinor | .reqLineAlmostDone => some .request
  | _ => none

/-- How far a header section has come in a state. -/
def State.Allows (ph : Phase) : State → Prop
  | .headerValueDiscardWs | .headerValueDiscardWsAlmostDone | .headerValueDiscardLws => ph = .due
  | .headerValue => ph ≠ .idle
  | .headerAlmostDone | .headerValueLws => ph = .valued
  | _ => ph ≠ .due

/-- The states that a byte passes through at most. -/
def State.transient : State → Bool
  | .headersDone | .messageDone | .headerValueStart => true
  | _ => false

/-- What `header_state` can be in the loop of `s_header_field`. -/
def HeaderState.ofField : HeaderState → Bool
  | .general | .c | .co | .con | .matchingConnection | .matchingProxyConnection
  | .matchingContentLength | .matchingTransferEncoding | .matchingUpgrade | .connection
  | .contentLength | .transferEncoding | .upgrade => true
  | _ => false

/-- What it can be in the loop of `s_header_value`. -/
def HeaderState.ofValue : HeaderState → Bool
  | .general | .contentLength | .matchingTransferEncodingChunked | .matchingConnectionTokenStart
  | .matchingConnectionKeepAlive | .matchingConnectionClose | .matchingConnectionUpgrade
  | .matchingConnectionToken | .transferEncodingChunked | .connectionKeepAlive
  | .connectionClose | .connectionUpgrade => true
  | _ => false

/-- How far a string that is being matched has been matched at most. -/
def HeaderState.bound : HeaderState → Nat
  | .c => 0
  | .co => 1
  | .con => 2
  | .matchingConnection => 8
  | .matchingProxyConnection => 14
  | .matchingContentLength => 12
  | .matchingTransferEncoding => 15
  | .matchingUpgrade => 5
  | .matchingTransferEncodingChunked => 5
  | .matchingConnectionTokenStart => 0
  | .matchingConnectionKeepAlive => 8
  | .matchingConnectionClose => 3
  | .matchingConnectionUpgrade => 5
  | _ => 17

/-! ## Members -/

/-- The members that a header is matched with. -/
def Members.Matches (s : Members) : Prop :=
  match s.state with
  | .reqMethod => s.index ≤ s.method.string.length
  | .headerField => s.headerState.ofField ∧ s.index ≤ s.headerState.bound
  | .headerValue => s.headerState.ofValue ∧ s.index ≤ s.headerState.bound
  | _ => True

/-- The members that a body is read with. -/
def Members.Sized (s : Members) : Prop :=
  match s.state with
  | .bodyIdentity => s.contentLength ≠ 0 ∧ s.contentLength ≠ ullongMax
  | .chunkSizeStart | .chunkDataDone => s.flags.chunked
  | .chunkSize | .chunkParameters | .chunkSizeAlmostDone =>
    s.flags.chunked ∧ s.contentLength ≠ ullongMax
  | .chunkData => s.flags.chunked ∧ s.contentLength ≠ 0 ∧ s.contentLength ≠ ullongMax
  | .chunkDataAlmostDone => s.flags.chunked ∧ s.contentLength = 0
  | _ => True

/-- The members between two bytes, of a parser of type `ty`, with a header section at `ph`. The
numbers fit into their bit-fields. -/
structure Inv (ty : HttpParserType) (s : Members) (ph : Phase) : Prop where
  type : s.type = ty
  line : s.state.line = none ∨ s.state.line = some ty
  atRest : s.state.transient = false
  phase : s.state.Allows ph
  index : s.index ≤ 17
  version : s.httpMajor ≤ 999 ∧ s.httpMinor ≤ 999
  statusCode : s.statusCode ≤ 999
  strings : s.Matches
  sizes : s.Sized

/-- Whether nothing is said about the other members in a state. -/
def State.plain : State → Bool
  | .reqMethod | .headerField | .headerValue | .bodyIdentity | .chunkSizeStart | .chunkSize
  | .chunkParameters | .chunkSizeAlmostDone | .chunkData | .chunkDataAlmostDone
  | .chunkDataDone => false
  | st => !st.transient

variable {ty : HttpParserType} {s s' : Members} {ph ph' : Phase} {ch : Byte}

theorem Members.matches_of_plain (h : s.state.plain) : s.Matches := by
  unfold Members.Matches
  cases hs : s.state <;> rw [hs] at h <;> trivial

theorem Members.sized_of_plain (h : s.state.plain) : s.Sized := by
  unfold Members.Sized
  cases hs : s.state <;> rw [hs] at h <;> trivial

theorem State.transient_of_plain {st : State} (h : st.plain) : st.transient = false := by
  cases st <;> first | rfl | cases h

/-- The numbers of the members. -/
structure Members.Small (s : Members) : Prop where
  index : s.index ≤ 17
  version : s.httpMajor ≤ 999 ∧ s.httpMinor ≤ 999
  statusCode : s.statusCode ≤ 999

theorem Inv.small (h : Inv ty s ph) : s.Small := ⟨h.index, h.version, h.statusCode⟩

/-- The invariant in a plain state. -/
theorem Members.Small.inv (h : s.Small) (ht : s.type = ty) (hp : s.state.plain)
    (hl : s.state.line = none ∨ s.state.line = some ty) (hph : s.state.Allows ph) : Inv ty s ph where
  type := ht
  line := hl
  atRest := State.transient_of_plain hp
  phase := hph
  index := h.index
  version := h.version
  statusCode := h.statusCode
  strings := Members.matches_of_plain hp
  sizes := Members.sized_of_plain hp

/-- The state at the start of a message. -/
theorem startState_rest (ty : HttpParserType) : (startState ty).plain = true ∧
    (startState ty).line = some ty ∧ marked (startState ty) = none := by
  cases ty <;> exact ⟨rfl, rfl, rfl⟩

theorem allows_startState : (startState ty).Allows ph ↔ ph ≠ .due := by cases ty <;> exact Iff.rfl

theorem inv_init : Inv ty (.init ty) .idle :=
  Members.Small.inv ⟨Nat.zero_le _, ⟨Nat.zero_le _, Nat.zero_le _⟩, Nat.zero_le _⟩ rfl
    (startState_rest ty).1 (.inr (startState_rest ty).2.1) (allows_startState.mpr fun h => by cases h)

/-! ## What effects follow each other -/

/-- What is known in the course of a turn: the mark (with `true` if it was set on an earlier
byte), whether the body is marked, the value of `nread` if it matters, and the phase. -/
structure Track where
  mark : Option (Element × Bool)
  body : Bool
  nread : Option Nat
  phase : Phase

/-- `type` and the members that the callbacks read. -/
def Members.view (s : Members) : HttpParserType × HttpMethod × Nat := (s.type, s.method, s.statusCode)

/-- An effect of a turn that leaves the members `s`. -/
def Track.next (ty : HttpParserType) (s : Members) (t : Track) : Effect → Option Track
  | .mark k =>
    if t.mark = none ∧ (t.phase.report ty k true).isSome then some { t with mark := some (k, false) }
    else none
  | .data k _ s' =>
    match t.mark with
    | some (k', old) =>
      if k' = k ∧ s'.view = s.view then
        (t.phase.report ty k old).map fun ph => { t with mark := none, phase := ph }
      else none
    | none => none
  | .headersComplete s' =>
    if t.mark = none ∧ t.phase ≠ .due ∧ s'.view = s.view then some { t with phase := .idle }
    else none
  | .assert b => if b then some t else none
  | .assertNread => if t.nread = some 1 then some t else none
  | .countHeaderSize _ => some { t with nread := none }
  | .resetNread => some { t with nread := some 0 }
  | .markBody => some { t with body := true }
  | .dataBody => some { t with body := false }
  | .error _ => some t
  -- Nothing comes behind it.
  | .exit => none

section

variable {t t' : Track} {k : Element}

theorem Track.next_mark (h : t.next ty s (.mark k) = some t') :
    t.mark = none ∧ (t.phase.report ty k true).isSome ∧ t' = { t with mark := some (k, false) } := by
  rw [Track.next] at h
  split at h
  · exact ⟨‹_ ∧ _›.1, ‹_ ∧ _›.2, (Option.some.inj h).symm⟩
  · cases h

theorem Track.next_data {advance : Bool} (h : t.next ty s (.data k advance s') = some t') :
    ∃ old ph, t.mark = some (k, old) ∧ s'.view = s.view ∧ t.phase.report ty k old = some ph ∧
      t' = { t with mark := none, phase := ph } := by
  rw [Track.next] at h
  split at h
  · rename_i k' old hm
    split at h
    · obtain ⟨ph, hph, rfl⟩ := Option.map_eq_some_iff.mp h
      obtain ⟨rfl, hview⟩ := ‹k' = k ∧ _›
      exact ⟨old, ph, hm, hview, hph, rfl⟩
    · cases h
  · cases h

theorem Track.next_headersComplete (h : t.next ty s (.headersComplete s') = some t') :
    t.mark = none ∧ t.phase ≠ .due ∧ s'.view = s.view ∧ t' = { t with phase := .idle } := by
  rw [Track.next] at h
  split at h
  · rename_i hc
    exact ⟨hc.1, hc.2.1, hc.2.2, (Option.some.inj h).symm⟩
  · cases h

/-- The other effects are not seen by the callbacks. -/
theorem Track.next_other {a : Effect} (ha : (∀ k, a ≠ .mark k) ∧ (∀ k b s', a ≠ .data k b s') ∧
    ∀ s', a ≠ .headersComplete s') (h : t.next ty s a = some t') :
    t'.mark = t.mark ∧ t'.phase = t.phase := by
  cases a with
  | mark k => exact absurd rfl (ha.1 k)
  | data k b s' => exact absurd rfl (ha.2.1 k b s')
  | headersComplete s' => exact absurd rfl (ha.2.2 s')
  | assert b =>
    rw [Track.next] at h
    split at h <;> cases h
    exact ⟨rfl, rfl⟩
  | assertNread =>
    rw [Track.next] at h
    split at h <;> cases h
    exact ⟨rfl, rfl⟩
  | exit => cases h
  | _ =>
    cases h
    exact ⟨rfl, rfl⟩

end

/-- The states in which a body can be marked. -/
def State.inBody : State → Bool
  | .chunkData | .chunkDataAlmostDone | .bodyIdentity | .bodyIdentityEof => true
  | _ => false

/-- What is known at the end of a turn. -/
structure Track.Rest (ty : HttpParserType) (s : Members) (t : Track) : Prop where
  mark : marked s.state = t.mark.map Prod.fst
  body : t.body → s.state.inBody
  nread : s.state = .chunkSizeStart → t.nread = some 0
  inv : Inv ty s t.phase

/-- The effects of a turn that leaves the members `s`. -/
def Fine (ty : HttpParserType) (s : Members) : Track → List Effect → Prop
  | t, [] => t.Rest ty s
  | _, .error _ :: _ => s.type = ty
  | t, .exit :: es => es = [] ∧ t.mark = none ∧ t.Rest ty s
  | t, a :: es => ∃ t', t.next ty s a = some t' ∧ Fine ty s t' es

/-- What is known at the start of a turn in the state `st`. -/
def Track.start (st : State) (body : Bool) (ph : Phase) : Track where
  mark := (marked st).map (·, true)
  body := body
  nread := if st = .chunkSizeStart then some 1 else none
  phase := ph

theorem Fine.type {t : Track} {es : List Effect} (h : Fine ty s t es) : s.type = ty := by
  induction es generalizing t with
  | nil => exact h.inv.type
  | cons a es ih =>
    cases a with
    | error e => exact h
    | exit => exact h.2.2.inv.type
    | _ =>
      obtain ⟨_, _, h'⟩ := h
      exact ih h'

theorem Fine.then {o : Out} {a : Effect} {t t' : Track} (ha : t.next ty o.2 a = some t')
    (h : Fine ty o.2 t' o.1) : Fine ty (a.then o).2 t (a.then o).1 := by
  cases a with
  | error e => exact h.type
  | exit => cases ha
  | _ => exact ⟨_, ha, h⟩

theorem report_headerField (h : ph ≠ .due) : ph.report ty .headerField true = some .due := by
  cases ph <;> first | rfl | exact absurd rfl h

theorem report_headerValue (h : ph ≠ .idle) : ph.report ty .headerValue true = some .valued := by
  cases ph <;> first | rfl | exact absurd rfl h

theorem report_url (h : ph ≠ .due) : ph.report .request .url true = some .idle := by
  cases ph <;> first | rfl | exact absurd rfl h

theorem report_status (h : ph ≠ .due) : ph.report .response .status true = some .idle := by
  cases ph <;> first | rfl | exact absurd rfl h

/-! ## The ends of messages -/

/-- A turn that ends in a plain state. -/
theorem Members.Small.rest {m : Option (Element × Bool)} {nr : Option Nat} (h : s.Small)
    (ht : s.type = ty) (hp : s.state.plain = true) (hl : s.state.line = none ∨ s.state.line = some ty)
    (hm : marked s.state = m.map Prod.fst) (hph : s.state.Allows ph) :
    (Track.mk m false nr ph).Rest ty s where
  mark := hm
  body := fun hb => by cases hb
  nread := fun hs => by
    rw [hs] at hp
    cases hp
  inv := h.inv ht hp hl hph

theorem newMessage_rest {nr : Option Nat} (h : s.Small) (ht : s.type = ty) (hph : ph ≠ .due) :
    (Track.mk none false nr ph).Rest ty { s with state := newMessage s } := by
  have hs : newMessage s = .dead ∨ newMessage s = startState ty := by
    rw [newMessage, ht]
    split <;> simp
  rcases hs with hs | hs <;> rw [hs]
  · exact Members.Small.rest ⟨h.index, h.version, h.statusCode⟩ ht rfl (.inl rfl) rfl hph
  · obtain ⟨hp, hl, hm⟩ := startState_rest ty
    exact Members.Small.rest ⟨h.index, h.version, h.statusCode⟩ ht hp (.inr hl) hm
      (allows_startState.mpr hph)

theorem messageDone_fine {nr : Option Nat} (h : s.Small) (ht : s.type = ty) (hph : ph ≠ .due) :
    Fine ty (messageDone s).2 ⟨none, false, nr, ph⟩ (messageDone s).1 := by
  rw [messageDone]
  split
  · exact ⟨rfl, rfl, newMessage_rest h ht hph⟩
  · exact newMessage_rest h ht hph

theorem headersDone_fine {nr : Option Nat} (h : s.Small) (ht : s.type = ty) (hph : ph ≠ .due) :
    Fine ty (headersDone s ch).2 ⟨none, false, nr, ph⟩ (headersDone s ch).1 := by
  rw [headersDone]
  split
  · exact ht
  dsimp only
  split
  · exact ⟨_, rfl, rfl, rfl, newMessage_rest h ht hph⟩
  refine .then rfl ?_
  change Track.Rest ty _ _
  split
  · exact newMessage_rest h ht hph
  split
  · rename_i hchunked
    exact ⟨rfl, fun hb => (by cases hb), fun _ => rfl, ht, .inl rfl, rfl, hph, h.index, h.version,
      h.statusCode, trivial, hchunked⟩
  split
  · exact newMessage_rest h ht hph
  split
  · rename_i hzero hmax
    exact ⟨rfl, fun hb => (by cases hb), fun hs => (by cases hs), ht, .inl rfl, rfl, hph, h.index,
      h.version, h.statusCode, trivial, hzero, hmax⟩
  split
  · exact newMessage_rest h ht hph
  · exact Members.Small.rest ⟨h.index, h.version, h.statusCode⟩ ht rfl (.inl rfl) rfl hph

theorem headersDone_view : (headersDone s ch).2.view = s.view := by
  rw [headersDone]
  split
  · rfl
  dsimp only
  split <;> rfl

theorem headersAlmostDone_fine {nr : Option Nat} (h : s.Small) (ht : s.type = ty) (hph : ph ≠ .due) :
    Fine ty (headersAlmostDone s ch).2 ⟨none, false, nr, ph⟩ (headersAlmostDone s ch).1 := by
  rw [headersAlmostDone]
  split
  · exact ht
  split
  · exact messageDone_fine ⟨h.index, h.version, h.statusCode⟩ ht hph
  split
  · exact ht
  · exact .then (if_pos ⟨rfl, hph, headersDone_view.symm⟩)
      (headersDone_fine ⟨h.index, h.version, h.statusCode⟩ ht fun hd => by cases hd)

theorem headersAlmostDone_view : (headersAlmostDone s ch).2.view = s.view := by
  rw [headersAlmostDone]
  split
  · rfl
  split
  · rfl
  split
  · rfl
  · exact headersDone_view

/-! ## Headers -/

/-- At the first byte of a field. -/
theorem headerFieldStart_fine {nr : Option Nat} (h : s.Small) (ht : s.type = ty) (hph : ph ≠ .due) :
    Fine ty (headerFieldStart s ch).2 ⟨none, false, nr, ph⟩ (headerFieldStart s ch).1 := by
  rw [headerFieldStart]
  split
  · exact Members.Small.rest ⟨h.index, h.version, h.statusCode⟩ ht rfl (.inl rfl) rfl hph
  split
  · exact headersAlmostDone_fine ⟨h.index, h.version, h.statusCode⟩ ht hph
  dsimp only
  split
  · exact ht
  have hreport : (ph.report ty .headerField true).isSome := by rw [report_headerField hph]; rfl
  refine ⟨_, if_pos ⟨rfl, hreport⟩, rfl, fun hb => (by cases hb), fun hs => (by cases hs), ht,
    .inl rfl, rfl, hph, Nat.zero_le _, h.version, h.statusCode, ⟨?_, Nat.zero_le _⟩, trivial⟩
  repeat' split
  all_goals rfl

theorem headerFieldStart_view : (headerFieldStart s ch).2.view = s.view := by
  rw [headerFieldStart]
  split
  · rfl
  split
  · exact headersAlmostDone_view
  dsimp only
  split <;> rfl

theorem headerValueStart_fine {nr : Option Nat} (h : s.Small) (ht : s.type = ty) (hph : ph ≠ .idle) :
    Fine ty (headerValueStart s ch).2 ⟨none, false, nr, ph⟩ (headerValueStart s ch).1 := by
  have hreport : (ph.report ty .headerValue true).isSome := by rw [report_headerValue hph]; rfl
  -- The value is marked, and `header_state` says how it is read.
  have hrest (s' : Members) (hsmall : s'.Small) (ht' : s'.type = ty) (hs' : s'.state = .headerValue)
      (hm : s'.headerState.ofValue ∧ s'.index ≤ s'.headerState.bound) :
      Fine ty s' ⟨none, false, nr, ph⟩ [.mark .headerValue] := by
    refine ⟨_, if_pos ⟨rfl, hreport⟩, ?_, fun hb => (by cases hb), fun hs => ?_, ?_⟩
    · rw [hs']
      rfl
    · rw [hs'] at hs
      cases hs
    · exact ⟨ht', by rw [hs']; exact .inl rfl, by rw [hs']; rfl, by rw [hs']; exact hph, hsmall.index,
        hsmall.version, hsmall.statusCode, by rw [Members.Matches, hs']; exact hm,
        by rw [Members.Sized, hs']; trivial⟩
  rw [headerValueStart]
  dsimp only
  split
  · exact hrest _ ⟨Nat.zero_le _, h.version, h.statusCode⟩ ht rfl ⟨rfl, Nat.zero_le _⟩
  · refine hrest _ ⟨Nat.zero_le _, h.version, h.statusCode⟩ ht rfl ⟨?_, Nat.zero_le _⟩
    split <;> rfl
  · split
    · exact ⟨_, if_pos ⟨rfl, hreport⟩, ht⟩
    split
    · exact ⟨_, if_pos ⟨rfl, hreport⟩, ht⟩
    · rename_i hst _ _
      refine hrest _ ⟨Nat.zero_le _, h.version, h.statusCode⟩ ht rfl ⟨?_, Nat.zero_le _⟩
      exact congrArg HeaderState.ofValue hst
  · refine hrest _ ⟨Nat.zero_le _, h.version, h.statusCode⟩ ht rfl ⟨?_, Nat.zero_le _⟩
    repeat' split
    all_goals rfl
  · exact hrest _ ⟨Nat.zero_le _, h.version, h.statusCode⟩ ht rfl ⟨rfl, Nat.zero_le _⟩
  · exact hrest _ ⟨Nat.zero_le _, h.version, h.statusCode⟩ ht rfl ⟨rfl, Nat.zero_le _⟩

theorem headerAlmostDone_fine {nr : Option Nat} (h : s.Small) (ht : s.type = ty)
    (hph : ph = .valued) :
    Fine ty (headerAlmostDone s ch).2 ⟨none, false, nr, ph⟩ (headerAlmostDone s ch).1 := by
  rw [headerAlmostDone]
  split
  · exact ht
  · exact Members.Small.rest ⟨h.index, h.version, h.statusCode⟩ ht rfl (.inl rfl) rfl hph

theorem headerValueLws_fine {nr : Option Nat} (h : s.Small) (ht : s.type = ty)
    (hph : ph = .valued) :
    Fine ty (headerValueLws s ch).2 ⟨none, false, nr, ph⟩ (headerValueLws s ch).1 := by
  subst hph
  rw [headerValueLws]
  split
  · exact headerValueStart_fine ⟨h.index, h.version, h.statusCode⟩ ht fun hi => by cases hi
  · exact headerFieldStart_fine ⟨h.index, h.version, h.statusCode⟩ ht fun hd => by cases hd

theorem headerValueDiscardWs_fine {nr : Option Nat} (h : s.Small) (ht : s.type = ty)
    (hs : s.state = .headerValueDiscardWs) (hph : ph = .due) :
    Fine ty (headerValueDiscardWs s ch).2 ⟨none, false, nr, ph⟩ (headerValueDiscardWs s ch).1 := by
  rw [headerValueDiscardWs]
  split
  · exact h.rest ht (by rw [hs]; rfl) (by rw [hs]; exact .inl rfl) (by rw [hs]; rfl)
      (by rw [hs]; exact hph)
  split
  · exact Members.Small.rest ⟨h.index, h.version, h.statusCode⟩ ht rfl (.inl rfl) rfl hph
  split
  · exact Members.Small.rest ⟨h.index, h.version, h.statusCode⟩ ht rfl (.inl rfl) rfl hph
  · subst hph
    exact headerValueStart_fine h ht fun hi => by cases hi

theorem headerValueDiscardLws_fine {nr : Option Nat} (h : s.Small) (ht : s.type = ty)
    (hph : ph = .due) :
    Fine ty (headerValueDiscardLws s ch).2 ⟨none, false, nr, ph⟩ (headerValueDiscardLws s ch).1 := by
  subst hph
  rw [headerValueDiscardLws]
  split
  · exact Members.Small.rest ⟨h.index, h.version, h.statusCode⟩ ht rfl (.inl rfl) rfl rfl
  · exact .then rfl (.then (if_pos ⟨rfl, headerFieldStart_view.symm⟩)
      (headerFieldStart_fine ⟨h.index, h.version, h.statusCode⟩ ht fun hd => by cases hd))

/-! ## The first line -/

/-- A version number or a status code, with one digit more. -/
theorem addDigit_le {n m : Nat} (h : addDigit n ch = some m) : m ≤ 999 := by
  rw [addDigit] at h
  split at h
  · cases h
  · obtain rfl := Option.some.inj h
    omega

theorem digit_le (h : isNum ch = true) : digit ch ≤ 9 := by
  rw [isNum, Bool.and_eq_true] at h
  have h₁ := BitVec.le_def.mp (of_decide_eq_true h.1)
  have h₂ := BitVec.le_def.mp (of_decide_eq_true h.2)
  have h48 : (0x30 : Byte).toNat = 48 := rfl
  have h57 : (0x39 : Byte).toNat = 57 := rfl
  rw [digit, BitVec.toNat_sub_of_le (of_decide_eq_true h.1)]
  omega

section line

variable {t : Track}

theorem expect_fine {c : Byte} {st : State} (ht : s.type = ty) (h : ch = c → t.Rest ty { s with state := st }) :
    Fine ty (expect s ch c st).2 t (expect s ch c st).1 := by
  rw [expect]
  split
  · exact h ‹_›
  · exact ht

theorem versionDigit_fine {n : Nat} {set : Nat → Members} (ht : s.type = ty)
    (h : ∀ m ≤ 999, t.Rest ty (set m)) :
    Fine ty (versionDigit s n ch set).2 t (versionDigit s n ch set).1 := by
  rw [versionDigit]
  split
  · exact ht
  split
  · exact ht
  · exact h _ (addDigit_le ‹_›)

/-- A string ends, and is reported. -/
theorem report_fine {k : Element} {st : State} {body : Bool} {nr : Option Nat}
    (hph : ph.report ty k true = some ph')
    (h : (Track.mk none body nr ph').Rest ty { s with state := st }) :
    Fine ty (report s k st).2 ⟨some (k, true), body, nr, ph⟩ (report s k st).1 :=
  ⟨_, (if_pos ⟨rfl, rfl⟩).trans (by rw [hph]; rfl), h⟩

end line

theorem mem_of_lookup {α β : Type} [BEq α] [LawfulBEq α] {l : List (α × β)} {k : α} {b : β}
    (h : l.lookup k = some b) : (k, b) ∈ l := by
  obtain ⟨l₁, l₂, rfl, -⟩ := List.lookup_eq_some_iff.mp h
  exact List.mem_append_right _ (List.mem_cons_self ..)

/-- A change of the method is one to a method that goes on with the byte. -/
theorem methodChanges_spec {m m' : HttpMethod} {i : Nat}
    (h : methodChanges.lookup (m, i, ch) = some m') :
    m'.string.take i = m.string.take i ∧ m'.string[i]? = some ch := by
  have hall : ∀ x ∈ methodChanges, x.2.string.take x.1.2.1 = x.1.1.string.take x.1.2.1 ∧
      x.2.string[x.1.2.1]? = some x.1.2.2 := by decide
  exact hall ((m, i, ch), m') (mem_of_lookup h)

theorem firstMethods_spec {m : HttpMethod} (h : firstMethods.lookup ch = some m) :
    m.string[0]? = some ch := by
  have hall : ∀ x ∈ firstMethods, x.2.string[0]? = some x.1 := by decide
  exact hall (ch, m) (mem_of_lookup h)

theorem length_string (m : HttpMethod) : m.string.length ≤ 16 := by cases m <;> decide

/-! ### URLs -/

theorem parseUrlServer_marked (h : parseUrlServer ch ≠ .dead) :
    marked (parseUrlServer ch) = some .url := by
  unfold parseUrlServer at h ⊢
  split <;> [rfl; split <;> [rfl; split <;> [rfl; split]]]
  · rfl
  · simp_all

theorem parseUrlRest_marked {st st' : State} (hst : marked st = some .url)
    (hst' : marked st' = some .url) (h : parseUrlRest st st' ch ≠ .dead) :
    marked (parseUrlRest st st' ch) = some .url := by
  unfold parseUrlRest at h ⊢
  split
  · exact hst
  split
  · exact hst'
  · simp_all

/-- A URL goes on in a state in which it is marked. -/
theorem parseUrlChar_marked {st : State} (h : parseUrlChar st ch ≠ .dead) :
    marked (parseUrlChar st ch) = some .url := by
  unfold parseUrlChar at h ⊢
  split at h
  · exact absurd rfl h
  rename_i hch
  rw [if_neg hch]
  cases st with
  | reqServerStart | reqServer => exact parseUrlServer_marked h
  | reqServerWithAt =>
    dsimp only at h ⊢
    split at h
    · exact absurd rfl h
    · rename_i hat
      rw [if_neg hat]
      exact parseUrlServer_marked h
  | reqQueryStringStart | reqQueryString | reqFragmentStart | reqFragment =>
    exact parseUrlRest_marked rfl rfl h
  | reqSpacesBeforeUrl | reqSchema =>
    dsimp only at h ⊢
    split <;> [rfl; split <;> [rfl; simp_all]]
  | reqSchemaSlash | reqSchemaSlashSlash =>
    dsimp only at h ⊢
    split <;> [rfl; simp_all]
  | reqPath =>
    dsimp only at h ⊢
    split <;> [rfl; split <;> [rfl; split <;> [rfl; simp_all]]]
  | _ => exact absurd rfl h

/-- What the states of a URL have in common. -/
theorem State.of_marked_url {st : State} (h : marked st = some .url) :
    st.plain = true ∧ st.line = some .request ∧ (st.Allows ph ↔ ph ≠ .due) := by
  cases st <;> cases h <;> exact ⟨rfl, rfl, Iff.rfl⟩

theorem url_fine {st : State} {old : Bool} {nr : Option Nat} (h : s.Small) (ht : s.type = .request)
    (hph : ph ≠ .due) :
    Fine .request (url s st ch).2 ⟨some (.url, old), false, nr, ph⟩ (url s st ch).1 := by
  rw [url]
  dsimp only
  split
  · exact ht
  · have hm := parseUrlChar_marked ‹_›
    obtain ⟨hp, hl, ha⟩ := State.of_marked_url hm
    exact Members.Small.rest ⟨h.index, h.version, h.statusCode⟩ ht hp (.inr hl) hm (ha.mpr hph)

theorem reqSpacesBeforeUrl_fine {nr : Option Nat} (h : s.Small) (ht : s.type = .request)
    (hs : s.state = .reqSpacesBeforeUrl) (hph : ph ≠ .due) :
    Fine .request (reqSpacesBeforeUrl s ch).2 ⟨none, false, nr, ph⟩ (reqSpacesBeforeUrl s ch).1 := by
  rw [reqSpacesBeforeUrl]
  split
  · exact h.rest ht (by rw [hs]; rfl) (by rw [hs]; exact .inr rfl) (by rw [hs]; rfl)
      (by rw [hs]; exact hph)
  · exact .then (if_pos ⟨rfl, by rw [report_url hph]; rfl⟩) (url_fine h ht hph)

theorem reqSchema_fine {nr : Option Nat} (h : s.Small) (ht : s.type = .request) (hph : ph ≠ .due) :
    Fine .request (reqSchema s ch).2 ⟨some (.url, true), false, nr, ph⟩ (reqSchema s ch).1 := by
  rw [reqSchema]
  split
  · exact ht
  · exact url_fine h ht hph

theorem reqUrl_fine {nr : Option Nat} (h : s.Small) (ht : s.type = .request) (hph : ph ≠ .due) :
    Fine .request (reqUrl s ch).2 ⟨some (.url, true), false, nr, ph⟩ (reqUrl s ch).1 := by
  have hidle : Phase.idle ≠ .due := fun h => by cases h
  rw [reqUrl]
  split
  · exact report_fine (report_url hph)
      (Members.Small.rest ⟨h.index, h.version, h.statusCode⟩ ht rfl (.inr rfl) rfl hidle)
  split
  · have hsmall : ∀ st, ({ s with httpMajor := 0, httpMinor := 9, state := st } : Members).Small :=
      fun _ => ⟨h.index, ⟨Nat.zero_le _, (by decide : 9 ≤ 999)⟩, h.statusCode⟩
    refine report_fine (report_url hph) ?_
    split
    · exact (hsmall _).rest ht rfl (.inr rfl) rfl hidle
    · exact (hsmall _).rest ht rfl (.inl rfl) rfl hidle
  · exact url_fine h ht hph

/-! ### Methods -/

theorem startReq_fine {nr : Option Nat} (h : s.Small) (ht : s.type = .request)
    (hs : s.state = .startReq) (hph : ph ≠ .due) :
    Fine .request (startReq s ch).2 ⟨none, false, nr, ph⟩ (startReq s ch).1 := by
  rw [startReq]
  split
  · exact h.rest ht (by rw [hs]; rfl) (by rw [hs]; exact .inr rfl) (by rw [hs]; rfl)
      (by rw [hs]; exact hph)
  dsimp only
  split
  · exact ht
  · rename_i m hm
    have hlen : 1 ≤ m.string.length := (List.getElem?_eq_some_iff.mp (firstMethods_spec hm)).1
    exact ⟨rfl, fun hb => (by cases hb), fun hc => (by cases hc), ht, .inr rfl, rfl, hph,
      (by decide : 1 ≤ 17), h.version, h.statusCode, hlen, trivial⟩

theorem reqMethod_fine {nr : Option Nat} (h : s.Small) (ht : s.type = .request)
    (hs : s.state = .reqMethod) (hi : s.index ≤ s.method.string.length) (hph : ph ≠ .due) :
    Fine .request (reqMethod s ch).2 ⟨none, false, nr, ph⟩ (reqMethod s ch).1 := by
  have hlen (m : HttpMethod) := length_string m
  -- One byte more of the method `m`.
  have hmore (m : HttpMethod) (hm : s.index < m.string.length) :
      Track.Rest .request { s with method := m, index := s.index + 1 } ⟨none, false, nr, ph⟩ := by
    have := hlen m
    refine ⟨by rw [hs]; rfl, fun hb => (by cases hb), fun hc => ?_, ht, by rw [hs]; exact .inr rfl,
      by rw [hs]; rfl, by rw [hs]; exact hph, ?_, h.version, h.statusCode, ?_, ?_⟩
    · rw [hs] at hc
      cases hc
    · show s.index + 1 ≤ 17
      omega
    · rw [Members.Matches, hs]
      exact hm
    · rw [Members.Sized, hs]
      trivial
  have hin : s.index < (s.method.string ++ [0]).length := by
    rw [List.length_append]
    exact Nat.lt_succ_of_le hi
  rw [reqMethod]
  split
  · exact ht
  rename_i hch
  rw [List.getElem?_eq_getElem hin]
  dsimp only
  split
  · have := hlen s.method
    refine Members.Small.rest ⟨?_, h.version, h.statusCode⟩ ht rfl (.inr rfl) rfl hph
    show s.index + 1 ≤ 17
    omega
  split
  · rename_i heq
    refine hmore s.method (Nat.lt_of_le_of_ne hi fun he => hch ?_)
    -- At its end the string has a NUL.
    rw [heq, List.getElem_append_right (Nat.le_of_eq he.symm), List.getElem_singleton]
  split
  · split
    · exact ht
    · rename_i m hm
      exact hmore m (List.getElem?_eq_some_iff.mp (methodChanges_spec hm).2).1
  split
  · rename_i hdash
    simp only [Bool.and_eq_true, decide_eq_true_eq] at hdash
    refine hmore .msearch ?_
    rw [hdash.1.2]
    decide
  · exact ht

/-! ### Status lines -/

theorem startRes_fine {nr : Option Nat} (h : s.Small) (ht : s.type = .response)
    (hs : s.state = .startRes) (hph : ph ≠ .due) :
    Fine .response (startRes s ch).2 ⟨none, false, nr, ph⟩ (startRes s ch).1 := by
  rw [startRes]
  split
  · exact Members.Small.rest ⟨h.index, h.version, h.statusCode⟩ ht rfl (.inr rfl) rfl hph
  split
  · exact Members.Small.rest ⟨h.index, h.version, h.statusCode⟩ ht (by rw [hs]; rfl)
      (by rw [hs]; exact .inr rfl) (by rw [hs]; rfl) (by rw [hs]; exact hph)
  · exact ht

theorem resStatusCode_fine {nr : Option Nat} (h : s.Small) (ht : s.type = .response)
    (hs : s.state = .resStatusCode) (hph : ph ≠ .due) :
    Fine .response (resStatusCode s ch).2 ⟨none, false, nr, ph⟩ (resStatusCode s ch).1 := by
  rw [resStatusCode]
  split
  · split
    · exact Members.Small.rest ⟨h.index, h.version, h.statusCode⟩ ht rfl (.inr rfl) rfl hph
    split
    · exact Members.Small.rest ⟨h.index, h.version, h.statusCode⟩ ht rfl (.inr rfl) rfl hph
    split
    · exact Members.Small.rest ⟨h.index, h.version, h.statusCode⟩ ht rfl (.inl rfl) rfl hph
    · exact ht
  split
  · exact ht
  · exact Members.Small.rest ⟨h.index, h.version, addDigit_le ‹_›⟩ ht (by rw [hs]; rfl)
      (by rw [hs]; exact .inr rfl) (by rw [hs]; rfl) (by rw [hs]; exact hph)

theorem resStatusStart_fine {nr : Option Nat} (h : s.Small) (ht : s.type = .response)
    (hph : ph ≠ .due) :
    Fine .response (resStatusStart s ch).2 ⟨none, false, nr, ph⟩ (resStatusStart s ch).1 := by
  rw [resStatusStart]
  split
  · exact Members.Small.rest ⟨h.index, h.version, h.statusCode⟩ ht rfl (.inr rfl) rfl hph
  split
  · exact Members.Small.rest ⟨h.index, h.version, h.statusCode⟩ ht rfl (.inl rfl) rfl hph
  · exact ⟨_, if_pos ⟨rfl, by rw [report_status hph]; rfl⟩,
      Members.Small.rest ⟨Nat.zero_le _, h.version, h.statusCode⟩ ht rfl (.inr rfl) rfl hph⟩

theorem resStatus_fine {nr : Option Nat} (h : s.Small) (ht : s.type = .response)
    (hs : s.state = .resStatus) (hph : ph ≠ .due) :
    Fine .response (resStatus s ch).2 ⟨some (.status, true), false, nr, ph⟩ (resStatus s ch).1 := by
  have hidle : Phase.idle ≠ .due := fun h => by cases h
  rw [resStatus]
  split
  · exact report_fine (report_status hph)
      (Members.Small.rest ⟨h.index, h.version, h.statusCode⟩ ht rfl (.inr rfl) rfl hidle)
  split
  · exact report_fine (report_status hph)
      (Members.Small.rest ⟨h.index, h.version, h.statusCode⟩ ht rfl (.inl rfl) rfl hidle)
  · exact h.rest ht (by rw [hs]; rfl) (by rw [hs]; exact .inr rfl) (by rw [hs]; rfl)
      (by rw [hs]; exact hph)

/-! ## Bodies -/

/-- A length, with one digit more, is what it should be, and is not `ULLONG_MAX`. -/
theorem addLength_spec {base t t' : BitVec 64} {d : Nat} (h : addLength base t d = some t')
    (hd : d < base.toNat) : t'.toNat = t.toNat * base.toNat + d ∧ t' ≠ ullongMax := by
  have hmax : ullongMax.toNat = 2 ^ 64 - 1 := rfl
  have hbase := base.isLt
  rw [addLength] at h
  split at h
  · cases h
  rename_i hle
  obtain rfl := Option.some.inj h
  rw [BitVec.lt_def, BitVec.toNat_udiv, BitVec.toNat_sub_of_le (BitVec.le_def.mpr (by omega)), hmax,
    Nat.not_lt, Nat.le_div_iff_mul_le (by omega)] at hle
  have hnat : (t * base + BitVec.ofNat 64 d).toNat = t.toNat * base.toNat + d := by
    rw [BitVec.toNat_add, BitVec.toNat_mul, BitVec.toNat_ofNat]
    rw [Nat.mod_eq_of_lt (a := t.toNat * base.toNat) (by omega),
      Nat.mod_eq_of_lt (a := d) (by omega), Nat.mod_eq_of_lt (by omega)]
  refine ⟨hnat, fun he => ?_⟩
  rw [he, hmax] at hnat
  omega

theorem unhex_lt {d : Nat} (h : unhex ch = some d) : d < 16 := by
  rw [unhex] at h
  split at h
  · rename_i hn
    obtain rfl := Option.some.inj h
    rw [isNum, Bool.and_eq_true, decide_eq_true_eq, decide_eq_true_eq, BitVec.le_def,
      BitVec.le_def] at hn
    have h57 : (0x39 : Byte).toNat = 57 := rfl
    omega
  split at h
  · rename_i hn
    obtain rfl := Option.some.inj h
    rw [Bool.and_eq_true, decide_eq_true_eq, decide_eq_true_eq] at hn
    bv_omega
  split at h
  · obtain rfl := Option.some.inj h
    decide
  · cases h

section chunks

variable {nr : Option Nat} (h : s.Small) (ht : s.type = ty) (hph : ph ≠ .due)
include h ht hph

theorem chunkSizeStart_fine (hc : s.flags.chunked) :
    Fine ty (chunkSizeStart s ch).2 ⟨none, false, some 1, ph⟩ (chunkSizeStart s ch).1 := by
  refine .then rfl (.then (if_pos hc) ?_)
  split
  · exact ht
  · rename_i d hd
    refine ⟨rfl, fun hb => (by cases hb), fun hs => (by cases hs), ht, .inl rfl, rfl, hph, h.index,
      h.version, h.statusCode, trivial, hc, fun he => ?_⟩
    have hd := unhex_lt hd
    have := congrArg BitVec.toNat he
    rw [BitVec.toNat_ofNat, Nat.mod_eq_of_lt (by omega)] at this
    have hmax : ullongMax.toNat = 2 ^ 64 - 1 := rfl
    omega

theorem chunkSize_fine (hs : s.state = .chunkSize) (hc : s.flags.chunked)
    (hl : s.contentLength ≠ ullongMax) :
    Fine ty (chunkSize s ch).2 ⟨none, false, nr, ph⟩ (chunkSize s ch).1 := by
  refine .then (if_pos hc) ?_
  split
  · exact ⟨rfl, fun hb => (by cases hb), fun hs => (by cases hs), ht, .inl rfl, rfl, hph, h.index,
      h.version, h.statusCode, trivial, hc, hl⟩
  split
  · split
    · exact ⟨rfl, fun hb => (by cases hb), fun hs => (by cases hs), ht, .inl rfl, rfl, hph, h.index,
        h.version, h.statusCode, trivial, hc, hl⟩
    · exact ht
  rename_i d hd
  split
  · exact ht
  · rename_i t ht'
    have hlt : d < (16 : BitVec 64).toNat := unhex_lt hd
    refine ⟨by rw [hs]; rfl, fun hb => (by cases hb), fun hc => ?_, ht, by rw [hs]; exact .inl rfl,
      by rw [hs]; rfl, by rw [hs]; exact hph, h.index, h.version, h.statusCode, ?_, ?_⟩
    · rw [hs] at hc
      cases hc
    · rw [Members.Matches, hs]
      trivial
    · rw [Members.Sized, hs]
      exact ⟨hc, (addLength_spec ht' hlt).2⟩

theorem chunkParameters_fine (hs : s.state = .chunkParameters) (hc : s.flags.chunked)
    (hl : s.contentLength ≠ ullongMax) :
    Fine ty (chunkParameters s ch).2 ⟨none, false, nr, ph⟩ (chunkParameters s ch).1 := by
  refine .then (if_pos hc) ?_
  split
  · exact ⟨rfl, fun hb => (by cases hb), fun hs => (by cases hs), ht, .inl rfl, rfl, hph, h.index,
      h.version, h.statusCode, trivial, hc, hl⟩
  · refine ⟨by rw [hs]; rfl, fun hb => (by cases hb), fun hc => ?_, ht, by rw [hs]; exact .inl rfl,
      by rw [hs]; rfl, by rw [hs]; exact hph, h.index, h.version, h.statusCode, ?_, ?_⟩
    · rw [hs] at hc
      cases hc
    · rw [Members.Matches, hs]
      trivial
    · rw [Members.Sized, hs]
      exact ⟨hc, hl⟩

theorem chunkSizeAlmostDone_fine (hc : s.flags.chunked) (hl : s.contentLength ≠ ullongMax) :
    Fine ty (chunkSizeAlmostDone s ch).2 ⟨none, false, nr, ph⟩ (chunkSizeAlmostDone s ch).1 := by
  refine .then (if_pos hc) ?_
  split
  · exact ht
  refine .then rfl ?_
  split
  · exact Members.Small.rest ⟨h.index, h.version, h.statusCode⟩ ht rfl (.inl rfl) rfl hph
  · exact ⟨rfl, fun hb => (by cases hb), fun hs => (by cases hs), ht, .inl rfl, rfl, hph, h.index,
      h.version, h.statusCode, trivial, hc, ‹_›, hl⟩

theorem chunkDataAlmostDone_fine {body : Bool} (hc : s.flags.chunked) (hl : s.contentLength = 0) :
    Fine ty (chunkDataAlmostDone s ch).2 ⟨none, body, nr, ph⟩ (chunkDataAlmostDone s ch).1 := by
  refine .then (if_pos hc) (.then (if_pos (decide_eq_true hl)) ?_)
  split
  · exact ht
  · exact ⟨_, rfl, rfl, fun hb => (by cases hb), fun hs => (by cases hs), ht, .inl rfl, rfl, hph,
      h.index, h.version, h.statusCode, trivial, hc⟩

theorem chunkDataDone_fine (hc : s.flags.chunked) :
    Fine ty (chunkDataDone s ch).2 ⟨none, false, nr, ph⟩ (chunkDataDone s ch).1 := by
  refine .then (if_pos hc) ?_
  split
  · exact ht
  · exact ⟨_, rfl, rfl, fun hb => (by cases hb), fun _ => rfl, ht, .inl rfl, rfl, hph, h.index,
      h.version, h.statusCode, trivial, hc⟩

end chunks

/-! ## Loops -/

/-- A string that is matched goes on in bounds. -/
theorem matching_bound {name : List Byte} {i : Nat} {c : Byte} {go done miss : HeaderState}
    (h : i ≤ go.bound + 1) (hn : name.length - 1 = go.bound + 1) (hd : done.bound = 17)
    (hm : miss.bound = 17) (hgo : go.bound ≤ 16) : i ≤ (matching name i c go done miss).bound := by
  unfold matching
  split <;> [skip; split] <;> omega

theorem matching_cases (P : HeaderState → Prop) {name : List Byte} {i : Nat} {c : Byte}
    {go done miss : HeaderState} (hgo : P go) (hd : P done) (hm : P miss) :
    P (matching name i c go done miss) := by
  unfold matching
  split <;> [skip; split] <;> assumption

/-- Other members in the loop of `s_header_field`. -/
theorem Inv.field (h : Inv ty s ph) (hs : s.state = .headerField) {hst : HeaderState} {i : Nat}
    (hf : hst.ofField) (hi : i ≤ hst.bound) :
    Inv ty { s with index := i, headerState := hst } ph := by
  have hb : hst.bound ≤ 17 := by cases hst <;> decide
  refine ⟨h.type, h.line, h.atRest, h.phase, hi.trans hb, h.version, h.statusCode, ?_, ?_⟩
  · rw [Members.Matches, hs]
    exact ⟨hf, hi⟩
  · rw [Members.Sized, hs]
    trivial

theorem headerFieldByte_spec (h : Inv ty s ph) (hs : s.state = .headerField) :
    ∃ s', headerFieldByte s ch = some s' ∧ Inv ty s' ph ∧ s'.state = .headerField := by
  have hm := h.strings
  rw [Members.Matches, hs] at hm
  obtain ⟨hf, hi⟩ := hm
  have hstep {hst : HeaderState} {i : Nat} (hf : hst.ofField) (hi : i ≤ hst.bound) :
      Inv ty { s with index := i, headerState := hst } ph := h.field hs hf hi
  have hname {n : String} {go done : HeaderState} (hgo : s.headerState = go) (hg : go.ofField)
      (hn : (text n).length - 1 = go.bound + 1) (hb : go.bound ≤ 16) (hd : done.ofField)
      (hd' : done.bound = 17) : Inv ty { s with
        index := s.index + 1
        headerState := matching (text n) (s.index + 1) (tokens ch) go done .general } ph :=
    hstep (matching_cases (·.ofField = true) hg hd rfl)
      (matching_bound (Nat.succ_le_succ (hgo ▸ hi)) hn hd' rfl hb)
  unfold headerFieldByte
  cases hst : s.headerState with
  | general => exact ⟨_, rfl, h, hs⟩
  | c =>
    rw [hst] at hi
    refine ⟨_, rfl, hstep ?_ ?_, hs⟩ <;> split <;>
      [rfl; rfl; exact Nat.succ_le_succ hi; exact (Nat.succ_le_succ hi).trans (by decide)]
  | co =>
    rw [hst] at hi
    refine ⟨_, rfl, hstep ?_ ?_, hs⟩ <;> split <;>
      [rfl; rfl; exact Nat.succ_le_succ hi; exact (Nat.succ_le_succ hi).trans (by decide)]
  | con =>
    rw [hst] at hi
    refine ⟨_, rfl, hstep ?_ ?_, hs⟩ <;> split <;> [rfl; split; skip; split] <;>
      first | rfl | exact (Nat.succ_le_succ hi).trans (by decide)
  | matchingConnection =>
    exact ⟨_, rfl, hname hst rfl (by decide) (by decide) rfl rfl, hs⟩
  | matchingProxyConnection =>
    exact ⟨_, rfl, hname hst rfl (by decide) (by decide) rfl rfl, hs⟩
  | matchingContentLength =>
    exact ⟨_, rfl, hname hst rfl (by decide) (by decide) rfl rfl, hs⟩
  | matchingTransferEncoding =>
    exact ⟨_, rfl, hname hst rfl (by decide) (by decide) rfl rfl, hs⟩
  | matchingUpgrade =>
    exact ⟨_, rfl, hname hst rfl (by decide) (by decide) rfl rfl, hs⟩
  | connection | contentLength | transferEncoding | upgrade =>
    refine ⟨_, rfl, ?_⟩
    split
    · exact ⟨hstep rfl h.index, hs⟩
    · exact ⟨h, hs⟩
  | _ =>
    rw [hst] at hf
    cases hf

/-- The loop of `s_header_field` does not fail. -/
theorem headerFieldLoop_spec (h : Inv ty s ph) (hs : s.state = .headerField) (bs : List Byte) :
    ∃ n s', headerFieldLoop s bs = (n, some s') ∧ Inv ty s' ph ∧ s'.state = .headerField := by
  induction bs generalizing s with
  | nil => exact ⟨0, s, rfl, h, hs⟩
  | cons ch bs ih =>
    rw [headerFieldLoop]
    split
    · exact ⟨0, s, rfl, h, hs⟩
    · obtain ⟨s₁, h₁, hi, hs₁⟩ := headerFieldByte_spec h hs
      obtain ⟨n, s', h', hr⟩ := ih hi hs₁
      rw [h₁]
      dsimp only
      rw [h']
      exact ⟨n + 1, s', rfl, hr⟩

theorem headerField_fine (h : Inv ty s ph) (hs : s.state = .headerField) (bs : List Byte) :
    Fine ty (headerField s bs).members ⟨some (.headerField, true), false, none, ph⟩
      (headerField s bs).effects := by
  obtain ⟨n, s', hloop, hi, hs'⟩ := headerFieldLoop_spec h hs bs
  have hph := hi.phase
  rw [hs'] at hph
  rw [headerField, hloop]
  dsimp only
  split
  · refine ⟨_, rfl, ?_, fun hb => (by cases hb), fun hc => ?_, hi⟩
    · rw [hs']
      rfl
    · rw [hs'] at hc
      cases hc
  split
  · refine ⟨_, rfl, _, (if_pos ⟨rfl, rfl⟩).trans (by rw [report_headerField hph]; rfl), ?_⟩
    exact Members.Small.rest ⟨hi.index, hi.version, hi.statusCode⟩ hi.type rfl (.inl rfl) rfl rfl
  · exact ⟨_, rfl, hi.type⟩

/-- Other members in the loop of `s_header_value`. -/
theorem Inv.value (h : Inv ty s ph) (hs : s.state = .headerValue) {f : Flags} {l : BitVec 64}
    {hst : HeaderState} {i : Nat} (hv : hst.ofValue) (hi : i ≤ hst.bound) :
    Inv ty { s with flags := f, contentLength := l, headerState := hst, index := i } ph := by
  have hb : hst.bound ≤ 17 := by cases hst <;> decide
  refine ⟨h.type, h.line, h.atRest, h.phase, hi.trans hb, h.version, h.statusCode, ?_, ?_⟩
  · rw [Members.Matches, hs]
    exact ⟨hv, hi⟩
  · rw [Members.Sized, hs]
    trivial

theorem headerValueByte_spec (h : Inv ty s ph) (hs : s.state = .headerValue) :
    ∃ r, headerValueByte s ch = some r ∧
      ∀ s', r = .ok s' → Inv ty s' ph ∧ s'.state = .headerValue := by
  have hm := h.strings
  rw [Members.Matches, hs] at hm
  obtain ⟨hv, hi⟩ := hm
  have hok {f : Flags} {l : BitVec 64} {hst : HeaderState} {i : Nat} (hv : hst.ofValue)
      (hi : i ≤ hst.bound) (s' : Members) (he : Except.ok (ε := HttpErrno)
        { s with flags := f, contentLength := l, headerState := hst, index := i } = .ok s') :
      Inv ty s' ph ∧ s'.state = .headerValue := by
    cases he
    exact ⟨h.value hs hv hi, hs⟩
  have hsame (s' : Members) (he : Except.ok (ε := HttpErrno) s = .ok s') :
      Inv ty s' ph ∧ s'.state = .headerValue := by
    cases he
    exact ⟨h, hs⟩
  have hname {n : String} {go done miss : HeaderState} (hgo : s.headerState = go)
      (hg : go.ofValue) (hn : (text n).length - 1 = go.bound + 1) (hb : go.bound ≤ 16)
      (hd : done.ofValue) (hd' : done.bound = 17) (hv : miss.ofValue) (hm : miss.bound = 17)
      (s' : Members) (he : Except.ok (ε := HttpErrno) { s with
        index := s.index + 1
        headerState := matching (text n) (s.index + 1) (lower ch) go done miss } = .ok s') :
      Inv ty s' ph ∧ s'.state = .headerValue :=
    hok (matching_cases (·.ofValue = true) hg hd hv)
      (matching_bound (Nat.succ_le_succ (hgo ▸ hi)) hn hd' hm hb) s' he
  unfold headerValueByte
  cases hst : s.headerState with
  | contentLength =>
    dsimp only
    split
    · exact ⟨_, rfl, hsame⟩
    split
    · exact ⟨_, rfl, fun s' he => by cases he⟩
    split
    · exact ⟨_, rfl, fun s' he => by cases he⟩
    · exact ⟨_, rfl, hok rfl (hst ▸ hi)⟩
  | matchingTransferEncodingChunked =>
    exact ⟨_, rfl, hname hst rfl (by decide) (by decide) rfl rfl rfl rfl⟩
  | matchingConnectionKeepAlive =>
    exact ⟨_, rfl, hname hst rfl (by decide) (by decide) rfl rfl rfl rfl⟩
  | matchingConnectionClose =>
    exact ⟨_, rfl, hname hst rfl (by decide) (by decide) rfl rfl rfl rfl⟩
  | matchingConnectionUpgrade =>
    exact ⟨_, rfl, hname hst rfl (by decide) (by decide) rfl rfl rfl rfl⟩
  | matchingConnectionTokenStart =>
    rw [hst] at hi
    refine ⟨_, rfl, hok ?_ ?_⟩ <;> repeat' split
    all_goals first | rfl | exact Nat.le_trans hi (Nat.zero_le _)
  | matchingConnectionToken =>
    dsimp only
    split
    · exact ⟨_, rfl, hok rfl (Nat.zero_le _)⟩
    · exact ⟨_, rfl, hsame⟩
  | transferEncodingChunked =>
    dsimp only
    split
    · exact ⟨_, rfl, hok rfl h.index⟩
    · exact ⟨_, rfl, hsame⟩
  | connectionKeepAlive | connectionClose | connectionUpgrade =>
    dsimp only
    split
    · exact ⟨_, rfl, hok rfl (Nat.zero_le _)⟩
    split
    · exact ⟨_, rfl, hok rfl h.index⟩
    · exact ⟨_, rfl, hsame⟩
  | general =>
    refine ⟨_, rfl, fun s' he => ?_⟩
    cases he
    exact ⟨hs ▸ h.value hs rfl h.index, rfl⟩
  | _ =>
    rw [hst] at hv
    cases hv

theorem headerValueLoop_spec (h : Inv ty s ph) (hs : s.state = .headerValue) (bs : List Byte) :
    ∃ n stop s', headerValueLoop s bs = (n, stop, s') ∧ stop ≠ .failed ∧ Inv ty s' ph ∧
      s'.state = .headerValue := by
  induction bs generalizing s with
  | nil => exact ⟨0, _, s, rfl, by decide, h, hs⟩
  | cons ch bs ih =>
    rw [headerValueLoop]
    split
    · exact ⟨0, _, s, rfl, by decide, h, hs⟩
    split
    · exact ⟨0, _, s, rfl, by decide, h, hs⟩
    split
    · exact ⟨0, _, s, rfl, fun hf => (by cases hf), h, hs⟩
    split
    · refine ⟨_, _, s, rfl, ?_, h, hs⟩
      split <;> [decide; split <;> decide]
    · obtain ⟨r, hr, hok⟩ := headerValueByte_spec h hs
      rw [hr]
      cases r with
      | error e => exact ⟨0, _, s, rfl, fun hf => (by cases hf), h, hs⟩
      | ok s₁ =>
        obtain ⟨hi, hs₁⟩ := hok s₁ rfl
        obtain ⟨n, stop, s', h', hrest⟩ := ih hi hs₁
        dsimp only
        rw [h']
        exact ⟨n + 1, stop, s', rfl, hrest⟩

theorem headerValue_fine (h : Inv ty s ph) (hs : s.state = .headerValue) (bs : List Byte) :
    Fine ty (headerValue s bs).members ⟨some (.headerValue, true), false, none, ph⟩
      (headerValue s bs).effects := by
  obtain ⟨n, stop, s', hloop, hne, hi, hs'⟩ := headerValueLoop_spec h hs bs
  have hph := hi.phase
  rw [hs'] at hph
  have hreport : ph.report ty .headerValue true = some .valued := report_headerValue hph
  rw [headerValue, hloop]
  cases stop with
  | atEnd =>
    refine ⟨_, rfl, ?_, fun hb => (by cases hb), fun hc => ?_, hi⟩
    · rw [hs']
      rfl
    · rw [hs'] at hc
      cases hc
  | cr =>
    refine ⟨_, (if_pos ⟨rfl, rfl⟩).trans (by rw [hreport]; rfl), _, rfl, ?_⟩
    exact Members.Small.rest ⟨hi.index, hi.version, hi.statusCode⟩ hi.type rfl (.inl rfl) rfl rfl
  | lf =>
    refine ⟨_, rfl, _, (if_pos ⟨rfl, rfl⟩).trans (by rw [hreport]; rfl), ?_⟩
    exact headerAlmostDone_fine ⟨hi.index, hi.version, hi.statusCode⟩ hi.type rfl
  | error e => exact hi.type
  | failed => exact absurd rfl hne

/-! ### Bodies -/

/-- What is left of a body when not all of it is at hand. -/
theorem read_spec {bs : List Byte} (hm : s.contentLength ≠ ullongMax) :
    (s.read (toRead s bs)).contentLength.toNat = s.contentLength.toNat - bs.length ∧
      (s.read (toRead s bs)).contentLength ≠ ullongMax := by
  have hlt := s.contentLength.isLt
  have hle : toRead s bs ≤ s.contentLength.toNat := Nat.min_le_left ..
  have hnat : (s.read (toRead s bs)).contentLength.toNat =
      s.contentLength.toNat - toRead s bs := by
    rw [Members.read, BitVec.toNat_sub_of_le (BitVec.le_def.mpr ?_), BitVec.toNat_ofNat,
      Nat.mod_eq_of_lt (by omega)]
    rw [BitVec.toNat_ofNat, Nat.mod_eq_of_lt (by omega)]
    exact hle
  refine ⟨by rw [hnat, toRead]; omega, fun he => ?_⟩
  have hmax : ullongMax.toNat = 2 ^ 64 - 1 := rfl
  have hm' : s.contentLength.toNat ≠ 2 ^ 64 - 1 := fun h => hm (BitVec.eq_of_toNat_eq h)
  rw [he, hmax] at hnat
  omega

theorem bodyIdentity_fine (h : Inv ty s ph) (hs : s.state = .bodyIdentity) (body : Bool)
    (bs : List Byte) : Fine ty (bodyIdentity s bs).members ⟨none, body, none, ph⟩
      (bodyIdentity s bs).effects := by
  have hz : s.contentLength ≠ 0 ∧ s.contentLength ≠ ullongMax := by
    have := h.sizes
    rwa [Members.Sized, hs] at this
  have hph := h.phase
  rw [hs] at hph
  rw [bodyIdentity]
  refine ⟨_, if_pos (Bool.and_eq_true_iff.mpr ⟨decide_eq_true hz.1, decide_eq_true hz.2⟩), _, rfl, ?_⟩
  split
  · exact ⟨_, rfl, messageDone_fine ⟨h.index, h.version, h.statusCode⟩ h.type hph⟩
  · rename_i hne
    refine ⟨by rw [Members.read, hs]; rfl, fun _ => by rw [Members.read, hs]; rfl, fun hc => ?_, h.type,
      h.line, h.atRest, h.phase, h.index, h.version, h.statusCode, ?_, ?_⟩
    · rw [Members.read, hs] at hc
      cases hc
    · rw [Members.Matches, Members.read, hs]
      trivial
    · rw [Members.Sized, show (s.read (toRead s bs)).state = .bodyIdentity from hs]
      exact ⟨hne, (read_spec hz.2).2⟩

theorem chunkData_fine (h : Inv ty s ph) (hs : s.state = .chunkData) (body : Bool)
    (bs : List Byte) : Fine ty (chunkData s bs).members ⟨none, body, none, ph⟩
      (chunkData s bs).effects := by
  obtain ⟨hc, hz⟩ : s.flags.chunked ∧ s.contentLength ≠ 0 ∧ s.contentLength ≠ ullongMax := by
    have := h.sizes
    rwa [Members.Sized, hs] at this
  have hph := h.phase
  rw [hs] at hph
  rw [chunkData]
  refine ⟨_, if_pos hc, _, if_pos (Bool.and_eq_true_iff.mpr
    ⟨decide_eq_true hz.1, decide_eq_true hz.2⟩), _, rfl, ?_⟩
  dsimp only
  split
  · rename_i heq
    exact ⟨rfl, fun _ => rfl, fun hs => (by cases hs), h.type, .inl rfl, rfl, hph, h.index, h.version,
      h.statusCode, trivial, hc, heq⟩
  · rename_i hne
    refine ⟨by rw [Members.read, hs]; rfl, fun _ => by rw [Members.read, hs]; rfl, fun hc => ?_, h.type,
      h.line, h.atRest, h.phase, h.index, h.version, h.statusCode, ?_, ?_⟩
    · rw [Members.read, hs] at hc
      cases hc
    · rw [Members.Matches, Members.read, hs]
      trivial
    · rw [Members.Sized, show (s.read (toRead s bs)).state = .chunkData from hs]
      exact ⟨hc, hne, (read_spec hz.2).2⟩

/-! ## A turn -/

/-- The states that read on. -/
def State.readsOn : State → Bool
  | .headerField | .headerValue | .bodyIdentity | .bodyIdentityEof | .chunkData => true
  | _ => false

theorem turn_of_not_readsOn (h : s.state.readsOn = false) (bs : List Byte) :
    turn s ch bs = ⟨0, (switch s ch).1, (switch s ch).2⟩ := by
  unfold turn
  cases hs : s.state <;> first | rfl | (rw [hs] at h; cases h)

theorem line_eq {st : State} {t : HttpParserType} (ht : st.line = some t)
    (h : st.line = none ∨ st.line = some ty) : ty = t := by
  rw [ht] at h
  rcases h with h | h
  · cases h
  · exact (Option.some.inj h).symm

theorem switch_fine (h : Inv ty s ph) (hr : s.state.readsOn = false) {body : Bool}
    (hb : body → s.state.inBody) :
    Fine ty (switch s ch).2 (.start s.state body ph) (switch s ch).1 := by
  have hsm := h.small
  have ht := h.type
  have hall {st : State} (hs : s.state = st) : st.Allows ph := hs ▸ h.phase
  have hline {st : State} (hs : s.state = st) : st.line = none ∨ st.line = some ty := hs ▸ h.line
  have hsized := h.sizes
  have hbody {st : State} (hs : s.state = st) (hst : st.inBody = false) : body = false := by
    rw [hs, hst] at hb
    exact Bool.eq_false_iff.mpr fun hbt => Bool.false_ne_true (hb hbt)
  -- The state is kept, or goes over into another one; neither has a mark.
  have hstay {st : State} {nr : Option Nat} {s' : Members} (hs' : s'.state = st) (hsm' : s'.Small)
      (ht' : s'.type = ty) (hp : st.plain = true) (hl : st.line = none ∨ st.line = some ty)
      (hm : marked st = none) (ha : st.Allows ph) : Track.Rest ty s' ⟨none, false, nr, ph⟩ :=
    hsm'.rest ht' (hs' ▸ hp) (hs' ▸ hl) (hs' ▸ hm) (hs' ▸ ha)
  have hgo {st : State} {nr : Option Nat} (hp : st.plain = true)
      (hl : st.line = none ∨ st.line = some ty) (hm : marked st = none) (ha : st.Allows ph) :
      Track.Rest ty { s with state := st } ⟨none, false, nr, ph⟩ :=
    hstay rfl ⟨h.index, h.version, h.statusCode⟩ ht hp hl hm ha
  rw [switch]
  cases hs : s.state <;> have ha := hall hs <;> have hl := hline hs
  case headerField | headerValue | bodyIdentity | bodyIdentityEof | chunkData =>
    rw [hs] at hr
    cases hr
  case headersDone | messageDone | headerValueStart =>
    have := h.atRest
    rw [hs] at this
    cases this
  case chunkDataAlmostDone =>
    rw [Members.Sized, hs] at hsized
    exact chunkDataAlmostDone_fine hsm ht ha hsized.1 hsized.2
  all_goals obtain rfl := hbody hs rfl
  case headerFieldStart => exact headerFieldStart_fine hsm ht ha
  case headerValueDiscardWs => exact headerValueDiscardWs_fine hsm ht hs ha
  case headerValueDiscardLws => exact headerValueDiscardLws_fine hsm ht ha
  case headerValueLws => exact headerValueLws_fine hsm ht ha
  case headerAlmostDone => exact headerAlmostDone_fine hsm ht ha
  case headersAlmostDone => exact headersAlmostDone_fine hsm ht ha
  case chunkSizeStart | chunkSize | chunkParameters | chunkSizeAlmostDone | chunkDataDone =>
    rw [Members.Sized, hs] at hsized
    first
      | exact chunkSizeStart_fine hsm ht ha hsized
      | exact chunkDataDone_fine hsm ht ha hsized
      | exact chunkSize_fine hsm ht ha hs hsized.1 hsized.2
      | exact chunkParameters_fine hsm ht ha hs hsized.1 hsized.2
      | exact chunkSizeAlmostDone_fine hsm ht ha hsized.1 hsized.2
  case startReq | reqMethod | reqSpacesBeforeUrl | reqSchema | reqSchemaSlash
      | reqSchemaSlashSlash | reqServerStart | reqServer | reqServerWithAt | reqPath
      | reqQueryStringStart | reqQueryString | reqFragmentStart | reqFragment =>
    obtain rfl := line_eq rfl hl
    have hm := h.strings
    rw [Members.Matches, hs] at hm
    first
      | exact reqUrl_fine hsm ht ha
      | exact reqSchema_fine hsm ht ha
      | exact startReq_fine hsm ht hs ha
      | exact reqMethod_fine hsm ht hs hm ha
      | exact reqSpacesBeforeUrl_fine hsm ht hs ha
  case startRes | resStatusCode | resStatusStart | resStatus =>
    obtain rfl := line_eq rfl hl
    first
      | exact startRes_fine hsm ht hs ha
      | exact resStatusCode_fine hsm ht hs ha
      | exact resStatusStart_fine hsm ht ha
      | exact resStatus_fine hsm ht hs ha
  case resH | resHT | resHTT | resHTTP | reqHttpH | reqHttpHT | reqHttpHTT | reqHttpHTTP =>
    exact expect_fine ht fun _ => hgo rfl hl rfl ha
  case resLineAlmostDone | headerValueDiscardWsAlmostDone =>
    exact expect_fine ht fun _ => hgo rfl (.inl rfl) rfl ha
  all_goals dsimp only
  case dead =>
    split
    · exact hstay hs hsm ht rfl (.inl rfl) rfl ha
    · exact ht
  case reqHttpStart =>
    split
    · exact hgo rfl hl rfl ha
    split
    · exact hstay hs hsm ht rfl hl rfl ha
    · exact ht
  case reqLineAlmostDone =>
    split
    · exact ht
    · exact hgo rfl (.inl rfl) rfl ha
  case resFirstHttpMajor | reqFirstHttpMajor =>
    split
    · exact ht
    · rename_i hn
      have hd : digit ch ≤ 9 := digit_le (by simp_all)
      exact hstay rfl ⟨h.index, ⟨hd.trans (by decide), h.version.2⟩, h.statusCode⟩ ht rfl hl rfl ha
  case resFirstHttpMinor | reqFirstHttpMinor =>
    split
    · exact ht
    · rename_i hn
      have hd : digit ch ≤ 9 := digit_le (by simp_all)
      exact hstay rfl ⟨h.index, ⟨h.version.1, hd.trans (by decide)⟩, h.statusCode⟩ ht rfl hl rfl ha
  case resFirstStatusCode =>
    split
    · split
      · exact hstay hs hsm ht rfl hl rfl ha
      · exact ht
    · rename_i hn
      have hd : digit ch ≤ 9 := digit_le (by simp_all)
      exact hstay rfl ⟨h.index, h.version, hd.trans (by decide)⟩ ht rfl hl rfl ha
  case resHttpMajor | reqHttpMajor =>
    split
    · exact hgo rfl hl rfl ha
    · exact versionDigit_fine ht fun m hm =>
      hstay rfl ⟨h.index, ⟨hm, h.version.2⟩, h.statusCode⟩ ht rfl hl rfl ha
  case resHttpMinor =>
    split
    · exact hgo rfl hl rfl ha
    · exact versionDigit_fine ht fun m hm =>
      hstay rfl ⟨h.index, ⟨h.version.1, hm⟩, h.statusCode⟩ ht rfl hl rfl ha
  case reqHttpMinor =>
    split
    · exact hgo rfl hl rfl ha
    split
    · exact hgo rfl (.inl rfl) rfl ha
    · exact versionDigit_fine ht fun m hm =>
      hstay rfl ⟨h.index, ⟨h.version.1, hm⟩, h.statusCode⟩ ht rfl hl rfl ha

/-- What a turn does is fine, and keeps the invariant. -/
theorem turn_fine (h : Inv ty s ph) (bs : List Byte) {body : Bool} (hb : body → s.state.inBody) :
    Fine ty (turn s ch bs).members (.start s.state body ph) (turn s ch bs).effects := by
  have hbody {st : State} (hs : s.state = st) (hst : st.inBody = false) : body = false := by
    rw [hs, hst] at hb
    exact Bool.eq_false_iff.mpr fun hbt => Bool.false_ne_true (hb hbt)
  by_cases hr : s.state.readsOn = false
  · rw [turn_of_not_readsOn hr]
    exact switch_fine h hr hb
  rw [turn]
  cases hs : s.state <;> rw [hs] at hr <;> first | exact absurd rfl hr | skip
  case headerField =>
    obtain rfl := hbody hs rfl
    exact headerField_fine h hs _
  case headerValue =>
    obtain rfl := hbody hs rfl
    exact headerValue_fine h hs _
  case bodyIdentity => exact bodyIdentity_fine h hs _ _
  case chunkData => exact chunkData_fine h hs _ _
  case bodyIdentityEof =>
    refine ⟨_, rfl, ?_, fun _ => ?_, fun hc => ?_, h⟩
    · exact congrArg marked hs
    · exact congrArg State.inBody hs
    · rw [show (bodyIdentityEof s (ch :: bs)).members = s from rfl, hs] at hc
      cases hc

end Noff.HttpParser
