import Noff.HttpParser.Runs

/-!
# What is accepted is a sequence of messages

What the parser reports of a stream that it accepts is what it would report of a
sequence of messages, as far as the stream goes: a request has a URL in front of its
headers, a name in front of each value, and every string consists of the bytes that
it may consist of (`accepted_messages`).
-/

namespace Noff.HttpParser

open Http

variable {ty : HttpParserType} {s s' : Members} {ph : Phase} {ch : Byte}

/-! ## Bytes of strings -/

/-- The bytes that a string may consist of. -/
def okByte (k : Element) (ch : Byte) : Bool :=
  match k with
  | .url => 0x21 ≤ ch && ch ≤ 0x7e
  | .headerField => tokens ch ≠ 0
  | .status | .headerValue => ch ≠ CR && ch ≠ LF

theorem okByte_userinfo : ∀ ch, isUserinfoChar ch → okByte .url ch := by decide +kernel

theorem okByte_alpha : ∀ ch, isAlpha ch → okByte .url ch := by decide +kernel

theorem okByte_urlChar : ∀ ch, isUrlChar ch → okByte .url ch := by decide +kernel

/-- `parse_url_char` takes printable characters only. -/
theorem parseUrlChar_ok {st : State} (h : parseUrlChar st ch ≠ .dead) : okByte .url ch := by
  by_contra hbad
  have huser := mt (okByte_userinfo ch) hbad
  have halpha := mt (okByte_alpha ch) hbad
  have hurl := mt (okByte_urlChar ch) hbad
  have hne (c : Byte) (hc : okByte .url c = true) : ch ≠ c := fun he => hbad (he ▸ hc)
  apply h
  cases st <;> simp [parseUrlChar, parseUrlServer, parseUrlRest, huser, halpha, hurl, hne 47#8 rfl,
    hne 42#8 rfl, hne 58#8 rfl, hne 63#8 rfl, hne 64#8 rfl, hne 91#8 rfl, hne 93#8 rfl, hne 35#8 rfl]

/-! ## Stages -/

/-- How far a message has come: in front of the end of its URL or its reason phrase, between
that and the end of its headers, or behind them. -/
inductive Stage where
  | start | head | tail
  deriving DecidableEq, Repr

/-- The stage of a state; the flag says that the headers are trailers. -/
def State.stage (trailing : Bool) : State → Stage
  | .resLineAlmostDone | .reqHttpStart | .reqHttpH | .reqHttpHT | .reqHttpHTT | .reqHttpHTTP
  | .reqFirstHttpMajor | .reqHttpMajor | .reqFirstHttpMinor | .reqHttpMinor
  | .reqLineAlmostDone => .head
  | .headerFieldStart | .headerField | .headerValueDiscardWs | .headerValueDiscardWsAlmostDone
  | .headerValueDiscardLws | .headerValueStart | .headerValue | .headerValueLws
  | .headerAlmostDone | .headersAlmostDone => if trailing then .tail else .head
  | .chunkSizeStart | .chunkSize | .chunkParameters | .chunkSizeAlmostDone | .headersDone
  | .chunkData | .chunkDataAlmostDone | .chunkDataDone | .bodyIdentity | .bodyIdentityEof
  | .messageDone => .tail
  | _ => .start

def Members.stage (s : Members) : Stage := s.state.stage s.flags.trailing

/-- The callbacks that a stage allows. -/
def Stage.next (ty : HttpParserType) (st : Stage) (a : Http.Action) : Option Stage :=
  match st, a with
  | _, .mark _ => some st
  | .start, .data .url => if ty = .request then some .head else none
  | .start, .data .status => if ty = .response then some .head else none
  | .head, .data .headerField | .head, .data .headerValue => some .head
  | .tail, .data .headerField | .tail, .data .headerValue => some .tail
  | .head, .headersComplete => some .tail
  | _, _ => none

/-- The stages that follow without a callback: a message may be over, and a response need not
have a reason phrase. -/
def Stage.Reaches (ty : HttpParserType) (st st' : Stage) : Prop :=
  st' = st ∨ st = .tail ∧ st' = .start ∨ ty = .response ∧ st = .start ∧ st' = .head

instance (ty : HttpParserType) (st st' : Stage) : Decidable (st.Reaches ty st') :=
  inferInstanceAs (Decidable (_ ∨ _))

/-- In a first line, the headers are not yet trailers. -/
def Members.Fresh (s : Members) : Prop :=
  s.state.line.isSome → s.state ≠ .startReq → s.state ≠ .startRes → s.flags.trailing = false

/-- What a byte may do in a stage: callbacks that the stage allows, and a string goes on only
with its bytes. -/
structure Good (ty : HttpParserType) (st : Stage) (ch : Byte) (as : List Http.Action)
    (s : Members) : Prop where
  stage : ∃ st', as.foldlM (Stage.next ty) st = some st' ∧ st'.Reaches ty s.stage
  fresh : s.Fresh
  marked : ∀ k, marked s.state = some k → okByte k ch

/-- Of the switch, unless there is an error. -/
def Out.Good (ty : HttpParserType) (st : Stage) (ch : Byte) (o : Out) : Prop :=
  .error ∉ actions o.1 → HttpParser.Good ty st ch (actions o.1) o.2

variable {st st' : Stage} {o : Out}

theorem Out.Good.fail {e : HttpErrno} : Out.Good ty st ch (fail s e) := fun he =>
  absurd (List.mem_singleton_self _) he

theorem Out.Good.quiet (hr : st.Reaches ty s.stage) (hf : s.Fresh)
    (hm : ∀ k, marked s.state = some k → okByte k ch) : Out.Good ty st ch ([], s) := fun _ =>
  ⟨⟨st, rfl, hr⟩, hf, hm⟩

/-- An effect that the callbacks do not see. -/
theorem Out.Good.then {a : Effect} (ha : a.action = none) (h : o.Good ty st ch) :
    (a.then o).Good ty st ch := by
  have hacts : actions (a.then o).1 = actions o.1 := List.filterMap_cons_none ha
  intro he
  rw [hacts] at he ⊢
  exact h he

/-- A callback that the stage allows. -/
theorem Out.Good.next {a : Effect} {b : Http.Action} (ha : a.action = some b)
    (hb : st.next ty b = some st') (h : o.Good ty st' ch) : (a.then o).Good ty st ch := by
  have hacts : actions (a.then o).1 = b :: actions o.1 := List.filterMap_cons_some ha
  intro he
  rw [hacts] at he ⊢
  obtain ⟨⟨st₁, h₁, hr⟩, hf, hm⟩ := h fun h => he (List.mem_cons_of_mem _ h)
  refine ⟨⟨st₁, ?_, hr⟩, hf, hm⟩
  rw [List.foldlM_cons, hb]
  exact h₁

theorem Out.Good.skip {a : Effect} {es : List Effect} (ha : a.action = none)
    (h : Out.Good ty st ch (es, s)) : Out.Good ty st ch (a :: es, s) := .then ha h

theorem Out.Good.call {a : Effect} {b : Http.Action} {es : List Effect} (ha : a.action = some b)
    (hb : st.next ty b = some st') (h : Out.Good ty st' ch (es, s)) : Out.Good ty st ch (a :: es, s) :=
  .next ha hb h

theorem Out.Good.mark {k : Element} (h : Out.Good ty st ch ([], s)) :
    Out.Good ty st ch ([.mark k], s) :=
  .call rfl (by cases st <;> rfl) h

/-- A state in which nothing is marked, and whose headers are trailers only if they were. -/
theorem Out.Good.move {b : State} (hs : s'.state = b) (ht : s'.flags.trailing = s.flags.trailing)
    (hr : st.Reaches ty (b.stage s.flags.trailing))
    (hf : b.line.isSome → b ≠ .startReq → b ≠ .startRes → s.flags.trailing = false)
    (hm : marked b = none) : Out.Good ty st ch ([], s') := by
  refine .quiet ?_ ?_ ?_
  · rw [Members.stage, hs, ht]
    exact hr
  · rw [Members.Fresh, hs, ht]
    exact hf
  · rw [hs, hm]
    exact fun k hk => by cases hk

/-! ## The end of a message, and headers -/

/-- The state in front of the next message. -/
theorem newMessage_stage (t : Bool) : (newMessage s).stage t = .start ∧
    marked (newMessage s) = none ∧
    ((newMessage s).line.isSome → newMessage s = .startReq ∨ newMessage s = .startRes) := by
  rw [newMessage]
  split
  · cases s.type
    · exact ⟨rfl, rfl, fun _ => .inl rfl⟩
    · exact ⟨rfl, rfl, fun _ => .inr rfl⟩
  · exact ⟨rfl, rfl, fun h => by cases h⟩

theorem newMessage_good (hs : s'.state = newMessage s) : Out.Good ty .tail ch ([], s') := by
  obtain ⟨hst, hm, hl⟩ := newMessage_stage (s := s) s'.flags.trailing
  refine Out.Good.quiet ?_ ?_ ?_
  · rw [Members.stage, hs, hst]
    exact .inr (.inl ⟨rfl, rfl⟩)
  · rw [Members.Fresh, hs]
    exact fun h hreq hres => ((hl h).elim hreq hres).elim
  · rw [hs, hm]
    exact fun k hk => by cases hk

theorem messageDone_good : Out.Good ty .tail ch (messageDone s) := by
  rw [messageDone]
  split
  · exact Out.Good.skip rfl (newMessage_good rfl)
  · exact newMessage_good rfl

theorem headersDone_good : Out.Good ty .tail ch (headersDone s ch) := by
  have htail {b : State} (hb : ∀ t, b.stage t = .tail) (hl : b.line = none) (hm : marked b = none) :
      Out.Good ty .tail ch (go s b) :=
    .move rfl rfl (.inl (hb _)) (fun h => by rw [hl] at h; cases h) hm
  unfold headersDone
  split
  · exact .fail
  dsimp only
  split
  · exact .skip rfl (.skip rfl (newMessage_good rfl))
  · refine .then rfl ?_
    (repeat' split) <;>
      first
      | exact newMessage_good rfl
      | exact htail (fun _ => rfl) rfl rfl

/-- The stage in a header section. -/
def Members.headerStage (s : Members) : Stage := if s.flags.trailing then .tail else .head

theorem headerStage_next {k : Element} (hk : k = .headerField ∨ k = .headerValue) :
    s.headerStage.next ty (.data k) = some s.headerStage := by
  rw [Members.headerStage]
  rcases hk with rfl | rfl <;> split <;> rfl

/-- The next state of a header section. -/
theorem header_good {b : State} (hs : s'.state = b) (ht : s'.flags.trailing = s.flags.trailing)
    (hb : ∀ t : Bool, b.stage t = if t then .tail else .head) (hl : b.line = none)
    (hm : ∀ k, marked b = some k → okByte k ch) : Out.Good ty s.headerStage ch ([], s') := by
  refine Out.Good.quiet (.inl ?_) ?_ (hs ▸ hm)
  · rw [Members.stage, hs, ht, hb, Members.headerStage]
  · rw [Members.Fresh, hs, hl]
    exact fun h => by cases h

theorem headersAlmostDone_good : Out.Good ty s.headerStage ch (headersAlmostDone s ch) := by
  unfold headersAlmostDone Members.headerStage
  cases s.flags.trailing with
  | true =>
    simp only [if_true]
    split
    · exact .fail
    · exact messageDone_good
  | false =>
    simp only [Bool.false_eq_true, if_false]
    split
    · exact .fail
    split
    · exact .fail
    · exact .next rfl rfl headersDone_good

theorem headerFieldStart_good : Out.Good ty s.headerStage ch (headerFieldStart s ch) := by
  unfold headerFieldStart
  split
  · exact header_good rfl rfl (fun _ => rfl) rfl fun k hk => by cases hk
  split
  · exact headersAlmostDone_good (s := { s with state := .headersAlmostDone })
  dsimp only
  split
  · exact .fail
  · rename_i htoken
    refine .mark (header_good rfl rfl (fun _ => rfl) rfl fun k hk => ?_)
    cases hk
    exact decide_eq_true htoken

theorem headerValueStart_good (hch : ch ≠ CR ∧ ch ≠ LF) :
    Out.Good ty s.headerStage ch (headerValueStart s ch) := by
  have hok : okByte .headerValue ch = true := by
    simp only [okByte, hch.1, hch.2, ne_eq, not_false_eq_true, decide_true, Bool.and_self]
  have hstart {s' : Members} (hs : s'.state = .headerValue)
      (ht : s'.flags.trailing = s.flags.trailing) :
      Out.Good ty s.headerStage ch ([.mark .headerValue], s') := by
    refine .mark (header_good hs ht (fun _ => rfl) rfl fun k hk => ?_)
    cases hk
    exact hok
  have hfail {e : HttpErrno} {s' : Members} :
      Out.Good ty s.headerStage ch ([.mark .headerValue, .error e], s') :=
    .next (a := .mark .headerValue) (o := fail s' e) rfl rfl .fail
  unfold headerValueStart
  dsimp only
  (repeat' split) <;> first | exact hfail | exact hstart rfl rfl

theorem setFlag_trailing (h : HeaderState) (f : Flags) : (setFlag h f).trailing = f.trailing := by
  cases h <;> rfl

theorem headerValueLws_good : Out.Good ty s.headerStage ch (headerValueLws s ch) := by
  unfold headerValueLws
  split
  · rename_i hws
    refine headerValueStart_good (s := { s with state := .headerValueStart }) ?_
    simp only [Bool.or_eq_true, decide_eq_true_eq] at hws
    rcases hws with rfl | rfl <;> decide
  · have hsame : ({ s with
        flags := setFlag s.headerState s.flags, state := .headerFieldStart } : Members).headerStage =
        s.headerStage := by rw [Members.headerStage, Members.headerStage, setFlag_trailing]
    rw [← hsame]
    exact headerFieldStart_good

theorem headerValueDiscardWs_good (hs : s.state = .headerValueDiscardWs) :
    Out.Good ty s.headerStage ch (headerValueDiscardWs s ch) := by
  have hgo {b : State} {s' : Members} (hs : s'.state = b) (ht : s'.flags = s.flags)
      (hb : ∀ t : Bool, b.stage t = if t then .tail else .head) (hl : b.line = none)
      (hm : marked b = none) : Out.Good ty s.headerStage ch ([], s') :=
    header_good hs (by rw [ht]) hb hl fun k hk => by rw [hm] at hk; cases hk
  unfold headerValueDiscardWs
  split
  · exact hgo hs rfl (fun _ => rfl) rfl rfl
  split
  · exact hgo rfl rfl (fun _ => rfl) rfl rfl
  split
  · exact hgo rfl rfl (fun _ => rfl) rfl rfl
  · exact headerValueStart_good ⟨‹_›, ‹_›⟩

theorem headerValueDiscardLws_good : Out.Good ty s.headerStage ch (headerValueDiscardLws s ch) := by
  unfold headerValueDiscardLws
  split
  · exact header_good rfl rfl (fun _ => rfl) rfl fun k hk => by cases hk
  · have hsame : ({ s with
        flags := setFlag s.headerState s.flags, state := .headerFieldStart } : Members).headerStage =
        s.headerStage := by rw [Members.headerStage, Members.headerStage, setFlag_trailing]
    refine .next (a := .mark .headerValue) rfl rfl (.next rfl (headerStage_next (.inr rfl)) ?_)
    rw [← hsame]
    exact headerFieldStart_good

/-! ## First lines, and bodies -/

/-- The next state of a first line, or the one behind it. -/
theorem line_good {b : State} (hs : s.state = b) (ht : s.flags.trailing = false)
    (hr : st.Reaches ty (b.stage false)) (hm : ∀ k, marked b = some k → okByte k ch) :
    Out.Good ty st ch ([], s) := by
  refine .quiet ?_ (fun _ _ _ => ht) (hs ▸ hm)
  rw [Members.stage, hs, ht]
  exact hr

theorem line_good_of_unmarked {b : State} (hs : s.state = b) (ht : s.flags.trailing = false)
    (hr : st.Reaches ty (b.stage false)) (hm : marked b = none) : Out.Good ty st ch ([], s) :=
  line_good hs ht hr fun k hk => by rw [hm] at hk; cases hk

theorem expect_good {c : Byte} {b : State} (ht : s.flags.trailing = false)
    (hr : st.Reaches ty (b.stage false)) (hm : marked b = none) :
    Out.Good ty st ch (expect s ch c b) := by
  rw [expect]
  split
  · exact line_good_of_unmarked rfl ht hr hm
  · exact .fail

theorem versionDigit_good {n : Nat} {set : Nat → Members} {b : State}
    (hs : ∀ n, (set n).state = b ∧ (set n).flags.trailing = false)
    (hr : st.Reaches ty (b.stage false)) (hm : marked b = none) :
    Out.Good ty st ch (versionDigit s n ch set) := by
  rw [versionDigit]
  split
  · exact .fail
  split
  · exact .fail
  · exact line_good_of_unmarked (hs _).1 (hs _).2 hr hm

/-- The callback at the end of a URL or of a reason phrase. -/
theorem report_good {k : Element} {b : State} (hk : Stage.start.next ty (.data k) = some .head)
    (ht : s.flags.trailing = false) (hb : b.stage false = .head) (hm : marked b = none) :
    Out.Good ty .start ch (report s k b) :=
  .next (o := ([], { s with state := b })) rfl hk (line_good_of_unmarked rfl ht (.inl hb) hm)

theorem State.stage_of_marked_url {b : State} (h : marked b = some .url) : b.stage false = .start := by
  cases b <;> first | rfl | cases h

theorem url_good {b : State} (ht : s.flags.trailing = false) : Out.Good ty .start ch (url s b ch) := by
  rw [url]
  dsimp only
  split
  · exact .fail
  · rename_i hne
    have hm := parseUrlChar_marked hne
    refine line_good rfl ht (.inl (State.stage_of_marked_url hm)) fun k hk => ?_
    rw [hm] at hk
    cases hk
    exact parseUrlChar_ok hne

theorem reqUrl_good (ht : s.flags.trailing = false) : Out.Good .request .start ch (reqUrl s ch) := by
  rw [reqUrl]
  split
  · exact report_good rfl ht rfl rfl
  split
  · split
    · exact report_good rfl ht rfl rfl
    · exact report_good rfl ht rfl rfl
  · exact url_good ht

theorem startReq_good (hs : s.state = .startReq) : Out.Good .request .start ch (startReq s ch) := by
  rw [startReq]
  split
  · refine .quiet (.inl ?_) (fun _ h _ => absurd hs h) fun k hk => ?_
    · rw [Members.stage, hs]
      rfl
    · rw [hs] at hk
      cases hk
  dsimp only
  split
  · exact .fail
  · exact line_good_of_unmarked rfl rfl (.inl rfl) rfl

theorem reqMethod_good (hs : s.state = .reqMethod) (ht : s.flags.trailing = false) :
    Out.Good .request .start ch (reqMethod s ch) := by
  have hstay {s' : Members} (hs' : s'.state = s.state) (ht' : s'.flags = s.flags) :
      Out.Good .request .start ch ([], s') :=
    line_good_of_unmarked (hs'.trans hs) (by rw [ht', ht]) (.inl rfl) rfl
  rw [reqMethod]
  split
  · exact .fail
  split
  · exact .skip rfl (hstay rfl rfl)
  split
  · exact line_good_of_unmarked rfl ht (.inl rfl) rfl
  split
  · exact hstay rfl rfl
  split
  · split
    · exact .fail
    · exact hstay rfl rfl
  split
  · exact hstay rfl rfl
  · exact .fail

theorem startRes_good (hs : s.state = .startRes) : Out.Good .response .start ch (startRes s ch) := by
  rw [startRes]
  split
  · exact line_good_of_unmarked rfl rfl (.inl rfl) rfl
  split
  · exact line_good_of_unmarked hs rfl (.inl rfl) rfl
  · exact .fail

theorem resStatusCode_good (hs : s.state = .resStatusCode) (ht : s.flags.trailing = false) :
    Out.Good .response .start ch (resStatusCode s ch) := by
  rw [resStatusCode]
  split
  · split
    · exact line_good_of_unmarked rfl ht (.inl rfl) rfl
    split
    · exact line_good_of_unmarked rfl ht (.inr (.inr ⟨rfl, rfl, rfl⟩)) rfl
    split
    · exact line_good_of_unmarked rfl ht (.inr (.inr ⟨rfl, rfl, rfl⟩)) rfl
    · exact .fail
  · split
    · exact .fail
    · exact line_good_of_unmarked hs ht (.inl rfl) rfl

theorem resStatusStart_good (ht : s.flags.trailing = false) :
    Out.Good .response .start ch (resStatusStart s ch) := by
  rw [resStatusStart]
  split
  · exact line_good_of_unmarked rfl ht (.inr (.inr ⟨rfl, rfl, rfl⟩)) rfl
  rename_i hcr
  split
  · exact line_good_of_unmarked rfl ht (.inr (.inr ⟨rfl, rfl, rfl⟩)) rfl
  rename_i hlf
  refine .mark (line_good (b := .resStatus) rfl ht (.inl rfl) fun k hk => ?_)
  cases hk
  simp [okByte, hcr, hlf]

theorem resStatus_good (hs : s.state = .resStatus) (ht : s.flags.trailing = false) :
    Out.Good .response .start ch (resStatus s ch) := by
  rw [resStatus]
  split
  · exact report_good rfl ht rfl rfl
  rename_i hcr
  split
  · exact report_good rfl ht rfl rfl
  rename_i hlf
  refine line_good hs ht (.inl rfl) fun k hk => ?_
  cases hk
  simp [okByte, hcr, hlf]

/-- The next state of a body. -/
theorem body_good {b : State} (hs : s.state = b) (hb : ∀ t, b.stage t = .tail) (hl : b.line = none)
    (hm : marked b = none) : Out.Good ty .tail ch ([], s) := by
  refine .quiet (.inl ?_) ?_ ?_
  · rw [Members.stage, hs, hb]
  · rw [Members.Fresh, hs, hl]
    exact fun h => by cases h
  · rw [hs, hm]
    exact fun k hk => by cases hk

theorem chunk_good (hs : s.state = .chunkSizeStart ∨ s.state = .chunkSize ∨ s.state = .chunkParameters ∨
    s.state = .chunkSizeAlmostDone ∨ s.state = .chunkDataAlmostDone ∨ s.state = .chunkDataDone) :
    Out.Good ty .tail ch (switch s ch) := by
  have hgo {b : State} {s' : Members} (hs' : s'.state = b) (hb : ∀ t, b.stage t = .tail)
      (hl : b.line = none) (hm : marked b = none) : Out.Good ty .tail ch ([], s') :=
    body_good hs' hb hl hm
  rw [switch]
  rcases hs with hs | hs | hs | hs | hs | hs <;> rw [hs] <;> dsimp only
  · refine .then (a := .assertNread) rfl (.then rfl ?_)
    split
    · exact .fail
    · exact hgo rfl (fun _ => rfl) rfl rfl
  · refine .then rfl ?_
    split
    · exact hgo rfl (fun _ => rfl) rfl rfl
    split
    · split
      · exact hgo rfl (fun _ => rfl) rfl rfl
      · exact .fail
    · split
      · exact .fail
      · exact hgo hs (fun _ => rfl) rfl rfl
  · refine .then rfl ?_
    split
    · exact hgo rfl (fun _ => rfl) rfl rfl
    · exact hgo hs (fun _ => rfl) rfl rfl
  · refine .then rfl ?_
    split
    · exact .fail
    refine .then rfl ?_
    split
    · -- Behind the last chunk there are the trailers.
      refine .quiet (.inl rfl) (fun h => by cases h) fun k hk => by cases hk
    · exact hgo rfl (fun _ => rfl) rfl rfl
  · refine .then rfl (.then rfl ?_)
    split
    · exact .fail
    · exact .skip rfl (hgo rfl (fun _ => rfl) rfl rfl)
  · refine .then rfl ?_
    split
    · exact .fail
    · exact .skip rfl (hgo rfl (fun _ => rfl) rfl rfl)

/-! ## A step -/

/-- The states that look at one byte. -/
theorem switch_good (h : Inv ty s ph) (hr : s.state.readsOn = false) (hf : s.Fresh) :
    Out.Good ty s.stage ch (switch s ch) := by
  have hline {b : State} (hs : s.state = b) : b.line = none ∨ b.line = some ty := hs ▸ h.line
  have hstage {b : State} (hs : s.state = b) : s.stage = b.stage s.flags.trailing := by
    rw [Members.stage, hs]
  have htrailing {b : State} (hs : s.state = b) (hb : b.line.isSome) (hreq : b ≠ .startReq)
      (hres : b ≠ .startRes) : s.flags.trailing = false := by
    rw [Members.Fresh, hs] at hf
    exact hf hb hreq hres
  cases hs : s.state <;> have hl := hline hs <;> rw [hstage hs]
  case headerField | headerValue | bodyIdentity | bodyIdentityEof | chunkData =>
    rw [hs] at hr
    cases hr
  case headersDone | messageDone | headerValueStart =>
    have := h.atRest
    rw [hs] at this
    cases this
  case chunkSizeStart | chunkSize | chunkParameters | chunkSizeAlmostDone | chunkDataAlmostDone
      | chunkDataDone => exact chunk_good (by simp [hs])
  all_goals
    rw [switch, hs]
  case headerFieldStart => exact headerFieldStart_good
  case headerValueDiscardWs => exact headerValueDiscardWs_good hs
  case headerValueDiscardLws => exact headerValueDiscardLws_good
  case headerValueLws => exact headerValueLws_good
  case headersAlmostDone => exact headersAlmostDone_good
  case headerAlmostDone =>
    dsimp only [headerAlmostDone]
    split
    · exact .fail
    · exact header_good rfl rfl (fun _ => rfl) rfl fun k hk => by cases hk
  case headerValueDiscardWsAlmostDone =>
    dsimp only [expect]
    split
    · exact header_good rfl rfl (fun _ => rfl) rfl fun k hk => by cases hk
    · exact .fail
  case dead =>
    dsimp only
    split
    · refine .quiet (.inl ?_) (fun h => by rw [hs] at h; cases h) fun k hk => ?_
      · rw [Members.stage, hs]
      · rw [hs] at hk
        cases hk
    · exact .fail
  case startReq =>
    obtain rfl := line_eq rfl hl
    exact startReq_good hs
  case startRes =>
    obtain rfl := line_eq rfl hl
    exact startRes_good hs
  all_goals
    obtain rfl := line_eq rfl hl
    have ht := htrailing hs rfl (fun h => by cases h) (fun h => by cases h)
    rw [ht]
  case resH | resHT | resHTT | resHTTP | reqHttpH | reqHttpHT | reqHttpHTT | reqHttpHTTP
      | resLineAlmostDone => exact expect_good ht (.inl rfl) rfl
  case reqMethod => exact reqMethod_good hs ht
  case reqServer | reqServerWithAt | reqPath | reqQueryStringStart | reqQueryString
      | reqFragmentStart | reqFragment => exact reqUrl_good ht
  case resStatusCode => exact resStatusCode_good hs ht
  case resStatusStart => exact resStatusStart_good ht
  case resStatus => exact resStatus_good hs ht
  case reqSpacesBeforeUrl =>
    dsimp only [reqSpacesBeforeUrl]
    split
    · exact line_good_of_unmarked hs ht (.inl rfl) rfl
    · exact .next rfl rfl (url_good ht)
  case reqSchema | reqSchemaSlash | reqSchemaSlashSlash | reqServerStart =>
    dsimp only [reqSchema]
    split
    · exact .fail
    · exact url_good ht
  all_goals dsimp only
  case reqLineAlmostDone =>
    split
    · exact .fail
    · exact line_good_of_unmarked rfl ht (.inl rfl) rfl
  case reqHttpStart =>
    split
    · exact line_good_of_unmarked rfl ht (.inl rfl) rfl
    split
    · exact line_good_of_unmarked hs ht (.inl rfl) rfl
    · exact .fail
  case resFirstStatusCode =>
    split
    · split
      · exact line_good_of_unmarked hs ht (.inl rfl) rfl
      · exact .fail
    · exact line_good_of_unmarked rfl ht (.inl rfl) rfl
  case resFirstHttpMajor | reqFirstHttpMajor | resFirstHttpMinor | reqFirstHttpMinor =>
    split
    · exact .fail
    · exact line_good_of_unmarked rfl ht (.inl rfl) rfl
  case resHttpMajor | reqHttpMajor | resHttpMinor =>
    split
    · exact line_good_of_unmarked rfl ht (.inl rfl) rfl
    · exact versionDigit_good (fun _ => ⟨rfl, ht⟩) (.inl rfl) rfl
  case reqHttpMinor =>
    split
    · exact line_good_of_unmarked rfl ht (.inl rfl) rfl
    split
    · exact line_good_of_unmarked rfl ht (.inl rfl) rfl
    · exact versionDigit_good (fun _ => ⟨rfl, ht⟩) (.inl rfl) rfl

theorem headerFieldByte_flags (h : headerFieldByte s ch = some s') : s'.flags = s.flags := by
  unfold headerFieldByte at h
  dsimp only at h
  split at h <;> simp only [Option.some.injEq, reduceCtorEq] at h <;> subst h <;> first | rfl | skip
  all_goals split <;> rfl

theorem headerValueByte_trailing (h : headerValueByte s ch = some (.ok s')) :
    s'.flags.trailing = s.flags.trailing := by
  unfold headerValueByte at h
  dsimp only at h
  (repeat' split at h) <;> simp only [Option.some.injEq, Except.ok.injEq, reduceCtorEq] at h <;>
    subst h <;> first | rfl | exact setFlag_trailing ..

theorem headerValueByte_state (hs : s.state = .headerValue)
    (h : headerValueByte s ch = some (.ok s')) : s'.state = .headerValue := by
  unfold headerValueByte at h
  dsimp only at h
  (repeat' split at h) <;> simp only [Option.some.injEq, Except.ok.injEq, reduceCtorEq] at h <;>
    subst h <;> first | rfl | exact hs

/-- The states that read on, on one byte. -/
theorem headerField_good (h : Inv ty s ph) (hs : s.state = .headerField) :
    Out.Good ty s.headerStage ch ((headerField s [ch]).effects, (headerField s [ch]).members) := by
  by_cases ht : tokens ch = 0
  · rw [headerField_stop (headerFieldLoop_stop ht) rfl]
    split
    · refine .skip rfl (.call rfl (headerStage_next (.inl rfl)) ?_)
      exact header_good rfl rfl (fun _ => rfl) rfl fun k hk => by cases hk
    · exact .skip rfl .fail
  · obtain ⟨s₁, hb, -, hs₁⟩ := headerFieldByte_spec h hs
    rw [headerField_atEnd (headerFieldLoop_token ht hb) rfl]
    refine .skip rfl (header_good hs₁ (by rw [headerFieldByte_flags hb]) (fun _ => rfl) rfl
      fun k hk => ?_)
    cases hk
    exact decide_eq_true ht

theorem headerValue_good (hs : s.state = .headerValue)
    (hg : ¬ (s.headerState = .general ∧ ch ≠ CR ∧ ch ≠ LF)) :
    Out.Good ty s.headerStage ch ((headerValue s [ch]).effects, (headerValue s [ch]).members) := by
  by_cases hcr : ch = CR
  · rw [hcr, headerValue, headerValueLoop_cr]
    refine .call rfl (headerStage_next (.inr rfl)) (.skip rfl ?_)
    exact header_good rfl rfl (fun _ => rfl) rfl fun k hk => by cases hk
  by_cases hlf : ch = LF
  · rw [hlf, headerValue, headerValueLoop_lf]
    refine .skip rfl (.call rfl (headerStage_next (.inr rfl)) ?_)
    exact header_good rfl rfl (fun _ => rfl) rfl fun k hk => by cases hk
  have hok {s' : Members} (hs' : s'.state = .headerValue)
      (ht : s'.flags.trailing = s.flags.trailing) : Out.Good ty s.headerStage ch ([], s') := by
    refine header_good hs' ht (fun _ => rfl) rfl fun k hk => ?_
    cases hk
    simp [okByte, hcr, hlf]
  rw [headerValue, headerValueLoop, if_neg hcr, if_neg hlf]
  by_cases hbad : (!s.lenientHttpHeaders && !isHeaderChar ch) = true
  · rw [if_pos hbad]
    exact .fail
  rw [if_neg hbad, if_neg fun hgen => hg ⟨hgen, hcr, hlf⟩]
  cases hb : headerValueByte s ch with
  | none => exact .skip rfl (hok hs rfl)
  | some r =>
    cases r with
    | error e => exact .fail
    | ok s₁ => exact .skip rfl (hok (headerValueByte_state hs hb) (headerValueByte_trailing hb))

/-- A step. -/
theorem step_good (h : Inv ty s ph) (hf : s.Fresh) (he : .error ∉ (step s ch).1) :
    Good ty s.stage ch (step s ch).1 (step s ch).2 := by
  have hstage {b : State} (hs : s.state = b) (hb : ∀ t : Bool, b.stage t = if t then .tail else .head) :
      s.stage = s.headerStage := by
    rw [Members.stage, hs, hb, Members.headerStage]
  by_cases hg : s.state = .headerValue ∧ s.headerState = .general ∧ ch ≠ CR ∧ ch ≠ LF
  · rw [step, if_pos hg, hstage hg.1 fun _ => rfl]
    have hgood : Out.Good ty s.headerStage ch ([], s) :=
      header_good hg.1 rfl (fun _ => rfl) rfl fun k hk => by
        cases hk
        simp [okByte, hg.2.2]
    exact hgood (by simp [actions])
  rw [step, if_neg hg] at he ⊢
  suffices hgood : Out.Good ty s.stage ch ((turn s ch []).effects, (turn s ch []).members) from hgood he
  clear he
  by_cases hr : s.state.readsOn = false
  · rw [turn_of_not_readsOn hr]
    exact switch_good h hr hf
  have htail {b : State} (hs : s.state = b) (hb : ∀ t, b.stage t = .tail) : s.stage = .tail := by
    rw [Members.stage, hs, hb]
  rw [turn]
  cases hs : s.state <;> rw [hs] at hr hg <;> first | exact absurd rfl hr | skip
  all_goals dsimp only
  case headerField =>
    rw [hstage hs fun _ => rfl]
    exact headerField_good h hs
  case headerValue =>
    rw [hstage hs fun _ => rfl]
    exact headerValue_good hs fun hgen => hg ⟨rfl, hgen⟩
  case bodyIdentity =>
    rw [htail hs fun _ => rfl]
    dsimp only [bodyIdentity]
    split
    · exact .skip rfl (.skip rfl (.then rfl messageDone_good))
    · exact .skip rfl (.skip rfl (body_good hs (fun _ => rfl) rfl rfl))
  case bodyIdentityEof =>
    rw [htail hs fun _ => rfl]
    exact .skip rfl (body_good hs (fun _ => rfl) rfl rfl)
  case chunkData =>
    rw [htail hs fun _ => rfl]
    dsimp only [chunkData]
    refine .skip rfl (.skip rfl (.skip rfl ?_))
    split
    · exact body_good rfl (fun _ => rfl) rfl rfl
    · exact body_good hs (fun _ => rfl) rfl rfl

/-! ## What a stream tells -/

/-- A string of kind `k`. -/
def OkString (k : Element) (data : List Byte) : Prop := ∀ ch ∈ data, okByte k ch

/-- Reports, the last one first, of messages that have come to a stage and a phase. -/
inductive Told (ty : HttpParserType) : Stage → Phase → List Http.Report → Prop
  | nil : Told ty .start .idle []
  | url {ph : Phase} {rs : List Http.Report} {data : List Byte} (h : Told ty .start ph rs)
    (hph : ph ≠ .due) (hty : ty = .request) (hne : data ≠ []) (hok : OkString .url data) :
    Told ty .head .idle (.url data :: rs)
  | status {ph : Phase} {rs : List Http.Report} {code : Nat} {data : List Byte}
    (h : Told ty .start ph rs) (hph : ph ≠ .due) (hty : ty = .response) (hne : data ≠ [])
    (hcode : code ≤ 999) (hok : OkString .status data) : Told ty .head .idle (.status code data :: rs)
  | noStatus {ph : Phase} {rs : List Http.Report} (h : Told ty .start ph rs) (hty : ty = .response) :
    Told ty .head ph rs
  | headerField {st : Stage} {ph : Phase} {rs : List Http.Report} {data : List Byte}
    (h : Told ty st ph rs) (hst : st ≠ .start) (hph : ph ≠ .due) (hne : data ≠ [])
    (hok : OkString .headerField data) : Told ty st .due (.headerField data :: rs)
  | headerValue {st : Stage} {rs : List Http.Report} {data : List Byte} (h : Told ty st .due rs)
    (hok : OkString .headerValue data) : Told ty st .valued (.headerValue data :: rs)
  | headersComplete {ph : Phase} {rs : List Http.Report} (h : Told ty .head ph rs) (hph : ph ≠ .due)
    (m : HttpMethod) : Told ty .tail .idle (.headersComplete m.string :: rs)
  | next {ph : Phase} {rs : List Http.Report} (h : Told ty .tail ph rs) (hph : ph ≠ .due) :
    Told ty .start ph rs

variable {rs : List Http.Report} {data : List Byte}

/-- The last report shows the stage and the phase. -/
theorem Told.last (h : Told ty st ph rs) : ∀ r ∈ rs.head?,
    match r with
    | .url _ | .status .. => st = .head
    | .headerField _ => ph = .due
    | .headerValue _ => ph = .valued
    | .headersComplete _ => ph = .idle := by
  induction h with
  | nil => exact fun r hr => by cases hr
  | noStatus h hty ih =>
    intro r hr
    have := ih r hr
    cases r <;> first | exact this | cases this
  | next h hph ih =>
    intro r hr
    have := ih r hr
    cases r <;> first | exact this | cases this
  | url | status | headerField | headerValue | headersComplete =>
    intro r hr
    cases hr
    rfl

/-- A value that goes on. -/
theorem Told.moreValue (h : Told ty st .valued rs) {data : List Byte}
    (hok : OkString .headerValue data) : Told ty st .valued (joinOnto rs (.headerValue data)) := by
  generalize hph : Phase.valued = ph at h
  induction h with
  | headerValue h hok' =>
    refine .headerValue h fun ch hch => ?_
    exact (List.mem_append.mp hch).elim (hok' ch) (hok ch)
  | noStatus h hty ih => exact .noStatus (ih hph) hty
  | next h hdue ih => exact .next (ih hph) hdue
  | _ => cases hph

/-- A string that is reported. -/
theorem Told.report {k : Element} {old : Bool} {ph' : Phase} (h : Told ty st ph rs)
    (hst : st.next ty (.data k) = some st') (hph : ph.report ty k old = some ph')
    (hne : old = !data.isEmpty) (hok : OkString k data) (hcode : s.statusCode ≤ 999) :
    Told ty st' ph' (joinOnto rs (piece grammar s k data)) := by
  have hlast := h.last
  have hdata : old = true → data ≠ [] := fun ho he => by
    rw [ho, he] at hne
    cases hne
  -- Only a value can be a further part of the last string.
  have hnew (r : Http.Report) (hr : ∀ r' ∈ rs.head?, r'.join r = none) (ht : Told ty st' ph' (r :: rs)) :
      Told ty st' ph' (joinOnto rs r) := by
    rw [joinOnto_of_last hr]
    exact ht
  cases k with
  | url =>
    obtain ⟨rfl, rfl, rfl⟩ : st = .start ∧ ty = .request ∧ st' = .head := by
      cases st <;> cases ty <;> cases hst <;> exact ⟨rfl, rfl, rfl⟩
    obtain ⟨hdue, ho, rfl⟩ : ph ≠ .due ∧ old = true ∧ ph' = .idle := by
      cases ph <;> cases old <;> cases hph <;> exact ⟨fun h => (by cases h), rfl, rfl⟩
    refine hnew _ (fun r' hr' => ?_) (.url h hdue rfl (hdata ho) hok)
    have := hlast r' hr'
    cases r' <;> first | rfl | cases this
  | status =>
    obtain ⟨rfl, rfl, rfl⟩ : st = .start ∧ ty = .response ∧ st' = .head := by
      cases st <;> cases ty <;> cases hst <;> exact ⟨rfl, rfl, rfl⟩
    obtain ⟨hdue, ho, rfl⟩ : ph ≠ .due ∧ old = true ∧ ph' = .idle := by
      cases ph <;> cases old <;> cases hph <;> exact ⟨fun h => (by cases h), rfl, rfl⟩
    refine hnew _ (fun r' hr' => ?_) (.status h hdue rfl (hdata ho) hcode hok)
    have := hlast r' hr'
    cases r' <;> first | rfl | cases this
  | headerField =>
    obtain ⟨hne', rfl⟩ : st ≠ .start ∧ st' = st := by
      cases st <;> cases hst <;> exact ⟨fun h => (by cases h), rfl⟩
    obtain ⟨hdue, ho, rfl⟩ : ph ≠ .due ∧ old = true ∧ ph' = .due := by
      cases ph <;> cases old <;> cases hph <;> exact ⟨fun h => (by cases h), rfl, rfl⟩
    refine hnew _ (fun r' hr' => ?_) (.headerField h hne' hdue (hdata ho) hok)
    have := hlast r' hr'
    cases r' <;> first | rfl | exact absurd this hdue
  | headerValue =>
    obtain rfl : st' = st := by cases st <;> cases hst <;> rfl
    cases ph with
    | idle => cases hph
    | due =>
      cases hph
      refine hnew _ (fun r' hr' => ?_) (.headerValue h hok)
      have := hlast r' hr'
      cases r' <;> first | rfl | cases this
    | valued =>
      obtain rfl : ph' = .valued := by cases old <;> cases hph; rfl
      exact h.moreValue hok

theorem Told.complete (h : Told ty .head ph rs) (hph : ph ≠ .due) :
    Told ty .tail .idle (joinOnto rs (.headersComplete s.method.string)) := by
  rw [joinOnto_of_last fun r hr => ?_]
  · exact .headersComplete h hph _
  · cases r <;> rfl

/-! ## Runs -/

/-- A parser that reads a stream without an error, and what it has reported of it, the last report
first. -/
structure Telling (ty : HttpParserType) (v : Scan Members) (rs : List Http.Report) : Prop where
  told : ∃ ph, Inv ty v.state ph ∧ Told ty v.state.stage ph rs
  fresh : v.state.Fresh
  marked : marked v.state.state = v.mark.map Prod.fst
  bytes : ∀ m, v.mark = some m → m.2 ≠ [] ∧ OkString m.1 m.2

variable {v : Scan Members}

/-- The actions of a byte, in a state of which the callbacks see what is small enough. -/
theorem Told.acts {final : Option Element → Phase → Prop} {as : List Http.Action}
    (h : Told ty st ph rs) (hall : Allowed ty final (v.mark.map fun m => (m.1, !m.2.isEmpty)) ph as)
    (hst : as.foldlM (Stage.next ty) st = some st') (hf : v.failed = false) (he : .error ∉ as)
    (hbytes : ∀ m, v.mark = some m → OkString m.1 m.2) (hcode : v.state.statusCode ≤ 999) :
    ∃ ph', final ((trace Scan.act v as).1.mark.map Prod.fst) ph' ∧
      Told ty st' ph' (joinCalls grammar rs (trace Scan.act v as).2) ∧
      ∀ m, (trace Scan.act v as).1.mark = some m → OkString m.1 m.2 := by
  induction as generalizing v st ph rs with
  | nil =>
    obtain rfl := Option.some.inj hst
    refine ⟨ph, ?_, h, hbytes⟩
    cases hm : v.mark <;> rw [hm] at hall <;> rw [trace_nil, hm] <;> exact hall
  | cons a as ih =>
    obtain ⟨state, mark, failed⟩ := v
    obtain rfl : failed = false := hf
    rw [List.foldlM_cons] at hst
    obtain ⟨st₁, hst₁, hrest⟩ := Option.bind_eq_some_iff.mp hst
    have he' : .error ∉ as := fun h => he (List.mem_cons_of_mem _ h)
    cases a with
    | error => exact absurd (List.mem_cons_self ..) he
    | mark k =>
      cases mark with
      | some m => exact hall.elim
      | none =>
        obtain rfl : st = st₁ := by cases st <;> exact Option.some.inj hst₁
        refine ih (v := ⟨state, some (k, []), false⟩) h hall.2 hrest rfl he' (fun m hm => ?_) hcode
        cases hm
        exact fun ch hch => by cases hch
    | data k =>
      cases mark with
      | none => exact hall.elim
      | some m =>
        obtain ⟨rfl, ph₁, hph₁, hall⟩ := hall
        have hact : Scan.act ⟨state, some m, false⟩ (.data m.1) =
            (⟨state, none, false⟩, [.data state m.1 m.2]) := by simp [Scan.act]
        rw [trace_cons, hact, joinCalls_append]
        exact ih (v := ⟨state, none, false⟩) (h.report hst₁ hph₁ rfl (hbytes m rfl) hcode) hall hrest rfl
          he' (fun m hm => by cases hm) hcode
    | headersComplete =>
      cases mark with
      | some m => cases hall.1
      | none =>
        obtain ⟨-, hdue, hall⟩ := hall
        obtain ⟨rfl, rfl⟩ : st = .head ∧ st₁ = .tail := by
          cases st <;> cases hst₁
          exact ⟨rfl, rfl⟩
        have hact : Scan.act ⟨state, none, false⟩ .headersComplete =
            (⟨state, none, false⟩, [.headersComplete state]) := rfl
        rw [trace_cons, hact, joinCalls_append]
        exact ih (v := ⟨state, none, false⟩) (h.complete hdue) hall hrest rfl he' hbytes hcode

theorem Told.reaches (h : Told ty st ph rs) (hr : st.Reaches ty st')
    (hdue : st' = .start → ph ≠ .due) : Told ty st' ph rs := by
  rcases hr with rfl | ⟨rfl, rfl⟩ | ⟨hty, rfl, rfl⟩
  · exact h
  · exact .next h (hdue rfl)
  · exact .noStatus h hty

/-- At the start of a message, the headers of the last are complete. -/
theorem Inv.not_due (h : Inv ty s ph) (hs : s.stage = .start) : ph ≠ .due := by
  have hph := h.phase
  rw [Members.stage] at hs
  cases hst : s.state <;> rw [hst] at hs hph <;> first | exact hph | skip
  all_goals
    revert hs
    cases s.flags.trailing <;> exact fun hs => by cases hs

/-- An error among the actions of a byte. -/
theorem failed_of_error {as : List Http.Action} (h : .error ∈ as) :
    (trace Scan.act v as).1.failed = true := by
  induction as generalizing v with
  | nil => cases h
  | cons a as ih =>
    rw [trace_cons]
    rcases List.mem_cons.mp h with rfl | h
    · have hact : (v.act .error).1.failed = true := by
        unfold Scan.act
        split
        · assumption
        · rfl
      rw [acts_failed hact]
      exact hact
    · exact ih h

/-- Actions without an error come to their end. -/
theorem exists_final {final : Option Element → Phase → Prop} {as : List Http.Action}
    {m : Option (Element × Bool)} (h : Allowed ty final m ph as) (he : .error ∉ as) :
    ∃ m' ph', final m' ph' := by
  induction as generalizing m ph with
  | nil => cases m <;> exact ⟨_, _, h⟩
  | cons a as ih =>
    have he' : .error ∉ as := fun h => he (List.mem_cons_of_mem _ h)
    cases a with
    | error => exact absurd (List.mem_cons_self ..) he
    | mark k =>
      cases m with
      | none => exact ih h.2 he'
      | some m => exact h.elim
    | data k =>
      cases m with
      | none => exact h.elim
      | some m =>
        obtain ⟨-, ph', -, h⟩ := h
        exact ih h he'
    | headersComplete => cases m <;> exact ih h.2.2 he'

/-- A byte without an error. -/
theorem Telling.byte (h : Telling ty v rs) (hf : v.failed = false) {ch : Byte}
    (hok : (v.byte grammar ch).1.failed = false) :
    Telling ty (v.byte grammar ch).1 (joinCalls grammar rs (v.byte grammar ch).2) := by
  obtain ⟨ph, hinv, htold⟩ := h.told
  rw [byte_eq hf] at hok ⊢
  have he : .error ∉ (step v.state ch).1 := fun he => by
    have hfail := failed_of_error (v := v.enter grammar ch) he
    rw [show (trace Scan.act (v.enter grammar ch) (step v.state ch).1).1.failed = false from hok] at hfail
    cases hfail
  obtain ⟨⟨st', hst', hreach⟩, hfresh, hmarked⟩ := step_good hinv h.fresh he
  have hall := (grammar_coherent ty).step v.state ph ch hinv
  -- What is marked is not empty.
  have hold : (v.mark.map fun m => (m.1, !m.2.isEmpty)) =
      (grammar.marked v.state).map (·, true) := by
    show _ = (HttpParser.marked v.state.state).map (·, true)
    rw [h.marked, Option.map_map]
    cases hm : v.mark with
    | none => rfl
    | some m => simp [(h.bytes m hm).1]
  rw [← hold] at hall
  obtain ⟨-, ph₁, -, hinv₁⟩ := exists_final hall he
  obtain ⟨ph', ⟨hmark, hinv'⟩, htold', hbytes⟩ := htold.acts (v := v.enter grammar ch) hall hst' hf he
    (fun m hm => (h.bytes m hm).2) hinv₁.statusCode
  have hstate : (trace Scan.act (v.enter grammar ch) (grammar.step v.state ch).1).1.state =
      (step v.state ch).2 := acts_state (v.enter grammar ch) (grammar.step v.state ch).1
  refine ⟨⟨ph', ?_, ?_⟩, ?_, ?_, fun m hm => ?_⟩
  · exact hstate ▸ hinv'
  · refine htold'.reaches (hstate ▸ hreach) fun hs => hinv'.not_due ?_
    exact (congrArg Members.stage hstate).symm.trans hs
  · exact hstate ▸ hfresh
  · refine (congrArg (fun s : Members => HttpParser.marked s.state) hstate).trans (hmark.trans ?_)
    rw [Scan.push, Option.map_map]
    rfl
  · obtain ⟨m', hm', rfl⟩ := Option.map_eq_some_iff.mp hm
    refine ⟨by simp, fun c hc => ?_⟩
    rcases List.mem_append.mp hc with hc | hc
    · exact hbytes m' hm' c hc
    · obtain rfl := List.mem_singleton.mp hc
      exact hmarked m'.1 (hmark.trans (by rw [hm']; rfl))

theorem Telling.start : Telling ty (.start grammar (.init ty)) [] := by
  have hm : (Scan.start grammar (.init ty)).mark = none := by
    rw [Scan.start, show grammar.marked (.init ty) = none from (grammar_coherent ty).unmarked]
    rfl
  refine ⟨⟨.idle, inv_init, ?_⟩, ?_, ?_, fun m h => ?_⟩
  · rw [show (Scan.start grammar (.init ty)).state.stage = .start by cases ty <;> rfl]
    exact .nil
  · cases ty
    · exact fun _ h _ => absurd rfl h
    · exact fun _ _ h => absurd rfl h
  · rw [hm]
    exact (startState_rest ty).2.2
  · rw [hm] at h
    cases h

theorem Telling.stream (h : Telling ty v rs) {bs : List Byte}
    (hok : (trace (Scan.byte grammar) v bs).1.failed = false) :
    Telling ty (trace (Scan.byte grammar) v bs).1
      (joinCalls grammar rs (trace (Scan.byte grammar) v bs).2) := by
  induction bs generalizing v rs with
  | nil => exact h
  | cons ch bs ih =>
    have hgo (hfail : (v.byte grammar ch).1.failed = true) : False := by
      rw [trace_cons, bytes_failed hfail] at hok
      exact absurd (hfail.symm.trans hok) (by decide)
    have hf : v.failed = false := by
      by_contra hfail
      have hbyte : v.byte grammar ch = (v, []) := by
        rw [Scan.byte, if_pos (Bool.eq_true_of_not_eq_false hfail)]
      exact hgo (by rw [hbyte]; exact Bool.eq_true_of_not_eq_false hfail)
    rw [trace_cons] at hok ⊢
    rw [joinCalls_append]
    exact ih (h.byte hf (Bool.eq_false_iff.mpr hgo)) hok

/-- A string that is marked may be reported. -/
theorem Inv.reportable (h : Inv ty s ph) {k : Element} (hm : marked s.state = some k) :
    (s.stage.next ty (.data k)).isSome ∧ (ph.report ty k true).isSome := by
  have hl := h.line
  have hph := h.phase
  rw [Members.stage]
  cases hs : s.state <;> rw [hs] at hm hl hph <;> cases hm
  case headerField | headerValue =>
    constructor
    · cases s.flags.trailing <;> rfl
    · cases ph <;> first | rfl | exact absurd rfl hph
  all_goals
    obtain rfl := line_eq rfl hl
    constructor
    · rfl
    · cases ph <;> first | rfl | exact absurd rfl hph

/-- The reports so far, with what is left of the last string. -/
theorem Telling.close (h : Telling ty v rs) : ∃ st ph, Told ty st ph (v.close grammar rs) := by
  obtain ⟨ph, hinv, htold⟩ := h.told
  rw [Scan.close]
  cases hm : v.mark with
  | none => exact ⟨_, _, htold⟩
  | some m =>
    obtain ⟨hne, hok⟩ := h.bytes m hm
    obtain ⟨hst, hph⟩ := hinv.reportable (h.marked.trans (by rw [hm]; rfl) : _ = some m.1)
    obtain ⟨st', hst'⟩ := Option.isSome_iff_exists.mp hst
    obtain ⟨ph', hph'⟩ := Option.isSome_iff_exists.mp hph
    exact ⟨st', ph', htold.report hst' hph' (by simp [hne]) hok hinv.statusCode⟩

/-! ## Messages -/

/-- Headers whose names are tokens, and whose values go to the end of a line. -/
def OkHeaders (hs : List (List Byte × List Byte)) : Prop :=
  ∀ h ∈ hs, h.1 ≠ [] ∧ OkString .headerField h.1 ∧ OkString .headerValue h.2

/-- A message that consists of what it may consist of. -/
structure WellFormed (ty : HttpParserType) (m : Message) : Prop where
  url : ty = .request → m.url ≠ [] ∧ OkString .url m.url
  reason : OkString .status m.reason
  statusCode : m.statusCode ≤ 999
  method : ∃ k : HttpMethod, m.method = k.string
  headers : OkHeaders m.headers
  trailers : OkHeaders m.trailers

/-- What is reported of a message up to a stage. -/
def upTo (ty : HttpParserType) (m : Message) : Stage → List Http.Report
  | .start => []
  | .head => m.firstLine ty ++ headerReports m.headers
  | .tail => m.reports ty

theorem OkHeaders.concat {hs : List (List Byte × List Byte)} (h : OkHeaders hs) {name value : List Byte}
    (hne : name ≠ []) (hn : OkString .headerField name) (hv : OkString .headerValue value) :
    OkHeaders (hs ++ [(name, value)]) := by
  intro x hx
  rcases List.mem_append.mp hx with hx | hx
  · exact h x hx
  · obtain rfl := List.mem_singleton.mp hx
    exact ⟨hne, hn, hv⟩

theorem headerReports_concat (hs : List (List Byte × List Byte)) (h : List Byte × List Byte) :
    headerReports (hs ++ [h]) = headerReports hs ++ [.headerField h.1, .headerValue h.2] := by
  rw [headerReports, List.flatMap_append]
  rfl

/-- A message with one header more at its end. -/
theorem WellFormed.addHeader {m : Message} (h : WellFormed ty m) (hst : st ≠ .start)
    {name value : List Byte} (hne : name ≠ []) (hn : OkString .headerField name)
    (hv : OkString .headerValue value) : ∃ m', WellFormed ty m' ∧
      upTo ty m' st = upTo ty m st ++ [.headerField name, .headerValue value] := by
  cases st with
  | start => exact absurd rfl hst
  | head =>
    refine ⟨{ m with headers := m.headers ++ [(name, value)] },
      ⟨h.url, h.reason, h.statusCode, h.method, h.headers.concat hne hn hv, h.trailers⟩, ?_⟩
    show m.firstLine ty ++ headerReports (m.headers ++ [(name, value)]) = _
    rw [headerReports_concat, ← List.append_assoc]
    rfl
  | tail =>
    refine ⟨{ m with trailers := m.trailers ++ [(name, value)] },
      ⟨h.url, h.reason, h.statusCode, h.method, h.headers, h.trailers.concat hne hn hv⟩, ?_⟩
    show m.firstLine ty ++ (headerReports m.headers ++
      .headersComplete m.method :: headerReports (m.trailers ++ [(name, value)])) = _
    rw [headerReports_concat]
    simp [upTo, Message.reports]

/-- The reports of a stage: those of complete messages, and of a part of one. A name whose
value is due comes last. -/
structure Parts (ty : HttpParserType) (st : Stage) (ph : Phase) (rs : List Http.Report)
    (ms : List Message) (m : Message) (names : List (List Byte)) : Prop where
  messages : ∀ m ∈ ms, WellFormed ty m
  message : st ≠ .start → WellFormed ty m
  due : if ph = .due then ∃ name, names = [name] ∧ name ≠ [] ∧ OkString .headerField name
    else names = []
  started : st = .start → ph ≠ .due
  reports : rs.reverse =
    ms.flatMap (Message.reports ty) ++ (upTo ty m st ++ names.map .headerField)

theorem Told.parts (h : Told ty st ph rs) : ∃ ms m names, Parts ty st ph rs ms m names := by
  have hget : ∃ k : HttpMethod, HttpMethod.get.string = k.string := ⟨.get, rfl⟩
  have hnil : OkHeaders [] := fun h hh => by cases hh
  have hempty {k : Element} : OkString k [] := fun ch hch => by cases hch
  induction h with
  | nil => exact ⟨[], ⟨[], [], 0, [], [], []⟩, [], fun m hm => (by cases hm), fun h => absurd rfl h, rfl,
      fun _ h => (by cases h), rfl⟩
  | @url ph rs data h hph hty hne hok ih =>
    obtain ⟨ms, m, due, hms, -, hdue, -, hrs⟩ := ih
    rw [if_neg hph] at hdue
    subst hty hdue
    refine ⟨ms, ⟨HttpMethod.get.string, data, 0, [], [], []⟩, [], hms, fun _ => ⟨fun _ => ⟨hne, hok⟩,
      hempty, Nat.zero_le _, hget, hnil, hnil⟩, rfl, fun h => (by cases h), ?_⟩
    rw [List.reverse_cons, hrs]
    simp [upTo, Message.firstLine, headerReports]
  | @status ph rs code data h hph hty hne hcode hok ih =>
    obtain ⟨ms, m, due, hms, -, hdue, -, hrs⟩ := ih
    rw [if_neg hph] at hdue
    subst hty hdue
    refine ⟨ms, ⟨HttpMethod.get.string, [], code, data, [], []⟩, [], hms, fun _ => ⟨fun h => (by cases h),
      hok, hcode, hget, hnil, hnil⟩, rfl, fun h => (by cases h), ?_⟩
    rw [List.reverse_cons, hrs]
    simp [upTo, Message.firstLine, headerReports, hne]
  | @noStatus ph rs h hty ih =>
    obtain ⟨ms, m, due, hms, -, hdue, hst, hrs⟩ := ih
    subst hty
    refine ⟨ms, ⟨HttpMethod.get.string, [], 0, [], [], []⟩, due, hms, fun _ => ⟨fun h => (by cases h),
      hempty, Nat.zero_le _, hget, hnil, hnil⟩, hdue, fun h => (by cases h), ?_⟩
    rw [hrs]
    simp [upTo, Message.firstLine, headerReports]
  | @headerField st ph rs data h hst hph hne hok ih =>
    obtain ⟨ms, m, due, hms, hm, hdue, -, hrs⟩ := ih
    rw [if_neg hph] at hdue
    subst hdue
    refine ⟨ms, m, [data], hms, hm, ⟨data, rfl, hne, hok⟩, fun h => absurd h hst, ?_⟩
    rw [List.reverse_cons, hrs]
    simp
  | @headerValue st rs data h hok ih =>
    obtain ⟨ms, m, due, hms, hm, ⟨name, rfl, hne, hname⟩, hstart, hrs⟩ := ih
    have hst : st ≠ .start := fun h => hstart h rfl
    obtain ⟨m', hm', hup⟩ := (hm hst).addHeader hst hne hname hok
    refine ⟨ms, m', [], hms, fun _ => hm', rfl, fun h => absurd h hst, ?_⟩
    rw [List.reverse_cons, hrs, hup]
    simp
  | @headersComplete ph rs h hph k ih =>
    obtain ⟨ms, m, due, hms, hm, hdue, -, hrs⟩ := ih
    rw [if_neg hph] at hdue
    subst hdue
    have hm := hm fun h => by cases h
    refine ⟨ms, { m with method := k.string, trailers := [] }, [], hms, fun _ => ⟨hm.url, hm.reason,
      hm.statusCode, ⟨k, rfl⟩, hm.headers, hnil⟩, rfl, fun h => (by cases h), ?_⟩
    rw [List.reverse_cons, hrs]
    simp [upTo, Message.reports, headerReports, Message.firstLine]
  | @next ph rs h hph ih =>
    obtain ⟨ms, m, due, hms, hm, hdue, -, hrs⟩ := ih
    rw [if_neg hph] at hdue
    subst hdue
    have hm := hm fun h => by cases h
    refine ⟨ms ++ [m], m, [], fun m' hm' => ?_, fun h => absurd rfl h, ?_, fun _ => hph, ?_⟩
    · rcases List.mem_append.mp hm' with hm' | hm'
      · exact hms m' hm'
      · exact List.mem_singleton.mp hm' ▸ hm
    · rw [if_neg hph]
    · rw [hrs]
      simp [upTo]

/-- What is still missing of the last message may be put behind it. -/
theorem upTo_isPrefix (m : Message) (st : Stage) : upTo ty m st <+: m.reports ty := by
  cases st with
  | start => exact List.nil_prefix
  | head => exact ⟨_, by rw [upTo, Message.reports, List.append_assoc]⟩
  | tail => exact List.prefix_refl _

theorem Told.messages (h : Told ty st ph rs) : ∃ ms : List Message, (∀ m ∈ ms, WellFormed ty m) ∧
    rs.reverse <+: ms.flatMap (Message.reports ty) := by
  obtain ⟨ms, m, names, hms, hm, hdue, hstart, hrs⟩ := h.parts
  -- All but the last message are complete.
  have hlast {m' : Message} (hm' : WellFormed ty m') {ps : List Http.Report} (hps : ps <+: m'.reports ty) :
      (∀ m ∈ ms ++ [m'], WellFormed ty m) ∧
        ms.flatMap (Message.reports ty) ++ ps <+: (ms ++ [m']).flatMap (Message.reports ty) := by
    constructor
    · intro m hm
      rcases List.mem_append.mp hm with hm | hm
      · exact hms m hm
      · exact List.mem_singleton.mp hm ▸ hm'
    · rw [List.flatMap_append, List.flatMap_singleton]
      exact (List.prefix_append_right_inj _).mpr hps
  rw [hrs]
  split at hdue
  · rename_i hph
    obtain ⟨name, rfl, hne, hname⟩ := hdue
    have hst : st ≠ .start := fun h => hstart h hph
    have hempty : OkString .headerValue [] := fun ch hch => by cases hch
    obtain ⟨m', hm', hup⟩ := (hm hst).addHeader hst hne hname hempty
    refine ⟨ms ++ [m'], hlast hm' (.trans ⟨[.headerValue []], ?_⟩ (upTo_isPrefix m' st))⟩
    rw [hup, List.append_assoc]
    rfl
  · subst hdue
    rw [List.map_nil, List.append_nil]
    by_cases hst : st = .start
    · subst hst
      exact ⟨ms, hms, by rw [upTo, List.append_nil]⟩
    · exact ⟨ms ++ [m], hlast (hm hst) (upTo_isPrefix m st)⟩

/-- What the code reports of a stream that it accepts is, up to the cuts in its strings, what it
would report of well-formed messages, as far as the stream goes. -/
theorem accepted_messages {cs : List (List Byte)} {out : List Http.Report}
    (hcs : ∀ c ∈ cs, c ≠ [] ∧ c.length < 2 ^ 31) (h : accepted ty cs = some out) :
    ∃ ms : List Message, (∀ m ∈ ms, WellFormed ty m) ∧ joined out <+: ms.flatMap (Message.reports ty) := by
  have hf := (accepted_calls hcs h).1
  -- The machine that reads the stream in one piece does not fail either.
  have h₀ : Alike grammar (Scan.start grammar (.init ty)) (.start grammar (.init ty)) [] [] :=
    ⟨⟨rfl, rfl, rfl⟩, rfl⟩
  have hsim := (h₀.inputs (grammar_coherent ty) (Scan.Ok.start (grammar_coherent ty))
    (inputs cs)).similar.failed
  rw [hf, reduceOption_inputs] at hsim
  obtain ⟨st, ph, htold⟩ := (Telling.start.stream hsim.symm).close
  rw [joined_accepted hcs h]
  exact htold.messages

theorem accepted_messages_get : ∃ out, accepted .request [getStream] = some out ∧
    ∃ ms : List Message, (∀ m ∈ ms, WellFormed .request m) ∧
      joined out <+: ms.flatMap (Message.reports .request) := by
  obtain ⟨out, h⟩ := Option.isSome_iff_exists.mp
    (by decide +kernel : (accepted .request [getStream]).isSome = true)
  exact ⟨out, h, accepted_messages (by decide +kernel) h⟩

end Noff.HttpParser
