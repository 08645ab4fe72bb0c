import Noff.HttpParser.Tells

/-!
# Header lines, read back

Where a line of a header section starts, the value of the line before it may still be due, and
a flag of it to be set (`LineStart`). A header line leads from one such place to the
next, with its name and its value reported (`tells_header`). The lines that frame a body leave
a length or a flag (`tells_contentLength`, `tells_chunked`).
-/

namespace Noff.HttpParser

open Http

variable {s s' s₀ s₁ : Members} {ch : Byte} {bs name value : List Byte} {p : List Http.Report}
  {m m' : Mark} {n : Nat}

/-! ## The start of a line -/

/-- The members at the start of a line that does not go on with the one before it. -/
def nextLine (s : Members) : Members :=
  { s with flags := setFlag s.headerState s.flags, state := .headerFieldStart }

/-- At the start of a line, `p` is to be reported, and the line is read with the members `s₀`. -/
inductive LineStart : Members → List Http.Report → Members → Prop
  | first {s : Members} (hs : s.state = .headerFieldStart) : LineStart s [] s
  | value {s : Members} (hs : s.state = .headerValueLws) : LineStart s [] (nextLine s)
  | empty {s : Members} (hs : s.state = .headerValueDiscardLws) :
    LineStart s [.headerValue []] (nextLine s)

theorem LineStart.upgrade (h : LineStart s p s₀) : s.upgrade = s₀.upgrade := by
  cases h <;> rfl

/-- The first byte of a line. -/
theorem LineStart.tells (h : LineStart s p s₀) (hsp : ch ≠ 0x20) (htab : ch ≠ 0x09)
    {e : List Effect} {cs : List (Call Members)} (hfs : headerFieldStart s₀ ch = (e, s'))
    (hup : s'.upgrade = false)
    (hacts : trace Scan.act ⟨s', none, false⟩ (actions e) = (⟨s', m', false⟩, cs)) :
    Tells s none [ch] (p ++ cs.map (Call.report grammar)) s' (m'.push [ch]) := by
  have hblank : ¬ (ch = 0x20 || ch = 0x09) = true := by simpa using ⟨hsp, htab⟩
  cases h with
  | first hs => exact .switch (by rw [hs]; rfl) (by rw [switch, hs]; exact hfs) hup hacts
  | value hs =>
    refine .switch (by rw [hs]; rfl) ?_ hup hacts
    rw [switch, hs]
    exact (if_neg hblank).trans hfs
  | empty hs =>
    have hsw : switch s ch =
        (.mark .headerValue :: .data .headerValue false (nextLine s) :: e, s') := by
      rw [switch, hs]
      dsimp only
      rw [headerValueDiscardLws, if_neg hblank]
      show Effect.then _ (Effect.then _ (headerFieldStart (nextLine s) ch)) = _
      rw [hfs]
      rfl
    have htrace : trace Scan.act ⟨s', none, false⟩
        (.mark .headerValue :: .data .headerValue :: actions e) =
        ((trace Scan.act ⟨s', none, false⟩ (actions e)).1,
          .data s' .headerValue [] :: (trace Scan.act ⟨s', none, false⟩ (actions e)).2) := rfl
    have hall := htrace.trans (by rw [hacts])
    exact .switch (by rw [hs]; rfl) hsw hup hall

/-! ## Names -/

/-- `header_state` at the first byte of a name. -/
def firstField (c : Byte) : HeaderState :=
  if c = 0x63 then .c
  else if c = 0x70 then .matchingProxyConnection
  else if c = 0x74 then .matchingTransferEncoding
  else if c = 0x75 then .matchingUpgrade
  else .general

/-- What the loop of `s_header_field` looks at. -/
def fieldMembers (x : HeaderState × Nat) : Members :=
  { Members.init .request with state := .headerField, headerState := x.1, index := x.2 }

def fieldStep (x : HeaderState × Nat) (ch : Byte) : Option (HeaderState × Nat) :=
  if tokens ch = 0 then none
  else (headerFieldByte (fieldMembers x) ch).map fun s => (s.headerState, s.index)

def fieldRun (x : HeaderState × Nat) : List Byte → Option (HeaderState × Nat)
  | [] => some x
  | ch :: bs => (fieldStep x ch).bind fun x => fieldRun x bs

/-- `header_state` and `index` behind a name. -/
def nameRun : List Byte → Option (HeaderState × Nat)
  | [] => none
  | ch :: bs => if tokens ch = 0 then none else fieldRun (firstField (tokens ch), 0) bs

theorem headerFieldByte_frame (s : Members) (x : HeaderState × Nat) (ch : Byte) :
    headerFieldByte { s with state := .headerField, headerState := x.1, index := x.2 } ch =
      (headerFieldByte (fieldMembers x) ch).map fun t =>
        { s with state := .headerField, headerState := t.headerState, index := t.index } := by
  obtain ⟨h, i⟩ := x
  cases h <;> unfold headerFieldByte <;> dsimp only [fieldMembers] <;> first | rfl | (split <;> rfl)

theorem tells_fieldRun (hup : s.upgrade = false) {x y : HeaderState × Nat}
    (h : fieldRun x bs = some y) :
    Tells { s with state := .headerField, headerState := x.1, index := x.2 } m bs []
      { s with state := .headerField, headerState := y.1, index := y.2 } (m.push bs) := by
  induction bs generalizing x m with
  | nil =>
    cases h
    exact Mark.push_nil.symm ▸ .nil _ _
  | cons ch bs ih =>
    obtain ⟨x₁, hx₁, hrest⟩ := Option.bind_eq_some_iff.mp h
    rw [fieldStep] at hx₁
    split at hx₁
    · cases hx₁
    rename_i ht
    obtain ⟨t, hbyte, rfl⟩ := Option.map_eq_some_iff.mp hx₁
    have hframe := headerFieldByte_frame s x ch
    rw [hbyte] at hframe
    have hstep : step { s with state := .headerField, headerState := x.1, index := x.2 } ch =
        ([], { s with state := .headerField, headerState := t.headerState, index := t.index }) := by
      rw [step_headerField rfl, headerField_atEnd (headerFieldLoop_token ht hframe) rfl]
      rfl
    have h₁ := ih (m := m.push [ch]) hrest
    rw [Mark.push_push] at h₁
    exact .quiet hstep hup (fun hs => by cases hs) h₁

/-- A name, with the colon behind it. -/
theorem tells_name (h : LineStart s p s₀) (hup : s.upgrade = false) {x : HeaderState × Nat}
    (hrun : nameRun name = some x) : Tells s none (name ++ [0x3a]) (p ++ [.headerField name])
      { s₀ with state := .headerValueDiscardWs, headerState := x.1, index := x.2 } none := by
  rw [h.upgrade] at hup
  cases name with
  | nil => cases hrun
  | cons c cs =>
    rw [nameRun] at hrun
    split at hrun
    · cases hrun
    rename_i ht
    have hne (d : Byte) (hd : tokens d = 0) : c ≠ d := fun he => ht (he ▸ hd)
    have hfirst : headerFieldStart s₀ c = ([.mark .headerField], { s₀ with
        state := .headerField, headerState := firstField (tokens c), index := 0 }) := by
      rw [headerFieldStart, if_neg (hne CR rfl), if_neg (hne LF rfl)]
      exact if_neg ht
    have h₁ := h.tells (hne 0x20 rfl) (hne 0x09 rfl) hfirst hup rfl
    have h₂ := tells_fieldRun (s := s₀) (m := some (.headerField, [c])) hup hrun
    let t : Members := { s₀ with state := .headerField, headerState := x.1, index := x.2 }
    have hcolon : step t 0x3a = ([.data .headerField],
        { s₀ with state := .headerValueDiscardWs, headerState := x.1, index := x.2 }) := by
      rw [step_headerField rfl, headerField_stop (headerFieldLoop_stop rfl) rfl]
      rfl
    have h₃ := Tells.cons (m := some (.headerField, c :: cs)) (byte_of_acts hcolon rfl) hup
      (fun hs => by cases hs) (.nil _ _)
    have h₄ := h₁.append (h₂.append h₃)
    rwa [List.append_assoc] at h₄

/-! ### Plain names -/

/-- The names that `http_parser_execute` looks at. -/
def specialNames : List (List Byte) :=
  [text "connection", text "proxy-connection", text "content-length", text "transfer-encoding",
    text "upgrade"]

/-- The name of a header that is not looked at. -/
structure PlainName (name : List Byte) : Prop where
  ne : name ≠ []
  token : ∀ c ∈ name, tokens c ≠ 0
  plain : name.map tokens ∉ specialNames

instance (name : List Byte) : Decidable (PlainName name) :=
  decidable_of_iff (name ≠ [] ∧ (∀ c ∈ name, tokens c ≠ 0) ∧ ∀ special ∈ specialNames,
      name.map tokens ≠ special)
    ⟨fun h => ⟨h.1, h.2.1, fun hm => h.2.2 _ hm rfl⟩,
      fun h => ⟨h.ne, h.token, fun _ hm he => h.plain (he ▸ hm)⟩⟩

/-- The names of which `header_state` says that they are matched as far as `index`. -/
def HeaderState.target : HeaderState → Option (List Byte)
  | .matchingConnection => some (text "connection")
  | .matchingProxyConnection => some (text "proxy-connection")
  | .matchingContentLength => some (text "content-length")
  | .matchingTransferEncoding => some (text "transfer-encoding")
  | .matchingUpgrade => some (text "upgrade")
  | _ => none

/-- What is known of the bytes `p` of a name. -/
def Matched (x : HeaderState × Nat) (p : List Byte) : Prop :=
  match x.1 with
  | .general => True
  | .c => p = text "c" ∧ x.2 = 0
  | .co => p = text "co" ∧ x.2 = 1
  | .con => p = text "con" ∧ x.2 = 2
  | .matchingConnection | .matchingProxyConnection | .matchingContentLength
  | .matchingTransferEncoding | .matchingUpgrade =>
    ∃ name ∈ x.1.target, p = name.take (x.2 + 1) ∧ p.length = x.2 + 1
  | .connection | .contentLength | .transferEncoding | .upgrade => p ∈ specialNames
  | _ => False

theorem firstField_matched (ch : Byte) : Matched (firstField ch, 0) [ch] := by
  rw [firstField]
  split_ifs with h₁ h₂ h₃ h₄
  · exact ⟨congrArg (fun c => [c]) h₁, rfl⟩
  · exact ⟨_, rfl, congrArg (fun c => [c]) h₂, rfl⟩
  · exact ⟨_, rfl, congrArg (fun c => [c]) h₃, rfl⟩
  · exact ⟨_, rfl, congrArg (fun c => [c]) h₄, rfl⟩
  · trivial

theorem matching_name {name q : List Byte} {i : Nat} {c : Byte} (next done : HeaderState) (hc : c ≠ 0)
    (hq : q = name.take (i + 1) ∧ q.length = i + 1) :
    matching name (i + 1) c next done .general = .general ∨
      matching name (i + 1) c next done .general = done ∧ q ++ [c] = name ∨
      matching name (i + 1) c next done .general = next ∧ q ++ [c] = name.take (i + 2) ∧
        (q ++ [c]).length = i + 2 := by
  rw [matching]
  split
  · exact .inl rfl
  rename_i hgo
  have hget : c = name.getD (i + 1) 0 := by
    by_contra hne
    exact hgo (by rw [decide_eq_true hne, Bool.or_true])
  have hlt : i + 1 < name.length := by
    by_contra hge
    rw [List.getD_eq_getElem?_getD, List.getElem?_eq_none (by omega)] at hget
    exact hc hget
  have htake : q ++ [c] = name.take (i + 2) := by
    rw [List.getD_eq_getElem?_getD, List.getElem?_eq_getElem hlt, Option.getD_some] at hget
    rw [hq.1, hget, ← List.take_succ_eq_append_getElem hlt]
  split
  · refine .inr (.inl ⟨rfl, ?_⟩)
    rw [htake, List.take_of_length_le (by omega)]
  · refine .inr (.inr ⟨rfl, htake, ?_⟩)
    rw [List.length_append, hq.2]
    rfl

/-- One byte more of a name. -/
theorem fieldStep_matched {x : HeaderState × Nat} (h : Matched x bs) (ht : tokens ch ≠ 0) :
    ∃ y, fieldStep x ch = some y ∧ Matched y (bs ++ [tokens ch]) := by
  obtain ⟨st, i⟩ := x
  rw [fieldStep, if_neg ht]
  have hname {st done : HeaderState} {name : List Byte} (hst : st.target = some name)
      (hdone : ∀ j q, q = name → Matched (done, j) q) (hgo : ∀ q, q = name.take (i + 2) →
        q.length = i + 2 → Matched (st, i + 1) q) (hq : bs = name.take (i + 1) ∧ bs.length = i + 1) :
      Matched (matching name (i + 1) (tokens ch) st done .general, i + 1) (bs ++ [tokens ch]) := by
    rcases matching_name st done ht hq with he | ⟨he, hfull⟩ | ⟨he, htake, hlen⟩
    · rw [he]
      trivial
    · rw [he]
      exact hdone _ _ hfull
    · rw [he]
      exact hgo _ htake hlen
  have hsp : ch ≠ 0x20 := by
    rintro rfl
    exact ht rfl
  cases st
  case general => exact ⟨_, rfl, trivial⟩
  case c =>
    obtain ⟨rfl, rfl⟩ := h
    refine ⟨(if tokens ch = 0x6f then .co else .general, 1), rfl, ?_⟩
    split
    · rename_i he
      rw [he]
      exact ⟨by decide +kernel, rfl⟩
    · trivial
  case co =>
    obtain ⟨rfl, rfl⟩ := h
    refine ⟨(if tokens ch = 0x6e then .con else .general, 2), rfl, ?_⟩
    split
    · rename_i he
      rw [he]
      exact ⟨by decide +kernel, rfl⟩
    · trivial
  case con =>
    obtain ⟨rfl, rfl⟩ := h
    refine ⟨(if tokens ch = 0x6e then .matchingConnection
      else if tokens ch = 0x74 then .matchingContentLength else .general, 3), rfl, ?_⟩
    split_ifs with h₁ h₂
    · rw [h₁]
      exact ⟨_, rfl, by decide +kernel, by decide +kernel⟩
    · rw [h₂]
      exact ⟨_, rfl, by decide +kernel, by decide +kernel⟩
    · trivial
  case matchingConnection | matchingProxyConnection | matchingContentLength |
      matchingTransferEncoding | matchingUpgrade =>
    obtain ⟨_, hn, hq⟩ := h
    cases hn
    refine ⟨_, rfl, hname rfl (fun j q hq => ?_) (fun q h₁ h₂ => ⟨_, rfl, h₁, h₂⟩) hq⟩
    subst hq
    simp [Matched, specialNames]
  case connection | contentLength | transferEncoding | upgrade =>
    refine ⟨(.general, i), ?_, trivial⟩
    show Option.map _ (some (if ch ≠ 0x20 then _ else _)) = _
    rw [if_pos hsp]
    rfl
  all_goals exact h.elim

theorem fieldRun_matched {x : HeaderState × Nat} {q : List Byte} (h : Matched x q)
    (ht : ∀ c ∈ bs, tokens c ≠ 0) : ∃ y, fieldRun x bs = some y ∧ Matched y (q ++ bs.map tokens) := by
  induction bs generalizing x q with
  | nil => exact ⟨x, rfl, by rwa [List.map_nil, List.append_nil]⟩
  | cons c bs ih =>
    obtain ⟨x₁, hx₁, h₁⟩ := fieldStep_matched h (ht c (List.mem_cons_self ..))
    obtain ⟨y, hy, h'⟩ := ih h₁ fun c hc => ht c (List.mem_cons_of_mem _ hc)
    rw [List.append_assoc] at h'
    exact ⟨y, by rw [fieldRun, hx₁]; exact hy, h'⟩

/-- The states of `header_state` behind a name that is not looked at. -/
def HeaderState.plain : HeaderState → Bool
  | .general | .c | .co | .con | .matchingConnection | .matchingProxyConnection
  | .matchingContentLength | .matchingTransferEncoding | .matchingUpgrade => true
  | _ => false

theorem PlainName.nameRun (h : PlainName name) : ∃ x, nameRun name = some x ∧ x.1.plain := by
  obtain ⟨hne, ht, hplain⟩ := h
  cases name with
  | nil => exact absurd rfl hne
  | cons c cs =>
    obtain ⟨y, hy, hm⟩ := fieldRun_matched (firstField_matched (tokens c))
      fun b hb => ht b (List.mem_cons_of_mem _ hb)
    refine ⟨y, (if_neg (ht c (List.mem_cons_self ..))).trans hy, ?_⟩
    have hnot : [tokens c] ++ cs.map tokens ∉ specialNames := hplain
    obtain ⟨st, i⟩ := y
    cases st <;> first | rfl | exact absurd hm hnot | exact hm.elim

/-! ## Values -/

/-- A value, as it stands in a line of its own. -/
structure PlainValue (value : List Byte) : Prop where
  chars : ∀ c ∈ value, isHeaderChar c ∧ c ≠ CR ∧ c ≠ LF
  first : ∀ c ∈ value.head?, c ≠ 0x20 ∧ c ≠ 0x09

instance (value : List Byte) : Decidable (PlainValue value) :=
  decidable_of_iff ((∀ c ∈ value, isHeaderChar c ∧ c ≠ CR ∧ c ≠ LF) ∧
    ∀ c ∈ value.head?, c ≠ 0x20 ∧ c ≠ 0x09) ⟨fun h => ⟨h.1, h.2⟩, fun h => ⟨h.chars, h.first⟩⟩

/-- A header, in a line. -/
def headerLine (h : List Byte × List Byte) : List Byte := h.1 ++ 0x3a :: 0x20 :: (h.2 ++ [CR, LF])

/-- The rest of a value that is not looked at. -/
theorem tells_general (hs : s.state = .headerValue) (hg : s.headerState = .general)
    (hup : s.upgrade = false) (h : ∀ c ∈ bs, isHeaderChar c ∧ c ≠ CR ∧ c ≠ LF) :
    Tells s m bs [] s (m.push bs) := by
  induction bs generalizing m with
  | nil => exact Mark.push_nil.symm ▸ .nil _ _
  | cons c bs ih =>
    obtain ⟨hc, hcr, hlf⟩ := h c (List.mem_cons_self ..)
    have hrest := ih (m := m.push [c]) fun c hc => h c (List.mem_cons_of_mem _ hc)
    rw [Mark.push_push] at hrest
    exact .quiet (if_pos ⟨hs, hg, hcr, hlf⟩) hup (fun _ => hc) hrest

/-- A byte of a value that is looked at. -/
theorem step_headerValue (hs : s.state = .headerValue) (hng : s.headerState ≠ .general) (hcr : ch ≠ CR)
    (hlf : ch ≠ LF) (hc : isHeaderChar ch) (hb : headerValueByte s ch = some (.ok s₁)) :
    step s ch = ([], s₁) := by
  have hgood : ¬ (!s.lenientHttpHeaders && !isHeaderChar ch) = true := by simp [hc]
  have hone : headerValueLoop s [ch] = (1, .atEnd, s₁) := by
    rw [headerValueLoop, if_neg hcr, if_neg hlf, if_neg hgood, if_neg hng, hb]
    rfl
  rw [step, if_neg fun hc => hng hc.2.1, turn, hs]
  dsimp only
  rw [headerValue, hone]
  rfl

/-- The end of the line of a value. -/
theorem tells_valueEnd (hs : s.state = .headerValue) (hup : s.upgrade = false) :
    Tells s (some (.headerValue, value)) [CR, LF] [.headerValue value]
      { s with state := .headerValueLws } none := by
  have hcr : step s CR = ([.data .headerValue], { s with state := .headerAlmostDone }) := by
    rw [step_lineEnd hs (.inl rfl), headerValue, headerValueLoop_cr]
    rfl
  have h₁ := Tells.cons (m := some (.headerValue, value)) (byte_of_acts hcr rfl) hup
    (fun _ => rfl) (.nil _ _)
  have h₂ : Tells { s with state := .headerAlmostDone } none [LF] []
      { s with state := .headerValueLws } none := .pass rfl rfl hup (.nil _ _)
  exact h₁.append h₂

/-- The first byte of a value, which is marked. -/
theorem tells_valueStart (hs : s.state = .headerValueDiscardWs) (hsp : ch ≠ 0x20) (htab : ch ≠ 0x09)
    (hcr : ch ≠ CR) (hlf : ch ≠ LF) (h : headerValueStart s ch = ([.mark .headerValue], s'))
    (hup : s'.upgrade = false) : Tells s none [ch] [] s' (some (.headerValue, [ch])) := by
  have hblank : ¬ (ch = 0x20 || ch = 0x09) = true := by simpa using ⟨hsp, htab⟩
  have hsw : switch s ch = ([.mark .headerValue], s') := by
    rw [switch, hs]
    dsimp only
    rw [headerValueDiscardWs, if_neg hblank, if_neg hcr, if_neg hlf, h]
  exact .switch (by rw [hs]; rfl) hsw hup rfl

/-- The blank behind a colon. -/
theorem tells_blank (hs : s.state = .headerValueDiscardWs) (hup : s.upgrade = false) :
    Tells s none [0x20] [] s none := by
  have hsw : switch s 0x20 = ([], s) := by
    rw [switch, hs]
    rfl
  exact .pass (by rw [hs]; rfl) hsw hup (.nil _ _)

/-- A line is read by its name and its value. -/
theorem tells_line {t : Members} {rs : List Http.Report}
    (h : Tells s none (name ++ [0x3a]) (p ++ [.headerField name]) t none)
    (ht : t.state = .headerValueDiscardWs) (hup : t.upgrade = false)
    (hv : Tells t none (value ++ [CR, LF]) rs s' none) :
    Tells s none (headerLine (name, value)) (p ++ .headerField name :: rs) s' none := by
  have hall := h.append ((tells_blank ht hup).append hv)
  rwa [List.append_assoc, List.append_assoc] at hall

theorem setFlag_plain {h : HeaderState} (hh : h.plain) (f : Flags) : setFlag h f = f := by
  cases h <;> first | rfl | cases hh

/-- A header that is not looked at. Its value is still due if it is empty. -/
theorem tells_header (h : LineStart s p s₀) (hup : s.upgrade = false) (hname : PlainName name)
    (hvalue : PlainValue value) : ∃ rs s' p' s₀', Tells s none (headerLine (name, value)) rs s' none ∧
      LineStart s' p' s₀' ∧ s₀'.core = s₀.core ∧
      rs ++ p' = p ++ [.headerField name, .headerValue value] := by
  obtain ⟨x, hrun, hplain⟩ := hname.nameRun
  have hupg : s₀.upgrade = false := h.upgrade.symm.trans hup
  let t : Members := { s₀ with state := .headerValueDiscardWs, headerState := x.1, index := x.2 }
  have h₁ : Tells s none (name ++ [0x3a]) (p ++ [.headerField name]) t none := tells_name h hup hrun
  cases value with
  | nil =>
    let t' : Members := { t with state := .headerValueDiscardLws }
    have h₂ : Tells t none ([] ++ [CR, LF]) [] t' none :=
      .pass rfl rfl hupg (.pass rfl rfl hupg (.nil _ _))
    refine ⟨_, t', _, _, tells_line h₁ rfl hupg h₂, .empty rfl, ?_, List.append_assoc ..⟩
    show { nextLine t' with state := .dead, headerState := .general, index := 0 } = _
    rw [nextLine, setFlag_plain hplain]
    rfl
  | cons c cs =>
    obtain ⟨hsp, htab⟩ := hvalue.first c rfl
    obtain ⟨-, hcr, hlf⟩ := hvalue.chars c (List.mem_cons_self ..)
    let t' : Members := { t with state := .headerValue, index := 0, headerState := .general }
    have hstart : headerValueStart t c = ([.mark .headerValue], t') := by
      obtain ⟨st, i⟩ := x
      cases st <;> first | rfl | cases hplain
    have h₂ := tells_valueStart rfl hsp htab hcr hlf hstart hupg
    have h₃ := tells_general (m := some (.headerValue, [c])) (s := t') rfl rfl hupg
      fun c hc => hvalue.chars c (List.mem_cons_of_mem _ hc)
    have h₄ := h₂.append (h₃.append (tells_valueEnd (s := t') rfl hupg))
    exact ⟨_, _, _, _, tells_line h₁ rfl hupg h₄, .value rfl, rfl, List.append_nil _⟩

/-- Some headers that are not looked at. -/
theorem tells_headers {hs : List (List Byte × List Byte)} (h : LineStart s p s₀)
    (hup : s.upgrade = false) (hok : ∀ x ∈ hs, PlainName x.1 ∧ PlainValue x.2) :
    ∃ rs s' p' s₀', Tells s none (hs.flatMap headerLine) rs s' none ∧ LineStart s' p' s₀' ∧
      s₀'.core = s₀.core ∧ rs ++ p' = p ++ headerReports hs := by
  induction hs generalizing s p s₀ with
  | nil => exact ⟨[], s, p, s₀, .nil _ _, h, rfl, (List.append_nil p).symm⟩
  | cons x hs ih =>
    obtain ⟨hname, hvalue⟩ := hok x (List.mem_cons_self ..)
    obtain ⟨rs₁, s₁, p₁, s₀₁, h₁, hl₁, hc₁, hr₁⟩ := tells_header h hup hname hvalue
    have hup₁ : s₁.upgrade = false := hl₁.upgrade.trans
      ((congrArg Members.upgrade hc₁).trans (h.upgrade.symm.trans hup))
    obtain ⟨rs₂, s₂, p₂, s₀₂, h₂, hl₂, hc₂, hr₂⟩ :=
      ih hl₁ hup₁ fun x hx => hok x (List.mem_cons_of_mem _ hx)
    refine ⟨_, _, _, _, h₁.append h₂, hl₂, hc₂.trans hc₁, ?_⟩
    rw [List.append_assoc, hr₂, ← List.append_assoc, hr₁, List.append_assoc]
    rfl

/-! ## Headers that frame a body -/

/-- A number to a base, with one digit more, as long as it is below the limit of the code. -/
theorem addLength_ofNat {b t d : Nat} (hb : 0 < b) (h : t * b + b < 2 ^ 64) :
    addLength (BitVec.ofNat 64 b) (BitVec.ofNat 64 t) d = some (BitVec.ofNat 64 (t * b + d)) := by
  have ht : t ≤ t * b := Nat.le_mul_of_pos_right t hb
  have hmax : ullongMax.toNat = 2 ^ 64 - 1 := rfl
  have hbase : (BitVec.ofNat 64 b).toNat = b := by
    rw [BitVec.toNat_ofNat, Nat.mod_eq_of_lt (by omega)]
  have hsub : (ullongMax - BitVec.ofNat 64 b).toNat = 2 ^ 64 - 1 - b := by
    rw [BitVec.toNat_sub_of_le (BitVec.le_def.mpr (by omega)), hbase, hmax]
  rw [addLength, if_neg, BitVec.ofNat_add, BitVec.ofNat_mul]
  rw [BitVec.lt_def, BitVec.toNat_udiv, hsub, hbase, BitVec.toNat_ofNat, Nat.mod_eq_of_lt (by omega),
    Nat.not_lt, Nat.le_div_iff_mul_le hb]
  omega

theorem tells_length (hup : s.upgrade = false) {t : Nat} (hnum : ∀ b ∈ bs, isNum b)
    (h : digits t bs < 2 ^ 64 - 6) :
    Tells { s with
        state := .headerValue, headerState := .contentLength, contentLength := BitVec.ofNat 64 t }
      m bs []
      { s with
        state := .headerValue, headerState := .contentLength
        contentLength := BitVec.ofNat 64 (digits t bs) } (m.push bs) := by
  induction bs generalizing t m with
  | nil => exact Mark.push_nil.symm ▸ .nil _ _
  | cons b bs ih =>
    have hb := hnum b (List.mem_cons_self ..)
    have hne (d : Byte) (hd : isNum d = false) : b ≠ d := fun he => by rw [he, hd] at hb; cases hb
    have hle := le_digits (10 * t + (b.toNat - 0x30)) bs
    rw [digits_cons] at h ⊢
    have hadd : addLength 10 (BitVec.ofNat 64 t) (digit b) =
        some (BitVec.ofNat 64 (10 * t + (b.toNat - 0x30))) := by
      rw [Nat.mul_comm 10, ← digit_eq hb]
      exact addLength_ofNat (b := 10) (by decide) (by omega)
    have hbyte : headerValueByte { s with
        state := .headerValue, headerState := .contentLength, contentLength := BitVec.ofNat 64 t } b =
          some (.ok { s with
            state := .headerValue, headerState := .contentLength
            contentLength := BitVec.ofNat 64 (10 * t + (b.toNat - 0x30)) }) := by
      rw [headerValueByte]
      dsimp only
      rw [if_neg (hne 0x20 rfl), hb, if_neg (by decide), hadd]
    have hchar : isHeaderChar b := by
      have := isNum_iff.mp hb
      rw [isHeaderChar, Bool.or_eq_true, Bool.and_eq_true]
      refine .inr ⟨decide_eq_true (BitVec.lt_def.mpr ?_), decide_eq_true (hne 127 rfl)⟩
      show 31 < b.toNat
      omega
    have hstep := step_headerValue (s := { s with
      state := .headerValue, headerState := .contentLength, contentLength := BitVec.ofNat 64 t })
      rfl (fun hg => by cases hg) (hne CR rfl) (hne LF rfl) hchar hbyte
    have hrest := ih (m := m.push [b]) (fun b hb => hnum b (List.mem_cons_of_mem _ hb)) h
    rw [Mark.push_push] at hrest
    exact .quiet hstep hup (fun _ => hchar) hrest

/-- The length of a body. -/
theorem tells_contentLength (h : LineStart s p s₀) (hup : s.upgrade = false)
    (hflag : s₀.flags.contentlength = false) (hn : n < 2 ^ 64 - 6) :
    ∃ rs s' p' s₀', Tells s none (headerLine (text "Content-Length", decimal n)) rs s' none ∧
      LineStart s' p' s₀' ∧
      s₀'.core = { s₀ with flags.contentlength := true, contentLength := BitVec.ofNat 64 n }.core ∧
      rs ++ p' = p ++ [.headerField (text "Content-Length"), .headerValue (decimal n)] := by
  have hupg : s₀.upgrade = false := h.upgrade.symm.trans hup
  have hrun : nameRun (text "Content-Length") = some (.contentLength, 13) := by decide +kernel
  let t : Members :=
    { s₀ with state := .headerValueDiscardWs, headerState := .contentLength, index := 13 }
  have h₁ : Tells s none (text "Content-Length" ++ [0x3a])
      (p ++ [.headerField (text "Content-Length")]) t none := tells_name h hup hrun
  have hvalue : digits 0 (decimal n) = n := ofDecimal_decimal n
  have hnum : ∀ b ∈ decimal n, isNum b := fun b hb => isNum_of_mem_decimal hb
  cases hd : decimal n with
  | nil => exact absurd hd (decimal_ne_nil n)
  | cons b ds =>
    rw [hd] at hvalue hnum
    have hb := hnum b (List.mem_cons_self ..)
    have hne (d : Byte) (hd : isNum d = false) : b ≠ d := fun he => by rw [he, hd] at hb; cases hb
    let t' : Members := { t with index := 0, flags.contentlength := true }
    have hstart : headerValueStart t b = ([.mark .headerValue], { t' with
        state := .headerValue, headerState := .contentLength
        contentLength := BitVec.ofNat 64 (10 * 0 + (b.toNat - 0x30)) }) := by
      show (if !isNum b then _ else if s₀.flags.contentlength then _ else _) = _
      rw [hb, hflag, if_neg (by decide), if_neg (by decide), digit_eq hb, Nat.mul_zero, Nat.zero_add]
    rw [digits_cons] at hvalue
    have h₂ := tells_valueStart rfl (hne 0x20 rfl) (hne 0x09 rfl) (hne CR rfl) (hne LF rfl) hstart hupg
    have h₃ := tells_length (s := t') (m := some (.headerValue, [b])) hupg
      (fun b hb => hnum b (List.mem_cons_of_mem _ hb)) (by rwa [hvalue])
    rw [hvalue] at h₃
    have h₄ := h₂.append (h₃.append (tells_valueEnd rfl hupg))
    exact ⟨_, _, _, _, tells_line h₁ rfl hupg h₄, .value rfl, rfl, List.append_nil _⟩

/-- A letter of `chunked`. -/
theorem tells_chunkedByte (hup : s.upgrade = false) {i : Nat} {c : Byte} {st : HeaderState}
    (hm : matching (text "chunked") (i + 1) (lower c) .matchingTransferEncodingChunked
      .transferEncodingChunked .general = st) (hcr : c ≠ CR) (hlf : c ≠ LF) (hc : isHeaderChar c)
    (h : Tells { s with state := .headerValue, headerState := st, index := i + 1 } (m.push [c]) bs []
      s' m') : Tells { s with
        state := .headerValue, headerState := .matchingTransferEncodingChunked, index := i }
      m (c :: bs) [] s' m' := by
  subst hm
  exact .quiet (step_headerValue rfl (fun hg => by cases hg) hcr hlf hc rfl) hup (fun _ => hc) h

/-- The mark of a body in chunks. -/
theorem tells_chunked (h : LineStart s p s₀) (hup : s.upgrade = false) :
    ∃ rs s' p' s₀', Tells s none (headerLine (text "Transfer-Encoding", text "chunked")) rs s' none ∧
      LineStart s' p' s₀' ∧ s₀'.core = { s₀ with flags.chunked := true }.core ∧
      rs ++ p' = p ++ [.headerField (text "Transfer-Encoding"), .headerValue (text "chunked")] := by
  have hupg : s₀.upgrade = false := h.upgrade.symm.trans hup
  have hrun : nameRun (text "Transfer-Encoding") = some (.transferEncoding, 16) := by decide +kernel
  have htext : text "chunked" = [0x63, 0x68, 0x75, 0x6e, 0x6b, 0x65, 0x64] := by decide +kernel
  let t : Members :=
    { s₀ with state := .headerValueDiscardWs, headerState := .transferEncoding, index := 16 }
  have h₁ : Tells s none (text "Transfer-Encoding" ++ [0x3a])
      (p ++ [.headerField (text "Transfer-Encoding")]) t none := tells_name h hup hrun
  have h₂ : Tells t none [0x63] [] { t with
      state := .headerValue, headerState := .matchingTransferEncodingChunked, index := 0 }
      (some (.headerValue, [0x63])) :=
    tells_valueStart rfl (by decide) (by decide) (by decide) (by decide) rfl hupg
  have h₃ : Tells { t with
      state := .headerValue, headerState := .matchingTransferEncodingChunked, index := 0 }
      (some (.headerValue, [0x63])) [0x68, 0x75, 0x6e, 0x6b, 0x65, 0x64] []
      { t with state := .headerValue, headerState := .transferEncodingChunked, index := 6 }
      (some (.headerValue, [0x63, 0x68, 0x75, 0x6e, 0x6b, 0x65, 0x64])) := by
    have hm : ∀ x ∈ [(0, 0x68#8), (1, 0x75#8), (2, 0x6e#8), (3, 0x6b#8), (4, 0x65#8)],
        matching (text "chunked") (x.1 + 1) (lower x.2) .matchingTransferEncodingChunked
          .transferEncodingChunked .general = .matchingTransferEncodingChunked := by decide +kernel
    have hlast : matching (text "chunked") 6 (lower 0x64) .matchingTransferEncodingChunked
      .transferEncodingChunked .general = .transferEncodingChunked := by decide +kernel
    refine tells_chunkedByte hupg (hm (0, 0x68) (by decide)) (by decide) (by decide) rfl <|
      tells_chunkedByte hupg (hm (1, 0x75) (by decide)) (by decide) (by decide) rfl <|
      tells_chunkedByte hupg (hm (2, 0x6e) (by decide)) (by decide) (by decide) rfl <|
      tells_chunkedByte hupg (hm (3, 0x6b) (by decide)) (by decide) (by decide) rfl <|
      tells_chunkedByte hupg (hm (4, 0x65) (by decide)) (by decide) (by decide) rfl <|
      tells_chunkedByte hupg hlast (by decide) (by decide) rfl (.nil _ _)
  have h₄ := h₂.append (h₃.append (tells_valueEnd rfl hupg))
  rw [htext]
  exact ⟨_, _, _, _, tells_line h₁ rfl hupg h₄, .value rfl, rfl, List.append_nil _⟩

end Noff.HttpParser
