import Noff.HttpParser.Accepts
import Noff.HttpParser.Messages

/-!
# What the machine tells of some bytes

`Tells` says where some bytes lead the machine, and what it reports of them. It is put together
from single bytes (`Tells.switch`), runs that are quiet (`Tells.quiet`) and bodies, and says of
a stream that it is accepted, and what is reported of it (`accepted_of_tells`).
-/

namespace Noff.HttpParser

open Http

variable {ty : HttpParserType} {s s' s₁ : Members} {ch : Byte} {bs xs : List Byte}
  {rs rs' : List Http.Report} {L n : Nat}

/-- The string that is marked, as far as it has been read. -/
abbrev Mark := Option (Element × List Byte)

/-- A mark, and more bytes. -/
def Mark.push (m : Mark) (bs : List Byte) : Mark := m.map fun x => (x.1, x.2 ++ bs)

variable {m m' m₁ : Mark}

theorem Mark.push_push (xs ys : List Byte) : (m.push xs).push ys = m.push (xs ++ ys) := by
  cases m <;> simp [Mark.push]

@[simp] theorem Mark.push_nil : m.push [] = m := by cases m <;> simp [Mark.push]

@[simp] theorem Mark.push_none (bs : List Byte) : Mark.push none bs = none := rfl

@[simp] theorem Mark.push_some (k : Element) (xs ys : List Byte) :
    Mark.push (some (k, xs)) ys = some (k, xs ++ ys) := rfl

/-- The bytes `bs` lead from the members `s` and the mark `m` to `s'` and `m'`, and nothing is
wrong with them. The callbacks report `rs`. -/
inductive Tells : Members → Mark → List Byte → List Http.Report → Members → Mark → Prop
  | nil (s : Members) (m : Mark) : Tells s m [] [] s m
  | cons {s s₁ s' : Members} {m m₁ m' : Mark} {ch : Byte} {bs : List Byte} {rs : List Http.Report}
    {cs : List (Call Members)}
    (hbyte : (Scan.mk s m false).byte grammar ch = (⟨s₁, m₁, false⟩, cs))
    (hup : s₁.upgrade = false) (hchar : s.state = .headerValue → isHeaderChar ch)
    (h : Tells s₁ m₁ bs rs s' m') : Tells s m (ch :: bs) (cs.map (Call.report grammar) ++ rs) s' m'

theorem Tells.append (h : Tells s m bs rs s₁ m₁) (h' : Tells s₁ m₁ xs rs' s' m') :
    Tells s m (bs ++ xs) (rs ++ rs') s' m' := by
  induction h with
  | nil => exact h'
  | cons hbyte hup hchar _ ih => exact List.append_assoc .. ▸ .cons hbyte hup hchar (ih h')

theorem byte_of_acts {as : List Http.Action} {cs : List (Call Members)} (hs : step s ch = (as, s'))
    (hacts : trace Scan.act ⟨s', m, false⟩ as = (⟨s', m', false⟩, cs)) :
    (Scan.mk s m false).byte grammar ch = (⟨s', m'.push [ch], false⟩, cs) := by
  have hg : grammar.step s ch = (as, s') := hs
  have henter : (Scan.mk s m false).enter grammar ch = ⟨s', m, false⟩ := by rw [Scan.enter, hg]
  rw [byte_eq rfl, henter, hg, hacts]
  rfl

/-- A byte of a state that looks at one byte. -/
theorem Tells.switch {es : List Effect} {cs : List (Call Members)} (hr : s.state.readsOn = false)
    (hs : HttpParser.switch s ch = (es, s')) (hup : s'.upgrade = false)
    (hacts : trace Scan.act ⟨s', m, false⟩ (actions es) = (⟨s', m', false⟩, cs)) :
    Tells s m [ch] (cs.map (Call.report grammar)) s' (m'.push [ch]) := by
  have hne : s.state ≠ .headerValue := fun hs => by
    rw [hs] at hr
    cases hr
  have hstep : step s ch = (actions es, s') := by
    rw [step_of_state hne, turn_of_not_readsOn hr, hs]
  have h := Tells.cons (byte_of_acts hstep hacts) hup (fun h => absurd h hne) (.nil s' (m'.push [ch]))
  rwa [List.append_nil] at h

/-! ## Quiet bytes -/

/-- A byte that the callbacks see nothing of. -/
theorem Tells.quiet (hs : step s ch = ([], s₁)) (hup : s₁.upgrade = false)
    (hchar : s.state = .headerValue → isHeaderChar ch) (h : Tells s₁ (m.push [ch]) bs rs s' m') :
    Tells s m (ch :: bs) rs s' m' := .cons (byte_of_acts hs rfl) hup hchar h

theorem Tells.pass (hr : s.state.readsOn = false) (hs : HttpParser.switch s ch = ([], s₁))
    (hup : s₁.upgrade = false) (h : Tells s₁ (m.push [ch]) bs rs s' m') :
    Tells s m (ch :: bs) rs s' m' := .append (.switch hr hs hup rfl) h

theorem Tells.cast (h : Tells s m bs rs s' m') (hs : s' = s₁) : Tells s m bs rs s₁ m' := hs ▸ h

theorem tells_reqVersion (hup : s.upgrade = false) :
    Tells { s with state := .reqHttpStart } none
      [0x48, 0x54, 0x54, 0x50, 0x2f, 0x31, 0x2e, 0x31, 0x0d, 0x0a] []
      { s with state := .headerFieldStart, httpMajor := 1, httpMinor := 1 } none := by
  refine .pass rfl rfl hup <| .pass rfl rfl hup <| .pass rfl rfl hup <| .pass rfl rfl hup <|
    .pass rfl rfl hup <| .pass rfl rfl hup <| .pass rfl rfl hup <| .pass rfl rfl hup <|
    .pass rfl rfl hup <| .pass rfl rfl hup <| .nil _ _

/-- The members, but for those that say where in a line the parser is. -/
def Members.core (s : Members) : Members :=
  { s with state := .dead, headerState := .general, index := 0 }

/-! ## Request lines -/

/-- What `s_req_method` looks at. -/
def methodMembers (x : HttpMethod × Nat) : Members :=
  { Members.init .request with state := .reqMethod, method := x.1, index := x.2 }

/-- The method that is matched, and the index, behind some bytes of its name. -/
def methodRun (x : HttpMethod × Nat) : List Byte → Option (HttpMethod × Nat)
  | [] => some x
  | ch :: bs =>
    let o := reqMethod (methodMembers x) ch
    if o.1 = [] ∧ o.2.state = .reqMethod then methodRun (o.2.method, o.2.index) bs else none

/-- What is done to the members that `s_req_method` looks at, done to `s`. -/
def framed (s : Members) (o : Out) : Out :=
  (o.1, { s with state := o.2.state, method := o.2.method, index := o.2.index })

theorem framed_ite {p : Prop} [Decidable p] {o o₁ o' o₁' : Out} (h : o = framed s o')
    (h₁ : o₁ = framed s o₁') : (if p then o else o₁) = framed s (if p then o' else o₁') := by
  split
  · exact h
  · exact h₁

theorem reqMethod_frame (s : Members) (x : HttpMethod × Nat) (ch : Byte) :
    reqMethod { s with state := .reqMethod, method := x.1, index := x.2 } ch =
      framed s (reqMethod (methodMembers x) ch) := by
  rw [reqMethod, reqMethod]
  dsimp only [methodMembers]
  refine framed_ite rfl ?_
  cases (x.1.string ++ [0])[x.2]? with
  | none => rfl
  | some c =>
    refine framed_ite rfl (framed_ite rfl (framed_ite ?_ (framed_ite rfl rfl)))
    cases methodChanges.lookup (x.1, x.2, ch) <;> rfl

theorem tells_methodRun (hup : s.upgrade = false) {x y : HttpMethod × Nat}
    (h : methodRun x bs = some y) :
    Tells { s with state := .reqMethod, method := x.1, index := x.2 } none bs []
      { s with state := .reqMethod, method := y.1, index := y.2 } none := by
  induction bs generalizing x with
  | nil =>
    cases h
    exact .nil _ _
  | cons ch bs ih =>
    rw [methodRun] at h
    split at h
    · rename_i ho
      have hframe := reqMethod_frame s x ch
      rw [framed, ho.1, ho.2] at hframe
      exact .pass rfl hframe hup (ih h)
    · cases h

/-- The name of a method is found by its letters. -/
theorem methodRun_string (m : HttpMethod) : ∃ c cs m₀, m.string = c :: cs ∧ c ≠ CR ∧ c ≠ LF ∧
    firstMethods.lookup c = some m₀ ∧ methodRun (m₀, 1) cs = some (m, m.string.length) := by
  have hall : ∀ m : HttpMethod, ∃ c ∈ m.string.head?, c ≠ CR ∧ c ≠ LF ∧
      ∃ m₀ ∈ firstMethods.lookup c, methodRun (m₀, 1) m.string.tail = some (m, m.string.length) := by
    intro m
    cases m <;> decide +kernel
  obtain ⟨c, hc, hcr, hlf, m₀, hm₀, hrun⟩ := hall m
  exact ⟨c, m.string.tail, m₀, (List.cons_head?_tail hc).symm, hcr, hlf, hm₀, hrun⟩

/-! ### URLs -/

/-- The states in which a URL can end. -/
def State.urlEnd : State → Bool
  | .reqServer | .reqServerWithAt | .reqPath | .reqQueryStringStart | .reqQueryString
  | .reqFragmentStart | .reqFragment => true
  | _ => false

/-- What `parse_url_char` makes of a URL. -/
def urlState (st : State) (bs : List Byte) : State := bs.foldl parseUrlChar st

theorem urlState_dead (bs : List Byte) : urlState .dead bs = .dead := by
  induction bs with
  | nil => rfl
  | cons ch bs ih =>
    have hdead : parseUrlChar .dead ch = .dead := by
      unfold parseUrlChar
      split <;> rfl
    rw [urlState, List.foldl_cons, hdead]
    exact ih

theorem parseUrlChar_blank {st : State} (h : parseUrlChar st ch ≠ .dead) :
    ch ≠ 0x20 ∧ ch ≠ CR ∧ ch ≠ LF := by
  refine ⟨?_, ?_, ?_⟩ <;> rintro rfl <;> exact h rfl

/-- A byte of a URL, behind the first. -/
theorem switch_url {st : State} (hst : marked st = some .url) (h : parseUrlChar st ch ≠ .dead) :
    HttpParser.switch { s with state := st } ch = ([], { s with state := parseUrlChar st ch }) := by
  obtain ⟨hsp, hcr, hlf⟩ := parseUrlChar_blank h
  have hblank : ¬ (ch = 0x20 || ch = CR || ch = LF) = true := by simpa [hcr, hlf] using hsp
  have hend : ¬ (ch = CR || ch = LF) = true := by simp [hcr, hlf]
  have hurl : url { s with state := st } st ch = ([], { s with state := parseUrlChar st ch }) :=
    if_neg h
  have hschema : reqSchema { s with state := st } ch =
      ([], { s with state := parseUrlChar st ch }) := (if_neg hblank).trans hurl
  have hreqUrl : reqUrl { s with state := st } ch = ([], { s with state := parseUrlChar st ch }) :=
    (if_neg hsp).trans ((if_neg hend).trans hurl)
  cases st <;> first | exact hschema | exact hreqUrl | cases hst

theorem tells_urlRest (hup : s.upgrade = false) {st : State} (hst : marked st = some .url)
    (h : urlState st bs ≠ .dead) :
    Tells { s with state := st } m bs [] { s with state := urlState st bs } (m.push bs) := by
  induction bs generalizing st m with
  | nil => exact Mark.push_nil.symm ▸ .nil _ _
  | cons ch bs ih =>
    have hne : parseUrlChar st ch ≠ .dead := fun hd => h (by
      rw [urlState, List.foldl_cons, hd]
      exact urlState_dead bs)
    have hr : st.readsOn = false := by cases st <;> first | rfl | cases hst
    have hrest := ih (m := m.push [ch]) (parseUrlChar_marked hne) h
    rw [Mark.push_push] at hrest
    exact .pass hr (switch_url hst hne) hup hrest

/-- A URL between two blanks. -/
theorem tells_url (hup : s.upgrade = false) (hm : s.method ≠ .connect)
    (h : (urlState .reqSpacesBeforeUrl bs).urlEnd) :
    Tells { s with state := .reqSpacesBeforeUrl } none (bs ++ [0x20]) [.url bs]
      { s with state := .reqHttpStart } none := by
  have hdead {st : State} (h : st.urlEnd) : st ≠ .dead := by
    rintro rfl
    cases h
  cases bs with
  | nil => cases h
  | cons ch bs =>
    have hne : parseUrlChar .reqSpacesBeforeUrl ch ≠ .dead := fun hd => hdead h (by
      rw [urlState, List.foldl_cons, hd]
      exact urlState_dead bs)
    have hsp := (parseUrlChar_blank hne).1
    have hfirst : HttpParser.switch { s with state := .reqSpacesBeforeUrl } ch =
        ([.mark .url], { s with state := parseUrlChar .reqSpacesBeforeUrl ch }) := by
      have hurl : url { s with state := .reqSpacesBeforeUrl } .reqSpacesBeforeUrl ch =
        ([], { s with state := parseUrlChar .reqSpacesBeforeUrl ch }) := if_neg hne
      show reqSpacesBeforeUrl { s with state := .reqSpacesBeforeUrl } ch = _
      rw [reqSpacesBeforeUrl, if_neg hsp]
      dsimp only
      rw [if_neg hm, hurl]
      rfl
    have hlast : HttpParser.switch { s with state := urlState .reqSpacesBeforeUrl (ch :: bs) } 0x20 =
        ([.data .url true { s with state := .reqHttpStart }], { s with state := .reqHttpStart }) := by
      generalize urlState .reqSpacesBeforeUrl (ch :: bs) = st at h
      cases st <;> first | rfl | cases h
    have hr : (urlState .reqSpacesBeforeUrl (ch :: bs)).readsOn = false := by
      generalize urlState .reqSpacesBeforeUrl (ch :: bs) = st at h
      cases st <;> first | rfl | cases h
    have h₁ := Tells.switch (m := none) rfl hfirst hup rfl
    have h₂ := tells_urlRest (m := some (.url, [ch])) hup (parseUrlChar_marked hne) (hdead h)
    have h₃ := Tells.switch (m := some (.url, ch :: bs)) hr hlast hup rfl
    exact h₁.append (h₂.append h₃)

/-- A request line. -/
theorem tells_requestLine (hs : s.state = .startReq) (hup : s.upgrade = false) {k : HttpMethod}
    (hk : k ≠ .connect) {target : List Byte} (h : (urlState .reqSpacesBeforeUrl target).urlEnd) :
    Tells s none (k.string ++ 0x20 :: (target ++ 0x20 :: text "HTTP/1.1\r\n")) [.url target]
      { s with
        flags := .none, contentLength := ullongMax, method := k, index := k.string.length + 1
        httpMajor := 1, httpMinor := 1, state := .headerFieldStart } none := by
  obtain ⟨c, cs, k₀, hstring, hcr, hlf, hk₀, hrun⟩ := methodRun_string k
  have hend : ¬ (c = CR || c = LF) = true := by simp [hcr, hlf]
  have hfirst : HttpParser.switch s c = ([], { s with
      flags := .none, contentLength := ullongMax, method := k₀, index := 1, state := .reqMethod }) := by
    have hsw : HttpParser.switch s c = startReq s c := by rw [HttpParser.switch, hs]
    rw [hsw, startReq, if_neg hend, hk₀]
  have hget : (k.string ++ [0])[k.string.length]? = some 0 := by simp
  have hblank : HttpParser.switch { s with
      flags := .none, contentLength := ullongMax, method := k, index := k.string.length
      state := .reqMethod } 0x20 = ([], { s with
        flags := .none, contentLength := ullongMax, method := k, index := k.string.length + 1
        state := .reqSpacesBeforeUrl }) := by
    show reqMethod _ 0x20 = _
    rw [reqMethod, if_neg (by decide), hget]
    rfl
  have hbytes : k.string ++ 0x20 :: (target ++ 0x20 :: text "HTTP/1.1\r\n") =
      c :: (cs ++ 0x20 :: (target ++ [0x20] ++
        [0x48, 0x54, 0x54, 0x50, 0x2f, 0x31, 0x2e, 0x31, 0x0d, 0x0a])) := by
    rw [show text "HTTP/1.1\r\n" = [0x48, 0x54, 0x54, 0x50, 0x2f, 0x31, 0x2e, 0x31, 0x0d, 0x0a] from
      by decide +kernel, hstring, List.append_assoc]
    rfl
  rw [hbytes]
  have h₁ := tells_methodRun (s := { s with flags := .none, contentLength := ullongMax }) hup hrun
  have h₂ := tells_url (s := { s with
    flags := .none, contentLength := ullongMax, method := k, index := k.string.length + 1 }) hup hk h
  have h₃ := tells_reqVersion (s := { s with
    flags := .none, contentLength := ullongMax, method := k, index := k.string.length + 1 }) hup
  exact .pass (by rw [hs]; rfl) hfirst hup (.append h₁ (.pass rfl hblank hup (h₂.append h₃)))

/-! ## Status lines -/

theorem isNum_iff : isNum ch ↔ 0x30 ≤ ch.toNat ∧ ch.toNat ≤ 0x39 := by
  rw [isNum, Bool.and_eq_true, decide_eq_true_eq, decide_eq_true_eq, BitVec.le_def, BitVec.le_def]
  exact Iff.rfl

theorem isNum_of_mem_decimal (h : ch ∈ decimal n) : isNum ch :=
  isNum_iff.mpr (isDigit_of_mem_decimal h)

theorem decimal_ne_nil (n : Nat) : decimal n ≠ [] := by
  rw [decimal, textBytes, Ne, List.map_eq_nil_iff]
  exact Nat.toDigits_ne_nil

theorem digit_eq (h : isNum ch) : digit ch = ch.toNat - 0x30 := by
  have hle : 0x30 ≤ ch := BitVec.le_def.mpr (isNum_iff.mp h).1
  rw [digit, BitVec.toNat_sub_of_le hle]
  rfl

/-- A number, with the digits `bs` more. -/
def digits (n : Nat) (bs : List Byte) : Nat := bs.foldl (fun n b => 10 * n + (b.toNat - 0x30)) n

theorem digits_cons : digits n (ch :: bs) = digits (10 * n + (ch.toNat - 0x30)) bs :=
  List.foldl_cons ..

theorem le_digits (n : Nat) (bs : List Byte) : n ≤ digits n bs := by
  induction bs generalizing n with
  | nil => exact Nat.le_refl n
  | cons b bs ih =>
    rw [digits_cons]
    exact Nat.le_trans (by omega) (ih (10 * n + (b.toNat - 0x30)))

theorem tells_statusCode (hup : s.upgrade = false) {c : Nat} (hnum : ∀ b ∈ bs, isNum b)
    (h : digits c bs ≤ 999) : Tells { s with state := .resStatusCode, statusCode := c } none bs []
      { s with state := .resStatusCode, statusCode := digits c bs } none := by
  induction bs generalizing c with
  | nil => exact .nil _ _
  | cons b bs ih =>
    have hb := hnum b (List.mem_cons_self ..)
    have hle := le_digits (10 * c + (b.toNat - 0x30)) bs
    rw [digits_cons] at h ⊢
    have hadd : addDigit c b = some (10 * c + (b.toNat - 0x30)) := by
      rw [addDigit, digit_eq hb, Nat.mul_comm, if_neg (by omega)]
    have hsw : HttpParser.switch { s with state := .resStatusCode, statusCode := c } b = ([], { s with
        state := .resStatusCode, statusCode := 10 * c + (b.toNat - 0x30) }) := by
      show resStatusCode _ b = _
      rw [resStatusCode, hb, if_neg (by decide)]
      dsimp only
      rw [hadd]
    exact .pass rfl hsw hup (ih (fun b hb => hnum b (List.mem_cons_of_mem _ hb)) h)

/-- The rest of a reason phrase. -/
theorem tells_resStatus (hs : s.state = .resStatus) (hup : s.upgrade = false)
    (h : ∀ c ∈ bs, c ≠ CR ∧ c ≠ LF) : Tells s m bs [] s (m.push bs) := by
  induction bs generalizing m with
  | nil => exact Mark.push_nil.symm ▸ .nil _ _
  | cons c bs ih =>
    obtain ⟨hcr, hlf⟩ := h c (List.mem_cons_self ..)
    have hrest := ih (m := m.push [c]) fun c hc => h c (List.mem_cons_of_mem _ hc)
    rw [Mark.push_push] at hrest
    refine .pass (by rw [hs]; rfl) ?_ hup hrest
    rw [HttpParser.switch, hs]
    dsimp only
    rw [resStatus, if_neg hcr, if_neg hlf]

/-- The callback for a reason phrase; there is none if it is empty. -/
def reasonReports (code : Nat) (reason : List Byte) : List Http.Report :=
  if reason = [] then [] else [.status code reason]

theorem tells_reason (hs : s.state = .resStatusStart) (hup : s.upgrade = false)
    (h : ∀ c ∈ bs, c ≠ CR ∧ c ≠ LF) : ∃ s', s'.state = .headerFieldStart ∧ s'.core = s.core ∧
      Tells s none (bs ++ [CR, LF]) (reasonReports s.statusCode bs) s' none := by
  have hlf {s : Members} (hs : s.state = .resLineAlmostDone) (hup : s.upgrade = false) :
      Tells s none [LF] [] { s with state := .headerFieldStart } none := by
    have hsw : HttpParser.switch s LF = ([], { s with state := .headerFieldStart }) := by
      rw [HttpParser.switch, hs]
      rfl
    exact .pass (by rw [hs]; rfl) hsw hup (.nil _ _)
  cases bs with
  | nil =>
    refine ⟨{ s with state := .headerFieldStart }, rfl, rfl, ?_⟩
    have hsw : HttpParser.switch s CR = ([], { s with state := .resLineAlmostDone }) := by
      rw [HttpParser.switch, hs]
      rfl
    exact .pass (by rw [hs]; rfl) hsw hup (hlf rfl hup)
  | cons c bs =>
    obtain ⟨hcr, hclf⟩ := h c (List.mem_cons_self ..)
    refine ⟨{ s with state := .headerFieldStart, index := 0 }, rfl, rfl, ?_⟩
    have hfirst : HttpParser.switch s c =
        ([.mark .status], { s with state := .resStatus, index := 0 }) := by
      rw [HttpParser.switch, hs]
      dsimp only
      rw [resStatusStart, if_neg hcr, if_neg hclf]
    have h₁ := Tells.switch (m := none) (by rw [hs]; rfl) hfirst hup rfl
    have h₂ := tells_resStatus (s := { s with state := .resStatus, index := 0 })
      (m := some (.status, [c])) rfl hup fun c hc => h c (List.mem_cons_of_mem _ hc)
    have hend : HttpParser.switch { s with state := .resStatus, index := 0 } CR =
        ([.data .status true { s with state := .resLineAlmostDone, index := 0 }],
          { s with state := .resLineAlmostDone, index := 0 }) := rfl
    have h₃ := Tells.switch (m := some (.status, c :: bs)) rfl hend hup rfl
    have h₄ := hlf (s := { s with state := .resLineAlmostDone, index := 0 }) rfl hup
    exact h₁.append (h₂.append (h₃.append h₄))

/-- A status line. -/
theorem tells_statusLine (hs : s.state = .startRes) (hup : s.upgrade = false) {code : Nat}
    (hcode : code ≤ 999) (h : ∀ c ∈ bs, c ≠ CR ∧ c ≠ LF) : ∃ s', s'.state = .headerFieldStart ∧
      s'.core = { s with
        flags := .none, contentLength := ullongMax, httpMajor := 1, httpMinor := 1
        statusCode := code }.core ∧
      Tells s none (text "HTTP/1.1 " ++ (decimal code ++ 0x20 :: (bs ++ [CR, LF])))
        (reasonReports code bs) s' none := by
  rw [show text "HTTP/1.1 " = [0x48, 0x54, 0x54, 0x50, 0x2f, 0x31, 0x2e, 0x31, 0x20] from
    by decide +kernel]
  let t : Members :=
    { s with flags := .none, contentLength := ullongMax, httpMajor := 1, httpMinor := 1 }
  have hversion : Tells s none [0x48, 0x54, 0x54, 0x50, 0x2f, 0x31, 0x2e, 0x31, 0x20] []
      { t with state := .resFirstStatusCode } none := by
    have hsw : HttpParser.switch s 0x48 =
        ([], { s with flags := .none, contentLength := ullongMax, state := .resH }) := by
      rw [HttpParser.switch, hs]
      rfl
    exact .pass (by rw [hs]; rfl) hsw hup <| .pass rfl rfl hup <| .pass rfl rfl hup <|
      .pass rfl rfl hup <| .pass rfl rfl hup <| .pass rfl rfl hup <| .pass rfl rfl hup <|
      .pass rfl rfl hup <| .pass rfl rfl hup <| .nil _ _
  have hvalue : digits 0 (decimal code) = code := ofDecimal_decimal code
  have hnum : ∀ b ∈ decimal code, isNum b := fun b hb => isNum_of_mem_decimal hb
  have hcodes : Tells { t with state := .resFirstStatusCode } none (decimal code) []
      { t with state := .resStatusCode, statusCode := code } none := by
    cases hd : decimal code with
    | nil => exact absurd hd (decimal_ne_nil code)
    | cons b ds =>
      rw [hd] at hvalue hnum
      have hb := hnum b (List.mem_cons_self ..)
      have hsw : HttpParser.switch { t with state := .resFirstStatusCode } b =
          ([], { t with state := .resStatusCode, statusCode := 10 * 0 + (b.toNat - 0x30) }) := by
        show ite _ _ _ = _
        rw [hb, if_neg (by decide), digit_eq hb, Nat.mul_zero, Nat.zero_add]
      rw [digits_cons] at hvalue
      have hrest := tells_statusCode (s := t) hup (fun b hb => hnum b (List.mem_cons_of_mem _ hb))
        (hvalue.trans_le hcode)
      rw [hvalue] at hrest
      exact .pass rfl hsw hup hrest
  obtain ⟨s', hs', he, hreason⟩ := tells_reason
    (s := { t with state := .resStatusStart, statusCode := code }) rfl hup h
  exact ⟨s', hs', he, hversion.append (hcodes.append (.pass rfl rfl hup hreason))⟩

end Noff.HttpParser
