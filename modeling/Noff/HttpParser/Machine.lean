import Noff.HttpParser.Invariant

/-!
# The parser, byte by byte

`step` is the switch on a single byte, with what the callbacks see of it. As a
`Grammar` it is `Coherent` (`grammar_coherent`). A turn of the code that reads on in the
data of its call is a run of such steps, of which only the last does anything
(`turn_runs`).
-/

namespace Noff.HttpParser

open Http

/-- What the callbacks see of an effect. -/
def Effect.action : Effect → Option Http.Action
  | .mark k => some (.mark k)
  | .data k _ _ => some (.data k)
  | .headersComplete _ => some .headersComplete
  | .error _ => some .error
  | _ => none

def actions (es : List Effect) : List Http.Action := es.filterMap Effect.action

/-- One byte. In a value that is not looked at further, every byte of the line goes; whether the
code looks at it depends on where its calls start. -/
def step (s : Members) (ch : Byte) : List Http.Action × Members :=
  if s.state = .headerValue ∧ s.headerState = .general ∧ ch ≠ CR ∧ ch ≠ LF then ([], s)
  else (actions (turn s ch []).effects, (turn s ch []).members)

def grammar : Grammar Members where
  init := Members.init
  step := step
  marked := fun s => marked s.state
  atEof := fun s => atEof s.state
  method := fun s => s.method.string
  statusCode := fun s => s.statusCode

variable {ty : HttpParserType} {s s' s₁ : Members} {ph : Phase} {ch : Byte} {bs : List Byte}

/-! ## The order of the callbacks -/

/-- An effect that the callbacks do not see. -/
theorem next_of_action_none {t t' : Track} {a : Effect} (ha : a.action = none)
    (h : t.next ty s a = some t') : t'.mark = t.mark ∧ t'.phase = t.phase := by
  refine Track.next_other ⟨?_, ?_, ?_⟩ h <;> rintro _ <;> intros <;> rintro rfl <;> cases ha

theorem Fine.allowed {t : Track} {es : List Effect} (h : Fine ty s t es) :
    Allowed ty (fun m ph => marked s.state = m ∧ Inv ty s ph) t.mark t.phase (actions es) := by
  induction es generalizing t with
  | nil =>
    obtain ⟨mark, body, nread, phase⟩ := t
    cases mark <;> exact ⟨h.mark, h.inv⟩
  | cons a es ih =>
    cases ha : a.action with
    | none =>
      by_cases hx : a = .exit
      · subst hx
        obtain ⟨rfl, -, hrest⟩ := h
        exact ih hrest
      obtain ⟨t', ht', h'⟩ : ∃ t', t.next ty s a = some t' ∧ Fine ty s t' es := by
        cases a <;> first | exact absurd rfl hx | exact h | cases ha
      obtain ⟨hm, hp⟩ := next_of_action_none ha ht'
      rw [actions, List.filterMap_cons_none ha, ← hm, ← hp]
      exact ih h'
    | some b =>
      rw [actions, List.filterMap_cons_some ha]
      obtain ⟨mark, body, nread, phase⟩ := t
      cases a with
      | error e =>
        cases ha
        cases mark <;> trivial
      | mark k =>
        cases ha
        obtain ⟨t', ht', h'⟩ := h
        obtain ⟨rfl, hr, rfl⟩ := Track.next_mark ht'
        exact ⟨hr, ih h'⟩
      | data k advance s' =>
        cases ha
        obtain ⟨t', ht', h'⟩ := h
        obtain ⟨old, ph, rfl, -, hr, rfl⟩ := Track.next_data ht'
        exact ⟨rfl, ph, hr, ih h'⟩
      | headersComplete s' =>
        cases ha
        obtain ⟨t', ht', h'⟩ := h
        obtain ⟨rfl, hdue, -, rfl⟩ := Track.next_headersComplete ht'
        exact ⟨rfl, hdue, ih h'⟩
      | _ => cases ha

/-- The code's own grammar is coherent. -/
theorem grammar_coherent (ty : HttpParserType) : Http.Coherent ty grammar (Inv ty) where
  init := inv_init
  unmarked := (startState_rest ty).2.2
  step := fun s ph ch h => by
    change Allowed ty (fun m ph' => marked (step s ch).2.state = m ∧ Inv ty (step s ch).2 ph')
      ((marked s.state).map (·, true)) ph (step s ch).1
    rw [step]
    split
    · cases marked s.state <;> exact ⟨rfl, h⟩
    · have hfine : Fine ty (turn s ch []).members (.start s.state false ph)
          (turn s ch []).effects := turn_fine h [] fun hb => by cases hb
      exact hfine.allowed

/-! ## Turns as runs of steps -/

/-- Steps that the callbacks see nothing of. -/
inductive Quiet : Members → List Byte → Members → Prop
  | nil (s : Members) : Quiet s [] s
  | cons {s s₁ s' : Members} {ch : Byte} {bs : List Byte} (h : step s ch = ([], s₁))
    (hr : Quiet s₁ bs s') : Quiet s (ch :: bs) s'

/-- The turn `t` on the bytes `xs` is a run of steps: quiet ones, and what the turn does on the
byte at which it stops. -/
def Turn.Runs (s : Members) (xs : List Byte) (t : Turn) : Prop :=
  ∃ s₁, Quiet s (xs.take t.skip) s₁ ∧
    match xs.drop t.skip with
    | [] => actions t.effects = [] ∧ t.members = s₁
    | c :: _ => step s₁ c = (actions t.effects, t.members)

section

variable {xs : List Byte} {n : Nat} {es : List Effect}

theorem Turn.Runs.atEnd (hq : Quiet s (xs.take n) s') (hd : xs.drop n = []) (he : actions es = []) :
    Turn.Runs s xs ⟨n, es, s'⟩ := by
  refine ⟨s', hq, ?_⟩
  rw [hd]
  exact ⟨he, rfl⟩

theorem Turn.Runs.stop {c : Byte} {rest : List Byte} (hq : Quiet s (xs.take n) s₁)
    (hd : xs.drop n = c :: rest) (hs : step s₁ c = (actions es, s')) :
    Turn.Runs s xs ⟨n, es, s'⟩ := by
  refine ⟨s₁, hq, ?_⟩
  rw [hd]
  exact hs

end

theorem step_of_state (h : s.state ≠ .headerValue) :
    step s ch = (actions (turn s ch []).effects, (turn s ch []).members) :=
  if_neg fun hc => h hc.1

theorem Quiet.append {xs ys : List Byte} (h : Quiet s xs s₁) (h' : Quiet s₁ ys s') :
    Quiet s (xs ++ ys) s' := by
  induction h with
  | nil => exact h'
  | cons hstep _ ih => exact .cons hstep (ih h')

/-! ### Fields -/

theorem headerFieldLoop_stop (h : tokens ch = 0) : headerFieldLoop s (ch :: bs) = (0, some s) :=
  if_pos h

theorem headerFieldLoop_token (h : tokens ch ≠ 0) (hb : headerFieldByte s ch = some s₁) :
    headerFieldLoop s (ch :: bs) =
      ((headerFieldLoop s₁ bs).1 + 1, (headerFieldLoop s₁ bs).2) := by
  rw [headerFieldLoop, if_neg h, hb]

theorem headerField_atEnd {n : Nat} (hl : headerFieldLoop s bs = (n, some s'))
    (hd : bs.drop n = []) : headerField s bs = ⟨n, [.countHeaderSize n], s'⟩ := by
  rw [headerField, hl]
  dsimp only
  rw [hd]

/-- The byte behind the token decides. -/
theorem headerField_stop {n : Nat} {c : Byte} {rest : List Byte}
    (hl : headerFieldLoop s bs = (n, some s')) (hd : bs.drop n = c :: rest) : headerField s bs =
      if c = 0x3a then ⟨n, [.countHeaderSize n, .data .headerField true
        { s' with state := .headerValueDiscardWs }], { s' with state := .headerValueDiscardWs }⟩
      else ⟨n, [.countHeaderSize n, .error .invalidHeaderToken], s'⟩ := by
  rw [headerField, hl]
  dsimp only
  rw [hd]

theorem step_headerField (hs : s.state = .headerField) :
    step s ch = (actions (headerField s [ch]).effects, (headerField s [ch]).members) := by
  rw [step_of_state (by rw [hs]; decide), turn, hs]

/-- The loop of `s_header_field` takes the bytes of a token. -/
theorem headerFieldLoop_quiet (h : Inv ty s ph) (hs : s.state = .headerField) {n : Nat}
    (hl : headerFieldLoop s bs = (n, some s')) :
    Quiet s (bs.take n) s' ∧ ∀ c ∈ (bs.drop n).head?, tokens c = 0 := by
  induction bs generalizing s n with
  | nil =>
    cases hl
    exact ⟨.nil _, fun c hc => by cases hc⟩
  | cons ch bs ih =>
    by_cases ht : tokens ch = 0
    · rw [headerFieldLoop_stop ht] at hl
      cases hl
      exact ⟨.nil _, fun c hc => by cases hc; exact ht⟩
    · obtain ⟨s₁, hb, hi, hs₁⟩ := headerFieldByte_spec h hs
      rw [headerFieldLoop_token ht hb] at hl
      have hsome : (headerFieldLoop s₁ bs).2 = some s' := congrArg Prod.snd hl
      obtain rfl : (headerFieldLoop s₁ bs).1 + 1 = n := congrArg Prod.fst hl
      obtain ⟨hq, hstop⟩ := ih hi hs₁ (Prod.ext rfl hsome)
      refine ⟨.cons ?_ hq, hstop⟩
      rw [step_headerField hs, headerField_atEnd (headerFieldLoop_token ht hb) rfl]
      rfl

theorem headerField_runs (h : Inv ty s ph) (hs : s.state = .headerField) (xs : List Byte) :
    (headerField s xs).Runs s xs := by
  obtain ⟨n, s', hl, -, hs'⟩ := headerFieldLoop_spec h hs xs
  obtain ⟨hq, hstop⟩ := headerFieldLoop_quiet h hs hl
  cases hd : xs.drop n with
  | nil =>
    rw [headerField_atEnd hl hd]
    exact .atEnd hq hd rfl
  | cons c rest =>
    have hc : tokens c = 0 := hstop c (by rw [hd]; rfl)
    rw [headerField_stop hl hd]
    have hone : step s' c = _ := step_headerField hs'
    rw [headerField_stop (headerFieldLoop_stop hc) rfl] at hone
    split
    · rw [if_pos ‹_›] at hone
      exact .stop hq hd hone
    · rw [if_neg ‹_›] at hone
      exact .stop hq hd hone

/-! ### Values -/

/-- `memchr` finds the end of a line that is no longer than a header may be. -/
theorem lineEnd_spec (h : lineEnd bs < httpMaxHeaderSize) :
    (∀ c ∈ bs.take (lineEnd bs), c ≠ CR ∧ c ≠ LF) ∧
      ∀ c, bs[lineEnd bs]? = some c → c = CR ∨ c = LF := by
  rw [lineEnd] at h ⊢
  cases hf : (bs.take httpMaxHeaderSize).findIdx? fun ch => ch = CR || ch = LF with
  | none =>
    rw [hf, Option.getD_none] at h
    rw [Option.getD_none, List.getElem?_eq_none (Nat.le_refl _), List.take_length]
    refine ⟨fun c hc => ?_, fun c hc => by cases hc⟩
    rw [List.take_of_length_le (Nat.le_of_lt h)] at hf
    have := List.findIdx?_eq_none_iff.mp hf c hc
    simpa using this
  | some n =>
    obtain ⟨hn, hat, hbefore⟩ := List.findIdx?_eq_some_iff_getElem.mp hf
    rw [List.length_take] at hn
    rw [List.getElem_take] at hat
    refine ⟨fun c hc => ?_, fun c hc => ?_⟩
    · obtain ⟨j, hj, rfl⟩ := List.mem_iff_getElem.mp hc
      rw [Option.getD_some, List.length_take] at hj
      have := hbefore j (by omega)
      rw [List.getElem_take] at this ⊢
      simpa using this
    · rw [Option.getD_some, List.getElem?_eq_getElem (by omega)] at hc
      obtain rfl := Option.some.inj hc
      simpa using hat

/-- A value that is not looked at further goes on to the end of the line. -/
theorem quiet_general (hs : s.state = .headerValue) (hg : s.headerState = .general)
    (h : ∀ c ∈ bs, c ≠ CR ∧ c ≠ LF) : Quiet s bs s := by
  induction bs with
  | nil => exact .nil s
  | cons c bs ih =>
    obtain ⟨hcr, hlf⟩ := h c (List.mem_cons_self ..)
    exact .cons (if_pos ⟨hs, hg, hcr, hlf⟩) (ih fun c hc => h c (List.mem_cons_of_mem _ hc))

theorem headerValueLoop_cr : headerValueLoop s (CR :: bs) = (0, .cr, s) := if_pos rfl

theorem headerValueLoop_lf : headerValueLoop s (LF :: bs) = (0, .lf, s) := by
  rw [headerValueLoop, if_neg (by decide), if_pos rfl]

/-- The turn at the end of a line. -/
theorem step_lineEnd {c : Byte} (hs : s.state = .headerValue) (hc : c = CR ∨ c = LF) :
    step s c = (actions (headerValue s [c]).effects, (headerValue s [c]).members) := by
  rw [step, if_neg, turn, hs]
  rintro ⟨-, -, hcr, hlf⟩
  exact hc.elim hcr hlf

/-- Where the loop of `s_header_value` stops, there is what it stops at. -/
def Stop.At (s : Members) (xs : List Byte) : Stop → Prop
  | .atEnd => xs = []
  | .cr => xs.head? = some CR
  | .lf => xs.head? = some LF
  | .error e => ∀ c ∈ xs.head?, c ≠ CR → c ≠ LF →
      (!s.lenientHttpHeaders && !isHeaderChar c) = true ∨ headerValueByte s c = some (.error e)
  | .failed => False

theorem headerValueLoop_quiet (h : Inv ty s ph) (hs : s.state = .headerValue) {n : Nat} {stop : Stop}
    (hl : headerValueLoop s bs = (n, stop, s')) (hn : n < httpMaxHeaderSize) :
    Quiet s (bs.take n) s' ∧ stop.At s' (bs.drop n) := by
  induction bs generalizing s n with
  | nil =>
    cases hl
    exact ⟨.nil _, rfl⟩
  | cons ch bs ih =>
    rw [headerValueLoop] at hl
    split at hl
    · cases hl
      exact ⟨.nil _, congrArg some ‹_›⟩
    rename_i hcr
    split at hl
    · cases hl
      exact ⟨.nil _, congrArg some ‹_›⟩
    rename_i hlf
    split at hl
    · rename_i hbad
      cases hl
      refine ⟨.nil _, fun c hc _ _ => .inl ?_⟩
      cases hc
      exact hbad
    rename_i hgood
    split at hl
    · rename_i hg
      generalize hxs : ch :: bs = xs at hl ⊢
      obtain rfl : lineEnd xs = n := congrArg Prod.fst hl
      obtain rfl : s = s' := congrArg (·.2.2) hl
      obtain ⟨hbefore, hat⟩ := lineEnd_spec hn
      refine ⟨quiet_general hs hg hbefore, ?_⟩
      have hstop := congrArg (·.2.1) hl
      dsimp only at hstop
      cases hc : xs[lineEnd xs]? with
      | none =>
        rw [hc] at hstop
        subst hstop
        exact List.drop_eq_nil_of_le (List.getElem?_eq_none_iff.mp hc)
      | some c =>
        rw [hc] at hstop
        dsimp only at hstop
        split at hstop
        · rename_i hcr
          subst hstop
          rw [Stop.At, List.head?_drop, hc, hcr]
        · rename_i hcr
          subst hstop
          rw [Stop.At, List.head?_drop, hc, (hat c hc).resolve_left hcr]
    · rename_i hng
      obtain ⟨r, hr, hok⟩ := headerValueByte_spec h hs
      rw [hr] at hl
      cases r with
      | error e =>
        cases hl
        refine ⟨.nil _, fun c hc _ _ => .inr ?_⟩
        cases hc
        exact hr
      | ok s₁ =>
        obtain ⟨hi, hs₁⟩ := hok s₁ rfl
        obtain rfl : (headerValueLoop s₁ bs).1 + 1 = n := congrArg Prod.fst hl
        have hrest : (headerValueLoop s₁ bs).2 = (stop, s') := congrArg Prod.snd hl
        obtain ⟨hq, hstop⟩ := ih hi hs₁ (Prod.ext rfl hrest) (Nat.lt_of_succ_lt hn)
        refine ⟨.cons ?_ hq, hstop⟩
        have hone : headerValueLoop s [ch] = (1, .atEnd, s₁) := by
          rw [headerValueLoop, if_neg hcr, if_neg hlf, if_neg hgood, if_neg hng, hr]
          rfl
        rw [step, if_neg fun hc => hng hc.2.1, turn, hs]
        dsimp only
        rw [headerValue, hone]
        rfl

/-- The turn of a value that does not stop at an error. -/
theorem headerValue_runs (h : Inv ty s ph) (hs : s.state = .headerValue) {xs : List Byte}
    (hn : (headerValue s xs).skip < httpMaxHeaderSize)
    (he : ∀ e, .error e ∉ (headerValue s xs).effects) : (headerValue s xs).Runs s xs := by
  obtain ⟨n, stop, s', hl, hfail, -, hs'⟩ := headerValueLoop_spec h hs xs
  rw [headerValue, hl] at hn he ⊢
  have hskip : n < httpMaxHeaderSize := by cases stop <;> exact hn
  obtain ⟨hq, hstop⟩ := headerValueLoop_quiet h hs hl hskip
  have hdrop {c : Byte} (hc : (xs.drop n).head? = some c) : xs.drop n = c :: (xs.drop n).tail :=
    (List.cons_head?_tail hc).symm
  cases stop with
  | atEnd => exact .atEnd hq hstop rfl
  | cr =>
    refine .stop hq (hdrop hstop) ?_
    rw [step_lineEnd hs' (.inl rfl), headerValue, headerValueLoop_cr]
    rfl
  | lf =>
    refine .stop hq (hdrop hstop) ?_
    rw [step_lineEnd hs' (.inr rfl), headerValue, headerValueLoop_lf]
    rfl
  | error e => exact absurd (List.mem_singleton_self _) (he e)
  | failed => exact absurd rfl hfail

/-! ### Bodies -/

theorem Members.read_read (m n : Nat) : (s.read m).read n = s.read (m + n) := by
  rw [Members.read, Members.read, Members.read, BitVec.ofNat_add, BitVec.sub_sub]

@[simp] theorem Members.read_zero : s.read 0 = s := by
  rw [Members.read, BitVec.sub_zero]

theorem toNat_pos_iff {l : BitVec 64} : 0 < l.toNat ↔ l ≠ 0 := by
  refine ⟨fun h he => ?_, fun h => Nat.pos_of_ne_zero fun he => h (BitVec.eq_of_toNat_eq he)⟩
  rw [he] at h
  exact absurd h (by decide)

theorem toNat_read {n : Nat} (h : n ≤ s.contentLength.toNat) :
    (s.read n).contentLength.toNat = s.contentLength.toNat - n := by
  have hlt := s.contentLength.isLt
  rw [Members.read, BitVec.toNat_sub_of_le (BitVec.le_def.mpr ?_), BitVec.toNat_ofNat,
    Nat.mod_eq_of_lt (by omega)]
  rwa [BitVec.toNat_ofNat, Nat.mod_eq_of_lt (by omega)]

/-- What the callbacks see of a part of a body, which leaves `s`. -/
def bodyOut (s : Members) : List Http.Action × Members :=
  if s.state = .bodyIdentity then
    if s.contentLength = 0 then
      (actions (messageDone { s with state := .messageDone }).1,
        (messageDone { s with state := .messageDone }).2)
    else ([], s)
  else ([], if s.contentLength = 0 then { s with state := .chunkDataAlmostDone } else s)

/-- A turn in a body. -/
theorem turn_body (hs : s.state = .bodyIdentity ∨ s.state = .chunkData) :
    (turn s ch bs).skip = toRead s (ch :: bs) - 1 ∧
      (actions (turn s ch bs).effects, (turn s ch bs).members) =
        bodyOut (s.read (toRead s (ch :: bs))) := by
  rcases hs with hs | hs
  · have hread : (s.read (toRead s (ch :: bs))).state = .bodyIdentity := hs
    rw [turn, hs, bodyOut, if_pos hread]
    refine ⟨rfl, ?_⟩
    dsimp only [bodyIdentity]
    split <;> rfl
  · have hread : (s.read (toRead s (ch :: bs))).state = .chunkData := hs
    rw [turn, hs, bodyOut, if_neg (by rw [hread]; decide)]
    exact ⟨rfl, rfl⟩

theorem step_body (hs : s.state = .bodyIdentity ∨ s.state = .chunkData)
    (hz : s.contentLength ≠ 0) : step s ch = bodyOut (s.read 1) := by
  have hne : s.state ≠ .headerValue := by rcases hs with hs | hs <;> rw [hs] <;> decide
  have hpos := toNat_pos_iff.mpr hz
  have hone : toRead s [ch] = 1 := Nat.min_eq_right hpos
  rw [step_of_state hne, (turn_body hs).2, hone]

theorem quiet_body (hs : s.state = .bodyIdentity ∨ s.state = .chunkData) (bs : List Byte)
    (h : bs.length < s.contentLength.toNat) : Quiet s bs (s.read bs.length) := by
  induction bs generalizing s with
  | nil => exact Members.read_zero ▸ .nil s
  | cons c bs ih =>
    rw [List.length_cons] at h
    have hleft := toNat_read (s := s) (n := 1) (by omega)
    have hz : s.contentLength ≠ 0 := toNat_pos_iff.mp (by omega)
    have hz' : (s.read 1).contentLength ≠ 0 := toNat_pos_iff.mp (by omega)
    have hq := ih (s := s.read 1) hs (by omega)
    rw [Members.read_read, Nat.add_comm 1] at hq
    refine .cons ?_ hq
    rw [step_body hs hz, bodyOut, if_neg hz', if_neg hz', ite_self]

theorem body_runs (hs : s.state = .bodyIdentity ∨ s.state = .chunkData) (hz : s.contentLength ≠ 0) :
    (turn s ch bs).Runs s (ch :: bs) := by
  have hpos := toNat_pos_iff.mpr hz
  obtain ⟨hskip, hout⟩ := turn_body hs
  generalize hxs : ch :: bs = xs at hskip hout ⊢
  have hlen : 0 < xs.length := by rw [← hxs]; exact Nat.succ_pos _
  have hr : toRead s xs = min s.contentLength.toNat xs.length := rfl
  have hq : Quiet s (xs.take (toRead s xs - 1)) (s.read (toRead s xs - 1)) := by
    have := quiet_body hs (xs.take (toRead s xs - 1)) (by rw [List.length_take]; omega)
    rwa [List.length_take, Nat.min_eq_left (by omega)] at this
  refine ⟨_, hskip ▸ hq, ?_⟩
  rw [hskip]
  cases hd : xs.drop (toRead s xs - 1) with
  | nil =>
    have := List.drop_eq_nil_iff.mp hd
    omega
  | cons c rest =>
    have hleft := toNat_read (s := s) (n := toRead s xs - 1) (by omega)
    have hz' : (s.read (toRead s xs - 1)).contentLength ≠ 0 := toNat_pos_iff.mp (by omega)
    dsimp only
    rw [hout, step_body (s := s.read _) hs hz', Members.read_read,
      Nat.sub_add_cancel (by omega)]

/-! ### Any turn -/

/-- A turn without an error is a run of steps, of which the last does what it does. -/
theorem turn_runs (h : Inv ty s ph) (hn : (turn s ch bs).skip < httpMaxHeaderSize ∨
      s.state.parsingHeader = false)
    (he : ∀ e, .error e ∉ (turn s ch bs).effects) : (turn s ch bs).Runs s (ch :: bs) := by
  by_cases hr : s.state.readsOn = false
  · have hs : s.state ≠ .headerValue := fun hs => by
      rw [hs] at hr
      cases hr
    rw [turn_of_not_readsOn hr]
    refine .stop (.nil s) rfl ?_
    rw [step_of_state hs, turn_of_not_readsOn hr]
  have hsized := h.sizes
  rw [Members.Sized] at hsized
  cases hs : s.state <;> rw [hs] at hr hsized <;> first | exact absurd rfl hr | skip
  case headerField =>
    have ht : turn s ch bs = headerField s (ch :: bs) := by rw [turn, hs]
    rw [ht]
    exact headerField_runs h hs _
  case headerValue =>
    have ht : turn s ch bs = headerValue s (ch :: bs) := by rw [turn, hs]
    rw [ht] at hn he ⊢
    refine headerValue_runs h hs (hn.resolve_right ?_) he
    rw [hs]
    decide
  case bodyIdentity => exact body_runs (.inl hs) hsized.1
  case chunkData => exact body_runs (.inr hs) hsized.2.1
  case bodyIdentityEof =>
    have ht : turn s ch bs = bodyIdentityEof s (ch :: bs) := by rw [turn, hs]
    have hstep (c : Byte) : step s c = ([], s) := by
      rw [step_of_state (by rw [hs]; decide), turn, hs]
      rfl
    have hquiet (xs : List Byte) : Quiet s xs s := by
      induction xs with
      | nil => exact .nil s
      | cons c xs ih => exact .cons (hstep c) ih
    rw [ht]
    cases hd : (ch :: bs).drop (bs.length) with
    | nil =>
      have := List.drop_eq_nil_iff.mp hd
      rw [List.length_cons] at this
      omega
    | cons c rest => exact .stop (hquiet _) hd (hstep c)

end Noff.HttpParser
