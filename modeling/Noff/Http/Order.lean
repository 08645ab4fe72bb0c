import Noff.Http.Calls

/-!
# The order of the callbacks

A grammar is `Coherent` if it reports the parts of a message in order and, at the
start of a call, marks the string that was marked at the end of the last.
Over any stream the callbacks then come in the order that `Phase` allows
(`Scan.Ok.bytes`), and a marked string is the next to be reported
(`Scan.Ok.byte_open`).
-/

namespace Noff.Http

variable {σ : Type}

/-! ## The order of the callbacks -/

/-- How far a header section has come: between headers or in front of them, behind
a field, behind a value. -/
inductive Phase where
  | idle | due | valued
  deriving DecidableEq, Repr

section

variable (ty : HttpParserType)

/-- The phase behind a string of kind `k`. Only the value of a header can be empty; a
value that goes on in the next line is reported again. -/
def Phase.report (ph : Phase) (k : Element) (nonempty : Bool) : Option Phase :=
  match k, ph with
  | .headerValue, .due => some .valued
  | .headerValue, .valued => if nonempty then some .valued else none
  | .headerValue, .idle => none
  | _, .due => none
  | .headerField, _ => if nonempty then some .due else none
  | .url, _ => if nonempty ∧ ty = .request then some .idle else none
  | .status, _ => if nonempty ∧ ty = .response then some .idle else none

def Phase.next (ph : Phase) : Call σ → Option Phase
  | .data _ k at_ => ph.report ty k (!at_.isEmpty)
  | .headersComplete _ => if ph = .due then none else some .idle

/-- Where callbacks in an allowed order lead. -/
def Phase.after (ph : Phase) (cs : List (Call σ)) : Option Phase := cs.foldlM (Phase.next ty) ph

/-- The actions of the switch on one byte, in phase `ph` and with the mark `m` set (with
`true` if it was set on an earlier byte): they lead to a mark and a phase with
`final`, or to an error. -/
def Allowed (final : Option Element → Phase → Prop) :
    Option (Element × Bool) → Phase → List Action → Prop
  | m, ph, [] => final (m.map Prod.fst) ph
  | _, _, .error :: _ => True
  | none, ph, .mark k :: as => (ph.report ty k true).isSome ∧ Allowed final (some (k, false)) ph as
  | some _, _, .mark _ :: _ => False
  | none, _, .data _ :: _ => False
  | some (k', old), ph, .data k :: as =>
    k' = k ∧ ∃ ph', ph.report ty k old = some ph' ∧ Allowed final none ph' as
  | m, ph, .headersComplete :: as => m = none ∧ ph ≠ .due ∧ Allowed final none .idle as

/-- The switch reports the parts of messages in order, and marks at the start of a call what
was marked at the end of the last: what `HttpParser.cc` guarantees of its callbacks.
`P` are the phases in which a parser in each state may be. -/
structure Coherent (g : Grammar σ) (P : σ → Phase → Prop) : Prop where
  init : P (g.init ty) .idle
  unmarked : g.marked (g.init ty) = none
  step : ∀ s ph ch, P s ph → Allowed ty
    (fun m ph' => g.marked (g.step s ch).2 = m ∧ P (g.step s ch).2 ph')
    ((g.marked s).map (·, true)) ph (g.step s ch).1

end

variable {ty : HttpParserType} {ph ph' : Phase} {cs cs' : List (Call σ)} {c : Call σ}

theorem Phase.after_cons : Phase.after ty ph (c :: cs) = some ph' ↔
    ∃ ph₁, ph.next ty c = some ph₁ ∧ Phase.after ty ph₁ cs = some ph' := by
  rw [Phase.after, List.foldlM_cons]
  exact Option.bind_eq_some_iff

theorem Phase.after_append : Phase.after ty ph (cs ++ cs') = some ph' ↔
    ∃ ph₁, Phase.after ty ph cs = some ph₁ ∧ Phase.after ty ph₁ cs' = some ph' := by
  rw [Phase.after, List.foldlM_append]
  exact Option.bind_eq_some_iff

/-! ## A parser between two bytes -/

variable {g : Grammar σ} {P : σ → Phase → Prop} {v v' : Scan σ}

/-- The parser is in phase `ph`, and what it has marked is not empty. -/
structure Scan.Ok (g : Grammar σ) (ty : HttpParserType) (P : σ → Phase → Prop) (v : Scan σ)
    (ph : Phase) : Prop where
  phase : v.failed = false → P v.state ph
  marked : v.failed = false → g.marked v.state = v.mark.map Prod.fst
  nonempty : ∀ m, v.mark = some m → m.2 ≠ []
  reportable : ∀ m, v.mark = some m → (ph.report ty m.1 true).isSome

theorem act_failed (h : v.failed = true) (a : Action) : v.act a = (v, []) := by
  unfold Scan.act
  exact if_pos h

theorem acts_failed (h : v.failed = true) (as : List Action) : trace Scan.act v as = (v, []) := by
  induction as with
  | nil => rfl
  | cons a as ih => rw [trace_cons, act_failed h, ih, List.append_nil]

theorem bytes_failed (h : v.failed = true) (chs : List Byte) :
    trace (Scan.byte g) v chs = (v, []) := by rw [← trace_input_map, input_failed h]

/-- The actions of a byte. -/
theorem Allowed.acts {final : Option Element → Phase → Prop} {as : List Action}
    (hv : v.failed = false)
    (h : Allowed ty final (v.mark.map fun m => (m.1, !m.2.isEmpty)) ph as)
    (hr : ∀ m, v.mark = some m → (ph.report ty m.1 true).isSome) :
    ∃ ph', Phase.after ty ph (trace Scan.act v as).2 = some ph' ∧
      ((trace Scan.act v as).1.failed = false →
        final ((trace Scan.act v as).1.mark.map Prod.fst) ph') ∧
      ∀ m, (trace Scan.act v as).1.mark = some m → (ph'.report ty m.1 true).isSome := by
  induction as generalizing v ph with
  | nil =>
    refine ⟨ph, rfl, fun _ => ?_, hr⟩
    have h' : final ((v.mark.map fun m => (m.1, !m.2.isEmpty)).map Prod.fst) ph := by
      cases hm : v.mark <;> rw [hm] at h <;> exact h
    rwa [Option.map_map] at h'
  | cons a as ih =>
    obtain ⟨state, mark, failed⟩ := v
    obtain rfl : failed = false := hv
    cases a with
    | error =>
      have he : trace Scan.act ⟨state, mark, false⟩ (.error :: as) =
          (⟨state, mark, true⟩, ([] : List (Call σ))) := by
        rw [trace_cons, show Scan.act ⟨state, mark, false⟩ .error =
          (⟨state, mark, true⟩, ([] : List (Call σ))) from rfl, acts_failed rfl]
        rfl
      rw [he]
      exact ⟨ph, rfl, fun hf => (by cases hf), hr⟩
    | mark k =>
      cases mark with
      | none =>
        obtain ⟨hrep, h⟩ := h
        exact ih (v := ⟨state, some (k, []), false⟩) rfl h fun m hm => by
          obtain rfl := Option.some.inj hm
          exact hrep
      | some m => exact h.elim
    | data k =>
      cases mark with
      | none => exact h.elim
      | some m =>
        obtain ⟨rfl, ph₁, hph₁, h⟩ := h
        have hact : Scan.act ⟨state, some m, false⟩ (.data m.1) =
            (⟨state, none, false⟩, [.data state m.1 m.2]) := by simp [Scan.act]
        obtain ⟨ph', h₁, h₂, h₃⟩ := ih (v := ⟨state, none, false⟩) rfl h fun m hm => by cases hm
        rw [trace_cons, hact]
        exact ⟨ph', Phase.after_cons.mpr ⟨ph₁, hph₁, h₁⟩, h₂, h₃⟩
    | headersComplete =>
      cases mark with
      | some m => cases h.1
      | none =>
        obtain ⟨-, hdue, h⟩ := h
        obtain ⟨ph', h₁, h₂, h₃⟩ := ih (v := ⟨state, none, false⟩) rfl h fun m hm => by cases hm
        exact ⟨ph', Phase.after_cons.mpr ⟨.idle, if_neg hdue, h₁⟩, h₂, h₃⟩

theorem act_state (v : Scan σ) (a : Action) : (v.act a).1.state = v.state := by
  unfold Scan.act
  repeat' split
  all_goals rfl

theorem acts_state (v : Scan σ) (as : List Action) : (trace Scan.act v as).1.state = v.state := by
  induction as generalizing v with
  | nil => rfl
  | cons a as ih => rw [trace_cons, ih, act_state]

/-- The parser, in front of the actions of a byte. -/
def Scan.enter (g : Grammar σ) (v : Scan σ) (ch : Byte) : Scan σ :=
  { v with state := (g.step v.state ch).2 }

theorem byte_eq (hf : v.failed = false) (ch : Byte) : v.byte g ch =
    ((trace Scan.act (v.enter g ch) (g.step v.state ch).1).1.push ch,
      (trace Scan.act (v.enter g ch) (g.step v.state ch).1).2) := by
  rw [Scan.byte, if_neg (by simp [hf])]
  rfl

/-- What is marked is not empty. -/
theorem Scan.Ok.old (h : v.Ok g ty P ph) (hf : v.failed = false) :
    (v.mark.map fun m => (m.1, !m.2.isEmpty)) = (g.marked v.state).map (·, true) := by
  rw [h.marked hf, Option.map_map]
  cases hm : v.mark with
  | none => rfl
  | some m => simp [h.nonempty m hm]

theorem Scan.Ok.byte (hg : Coherent ty g P) (h : v.Ok g ty P ph) (ch : Byte) :
    ∃ ph', Phase.after ty ph (v.byte g ch).2 = some ph' ∧ (v.byte g ch).1.Ok g ty P ph' := by
  cases hf : v.failed with
  | true =>
    rw [Scan.byte, if_pos hf]
    exact ⟨ph, rfl, h⟩
  | false =>
    obtain ⟨ph', h₁, h₂, h₃⟩ := Allowed.acts (v := v.enter g ch) hf
      (h.old hf ▸ hg.step v.state ph ch (h.phase hf)) h.reportable
    have hs := acts_state (v.enter g ch) (g.step v.state ch).1
    rw [byte_eq hf]
    refine ⟨ph', h₁, fun hf => ?_, fun hf => ?_, fun m hm => ?_, fun m hm => ?_⟩
    · exact (congrArg (P · ph') hs).mpr (h₂ hf).2
    · refine (congrArg g.marked hs).trans ((h₂ hf).1.trans ?_)
      rw [Scan.push, Option.map_map]
      rfl
    · obtain ⟨m', -, rfl⟩ := Option.map_eq_some_iff.mp hm
      simp
    · obtain ⟨m', hm', rfl⟩ := Option.map_eq_some_iff.mp hm
      exact h₃ m' hm'

theorem Scan.Ok.bytes (hg : Coherent ty g P) (h : v.Ok g ty P ph) (chs : List Byte) :
    ∃ ph', Phase.after ty ph (trace (Scan.byte g) v chs).2 = some ph' ∧
      (trace (Scan.byte g) v chs).1.Ok g ty P ph' := by
  induction chs generalizing v ph with
  | nil => exact ⟨ph, rfl, h⟩
  | cons ch chs ih =>
    obtain ⟨ph₁, ha, h₁⟩ := h.byte hg ch
    obtain ⟨ph', ha', h'⟩ := ih h₁
    exact ⟨ph', Phase.after_append.mpr ⟨ph₁, ha, ha'⟩, h'⟩

theorem Scan.Ok.start (hg : Coherent ty g P) : (Scan.start g (g.init ty)).Ok g ty P .idle := by
  have hm : (Scan.start g (g.init ty)).mark = none := by rw [Scan.start, hg.unmarked]; rfl
  refine ⟨fun _ => hg.init, fun _ => ?_, fun m h => ?_, fun m h => ?_⟩
  · rw [hm]
    exact hg.unmarked
  · rw [hm] at h
    cases h
  · rw [hm] at h
    cases h

/-- A marked string is the next to be reported. -/
theorem Allowed.open {final : Option Element → Phase → Prop} {k : Element} {old : Bool}
    {as : List Action} (h : Allowed ty final (some (k, old)) ph as) :
    as = [] ∨ (∃ as', as = .error :: as') ∨ ∃ as', as = .data k :: as' := by
  cases as with
  | nil => exact .inl rfl
  | cons a as =>
    cases a with
    | mark k' => exact h.elim
    | data k' => exact .inr (.inr ⟨as, by rw [h.1]⟩)
    | headersComplete => cases h.1
    | error => exact .inr (.inl ⟨as, rfl⟩)

/-- On the next byte it goes on, or the parser fails, or it is reported; then it does not matter
any more what it was. -/
theorem Scan.Ok.byte_open (hg : Coherent ty g P) (h : v.Ok g ty P ph) (hf : v.failed = false)
    {k : Element} {at_ : List Byte} (hm : v.mark = some (k, at_)) (ch : Byte) :
    (v.byte g ch).2 = [] ∧ ((v.byte g ch).1.failed = true ∨
        (v.byte g ch).1.mark = some (k, at_ ++ [ch])) ∨
      ∃ cs, ∀ at', ({ v with mark := some (k, at') }).byte g ch =
        ((v.byte g ch).1, .data (g.step v.state ch).2 k at' :: cs) := by
  have hall := hg.step v.state ph ch (h.phase hf)
  rw [h.marked hf, hm] at hall
  have hv : v = ⟨v.state, some (k, at_), false⟩ := by
    rw [← hm, ← hf]
  rcases hall.open with has | ⟨as, has⟩ | ⟨as, has⟩
  · refine .inl ?_
    rw [byte_eq hf, has]
    exact ⟨rfl, .inr (by rw [trace_nil]; simp [Scan.push, Scan.enter, hm])⟩
  · refine .inl ?_
    have hact : (v.enter g ch).act .error = ({ v.enter g ch with failed := true }, []) := by
      unfold Scan.act
      exact if_neg (by simp [Scan.enter, hf])
    rw [byte_eq hf, has, trace_cons, hact, acts_failed rfl]
    exact ⟨rfl, .inl rfl⟩
  · refine .inr ⟨(trace Scan.act ⟨(g.step v.state ch).2, none, false⟩ as).2, fun at' => ?_⟩
    have hact (at' : List Byte) : ({ v with mark := some (k, at') } : Scan σ).byte g ch =
        ((trace Scan.act ⟨(g.step v.state ch).2, none, false⟩ as).1.push ch,
          .data (g.step v.state ch).2 k at' ::
            (trace Scan.act ⟨(g.step v.state ch).2, none, false⟩ as).2) := by
      rw [byte_eq (v := { v with mark := some (k, at') }) hf]
      dsimp only
      rw [has, trace_cons]
      have : ({ v with mark := some (k, at') } : Scan σ).enter g ch =
        ⟨(g.step v.state ch).2, some (k, at'), false⟩ := by rw [Scan.enter, ← hf]
      rw [this]
      simp [Scan.act]
    have hv' := hact at_
    rw [show ({ v with mark := some (k, at_) } : Scan σ) = v by rw [← hm]] at hv'
    rw [hact at', hv']

end Noff.Http
