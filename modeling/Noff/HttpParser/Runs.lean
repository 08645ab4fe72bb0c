import Noff.Http.Joined
import Noff.HttpParser.Refines

/-!
# Streams that come in calls

The calls for the data of a stream, one after the other. None of them fails an
assertion (`run_feed_total`), and if none ends in an error they are calls of the machine
that goes byte by byte (`run_feed_refines`). What an accepted stream makes the code report
depends on its bytes alone, up to the cuts in its strings (`joined_accepted`).
-/

namespace Noff.HttpParser

open Http

variable {δ ρ : Type} {settings : Settings Members δ ρ} {ty : HttpParserType}
  {x x' : Parser × δ} {cs : List (List Byte)} {rs : List (Result δ ρ)}

/-- A call for the next data of a stream. -/
def feed (settings : Settings Members δ ρ) (x : Parser × δ) (data : List Byte) :
    Option ((Parser × δ) × List (Result δ ρ)) :=
  (httpParserExecute settings x.1 data x.2).map fun r => ((r.parser, r.data), [r])

/-- What the calls parse of their data. -/
def parsed (cs : List (List Byte)) (rs : List (Result δ ρ)) : List (List Byte) :=
  cs.zipWith (fun c r => c.take r.parsed) rs

theorem feed_eq_some {r : Result δ ρ} {c : List Byte}
    (h : httpParserExecute settings x.1 c x.2 = some r) :
    feed settings x c = some ((r.parser, r.data), [r]) := by rw [feed, h]; rfl

/-- A parser in an error does nothing more. -/
theorem feed_of_error (h : x.1.httpErrno.isSome) (c : List Byte) :
    feed settings x c = some (x, [⟨x.1, 0, x.2, []⟩]) :=
  feed_eq_some (r := ⟨x.1, 0, x.2, []⟩) (if_pos h)

theorem run_feed_of_error (settings : Settings Members δ ρ) (h : x.1.httpErrno.isSome) (cs : List (List Byte)) :
    ∃ rs, run (feed settings) x cs = some (x, rs) := by
  induction cs with
  | nil => exact ⟨[], rfl⟩
  | cons c cs ih =>
    obtain ⟨rs, hrs⟩ := ih
    exact ⟨_, run_cons.mpr ⟨x, _, x, rs, feed_of_error h c, hrs, rfl⟩⟩

/-- No assertion fails in a stream, however it comes in calls. -/
theorem run_feed_total (hsees : Sees settings) (hx : x.1.httpErrno.isSome ∨ x.1.Ok ty)
    (hcs : ∀ c ∈ cs, c.length < 2 ^ 31) : ∃ x' rs, run (feed settings) x cs = some (x', rs) ∧
      (x'.1.httpErrno.isSome ∨ x'.1.Ok ty) := by
  induction cs generalizing x with
  | nil => exact ⟨x, [], rfl, hx⟩
  | cons c cs ih =>
    cases he : x.1.httpErrno with
    | some e =>
      obtain ⟨rs, hrs⟩ := run_feed_of_error settings (x := x) (by rw [he]; rfl) (c :: cs)
      exact ⟨x, rs, hrs, hx⟩
    | none =>
      have hok : x.1.Ok ty := hx.resolve_left (by rw [he]; exact Bool.false_ne_true)
      obtain ⟨r, hr, hspec⟩ := execute_spec hsees hok he (hcs c (List.mem_cons_self ..)) x.2
      obtain ⟨x', rs, hrun, hx'⟩ := ih (x := (r.parser, r.data)) (hspec.imp_right And.left)
        fun c' hc' => hcs c' (List.mem_cons_of_mem _ hc')
      exact ⟨x', r :: rs, run_cons.mpr ⟨_, _, _, _, feed_eq_some hr, hrun, rfl⟩, hx'⟩

/-- Calls without an error are calls of the machine, for what is parsed: all of the data, unless
the protocol changes. -/
theorem run_feed_refines (hsees : Sees settings) (hx : x.1.Ok ty) (hcs : ∀ c ∈ cs, c.length < 2 ^ 31)
    (h : run (feed settings) x cs = some (x', rs)) (hok : x'.1.httpErrno = none) :
    trace (execute grammar settings) (x.1.abs ty, x.2) (parsed cs rs) =
        ((x'.1.abs ty, x'.2), rs.flatMap Result.records) ∧
      List.Forall₂ (fun c r => r.parsed = c.length ∨ r.parser.members.upgrade = true) cs rs ∧
      x'.1.Ok ty := by
  induction cs generalizing x rs with
  | nil =>
    cases h
    exact ⟨rfl, .nil, hx⟩
  | cons c cs ih =>
    obtain ⟨x₁, rs₁, x₂, rs₂, h₁, h₂, he⟩ := run_cons.mp h
    obtain ⟨rfl, rfl⟩ := Prod.mk.injEq .. ▸ he
    -- A call that ends in an error is the last that does anything.
    have hnone (x : Parser × δ) (cs : List (List Byte)) (rs : List (Result δ ρ))
        (hr : run (feed settings) x cs = some (x', rs)) : x.1.httpErrno = none := by
      cases hs : x.1.httpErrno with
      | none => rfl
      | some e =>
        obtain ⟨rs', hrs'⟩ := run_feed_of_error settings (x := x) (by rw [hs]; rfl) cs
        rw [hrs'] at hr
        cases hr
        rw [hok] at hs
        cases hs
    obtain ⟨r, hr, hspec⟩ := execute_spec hsees hx (hnone x _ _ h) (hcs c (List.mem_cons_self ..)) x.2
    rw [feed_eq_some hr] at h₁
    cases h₁
    obtain ⟨hok', -, hparsed, hexec⟩ := hspec.resolve_left (by
      rw [hnone (r.parser, r.data) cs rs₂ h₂]
      exact Bool.false_ne_true)
    obtain ⟨htrace, hall, hx'⟩ := ih hok' (fun c' hc' => hcs c' (List.mem_cons_of_mem _ hc')) h₂
    refine ⟨?_, .cons hparsed hall, hx'⟩
    have hstep : execute grammar settings (x.1.abs ty, x.2) (c.take r.parsed) =
        ((r.parser.abs ty, r.data), r.records) := by rw [execute, hexec]
    rw [show parsed (c :: cs) ([r] ++ rs₂) = c.take r.parsed :: parsed cs rs₂ from rfl, trace_cons, hstep,
      htrace]
    rfl

/-- A request without a body. -/
def getStream : List Byte := text "GET /ab HTTP/1.1\r\nHost: c\r\n\r\n"

/-- What a new connection gathers. -/
def bareCurrent : Current := ⟨.create ⟨1, 80, 0, 0⟩ 0, .create ⟨1, 80, 0, 0⟩ 0⟩

/-- With the callbacks of `Http.cc` no assertion of the parser ever fails, and its numbers fit
into their bit-fields. -/
theorem stream_never_aborts (ty : HttpParserType) (c : Current)
    (hcs : ∀ c ∈ cs, c.length < 2 ^ 31) : ∃ x rs,
      run (feed (Http.settings grammar)) (httpParserInit ty, c) cs = some (x, rs) ∧
        (x.1.httpErrno = none → x.1.nread.toNat ≤ httpMaxHeaderSize ∧ x.1.members.index < 2 ^ 7 ∧
          x.1.members.httpMajor ≤ 999 ∧ x.1.members.httpMinor ≤ 999 ∧ x.1.members.statusCode ≤ 999) := by
  obtain ⟨x, rs, hrun, hx⟩ := run_feed_total sees_settings (x := (httpParserInit ty, c))
    (.inr (ok_init ty)) hcs
  refine ⟨x, rs, hrun, fun hnone => ?_⟩
  obtain ⟨⟨ph, hinv⟩, -, hsmall⟩ := hx.resolve_left (by rw [hnone]; exact Bool.false_ne_true)
  exact ⟨hsmall, hinv.index.trans_lt (by decide), hinv.version.1, hinv.version.2, hinv.statusCode⟩

theorem stream_never_aborts_get : ∃ x rs,
    run (feed (Http.settings grammar)) (httpParserInit .request, bareCurrent) [getStream] =
        some (x, rs) ∧
      (x.1.httpErrno = none → x.1.nread.toNat ≤ httpMaxHeaderSize ∧ x.1.members.index < 2 ^ 7 ∧
        x.1.members.httpMajor ≤ 999 ∧ x.1.members.httpMinor ≤ 999 ∧ x.1.members.statusCode ≤ 999) :=
  stream_never_aborts .request bareCurrent (by decide +kernel)

/-- The parser of the code, with the callbacks of `Http.cc`, does what the parser does that goes
byte by byte: it leaves the same members and passes on the same records. It parses all
of the data of a call, unless the protocol changes. -/
theorem stream_refines {c : Current} {x : Parser × Current} {rs : List (Result Current HttpRecord)}
    (hcs : ∀ c ∈ cs, c.length < 2 ^ 31)
    (h : run (feed (Http.settings grammar)) (httpParserInit ty, c) cs = some (x, rs))
    (hok : x.1.httpErrno = none) :
    trace (execute grammar (Http.settings grammar)) (Http.httpParserInit grammar ty, c) (parsed cs rs) =
        ((⟨ty, x.1.members, false⟩, x.2), rs.flatMap Result.records) ∧
      List.Forall₂ (fun c r => r.parsed = c.length ∨ r.parser.members.upgrade = true) cs rs := by
  obtain ⟨htrace, hall, -⟩ := run_feed_refines sees_settings (ok_init ty) hcs h hok
  rw [Parser.abs, Parser.abs, hok] at htrace
  exact ⟨htrace, hall⟩

theorem stream_refines_get : ∃ x rs,
    run (feed (Http.settings grammar)) (httpParserInit .request, bareCurrent) [getStream] =
        some (x, rs) ∧
      trace (execute grammar (Http.settings grammar)) (Http.httpParserInit grammar .request, bareCurrent)
          (parsed [getStream] rs) = ((⟨.request, x.1.members, false⟩, x.2), rs.flatMap Result.records) ∧
        List.Forall₂ (fun c r => r.parsed = c.length ∨ r.parser.members.upgrade = true) [getStream] rs := by
  obtain ⟨⟨x, rs⟩, h⟩ := Option.isSome_iff_exists.mp (by decide +kernel :
    (run (feed (Http.settings grammar)) (httpParserInit .request, bareCurrent) [getStream]).isSome)
  have hok : (run (feed (Http.settings grammar)) (httpParserInit .request, bareCurrent)
      [getStream]).map (fun r => r.1.1.httpErrno) = some none := by decide +kernel
  rw [h] at hok
  exact ⟨x, rs, h, stream_refines (by decide +kernel) h (Option.some.inj hok)⟩

/-! ## What is reported -/

/-- Callbacks that write down what they report. -/
def recorder : Settings Members (List Http.Report) Unit where
  onData := fun parser k data rs => some (rs ++ [piece grammar parser.state k data])
  onHeadersComplete := fun parser rs =>
    (rs ++ [(Call.headersComplete parser.state).report grammar], [])

theorem sees_recorder : Sees recorder := by
  refine ⟨fun s s' h k data d => ?_, fun s s' h d => ?_⟩
  all_goals
    obtain ⟨-, hm, hc⟩ : s.type = s'.type ∧ s.method = s'.method ∧ s.statusCode = s'.statusCode := by
      simpa [Members.view] using h
  · cases k <;> simp only [recorder, piece, Call.report, grammar, hc]
  · simp only [recorder, Call.report, grammar, hm]

theorem replay_recorder (ty : HttpParserType) (rs : List Http.Report) (cs : List (Call Members)) :
    replay recorder ty rs cs = ([], some (rs ++ cs.map (Call.report grammar))) := by
  induction cs generalizing rs with
  | nil => rw [List.map_nil, List.append_nil]; rfl
  | cons c cs ih =>
    have happ (r : Http.Report) : rs ++ r :: cs.map (Call.report grammar) =
        (rs ++ [r]) ++ cs.map (Call.report grammar) := by rw [List.append_assoc]; rfl
    rw [List.map_cons, happ, replay]
    cases c <;> exact ih _

/-- What is reported of a stream that comes in the calls `cs`: nothing if a call ends in an error,
or if the protocol changes. -/
def accepted (ty : HttpParserType) (cs : List (List Byte)) : Option (List Http.Report) :=
  match run (feed recorder) (httpParserInit ty, []) cs with
  | none => none
  | some ((parser, rs), results) =>
    if parser.httpErrno = none ∧ ∀ r ∈ results, r.parser.members.upgrade = false then some rs
    else none

theorem accepted_eq_some {out : List Http.Report} : accepted ty cs = some out ↔
    ∃ parser results, run (feed recorder) (httpParserInit ty, []) cs = some ((parser, out), results) ∧
      parser.httpErrno = none ∧ ∀ r ∈ results, r.parser.members.upgrade = false := by
  unfold accepted
  split
  · rename_i h
    simp [h]
  · rename_i parser rs results h
    rw [h]
    split
    · rename_i hok
      simp only [Option.some.injEq, Prod.mk.injEq]
      constructor
      · rintro rfl
        exact ⟨parser, results, ⟨⟨rfl, rfl⟩, rfl⟩, hok⟩
      · rintro ⟨parser', results', ⟨⟨-, h⟩, -⟩, -⟩
        exact h
    · rename_i hno
      simp only [reduceCtorEq, Option.some.injEq, Prod.mk.injEq, false_iff, not_exists, not_and]
      rintro parser' results' ⟨⟨rfl, -⟩, rfl⟩ herr hup
      exact hno ⟨herr, hup⟩

/-- The code reports what the machine does. -/
theorem accepted_calls {out : List Http.Report} (hcs : ∀ c ∈ cs, c ≠ [] ∧ c.length < 2 ^ 31)
    (h : accepted ty cs = some out) :
    (trace (Scan.input grammar) (.start grammar (.init ty)) (inputs cs)).1.failed = false ∧
      out = (calls grammar (.init ty) cs).map (Call.report grammar) := by
  obtain ⟨parser, results, hrun, herr, hup⟩ := accepted_eq_some.mp h
  obtain ⟨htrace, hall, hok⟩ := run_feed_refines sees_recorder (x := (httpParserInit ty, []))
    (ok_init ty) (fun c hc => (hcs c hc).2) hrun herr
  -- No call stops in front of the end of its data.
  have hparsed : parsed cs results = cs := by
    clear htrace hrun h
    induction hall with
    | nil => rfl
    | @cons c r cs results hr _ ih =>
      rw [parsed, List.zipWith_cons_cons]
      have hlen := hr.resolve_right (by rw [hup r (List.mem_cons_self ..)]; exact Bool.false_ne_true)
      rw [hlen, List.take_length]
      exact congrArg _ (ih (fun c hc => hcs c (List.mem_cons_of_mem _ hc))
        fun r hr => hup r (List.mem_cons_of_mem _ hr))
  have hscan := execute_eq_scan recorder (v := .start grammar (.init ty))
    (d := []) (fun _ => rfl) (fun c hc => (hcs c hc).1) (congrArg Prod.snd (replay_recorder ty ..))
  rw [hparsed] at htrace
  have heq := (congrArg Prod.fst htrace).symm.trans hscan
  obtain ⟨hp, hd⟩ := Prod.mk.injEq .. ▸ heq
  refine ⟨?_, hd⟩
  have hfailed := congrArg HttpParser.httpErrno hp
  rw [Parser.abs, herr] at hfailed
  exact hfailed.symm

/-- Up to the cuts in its strings, what the code reports of a stream is what the machine does. -/
theorem joined_accepted {out : List Http.Report} (hcs : ∀ c ∈ cs, c ≠ [] ∧ c.length < 2 ^ 31)
    (h : accepted ty cs = some out) : joined out = streamReports grammar (.init ty) cs.flatten := by
  obtain ⟨hf, rfl⟩ := accepted_calls hcs h
  exact joined_calls (grammar_coherent ty) cs hf

/-- Two ways to cut a stream into calls make the code report the same, up to the cuts in its
strings. -/
theorem accepted_cut_independent {cs' : List (List Byte)} {out out' : List Http.Report}
    (hcs : ∀ c ∈ cs, c ≠ [] ∧ c.length < 2 ^ 31) (hcs' : ∀ c ∈ cs', c ≠ [] ∧ c.length < 2 ^ 31)
    (hsame : cs.flatten = cs'.flatten) (h : accepted ty cs = some out)
    (h' : accepted ty cs' = some out') : joined out = joined out' := by
  rw [joined_accepted hcs h, joined_accepted hcs' h', hsame]

theorem accepted_cut_independent_get : ∃ out out', accepted .request [getStream] = some out ∧
    accepted .request [getStream.take 6, getStream.drop 6] = some out' ∧ joined out = joined out' := by
  obtain ⟨out, h⟩ := Option.isSome_iff_exists.mp
    (by decide +kernel : (accepted .request [getStream]).isSome = true)
  obtain ⟨out', h'⟩ := Option.isSome_iff_exists.mp
    (by decide +kernel : (accepted .request [getStream.take 6, getStream.drop 6]).isSome = true)
  exact ⟨out, out', h, h', accepted_cut_independent (by decide +kernel) (by decide +kernel)
    (by decide +kernel) h h'⟩

-- Whether a stream is accepted does depend on the cuts: the rest of a value is looked at only
-- in front of a byte at which a call starts.
example : let bs := text "GET / HTTP/1.0\r\nA: bc" ++ [0x01] ++ text "\r\n\r\n"
    (accepted .request [bs]).isSome ∧ accepted .request [bs.take 21, bs.drop 21] = none := by
  refine ⟨by decide +kernel, by decide +kernel⟩

end Noff.HttpParser
