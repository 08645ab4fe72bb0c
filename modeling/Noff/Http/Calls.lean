import Noff.Http.Http

/-!
# What a stream makes the parser report

The callbacks that `http_parser_execute` invokes do not depend on what they do,
as long as none of them fails: `Scan` follows the grammar over a stream that is
cut into calls, and lists the callbacks. `Http` is what its own callbacks make
of this list (`feed_eq_replay`).
-/

namespace Noff.Http

variable {σ δ ρ : Type}

/-- A callback, in the state in which the parser is. -/
inductive Call (σ : Type) where
  | data (s : σ) (k : Element) (at_ : List Byte)
  | headersComplete (s : σ)

def Call.isHeadersComplete : Call σ → Bool
  | .data .. => false
  | .headersComplete _ => true

/-- A parser between two bytes. -/
structure Scan (σ : Type) where
  state : σ
  mark : Option (Element × List Byte)
  failed : Bool

namespace Scan

def act (v : Scan σ) (a : Action) : Scan σ × List (Call σ) :=
  if v.failed then (v, [])
  else
    match a with
    | .mark k => ({ v with mark := v.mark.or (some (k, [])) }, [])
    | .data k =>
      match v.mark with
      | none => (v, [])
      | some (k', at_) =>
        if k' = k then ({ v with mark := none }, [.data v.state k at_]) else (v, [])
    | .headersComplete => (v, [.headersComplete v.state])
    | .error => ({ v with failed := true }, [])

/-- The mark, with one byte more. -/
def push (v : Scan σ) (ch : Byte) : Scan σ :=
  { v with mark := v.mark.map fun (k, at_) => (k, at_ ++ [ch]) }

variable (g : Grammar σ)

def byte (v : Scan σ) (ch : Byte) : Scan σ × List (Call σ) :=
  if v.failed then (v, [])
  else
    let (as, s) := g.step v.state ch
    let (v, cs) := trace act { v with state := s } as
    (v.push ch, cs)

/-- The end of a call. -/
def finish (v : Scan σ) : Scan σ × List (Call σ) :=
  match v.mark with
  | some (k, _) => v.act (.data k)
  | none => (v, [])

def start (s : σ) : Scan σ := ⟨s, (g.marked s).map (·, []), false⟩

/-- The end of a call, and the start of the next. -/
def cut (v : Scan σ) : Scan σ × List (Call σ) :=
  (if v.finish.1.failed then v.finish.1 else start g v.finish.1.state, v.finish.2)

/-- One byte, or the end of a call (`none`). -/
def input (v : Scan σ) : Option Byte → Scan σ × List (Call σ)
  | some ch => v.byte g ch
  | none => v.cut g

end Scan

/-- A stream that is cut into calls. -/
def inputs (cs : List (List Byte)) : List (Option Byte) :=
  cs.flatMap fun c => c.map some ++ [none]

@[simp] theorem inputs_cons (c : List Byte) (cs : List (List Byte)) :
    inputs (c :: cs) = c.map some ++ none :: inputs cs := by simp [inputs]

/-- The callbacks for a stream that comes in the calls `cs`. -/
def calls (g : Grammar σ) (s : σ) (cs : List (List Byte)) : List (Call σ) :=
  (trace (Scan.input g) (.start g s) (inputs cs)).2

/-! ## What the callbacks make of them -/

section replay

variable (settings : Settings σ δ ρ) (type : HttpParserType)

/-- A callback, invoked; it has no result if it fails. -/
def Call.invoke (d : δ) : Call σ → Option (δ × List ρ)
  | .data s k at_ => (settings.onData ⟨type, s, false⟩ k at_ d).map (·, [])
  | .headersComplete s => some (settings.onHeadersComplete ⟨type, s, false⟩ d)

/-- The records of the callbacks `cs`, and what they leave if none fails. -/
def replay (d : δ) : List (Call σ) → List ρ × Option δ
  | [] => ([], some d)
  | c :: cs =>
    match c.invoke settings type d with
    | none => ([], none)
    | some (d, rs) => (rs ++ (replay d cs).1, (replay d cs).2)

variable {settings type} {d d' : δ} {cs cs' : List (Call σ)} {rs : List ρ}

theorem replay_append_some (h : replay settings type d cs = (rs, some d')) :
    replay settings type d (cs ++ cs') =
      (rs ++ (replay settings type d' cs').1, (replay settings type d' cs').2) := by
  induction cs generalizing d rs with
  | nil =>
    cases h
    rfl
  | cons c cs ih =>
    rw [List.cons_append, replay]
    rw [replay] at h
    cases hc : c.invoke settings type d with
    | none =>
      rw [hc] at h
      cases h
    | some x =>
      obtain ⟨d₁, rs₁⟩ := x
      rw [hc] at h
      simp only at h ⊢
      obtain ⟨rfl, h₂⟩ := Prod.mk.injEq .. ▸ h
      rw [ih (Prod.ext rfl h₂), List.append_assoc]

theorem replay_append_none (h : replay settings type d cs = (rs, none)) :
    replay settings type d (cs ++ cs') = (rs, none) := by
  induction cs generalizing d rs with
  | nil => cases h
  | cons c cs ih =>
    rw [List.cons_append, replay]
    rw [replay] at h
    cases hc : c.invoke settings type d with
    | none =>
      rw [hc] at h
      exact h
    | some x =>
      obtain ⟨d₁, rs₁⟩ := x
      rw [hc] at h
      simp only at h ⊢
      obtain ⟨rfl, h₂⟩ := Prod.mk.injEq .. ▸ h
      rw [ih (Prod.ext rfl h₂)]

/-- `e` is the call of the parser that has the callbacks `cs` behind it, and is at `v`
unless one of them has failed. -/
structure Follows (settings : Settings σ δ ρ) (type : HttpParserType) (d : δ) (cs : List (Call σ))
    (v : Scan σ) (e : Exec σ δ ρ) : Prop where
  records : e.records = (replay settings type d cs).1
  running : ∀ d', (replay settings type d cs).2 = some d' →
    e.parser = ⟨type, v.state, v.failed⟩ ∧ e.mark = v.mark ∧ e.data = d'
  failed : (replay settings type d cs).2 = none → e.parser.httpErrno = true

variable {v v' : Scan σ} {e e' : Exec σ δ ρ}

/-- Once a callback has failed, the parser stands still. -/
theorem Follows.stuck (h : Follows settings type d cs v e)
    (hr : (replay settings type d cs).2 = none) (cs' : List (Call σ)) (v' : Scan σ)
    (he : e'.parser.httpErrno = true) (hrec : e'.records = e.records) :
    Follows settings type d (cs ++ cs') v' e' := by
  have happ : replay settings type d (cs ++ cs') = _ := replay_append_none (Prod.ext rfl hr)
  refine ⟨by rw [happ, hrec, h.records], fun d' hd' => ?_, fun _ => he⟩
  rw [happ] at hd'
  cases hd'

theorem Follows.extend (h : Follows settings type d cs v e)
    (hr : (replay settings type d cs).2 = some d') {cs' : List (Call σ)}
    (hrec : e'.records = e.records ++ (replay settings type d' cs').1)
    (hrun : ∀ d₂, (replay settings type d' cs').2 = some d₂ →
      e'.parser = ⟨type, v'.state, v'.failed⟩ ∧ e'.mark = v'.mark ∧ e'.data = d₂)
    (hfail : (replay settings type d' cs').2 = none → e'.parser.httpErrno = true) :
    Follows settings type d (cs ++ cs') v' e' := by
  have happ : replay settings type d (cs ++ cs') = _ := replay_append_some (Prod.ext rfl hr)
  refine ⟨?_, ?_, ?_⟩
  · rw [happ, hrec, h.records]
  · rw [happ]
    exact hrun
  · rw [happ]
    exact hfail

theorem Follows.act (h : Follows settings type d cs v e) (a : Action) :
    Follows settings type d (cs ++ (v.act a).2) (v.act a).1 (e.act settings a) := by
  cases hr : (replay settings type d cs).2 with
  | none =>
    have he := h.failed hr
    have hact : e.act settings a = e := by
      unfold Exec.act
      exact if_pos he
    exact h.stuck hr _ _ (by rw [hact]; exact he) (by rw [hact])
  | some d' =>
    obtain ⟨hp, hm, hd⟩ := h.running d' hr
    obtain ⟨parser, mark, data, records⟩ := e
    obtain ⟨state, mark', failed⟩ := v
    dsimp only at hp hm hd
    subst hp hm hd
    refine h.extend hr ?_ ?_ ?_
    all_goals
      unfold Exec.act Scan.act
      cases failed with
      | true => simp [replay]
      | false =>
        cases a with
        | mark k => simp [replay]
        | error => simp [replay]
        | headersComplete => simp [replay, Call.invoke]
        | data k =>
          cases mark with
          | none => simp [replay, Exec.report]
          | some m =>
            by_cases hk : m.1 = k
            · cases hd : settings.onData ⟨type, state, false⟩ k m.2 data <;>
                simp [replay, Exec.report, Call.invoke, hk, hd]
            · simp [replay, Exec.report, hk]

theorem Follows.acts (h : Follows settings type d cs v e) (as : List Action) :
    Follows settings type d (cs ++ (trace Scan.act v as).2) (trace Scan.act v as).1
      (as.foldl (Exec.act settings) e) := by
  induction as generalizing cs v e with
  | nil => rwa [trace_nil, List.append_nil]
  | cons a as ih =>
    rw [trace_cons, List.foldl_cons, ← List.append_assoc]
    exact ih (h.act a)

theorem Follows.byte {g : Grammar σ} (h : Follows settings type d cs v e) (ch : Byte) :
    Follows settings type d (cs ++ (v.byte g ch).2) (v.byte g ch).1 (e.byte g settings ch) := by
  cases hr : (replay settings type d cs).2 with
  | none =>
    have he := h.failed hr
    have hbyte : e.byte g settings ch = e := by rw [Exec.byte, if_pos he]
    exact h.stuck hr _ _ (by rw [hbyte]; exact he) (by rw [hbyte])
  | some d' =>
    obtain ⟨hp, hm, hd⟩ := h.running d' hr
    obtain ⟨parser, mark, data, records⟩ := e
    obtain ⟨state, mark', failed⟩ := v
    dsimp only at hp hm hd
    subst hp hm hd
    rw [Exec.byte, Scan.byte]
    cases failed with
    | true =>
      simp only [ite_true, List.append_nil]
      exact h
    | false =>
      have h₁ : Follows settings type d cs ⟨(g.step state ch).2, mark, false⟩
          ⟨⟨type, (g.step state ch).2, false⟩, mark, data, records⟩ :=
        ⟨h.records, fun d₂ hd₂ => ⟨rfl, rfl, Option.some.inj (hr.symm.trans hd₂)⟩, fun hn => by
          rw [hn] at hr
          cases hr⟩
      have h₂ := h₁.acts (g.step state ch).1
      exact ⟨h₂.records, fun d₂ hd₂ => by
        obtain ⟨hp, hm, hd⟩ := h₂.running d₂ hd₂
        exact ⟨hp, congrArg (Option.map _) hm, hd⟩, h₂.failed⟩

theorem Follows.bytes {g : Grammar σ} (h : Follows settings type d cs v e) (chs : List Byte) :
    Follows settings type d (cs ++ (trace (Scan.byte g) v chs).2) (trace (Scan.byte g) v chs).1
      (chs.foldl (Exec.byte g settings) e) := by
  induction chs generalizing cs v e with
  | nil => rwa [trace_nil, List.append_nil]
  | cons ch chs ih =>
    rw [trace_cons, List.foldl_cons, ← List.append_assoc]
    exact ih (h.byte ch)

theorem Follows.finish (h : Follows settings type d cs v e) :
    Follows settings type d (cs ++ v.finish.2) v.finish.1 (e.finish settings) := by
  cases hr : (replay settings type d cs).2 with
  | none =>
    have he := h.failed hr
    have hfin : e.finish settings = e := by
      rw [Exec.finish]
      split
      · unfold Exec.act
        exact if_pos he
      · rfl
    exact h.stuck hr _ _ (by rw [hfin]; exact he) (by rw [hfin])
  | some d' =>
    obtain ⟨-, hm, -⟩ := h.running d' hr
    rw [Exec.finish, Scan.finish, hm]
    cases v.mark with
    | none => rwa [List.append_nil]
    | some m => exact h.act _

end replay

/-! ## Calls one after the other -/

section

variable (g : Grammar σ) (settings : Settings σ δ ρ) (type : HttpParserType)

/-- One call of the parser. -/
def execute (x : HttpParser σ × δ) (c : List Byte) : (HttpParser σ × δ) × List ρ :=
  let (parser, d, rs) := httpParserExecute g settings x.1 c x.2
  ((parser, d), rs)

variable {g settings type}

theorem execute_failed {x : HttpParser σ × δ} (h : x.1.httpErrno = true) (cs : List (List Byte)) :
    (trace (execute g settings) x cs).2 = [] := by
  induction cs with
  | nil => rfl
  | cons c cs ih =>
    have hx : execute g settings x c = (x, []) := by rw [execute, httpParserExecute, if_pos h]
    rw [trace_cons, hx, ih, List.append_nil]

theorem input_failed {v : Scan σ} (h : v.failed = true) (is : List (Option Byte)) :
    trace (Scan.input g) v is = (v, []) := by
  have hact (a : Action) : v.act a = (v, []) := by
    unfold Scan.act
    exact if_pos h
  have hfin : v.finish = (v, []) := by
    rw [Scan.finish]
    split
    · exact hact _
    · rfl
  induction is with
  | nil => rfl
  | cons i is ih =>
    have hi : v.input g i = (v, []) := by
      cases i with
      | none => rw [Scan.input, Scan.cut, hfin, if_pos h]
      | some ch => rw [Scan.input, Scan.byte, if_pos h]
    rw [trace_cons, hi, ih, List.append_nil]

theorem trace_input_map (v : Scan σ) (c : List Byte) :
    trace (Scan.input g) v (c.map some) = trace (Scan.byte g) v c := by
  induction c generalizing v with
  | nil => rfl
  | cons ch c ih =>
    rw [List.map_cons, trace_cons, trace_cons, ih]
    rfl

/-- The records of a stream that comes in calls are what its callbacks make of it. -/
theorem execute_eq_replay {v : Scan σ} (hv : v.failed = false → v = .start g v.state) (d : δ)
    {cs : List (List Byte)} (hcs : ∀ c ∈ cs, c ≠ []) :
    (trace (execute g settings) (⟨type, v.state, v.failed⟩, d) cs).2 =
      (replay settings type d (trace (Scan.input g) v (inputs cs)).2).1 := by
  induction cs generalizing v d with
  | nil => rfl
  | cons c cs ih =>
    cases hf : v.failed with
    | true =>
      rw [input_failed hf]
      exact execute_failed rfl _
    | false =>
      have h₀ : Follows settings type d [] v (Exec.start g ⟨type, v.state, false⟩ d) :=
        ⟨rfl, fun d' hd' => ⟨by rw [← hf]; rfl, by rw [hv hf]; rfl, Option.some.inj hd'⟩,
          fun hn => by cases hn⟩
      have h := (h₀.bytes (g := g) c).finish
      have hx : execute g settings (⟨type, v.state, false⟩, d) c =
          ((((c.foldl (Exec.byte g settings) (Exec.start g ⟨type, v.state, false⟩ d)).finish
            settings).parser,
          ((c.foldl (Exec.byte g settings) (Exec.start g ⟨type, v.state, false⟩ d)).finish
            settings).data),
          ((c.foldl (Exec.byte g settings) (Exec.start g ⟨type, v.state, false⟩ d)).finish
            settings).records) := by
        rw [execute, httpParserExecute, if_neg (by simp), if_neg (hcs c (List.mem_cons_self ..))]
      generalize hv' : (trace (Scan.byte g) v c).1 = v' at h
      generalize (c.foldl (Exec.byte g settings) (Exec.start g ⟨type, v.state, false⟩ d)).finish
        settings = e at h hx
      rw [List.nil_append] at h
      have hin : (trace (Scan.input g) v (inputs (c :: cs))).2 =
          (trace (Scan.byte g) v c).2 ++ v'.finish.2 ++
            (trace (Scan.input g) (v'.cut g).1 (inputs cs)).2 := by
        rw [inputs_cons, trace_append, trace_input_map, trace_cons, hv', List.append_assoc]
        rfl
      rw [trace_cons, hx, hin, h.records]
      cases hr : (replay settings type d ((trace (Scan.byte g) v c).2 ++ v'.finish.2)).2 with
      | none =>
        rw [replay_append_none (Prod.ext rfl hr)]
        exact (congrArg _ (execute_failed (h.failed hr) cs)).trans (List.append_nil _)
      | some d' =>
        obtain ⟨hp, -, hd⟩ := h.running d' hr
        rw [replay_append_some (Prod.ext rfl hr)]
        have hstate : (v'.cut g).1.state = v'.finish.1.state ∧
            (v'.cut g).1.failed = v'.finish.1.failed ∧
            ((v'.cut g).1.failed = false → (v'.cut g).1 = .start g (v'.cut g).1.state) := by
          rw [Scan.cut]
          cases hff : v'.finish.1.failed with
          | true => simp [hff]
          | false => simp [Scan.start]
        have := ih hstate.2.2 d' fun c' hc' => hcs c' (List.mem_cons_of_mem _ hc')
        rw [hstate.1, hstate.2.1] at this
        rw [← this]
        simp only [hp, hd]

end

/-! ## Connections -/

/-- The type of the parser for one direction. -/
def typeOf (fromClient : Bool) : HttpParserType := if fromClient then .request else .response

variable (g : Grammar σ)

/-- The records for the data that one side of a connection sends in the calls `cs`. -/
def Http.feed (http : Http σ) (t4 : Tuple4) (fromClient : Bool) (cs : List (List Byte)) :
    List HttpRecord :=
  (trace (fun (http : Http σ) c => http.onTcpData g t4 c fromClient) http cs).2

/-- The parser for one direction, and the messages that are gathered. -/
def HttpDetail.side (detail : HttpDetail σ) (fromClient : Bool) : HttpParser σ × Current :=
  (if fromClient then detail.requestParser else detail.responseParser,
    ⟨detail.requestData, detail.responseData⟩)

variable {g}

theorem Http.feed_eq_execute {http : Http σ} {t4 : Tuple4} {fromClient : Bool}
    {detail : HttpDetail σ} (h80 : t4.dest = 80) (hd : http.table t4 = some detail)
    (cs : List (List Byte)) : http.feed g t4 fromClient cs =
      (trace (execute g (settings g)) (detail.side fromClient) cs).2 := by
  induction cs generalizing http detail with
  | nil => rfl
  | cons c cs ih =>
    have hstep : http.onTcpData g t4 c fromClient =
        (http.set t4 (some (detail.onTcpData g fromClient c).1),
          (detail.onTcpData g fromClient c).2) := by
      rw [Http.onTcpData, if_neg (not_not.mpr h80), hd]
    have hside : ((detail.onTcpData g fromClient c).1.side fromClient,
        (detail.onTcpData g fromClient c).2) =
        execute g (settings g) (detail.side fromClient) c := by
      cases fromClient <;> rfl
    rw [Http.feed, trace_cons, hstep, trace_cons, ← hside]
    exact congrArg _ (ih (Http.table_set_self ..))

/-- The records of a new connection are what the callbacks for its data make of it. -/
theorem Http.feed_eq_replay {http : Http σ} {t4 : Tuple4} {ts : Int} (fromClient : Bool)
    (h80 : t4.dest = 80) (hd : http.table t4 = some (.create g t4 ts)) {cs : List (List Byte)}
    (hcs : ∀ c ∈ cs, c ≠ []) : http.feed g t4 fromClient cs =
      (replay (settings g) (typeOf fromClient) ⟨.create t4 ts, .create t4 ts⟩
        (calls g (g.init (typeOf fromClient)) cs)).1 := by
  rw [Http.feed_eq_execute h80 hd, calls]
  have hside : (HttpDetail.create g t4 ts).side fromClient =
      (⟨typeOf fromClient, g.init (typeOf fromClient), false⟩,
        ⟨.create t4 ts, .create t4 ts⟩) := by cases fromClient <;> rfl
  rw [hside]
  exact execute_eq_replay (v := .start g (g.init (typeOf fromClient))) (fun _ => rfl) _ hcs

end Noff.Http
