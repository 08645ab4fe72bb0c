import Noff.Http.Cut
import Noff.Http.Messages

/-!
# Strings that are cut

At the end of a call the parser reports as much of a string as it has read, and
the rest later. With the parts of each string joined again, what is reported depends
on the bytes of a stream alone, not on how they come in calls (`joined_calls`).
-/

namespace Noff.Http

variable {σ : Type} {g : Grammar σ} {ty : HttpParserType} {P : σ → Phase → Prop} {ph : Phase}

/-! ## Joining strings -/

/-- Two parts of a string, in one. The status code of the later part counts. -/
def Report.join : Report → Report → Option Report
  | .url x, .url y => some (.url (x ++ y))
  | .status _ x, .status c y => some (.status c (x ++ y))
  | .headerField x, .headerField y => some (.headerField (x ++ y))
  | .headerValue x, .headerValue y => some (.headerValue (x ++ y))
  | _, _ => none

/-- One report more, joined with the last one if it is a further part of it. The last
is first in the list. -/
def joinOnto (rs : List Report) (r : Report) : List Report :=
  match rs with
  | [] => [r]
  | r' :: rs =>
    match r'.join r with
    | some r => r :: rs
    | none => r :: r' :: rs

/-- Reports, with the parts of each string joined. -/
def joined (rs : List Report) : List Report := (rs.foldl joinOnto []).reverse

/-- A string that is not a further part of the last. -/
theorem joinOnto_of_last {rs : List Report} {r : Report} (h : ∀ r' ∈ rs.head?, r'.join r = none) :
    joinOnto rs r = r :: rs := by
  cases rs with
  | nil => rfl
  | cons r' rs => rw [joinOnto, h r' rfl]

/-- The report of a string of kind `k` in the state `s`. -/
def piece (g : Grammar σ) (s : σ) (k : Element) (at_ : List Byte) : Report :=
  (Call.data s k at_).report g

/-- A string that is reported in two parts. -/
theorem joinOnto_piece (rs : List Report) (s s' : σ) (k : Element) (x y : List Byte) :
    joinOnto (joinOnto rs (piece g s k x)) (piece g s' k y) = joinOnto rs (piece g s' k (x ++ y)) := by
  cases rs with
  | nil => cases k <;> rfl
  | cons r rs =>
    cases k <;> cases r <;> simp [joinOnto, piece, Call.report, Report.join]

/-! ## Folded values -/

/-- The lines of a value are parts of one string. -/
theorem foldl_joinOnto_value (rs : List Report) (v : List Byte) (ls : List (List Byte)) :
    (ls.map .headerValue).foldl joinOnto (.headerValue v :: rs) =
      .headerValue (v ++ ls.flatten) :: rs := by
  induction ls generalizing v with
  | nil => simp
  | cons l ls ih =>
    rw [List.map_cons, List.foldl_cons, joinOnto, Report.join]
    dsimp only
    rw [ih, List.flatten_cons, List.append_assoc]

theorem foldl_joinOnto_lines {hs : List Header} (hok : ∀ h ∈ hs, h.Ok) {rs : List Report}
    (hrs : ∀ r ∈ rs.head?, ∀ name, r.join (.headerField name) = none) :
    (lineReports hs).foldl joinOnto rs =
      (headerReports (hs.map fun h => (h.name, h.value))).reverse ++ rs := by
  induction hs generalizing rs with
  | nil => rfl
  | cons h hs ih =>
    obtain ⟨name, lines⟩ := h
    obtain ⟨l, ls, rfl⟩ := List.exists_cons_of_ne_nil (hok _ (List.mem_cons_self ..)).2
    rw [lineReports, List.flatMap_cons, List.foldl_append, List.foldl_cons,
      joinOnto_of_last fun r hr => hrs r hr name, List.map_cons, List.foldl_cons,
      joinOnto_of_last (r := .headerValue l) (by rintro _ ⟨⟩; rfl), foldl_joinOnto_value]
    refine (ih (fun h hh => hok h (List.mem_cons_of_mem _ hh)) (by rintro _ ⟨⟩ _; rfl)).trans ?_
    simp [headerReports, Header.value]

/-- Nothing goes on with what a message ends with, in front of the next message. -/
def Ended (rs : List Report) : Prop :=
  ∀ r ∈ rs.head?, (∃ method, r = .headersComplete method) ∨ ∃ v, r = .headerValue v

theorem foldl_joinOnto_message (ty : HttpParserType) {m : Folded} (hm : m.Ok) {rs : List Report}
    (hrs : Ended rs) : (m.reports ty).foldl joinOnto rs = (m.message.reports ty).reverse ++ rs ∧
      Ended ((m.message.reports ty).reverse ++ rs) := by
  have hfield : ∀ r ∈ rs.head?, ∀ name, r.join (.headerField name) = none := fun r hr => by
    rcases hrs r hr with ⟨_, rfl⟩ | ⟨_, rfl⟩ <;> exact fun _ => rfl
  have hfirst : (m.message.firstLine ty).foldl joinOnto rs = (m.message.firstLine ty).reverse ++ rs ∧
      ∀ r ∈ ((m.message.firstLine ty).reverse ++ rs).head?, ∀ name,
        r.join (.headerField name) = none := by
    cases ty with
    | request =>
      refine ⟨joinOnto_of_last fun r hr => ?_, by rintro _ ⟨⟩ _; rfl⟩
      rcases hrs r hr with ⟨_, rfl⟩ | ⟨_, rfl⟩ <;> rfl
    | response =>
      rw [Message.firstLine]
      split
      · exact ⟨rfl, hfield⟩
      · refine ⟨joinOnto_of_last fun r hr => ?_, by rintro _ ⟨⟩ _; rfl⟩
        rcases hrs r hr with ⟨_, rfl⟩ | ⟨_, rfl⟩ <;> rfl
  have hcomplete (rs : List Report) : joinOnto rs (.headersComplete m.method) =
      .headersComplete m.method :: rs := joinOnto_of_last fun r _ => by cases r <;> rfl
  constructor
  · rw [Folded.reports, List.foldl_append, hfirst.1, List.foldl_append,
      foldl_joinOnto_lines hm.headers hfirst.2, List.foldl_cons, hcomplete,
      foldl_joinOnto_lines hm.trailers (by rintro _ ⟨⟩ _; rfl)]
    simp [Message.reports, Folded.message]
  · -- The last report is that of the last trailer, or of the end of the headers.
    rw [Message.reports, Ended]
    rcases List.eq_nil_or_concat m.message.trailers with ht | ⟨ts, h, ht⟩
    · simp [ht, headerReports]
    · simp [ht, headerReports, List.flatMap_append]

/-- Messages as they come are reported as the messages, once strings are joined. -/
theorem joined_folded (ty : HttpParserType) {ms : List Folded} (hm : ∀ m ∈ ms, m.Ok) :
    joined (ms.flatMap fun m => m.reports ty) = ms.flatMap fun m => m.message.reports ty := by
  suffices h : ∀ rs, Ended rs → (ms.flatMap fun m => m.reports ty).foldl joinOnto rs =
      (ms.flatMap fun m => m.message.reports ty).reverse ++ rs by
    rw [joined, h [] (by rintro _ ⟨⟩), List.append_nil, List.reverse_reverse]
  induction ms with
  | nil => exact fun _ _ => rfl
  | cons m ms ih =>
    intro rs hrs
    obtain ⟨hfold, hend⟩ := foldl_joinOnto_message ty (hm m (List.mem_cons_self ..)) hrs
    rw [List.flatMap_cons, List.foldl_append, hfold,
      ih (fun m' hm' => hm m' (List.mem_cons_of_mem _ hm')) _ hend, List.flatMap_cons,
      List.reverse_append, List.append_assoc]

/-! ## A stream that is cut, and one that is not -/

variable {v v' : Scan σ} {rs rs' : List Report}

/-- The reports, and as much of the marked string as has been read. -/
def Scan.close (g : Grammar σ) (v : Scan σ) (rs : List Report) : List Report :=
  match v.mark with
  | none => rs
  | some (k, at_) => joinOnto rs (piece g v.state k at_)

/-- The callbacks `cs`, behind the reports `rs`. -/
def joinCalls (g : Grammar σ) (rs : List Report) (cs : List (Call σ)) : List Report :=
  (cs.map (Call.report g)).foldl joinOnto rs

theorem joinCalls_append (rs : List Report) (cs cs' : List (Call σ)) :
    joinCalls g rs (cs ++ cs') = joinCalls g (joinCalls g rs cs) cs' := by
  rw [joinCalls, List.map_append, List.foldl_append]
  rfl

/-- A parser that has read a stream, and one that has read it in calls, with the reports of both. -/
structure Alike (g : Grammar σ) (v v' : Scan σ) (rs rs' : List Report) : Prop where
  similar : v.Similar v'
  close : v'.close g rs' = v.close g rs

/-- More bytes, in another state. -/
theorem Alike.extend (h : Alike g v v' rs rs') (s : σ) (bs : List Byte) :
    Alike g { v with state := s, mark := v.mark.map fun x => (x.1, x.2 ++ bs) }
      { v' with state := s, mark := v'.mark.map fun x => (x.1, x.2 ++ bs) } rs rs' := by
  obtain ⟨⟨hstate, hfailed, hmark⟩, hclose⟩ := h
  obtain ⟨state, mark, failed⟩ := v
  obtain ⟨state', mark', failed'⟩ := v'
  dsimp only at hstate hfailed hmark
  subst hstate hfailed
  refine ⟨⟨rfl, rfl, ?_⟩, ?_⟩
  · dsimp only
    rw [Option.map_map, Option.map_map]
    exact hmark
  · cases mark with
    | none =>
      obtain rfl := Option.map_eq_none_iff.mp hmark
      exact hclose
    | some m =>
      obtain ⟨⟨k', x'⟩, rfl, hk⟩ := Option.map_eq_some_iff.mp hmark
      obtain rfl : k' = m.1 := hk
      have := congrArg (joinOnto · (piece g s m.1 bs)) hclose
      dsimp only [Scan.close] at this
      rw [joinOnto_piece, joinOnto_piece] at this
      exact this

theorem Alike.push (h : Alike g v v' rs rs') (ch : Byte) : Alike g (v.push ch) (v'.push ch) rs rs' := by
  have := h.extend v.state [ch]
  rwa [show ({ v' with state := v.state, mark := v'.mark.map fun x => (x.1, x.2 ++ [ch]) } : Scan σ) =
    v'.push ch by rw [← h.similar.state]; rfl] at this

theorem Alike.act (h : Alike g v v' rs rs') {a : Action} (ha : a = .headersComplete → v.mark = none) :
    Alike g (v.act a).1 (v'.act a).1 (joinCalls g rs (v.act a).2) (joinCalls g rs' (v'.act a).2) := by
  refine ⟨(h.similar.act a).1, ?_⟩
  obtain ⟨⟨hstate, hfailed, hmark⟩, hclose⟩ := h
  obtain ⟨state, mark, failed⟩ := v
  obtain ⟨state', mark', failed'⟩ := v'
  dsimp only at hstate hfailed hmark
  subst hstate hfailed
  cases failed' with
  | true =>
    rw [act_failed rfl, act_failed rfl]
    exact hclose
  | false =>
    cases a with
    | error => exact hclose
    | mark k =>
      cases mark with
      | none =>
        obtain rfl := Option.map_eq_none_iff.mp hmark
        exact congrArg (joinOnto · (piece g state' k [])) hclose
      | some m =>
        obtain ⟨m', rfl, -⟩ := Option.map_eq_some_iff.mp hmark
        exact hclose
    | headersComplete =>
      obtain rfl := ha rfl
      obtain rfl := Option.map_eq_none_iff.mp hmark
      exact congrArg (joinOnto · (.headersComplete (g.method state'))) hclose
    | data k =>
      cases mark with
      | none =>
        obtain rfl := Option.map_eq_none_iff.mp hmark
        exact hclose
      | some m =>
        obtain ⟨m', rfl, hk⟩ := Option.map_eq_some_iff.mp hmark
        by_cases he : m.1 = k
        · simp only [Scan.act, Bool.false_eq_true, if_false, hk, he, if_true]
          dsimp only [Scan.close] at hclose
          rw [hk, he] at hclose
          exact hclose
        · simp only [Scan.act, Bool.false_eq_true, if_false, hk, he]
          exact hclose

theorem Alike.acts (h : Alike g v v' rs rs') {final : Option Element → Phase → Prop}
    {as : List Action} {m : Option (Element × Bool)} (hm : m.map Prod.fst = v.mark.map Prod.fst)
    (hall : Allowed ty final m ph as) :
    Alike g (trace Scan.act v as).1 (trace Scan.act v' as).1
      (joinCalls g rs (trace Scan.act v as).2) (joinCalls g rs' (trace Scan.act v' as).2) := by
  induction as generalizing v v' rs rs' m ph with
  | nil => exact h
  | cons a as ih =>
    have hact := h.act (a := a) fun ha => by
      subst ha
      obtain ⟨rfl, -, -⟩ : m = none ∧ _ := by cases m <;> exact hall
      exact Option.map_eq_none_iff.mp hm.symm
    rw [trace_cons, trace_cons, joinCalls_append, joinCalls_append]
    cases hf : v.failed with
    | true =>
      rw [act_failed hf, act_failed (h.similar.failed.trans hf)] at hact ⊢
      rw [acts_failed hf, acts_failed (h.similar.failed.trans hf)]
      exact h
    | false =>
      obtain ⟨state, mark, failed⟩ := v
      obtain rfl : failed = false := hf
      cases a with
      | error =>
        have hf' : (Scan.act v' .error).1.failed = true := by
          rw [hact.similar.failed]
          rfl
        rw [acts_failed (v := (Scan.act ⟨state, mark, false⟩ .error).1) rfl, acts_failed hf']
        exact hact
      | mark k =>
        cases m with
        | some x => exact hall.elim
        | none =>
          obtain rfl := Option.map_eq_none_iff.mp hm.symm
          exact ih hact rfl hall.2
      | data k =>
        cases m with
        | none => exact hall.elim
        | some x =>
          obtain ⟨rfl, ph', -, hall⟩ := hall
          obtain ⟨y, rfl, hy⟩ := Option.map_eq_some_iff.mp hm.symm
          have hnone : (Scan.act ⟨state, some y, false⟩ (.data x.1)).1.mark = none := by
            rw [← hy]
            simp [Scan.act]
          refine ih hact ?_ hall
          rw [hnone]
          rfl
      | headersComplete =>
        obtain ⟨rfl, -, hall⟩ : m = none ∧ ph ≠ .due ∧ Allowed ty final none .idle as := by
          cases m <;> exact hall
        exact ih hact hm hall

theorem Alike.byte (hg : Coherent ty g P) (h : Alike g v v' rs rs') (hv : v.Ok g ty P ph) (ch : Byte) :
    Alike g (v.byte g ch).1 (v'.byte g ch).1 (joinCalls g rs (v.byte g ch).2)
      (joinCalls g rs' (v'.byte g ch).2) := by
  cases hf : v.failed with
  | true =>
    rw [Scan.byte, Scan.byte, if_pos hf, if_pos (h.similar.failed.trans hf)]
    exact h
  | false =>
    have henter : Alike g (v.enter g ch) (v'.enter g ch) rs rs' := by
      have := h.extend (g.step v.state ch).2 []
      simp only [List.append_nil, Option.map_id'] at this
      rw [Scan.enter, Scan.enter, h.similar.state]
      exact this
    have hacts := henter.acts (m := (g.marked v.state).map (·, true)) (by
      rw [Option.map_map, hv.marked hf]
      exact Option.map_id_apply) (hg.step v.state ph ch (hv.phase hf))
    rw [byte_eq hf, byte_eq (h.similar.failed.trans hf), h.similar.state]
    exact hacts.push ch

/-- A string that is marked when a call ends is reported, and marked again. -/
theorem Scan.Ok.cut_marked (hv : v.Ok g ty P ph) (hs : v.Similar v') (hf : v.failed = false)
    {k : Element} {at_ : List Byte} (hm : v'.mark = some (k, at_)) :
    v'.cut g = ({ v' with mark := some (k, []) }, [.data v'.state k at_]) := by
  have hf' : v'.failed = false := hs.failed.trans hf
  have hstart : Scan.start g v'.state = { v' with mark := some (k, []) } := by
    rw [Scan.start, hs.state, hv.marked hf, ← hs.mark, hm, ← hs.state, ← hf']
    rfl
  rw [Scan.cut, Scan.finish, hm]
  simp [Scan.act, hm, hf', hstart]

theorem Alike.cut (h : Alike g v v' rs rs') (hv : v.Ok g ty P ph) :
    Alike g v (v'.cut g).1 rs (joinCalls g rs' (v'.cut g).2) := by
  have hs := hv.cut h.similar
  refine ⟨hs.1, ?_⟩
  cases hm : v.mark with
  | none =>
    rw [hs.2 hm]
    exact h.close
  | some m =>
    obtain ⟨⟨k', x'⟩, hm', rfl⟩ := Option.map_eq_some_iff.mp (h.similar.mark.trans (by rw [hm]; rfl))
    cases hf : v.failed with
    | true =>
      have hfin : v'.finish = (v', []) := by
        rw [Scan.finish, hm']
        exact act_failed (h.similar.failed.trans hf) _
      rw [Scan.cut, hfin, if_pos (h.similar.failed.trans hf)]
      exact h.close
    | false =>
      rw [hv.cut_marked h.similar hf hm', ← h.close]
      refine (joinOnto_piece rs' v'.state v'.state m.1 x' []).trans ?_
      rw [List.append_nil, Scan.close, hm']

/-- What is left at the end of a call has been reported. -/
theorem Alike.close_cut (h : Alike g v v' rs rs') (hv : v.Ok g ty P ph) (hf : v.failed = false) :
    (v'.cut g).1.close g (joinCalls g rs' (v'.cut g).2) = joinCalls g rs' (v'.cut g).2 := by
  cases hm : v'.mark with
  | none =>
    have hnone : v.mark = none := by
      have := h.similar.mark
      rw [hm] at this
      exact Option.map_eq_none_iff.mp this.symm
    rw [(hv.cut h.similar).2 hnone, Scan.close, hm]
  | some m =>
    rw [hv.cut_marked h.similar hf hm]
    refine (joinOnto_piece rs' v'.state v'.state m.1 m.2 []).trans ?_
    rw [List.append_nil]
    rfl

/-- Bytes, and ends of calls. -/
theorem Alike.inputs (hg : Coherent ty g P) (h : Alike g v v' rs rs') (hv : v.Ok g ty P ph)
    (is : List (Option Byte)) :
    Alike g (trace (Scan.byte g) v is.reduceOption).1 (trace (Scan.input g) v' is).1
      (joinCalls g rs (trace (Scan.byte g) v is.reduceOption).2)
      (joinCalls g rs' (trace (Scan.input g) v' is).2) := by
  induction is generalizing v v' rs rs' ph with
  | nil => exact h
  | cons i is ih =>
    cases i with
    | none =>
      rw [List.reduceOption_cons_of_none, trace_cons, joinCalls_append]
      exact ih (h.cut hv) hv
    | some ch =>
      obtain ⟨ph', -, hv'⟩ := hv.byte hg ch
      rw [List.reduceOption_cons_of_some, trace_cons, trace_cons, joinCalls_append, joinCalls_append]
      exact ih (h.byte hg hv ch) hv'

/-- What a stream makes the parser report, with what is left of the last string. -/
def streamReports (g : Grammar σ) (s : σ) (bs : List Byte) : List Report :=
  ((trace (Scan.byte g) (.start g s) bs).1.close g
    (joinCalls g [] (trace (Scan.byte g) (.start g s) bs).2)).reverse

/-- The parts that are reported of a stream without an error, joined, are what the stream
makes the parser report, however it comes in calls. -/
theorem joined_calls (hg : Coherent ty g P) (cs : List (List Byte))
    (hf : (trace (Scan.input g) (.start g (g.init ty)) (inputs cs)).1.failed = false) :
    joined ((calls g (g.init ty) cs).map (Call.report g)) =
      streamReports g (g.init ty) cs.flatten := by
  have h₀ : Alike g (Scan.start g (g.init ty)) (Scan.start g (g.init ty)) [] [] :=
    ⟨⟨rfl, rfl, rfl⟩, rfl⟩
  rw [(h₀.inputs hg (Scan.Ok.start hg) (inputs cs)).similar.failed, reduceOption_inputs] at hf
  refine congrArg List.reverse ?_
  change joinCalls g [] (calls g (g.init ty) cs) = _
  rcases cs.eq_nil_or_concat with rfl | ⟨cs, c, rfl⟩
  · have hmark : (Scan.start g (g.init ty)).mark = none := by rw [Scan.start, hg.unmarked]; rfl
    rw [List.flatten_nil, trace_nil, Scan.close, hmark]
    rfl
  rw [List.concat_eq_append] at hf ⊢
  -- Everything but the end of the last call.
  have his : inputs (cs ++ [c]) = (inputs cs ++ c.map some) ++ [none] := by simp [inputs]
  have hred : (inputs cs ++ c.map some).reduceOption = (cs ++ [c]).flatten := by
    have := reduceOption_inputs (cs ++ [c])
    rw [his, List.reduceOption_append] at this
    simpa using this
  have h := h₀.inputs hg (Scan.Ok.start hg) (inputs cs ++ c.map some)
  rw [hred] at h
  obtain ⟨ph, -, hv⟩ := (Scan.Ok.start hg).bytes hg (cs ++ [c]).flatten
  rw [← (h.cut hv).close, h.close_cut hv hf, calls, his, trace_append, joinCalls_append, trace_cons,
    trace_nil, List.append_nil]
  rfl

/-! ## Calls whose callbacks do not fail -/

variable {δ ρ : Type} {settings : Settings σ δ ρ} {d d' : δ}

/-- A parser that has failed stays as it is. -/
theorem execute_stuck {x : HttpParser σ × δ} (h : x.1.httpErrno = true) (cs : List (List Byte)) :
    (trace (execute g settings) x cs).1 = x := by
  induction cs with
  | nil => rfl
  | cons c cs ih =>
    have hx : execute g settings x c = (x, []) := by rw [execute, httpParserExecute, if_pos h]
    rw [trace_cons, hx, ih]

/-- The start of the next call. -/
theorem cut_start (v : Scan σ) : (v.cut g).1.state = v.finish.1.state ∧
    (v.cut g).1.failed = v.finish.1.failed ∧
    ((v.cut g).1.failed = false → (v.cut g).1 = .start g (v.cut g).1.state) := by
  rw [Scan.cut]
  cases hf : v.finish.1.failed with
  | true => simp [hf]
  | false => simp [Scan.start]

/-- The parser behind a stream that comes in calls, if none of its callbacks fails. -/
theorem execute_eq_scan (settings : Settings σ δ ρ) (hv : v.failed = false → v = .start g v.state) {cs : List (List Byte)}
    (hcs : ∀ c ∈ cs, c ≠ [])
    (hd : (replay settings ty d (trace (Scan.input g) v (inputs cs)).2).2 = some d') :
    (trace (execute g settings) (⟨ty, v.state, v.failed⟩, d) cs).1 =
      (⟨ty, (trace (Scan.input g) v (inputs cs)).1.state,
        (trace (Scan.input g) v (inputs cs)).1.failed⟩, d') := by
  induction cs generalizing v d with
  | nil =>
    obtain rfl := Option.some.inj hd
    rfl
  | cons c cs ih =>
    have hin : trace (Scan.input g) v (inputs (c :: cs)) =
        ((trace (Scan.input g) ((trace (Scan.byte g) v c).1.cut g).1 (inputs cs)).1,
          (trace (Scan.byte g) v c).2 ++ (trace (Scan.byte g) v c).1.finish.2 ++
            (trace (Scan.input g) ((trace (Scan.byte g) v c).1.cut g).1 (inputs cs)).2) := by
      rw [inputs_cons, trace_append, trace_input_map, trace_cons, List.append_assoc]
      rfl
    rw [hin] at hd ⊢
    dsimp only at hd ⊢
    cases hf : v.failed with
    | true =>
      have hbytes := bytes_failed (g := g) hf c
      have hcut : v.cut g = (v, []) := by
        have := input_failed (g := g) hf [none]
        rw [trace_cons, trace_nil, List.append_nil] at this
        exact this
      have hfin : v.finish = (v, []) := by
        rw [Scan.finish]
        split
        · exact act_failed hf _
        · rfl
      rw [hbytes] at hd ⊢
      dsimp only at hd ⊢
      rw [hcut, hfin, input_failed hf] at hd
      rw [hcut, input_failed hf]
      obtain rfl := Option.some.inj hd
      dsimp only
      rw [hf, execute_stuck rfl]
    | false =>
      have h₀ : Follows settings ty d [] v (Exec.start g ⟨ty, v.state, false⟩ d) :=
        ⟨rfl, fun d' hd' => ⟨by rw [← hf]; rfl, by rw [hv hf]; rfl, Option.some.inj hd'⟩,
          fun hn => by cases hn⟩
      have h := (h₀.bytes (g := g) c).finish
      rw [List.nil_append] at h
      have hx : execute g settings (⟨ty, v.state, false⟩, d) c =
          ((((c.foldl (Exec.byte g settings) (.start g ⟨ty, v.state, false⟩ d)).finish settings).parser,
            ((c.foldl (Exec.byte g settings) (.start g ⟨ty, v.state, false⟩ d)).finish settings).data),
            ((c.foldl (Exec.byte g settings)
              (.start g ⟨ty, v.state, false⟩ d)).finish settings).records) := by
        rw [execute, httpParserExecute, if_neg (by simp), if_neg (hcs c (List.mem_cons_self ..))]
      cases hr : (replay settings ty d ((trace (Scan.byte g) v c).2 ++
          (trace (Scan.byte g) v c).1.finish.2)).2 with
      | none =>
        rw [replay_append_none (Prod.ext rfl hr)] at hd
        cases hd
      | some d₁ =>
        rw [replay_append_some (Prod.ext rfl hr)] at hd
        obtain ⟨hp, -, hdata⟩ := h.running d₁ hr
        obtain ⟨hstate, hfailed, hstart⟩ := cut_start (g := g) (trace (Scan.byte g) v c).1
        have := ih hstart (fun c' hc' => hcs c' (List.mem_cons_of_mem _ hc')) hd
        rw [trace_cons, hx]
        dsimp only
        rw [hp, hdata, ← hstate, ← hfailed, this]

end Noff.Http
