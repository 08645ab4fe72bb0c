import Noff.Http.Cut

/-!
# HTTP records and the cutting of a stream into calls

A string that crosses a call boundary is reported in pieces, and the data
callbacks of `Http` keep only the last piece. So a string that is cut off its end
changes the records behind it (`replay_cut_ne`). Cuts that fall into no string do
no harm (`feed_uncut`).
-/

namespace Noff.Http

variable {σ : Type} {g : Grammar σ} {P : σ → Phase → Prop} {ty : HttpParserType}
  {ph ph' : Phase} {cs cs' : List (Call σ)} {call : Call σ} {c : Current}

/-! ## The callbacks of `Http` -/

/-- The message that is gathered in one direction. -/
def Current.common (ty : HttpParserType) (c : Current) : HttpCommon :=
  match ty with
  | .request => c.request.toHttpCommon
  | .response => c.response.toHttpCommon

def HttpRecord.common : HttpRecord → HttpCommon
  | .request r => r.toHttpCommon
  | .response r => r.toHttpCommon

theorem common_onHeaderFiled (data : List Byte) :
    (onHeaderFiled ty data c).common ty = (c.common ty).onHeaderFiled data := by
  cases ty <;> rfl

theorem onHeaderValue_empty (h : (c.common ty).currentHeaderField = []) (data : List Byte) :
    onHeaderValue ty data c = none := by
  cases ty <;>
  · rw [onHeaderValue, HttpCommon.onHeaderValue, if_pos (by exact h)]
    rfl

theorem onHeaderValue_some (h : (c.common ty).currentHeaderField ≠ []) (data : List Byte) :
    ∃ c', onHeaderValue ty data c = some c' ∧
      (c'.common ty).currentHeaderField = (c.common ty).currentHeaderField ∧
      (c'.common ty).headers (c.common ty).currentHeaderField = some data := by
  cases ty <;>
  · rw [onHeaderValue, HttpCommon.onHeaderValue, if_neg (by exact h)]
    exact ⟨_, rfl, rfl, Function.update_self ..⟩

/-- The record that `onHeadersComplete` passes on. -/
def recordOf (ty : HttpParserType) (method : List Byte) (c : Current) : HttpRecord :=
  match ty with
  | .request => .request { c.request with method := method }
  | .response => .response c.response

theorem onHeadersComplete_records (method : List Byte) :
    (onHeadersComplete ty method c).2 = [recordOf ty method c] := by
  cases ty <;> rfl

theorem common_recordOf (method : List Byte) : (recordOf ty method c).common = c.common ty := by
  cases ty <;> rfl

/-- A field is there where a value may come. -/
def FieldSet (ty : HttpParserType) (ph : Phase) (c : Current) : Prop :=
  ph ≠ .idle → (c.common ty).currentHeaderField ≠ []

/-- A callback that comes in order does not fail. -/
theorem invoke_running (h : ph.next ty call = some ph') (hf : FieldSet ty ph c) :
    ∃ c' rs, call.invoke (settings g) ty c = some (c', rs) ∧ FieldSet ty ph' c' := by
  cases call with
  | headersComplete s =>
    refine ⟨_, _, rfl, fun hne => absurd ?_ hne⟩
    rw [Phase.next] at h
    split at h
    · cases h
    · exact (Option.some.inj h).symm
  | data s k at_ =>
    have hidle (hk : k = .url ∨ k = .status) : ph' = .idle := by
      rcases hk with rfl | rfl <;> cases ph <;> simp [Phase.next, Phase.report] at h <;>
        exact h.2.symm
    cases k with
    | url => exact ⟨_, _, rfl, fun hne => absurd (hidle (.inl rfl)) hne⟩
    | status => exact ⟨_, _, rfl, fun hne => absurd (hidle (.inr rfl)) hne⟩
    | headerField =>
      refine ⟨_, _, rfl, fun _ => ?_⟩
      have hne : at_ ≠ [] := by
        rintro rfl
        cases ph <;> simp [Phase.next, Phase.report] at h
      rw [common_onHeaderFiled]
      simpa [HttpCommon.onHeaderFiled, HttpCommon.addBytes] using hne
    | headerValue =>
      have hne : ph ≠ .idle := by
        rintro rfl
        cases h
      obtain ⟨c', hc', hfield, -⟩ := onHeaderValue_some (hf hne) at_
      refine ⟨c', [], ?_, fun _ => hfield ▸ hf hne⟩
      rw [Call.invoke]
      exact congrArg (Option.map (·, [])) hc'

theorem replay_running (h : Phase.after ty ph cs = some ph') (hf : FieldSet ty ph c) :
    ∃ c', (replay (settings g) ty c cs).2 = some c' ∧ FieldSet ty ph' c' := by
  induction cs generalizing ph c with
  | nil =>
    cases h
    exact ⟨c, rfl, hf⟩
  | cons call cs ih =>
    obtain ⟨ph₁, h₁, h₂⟩ := Phase.after_cons.mp h
    obtain ⟨c₁, rs, hc₁, hf₁⟩ := invoke_running (g := g) h₁ hf
    rw [replay, hc₁]
    exact ih h₂ hf₁

theorem replay_ne_nil (h : Phase.after ty ph cs = some ph') (hf : FieldSet ty ph c)
    (hr : recorded cs = true) : (replay (settings g) ty c cs).1 ≠ [] := by
  induction cs generalizing ph c with
  | nil => cases hr
  | cons call cs ih =>
    obtain ⟨ph₁, h₁, h₂⟩ := Phase.after_cons.mp h
    obtain ⟨c₁, rs, hc₁, hf₁⟩ := invoke_running (g := g) h₁ hf
    rw [replay, hc₁]
    cases call with
    | data s k at_ => exact fun he => ih h₂ hf₁ hr (List.append_eq_nil_iff.mp he).2
    | headersComplete s =>
      have hrs : rs = [recordOf ty (g.method s) c] := by
        rw [← onHeadersComplete_records]
        exact (congrArg Prod.snd (Option.some.inj hc₁)).symm
      rw [hrs]
      exact List.cons_ne_nil _ _

/-- Behind a string that is not a field, a bare stream goes on with the record. -/
theorem head_of_bare (h : Phase.after ty ph cs = some ph') (hph : ph ≠ .due) (hb : Bare cs)
    (hr : recorded cs = true) : ∃ s cs', cs = .headersComplete s :: cs' := by
  cases cs with
  | nil => cases hr
  | cons call cs =>
    cases call with
    | headersComplete s => exact ⟨s, cs, rfl⟩
    | data s k at_ =>
      obtain rfl : at_ = [] := hb [] s k at_ cs rfl hr
      obtain ⟨ph₁, h₁, -⟩ := Phase.after_cons.mp h
      cases k <;> cases ph <;> simp [Phase.next, Phase.report] at h₁ hph

theorem invoke_headerValue {s : σ} {at_ : List Byte} {c' : Current} {rs : List HttpRecord}
    (h : (Call.data s .headerValue at_).invoke (settings g) ty c = some (c', rs)) :
    onHeaderValue ty at_ c = some c' := by
  obtain ⟨c₁, hc₁, he⟩ := Option.map_eq_some_iff.mp h
  cases he
  exact hc₁

theorem invoke_data_records {s : σ} {k : Element} {at_ : List Byte} {c' : Current}
    {rs : List HttpRecord}
    (h : (Call.data s k at_).invoke (settings g) ty c = some (c', rs)) : rs = [] := by
  obtain ⟨c₁, -, he⟩ := Option.map_eq_some_iff.mp h
  exact (congrArg Prod.snd he).symm

/-- The record behind a string, for one that is not a field: it shows the string. -/
theorem recordOf_ne {s s' : σ} {k : Element} {at_ : List Byte} (hk : k ≠ .headerField)
    (hnext : ph.next ty (.data s k at_) = some ph') (hf : FieldSet ty ph c) (hne : at_ ≠ [])
    {c₁ c₂ c₃ : Current} {rs₁ rs₂ rs₃ : List HttpRecord}
    (h₁ : (Call.data s k at_).invoke (settings g) ty c = some (c₁, rs₁))
    (h₂ : (Call.data s' k at_).invoke (settings g) ty c = some (c₂, rs₂))
    (h₃ : (Call.data s k []).invoke (settings g) ty c₂ = some (c₃, rs₃)) (method : List Byte) :
    recordOf ty method c₁ ≠ recordOf ty method c₃ := by
  cases k with
  | headerField => exact absurd rfl hk
  | url =>
    obtain rfl : ty = .request := by
      cases ph <;> simp [Phase.next, Phase.report] at hnext <;> exact hnext.1.2
    cases h₁
    cases h₂
    cases h₃
    intro he
    exact hne (congrArg HttpRequest.url (HttpRecord.request.inj he))
  | status =>
    obtain rfl : ty = .response := by
      cases ph <;> simp [Phase.next, Phase.report] at hnext <;> exact hnext.1.2
    cases h₁
    cases h₂
    cases h₃
    intro he
    exact hne (congrArg HttpResponse.status (HttpRecord.response.inj he))
  | headerValue =>
    have hfield : (c.common ty).currentHeaderField ≠ [] := hf (by rintro rfl; cases hnext)
    obtain ⟨c₁', hc₁, hsame, hh₁⟩ := onHeaderValue_some hfield at_
    obtain ⟨c₃', hc₃, -, hh₃⟩ := onHeaderValue_some (hsame ▸ hfield) []
    obtain rfl : c₁' = c₁ := Option.some.inj (hc₁.symm.trans (invoke_headerValue h₁))
    obtain rfl : c₁' = c₂ := Option.some.inj (hc₁.symm.trans (invoke_headerValue h₂))
    obtain rfl : c₃' = c₃ := Option.some.inj (hc₃.symm.trans (invoke_headerValue h₃))
    intro he
    have hcommon := congrArg HttpRecord.common he
    rw [common_recordOf, common_recordOf] at hcommon
    rw [hsame, ← hcommon, hh₁] at hh₃
    exact hne (Option.some.inj hh₃)

/-- A string that is cut off its end changes the records behind it. -/
theorem replay_cut_ne {s s' : σ} {k : Element} {at_ : List Byte} {post : List (Call σ)}
    (hf : FieldSet ty ph c) (ha : Phase.after ty ph (.data s k at_ :: post) = some ph')
    (hne : at_ ≠ []) (hb : Bare post) (hr : recorded post = true) :
    (replay (settings g) ty c (.data s k at_ :: post)).1 ≠
      (replay (settings g) ty c (.data s' k at_ :: .data s k [] :: post)).1 := by
  obtain ⟨ph₁, h₁, h₂⟩ := Phase.after_cons.mp ha
  have h₁' : ph.next ty (.data s' k at_) = some ph₁ := h₁
  obtain ⟨c₁, rs₁, hc₁, hf₁⟩ := invoke_running (g := g) h₁ hf
  obtain ⟨c₂, rs₂, hc₂, -⟩ := invoke_running (g := g) h₁' hf
  have hrec := replay_ne_nil (g := g) ha hf hr
  obtain rfl := invoke_data_records hc₁
  obtain rfl := invoke_data_records hc₂
  -- If a callback fails, there is no record.
  cases hc₃ : (Call.data s k []).invoke (settings g) ty c₂ with
  | none =>
    intro he
    rw [he, replay, hc₂] at hrec
    simp only [replay, hc₃] at hrec
    exact hrec rfl
  | some x =>
    obtain ⟨c₃, rs₃⟩ := x
    obtain rfl := invoke_data_records hc₃
    have hright : (replay (settings g) ty c (.data s' k at_ :: .data s k [] :: post)).1 =
        (replay (settings g) ty c₃ post).1 := by
      simp only [replay, hc₂, hc₃, List.nil_append]
    have hleft : (replay (settings g) ty c (.data s k at_ :: post)).1 =
        (replay (settings g) ty c₁ post).1 := by
      simp only [replay, hc₁, List.nil_append]
    by_cases hk : k = .headerField
    · -- The field is gone when its value comes, which fails.
      subst hk
      have hdue : ph₁ = .due := by
        cases ph <;> simp [Phase.next, Phase.report] at h₁ <;> exact h₁.2.symm
      subst hdue
      have hgone : (c₃.common ty).currentHeaderField = [] := by
        obtain rfl : onHeaderFiled ty [] c₂ = c₃ := (congrArg Prod.fst (Option.some.inj hc₃))
        rw [common_onHeaderFiled]
        rfl
      intro he
      rw [he, hright] at hrec
      cases post with
      | nil => cases hr
      | cons call post =>
        obtain ⟨ph₂, h₃, -⟩ := Phase.after_cons.mp h₂
        cases call with
        | headersComplete s₂ => simp [Phase.next] at h₃
        | data s₂ k₂ at₂ =>
          obtain rfl : k₂ = .headerValue := by cases k₂ <;> simp [Phase.next, Phase.report] at h₃ ⊢
          have hfail : (Call.data s₂ .headerValue at₂).invoke (settings g) ty c₃ = none :=
            congrArg (Option.map _) (onHeaderValue_empty hgone at₂)
          simp only [replay, hfail] at hrec
          exact hrec rfl
    · have hph₁ : ph₁ ≠ .due := by
        rintro rfl
        cases k <;> cases ph <;> simp [Phase.next, Phase.report] at h₁ hk
      obtain ⟨s₂, post, rfl⟩ := head_of_bare h₂ hph₁ hb hr
      rw [hleft, hright]
      simp only [replay, Call.invoke]
      intro he
      have hhead : (onHeadersComplete ty (g.method s₂) c₁).2 ++ _ =
          (onHeadersComplete ty (g.method s₂) c₃).2 ++ _ := he
      rw [onHeadersComplete_records, onHeadersComplete_records] at hhead
      exact recordOf_ne hk h₁ hf hne hc₁ hc₂ hc₃ _ (List.cons_eq_cons.mp hhead).1

/-! ## Streams -/

theorem Bare.append_not_recorded (h : Bare cs) (hr : recorded cs' = false) : Bare (cs ++ cs') := by
  intro pre s k at_ post he hpost
  rcases List.append_eq_append_iff.mp he with ⟨pre', rfl, hcs'⟩ | ⟨c', rfl, hpost'⟩
  · rw [hcs', recorded, List.any_append, Bool.or_eq_false_iff] at hr
    cases hpost.symm.trans hr.2
  · cases c' with
    | nil =>
      rw [List.nil_append] at hpost'
      rw [← hpost'] at hr
      cases hpost.symm.trans hr
    | cons call c' =>
      obtain ⟨rfl, rfl⟩ := List.cons_eq_cons.mp hpost'
      have hpost : recorded (c' ++ cs') = true := hpost
      rw [recorded, List.any_append, Bool.or_eq_true] at hpost
      refine h pre s k at_ c' rfl (hpost.resolve_right fun ht => ?_)
      cases ht.symm.trans hr

theorem reduceOption_inputs (cs : List (List Byte)) : (inputs cs).reduceOption = cs.flatten := by
  induction cs with
  | nil => rfl
  | cons c cs ih =>
    rw [inputs_cons, List.reduceOption_append, List.reduceOption_cons_of_none, ih, List.flatten_cons]
    congr 1
    simp [List.reduceOption]

/-- A stream that comes in one call: its callbacks, and one for a string left over. -/
theorem calls_single (s : σ) (x : List Byte) : ∃ rest, recorded rest = false ∧
    calls g s [x] = (trace (Scan.byte g) (.start g s) x).2 ++ rest := by
  refine ⟨_, recorded_cut (g := g) (trace (Scan.byte g) (.start g s) x).1, ?_⟩
  rw [calls, inputs_cons, trace_append, trace_input_map, trace_cons]
  simp [inputs, Scan.input]

/-- A stream that comes in two calls. -/
theorem calls_pair (s : σ) {x₁ : List Byte} {v₁ : Scan σ} {pre : List (Call σ)}
    (h : trace (Scan.byte g) (.start g s) x₁ = (v₁, pre)) (x₂ : List Byte) :
    ∃ rest, recorded rest = false ∧ calls g s [x₁, x₂] =
      pre ++ (v₁.cut g).2 ++ (trace (Scan.byte g) (v₁.cut g).1 x₂).2 ++ rest := by
  refine ⟨_, recorded_cut (g := g) (trace (Scan.byte g) (v₁.cut g).1 x₂).1, ?_⟩
  rw [calls, inputs_cons, trace_append, trace_input_map, h, trace_cons, inputs_cons, trace_append,
    Scan.input, trace_input_map, trace_cons]
  simp [inputs, Scan.input]

/-- No string is marked where a call ends and another follows. -/
def Uncut (g : Grammar σ) (s : σ) (cs : List (List Byte)) : Prop :=
  ∀ cs₁ cs₂, cs = cs₁ ++ cs₂ → cs₂ ≠ [] →
    (trace (Scan.byte g) (.start g s) cs₁.flatten).1.mark = none

/-- Cuts that fall into no string leave the records as they are. -/
theorem feed_uncut {http : Http σ} {t4 : Tuple4} {ts : Int} (fromClient : Bool)
    (hg : Coherent (typeOf fromClient) g P) (h80 : t4.dest = 80)
    (hnew : http.table t4 = some (.create g t4 ts)) {cs : List (List Byte)}
    (hne : ∀ c ∈ cs, c ≠ []) (hcs : Uncut g (g.init (typeOf fromClient)) cs) :
    http.feed g t4 fromClient cs = (replay (settings g) (typeOf fromClient)
      ⟨.create t4 ts, .create t4 ts⟩
      (trace (Scan.byte g) (.start g (g.init (typeOf fromClient))) cs.flatten).2).1 := by
  rw [Http.feed_eq_replay fromClient h80 hnew hne, calls]
  suffices h : ∀ cs' cs, Uncut g (g.init (typeOf fromClient)) (cs' ++ cs) → ∃ rest,
      recorded rest = false ∧
      (trace (Scan.input g)
        (trace (Scan.byte g) (.start g (g.init (typeOf fromClient))) cs'.flatten).1
        (inputs cs)).2 =
      (trace (Scan.byte g)
        (trace (Scan.byte g) (.start g (g.init (typeOf fromClient))) cs'.flatten).1
        cs.flatten).2 ++ rest by
    obtain ⟨rest, hrest, heq⟩ := h [] cs hcs
    rw [List.flatten_nil, trace_nil] at heq
    rw [heq, replay_append_not_recorded hrest]
  intro cs' cs
  induction cs generalizing cs' with
  | nil => exact fun _ => ⟨[], rfl, rfl⟩
  | cons c cs ih =>
    intro hcs
    obtain ⟨ph₁, -, hok⟩ := (Scan.Ok.start hg).bytes hg (cs' ++ [c]).flatten
    have hstep : (trace (Scan.byte g) (trace (Scan.byte g)
        (.start g (g.init (typeOf fromClient))) cs'.flatten).1 c).1 =
        (trace (Scan.byte g) (.start g (g.init (typeOf fromClient))) (cs' ++ [c]).flatten).1 := by
      rw [List.flatten_append, trace_append, List.flatten_singleton]
    by_cases hlast : cs = []
    · subst hlast
      refine ⟨_, recorded_cut (g := g) (trace (Scan.byte g)
        (.start g (g.init (typeOf fromClient))) (cs' ++ [c]).flatten).1, ?_⟩
      rw [inputs_cons, trace_append, trace_input_map, trace_cons, hstep]
      simp [inputs, Scan.input]
    · -- The cut in front of the next call changes nothing.
      have hcut := (hok.cut ⟨rfl, rfl, rfl⟩).2
        (hcs (cs' ++ [c]) cs (by rw [List.append_assoc]; rfl) hlast)
      obtain ⟨rest, hrest, heq⟩ := ih (cs' ++ [c]) (by rw [List.append_assoc]; exact hcs)
      refine ⟨rest, hrest, ?_⟩
      rw [inputs_cons, trace_append, trace_input_map, trace_cons, List.flatten_cons, trace_append,
        hstep, Scan.input, hcut, heq, List.nil_append, List.append_assoc]

end Noff.Http
