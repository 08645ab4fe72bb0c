import Mathlib.Data.List.ReduceOption
import Noff.Http.Order

/-!
# Cutting a stream into calls

In a `Bare` stream every string in front of a record is empty. What the callbacks
make of such a stream does not depend on where it is cut (`records_of_bare`). In
any other stream there is a last string that breaks the rule, and
`Scan.Ok.locate` finds the place where it can be cut off its end.
-/

namespace Noff.Http

variable {σ : Type} {ty : HttpParserType} {ph ph' : Phase} {cs cs' : List (Call σ)}
  {g : Grammar σ} {P : σ → Phase → Prop} {v v' : Scan σ}

/-! ## Streams without strings -/

/-- Whether a record is made. -/
def recorded (cs : List (Call σ)) : Bool := cs.any Call.isHeadersComplete

/-- Every string that is reported in front of a record is empty. -/
def Bare (cs : List (Call σ)) : Prop :=
  ∀ pre s k at_ post, cs = pre ++ .data s k at_ :: post → recorded post = true → at_ = []

theorem Bare.right (h : Bare (cs ++ cs')) : Bare cs' := fun pre s k at_ post he =>
  h (cs ++ pre) s k at_ post (by rw [he, List.append_assoc])

theorem Bare.left (h : Bare (cs ++ cs')) : Bare cs := fun pre s k at_ post he hr =>
  h pre s k at_ (post ++ cs') (by rw [he, List.append_assoc]; rfl) (by
    rw [recorded, List.any_append, Bool.or_eq_true]
    exact .inl hr)

/-- The last string that breaks the rule. -/
theorem exists_last_of_not_bare (h : ¬ Bare cs) : ∃ pre s k at_ post,
    cs = pre ++ .data s k at_ :: post ∧ recorded post = true ∧ at_ ≠ [] ∧ Bare post := by
  induction cs with
  | nil =>
    refine absurd (fun pre s k at_ post he => ?_) h
    cases pre <;> cases he
  | cons c cs ih =>
    by_cases hb : Bare cs
    · simp only [Bare, not_forall] at h
      obtain ⟨pre, s, k, at_, post, he, hr, hne⟩ := h
      cases pre with
      | nil =>
        cases he
        exact ⟨[], s, k, at_, cs, rfl, hr, hne, hb⟩
      | cons c' pre =>
        obtain ⟨rfl, rfl⟩ := List.cons_eq_cons.mp he
        exact absurd (hb pre s k at_ post rfl hr) hne
    · obtain ⟨pre, s, k, at_, post, rfl, hr, hne, hb⟩ := ih hb
      exact ⟨c :: pre, s, k, at_, post, rfl, hr, hne, hb⟩

section

variable {δ ρ : Type} {settings : Settings σ δ ρ} {d d' : δ}

theorem replay_of_not_recorded (h : recorded cs = false) : (replay settings ty d cs).1 = [] := by
  induction cs generalizing d with
  | nil => rfl
  | cons c cs ih =>
    rw [recorded, List.any_cons, Bool.or_eq_false_iff] at h
    cases c with
    | headersComplete s => cases h.1
    | data s k at_ =>
      rw [replay, Call.invoke]
      cases settings.onData ⟨ty, s, false⟩ k at_ d with
      | none => rfl
      | some d' => exact ih h.2

theorem replay_append_not_recorded (h : recorded cs' = false) :
    (replay settings ty d (cs ++ cs')).1 = (replay settings ty d cs).1 := by
  cases hr : (replay settings ty d cs).2 with
  | none => rw [replay_append_none (Prod.ext rfl hr)]
  | some d' =>
    rw [replay_append_some (Prod.ext rfl hr), replay_of_not_recorded h, List.append_nil]

end

/-! ## Cutting such a stream -/

/-- Two parsers that differ only in what they have read of the marked string. -/
structure Scan.Similar (v v' : Scan σ) : Prop where
  state : v'.state = v.state
  failed : v'.failed = v.failed
  mark : v'.mark.map Prod.fst = v.mark.map Prod.fst

theorem Scan.Similar.act (h : v.Similar v') (a : Action) :
    (v.act a).1.Similar (v'.act a).1 ∧ recorded (v'.act a).2 = recorded (v.act a).2 := by
  obtain ⟨state, mark, failed⟩ := v
  obtain ⟨state', mark', failed'⟩ := v'
  obtain ⟨rfl, rfl, hm⟩ := h
  dsimp only at hm
  unfold Scan.act
  cases failed' with
  | true => exact ⟨⟨rfl, rfl, hm⟩, rfl⟩
  | false =>
    cases a with
    | error => exact ⟨⟨rfl, rfl, hm⟩, rfl⟩
    | headersComplete => exact ⟨⟨rfl, rfl, hm⟩, rfl⟩
    | mark k =>
      refine ⟨⟨rfl, rfl, ?_⟩, rfl⟩
      cases mark <;> cases mark' <;> first | exact hm | rfl | cases hm
    | data k =>
      cases mark with
      | none =>
        cases mark' with
        | none => exact ⟨⟨rfl, rfl, hm⟩, rfl⟩
        | some m' => cases hm
      | some m =>
        cases mark' with
        | none => cases hm
        | some m' =>
          have hk : m'.1 = m.1 := Option.some.inj hm
          by_cases he : m.1 = k
          · simp only [Bool.false_eq_true, if_false, hk, he, if_true]
            exact ⟨⟨rfl, rfl, rfl⟩, rfl⟩
          · simp only [Bool.false_eq_true, if_false, hk, he]
            exact ⟨⟨rfl, rfl, hm⟩, trivial⟩

theorem Scan.Similar.acts (h : v.Similar v') (as : List Action) :
    (trace Scan.act v as).1.Similar (trace Scan.act v' as).1 ∧
      recorded (trace Scan.act v' as).2 = recorded (trace Scan.act v as).2 := by
  induction as generalizing v v' with
  | nil => exact ⟨h, rfl⟩
  | cons a as ih =>
    obtain ⟨h₁, hr⟩ := h.act a
    obtain ⟨h₂, hr'⟩ := ih h₁
    refine ⟨h₂, ?_⟩
    rw [trace_cons, trace_cons, recorded, recorded, List.any_append, List.any_append]
    exact congrArg₂ _ hr hr'

theorem Scan.Similar.byte (h : v.Similar v') (ch : Byte) :
    (v.byte g ch).1.Similar (v'.byte g ch).1 ∧
      recorded (v'.byte g ch).2 = recorded (v.byte g ch).2 := by
  cases hf : v.failed with
  | true =>
    rw [Scan.byte, Scan.byte, if_pos hf, if_pos (h.failed.trans hf)]
    exact ⟨h, rfl⟩
  | false =>
    have henter : (v.enter g ch).Similar (v'.enter g ch) :=
      ⟨by rw [Scan.enter, Scan.enter, h.state], h.failed, h.mark⟩
    obtain ⟨⟨h₁, h₂, h₃⟩, hr⟩ := henter.acts (g.step v.state ch).1
    rw [byte_eq hf, byte_eq (h.failed.trans hf), h.state]
    refine ⟨⟨h₁, h₂, ?_⟩, hr⟩
    rw [Scan.push, Scan.push, Option.map_map, Option.map_map]
    exact h₃

/-- The end of a call makes no record. -/
theorem recorded_cut (v : Scan σ) : recorded (v.cut g).2 = false := by
  rw [Scan.cut, Scan.finish]
  cases hm : v.mark with
  | none => rfl
  | some m =>
    cases hf : v.failed <;> simp [Scan.act, hm, hf, recorded, Call.isHeadersComplete]

/-- The end of a call marks again what is marked. -/
theorem Scan.Ok.cut (h : v.Ok g ty P ph) (hs : v.Similar v') :
    v.Similar (v'.cut g).1 ∧ (v.mark = none → v'.cut g = (v', [])) := by
  have hmarked (hf : v.failed = false) : (Scan.start g v'.state).mark.map Prod.fst =
      v.mark.map Prod.fst := by
    rw [Scan.start, Option.map_map, hs.state, h.marked hf]
    exact Option.map_id_apply
  obtain ⟨state, mark, failed⟩ := v'
  obtain ⟨hstate, hfailed, hmark⟩ := hs
  dsimp only at hstate hfailed hmark hmarked
  rw [Scan.cut, Scan.finish]
  cases failed with
  | true =>
    have hact (a : Action) : Scan.act ⟨state, mark, true⟩ a = (⟨state, mark, true⟩, []) :=
      act_failed rfl a
    cases mark with
    | none => exact ⟨⟨hstate, hfailed, hmark⟩, fun _ => rfl⟩
    | some m =>
      simp only [hact]
      exact ⟨⟨hstate, hfailed, hmark⟩, fun _ => rfl⟩
  | false =>
    have hm := hmarked hfailed.symm
    cases mark with
    | none =>
      refine ⟨⟨hstate, hfailed, hm⟩, fun hn => ?_⟩
      have hnone : (Scan.start g state).mark = none := by
        rw [hn] at hm
        exact Option.map_eq_none_iff.mp hm
      exact congrArg (fun m => ((⟨state, m, false⟩ : Scan σ), ([] : List (Call σ)))) hnone
    | some m =>
      refine ⟨?_, fun hn => ?_⟩
      · simp only [Scan.act, Bool.false_eq_true, if_false, if_true]
        exact ⟨hstate, hfailed, hm⟩
      · rw [hn] at hmark
        cases hmark

/-- A string that is marked when a call ends is reported, and marked again. -/
theorem Scan.Ok.cut_open (h : v.Ok g ty P ph) (hf : v.failed = false) {k : Element}
    {at_ : List Byte} (hm : v.mark = some (k, at_)) :
    v.cut g = ({ v with mark := some (k, []) }, [.data v.state k at_]) := by
  have hstart : Scan.start g v.state = { v with mark := some (k, []) } := by
    rw [Scan.start, h.marked hf, hm, ← hf]
    rfl
  rw [Scan.cut, Scan.finish, hm]
  simp [Scan.act, hm, hf, hstart]

/-- Cuts change the strings, not the records' number. -/
theorem recorded_input (hg : Coherent ty g P) (h : v.Ok g ty P ph) (hs : v.Similar v')
    (is : List (Option Byte)) : recorded (trace (Scan.input g) v' is).2 =
      recorded (trace (Scan.byte g) v is.reduceOption).2 := by
  induction is generalizing v v' ph with
  | nil => rfl
  | cons i is ih =>
    cases i with
    | none =>
      obtain ⟨hs', -⟩ := h.cut hs
      rw [List.reduceOption_cons_of_none, trace_cons, recorded, List.any_append]
      exact (congrArg₂ _ (recorded_cut v') (ih h hs')).trans (Bool.false_or _)
    | some ch =>
      obtain ⟨hs', hr⟩ := hs.byte (g := g) ch
      obtain ⟨ph', -, h'⟩ := h.byte hg ch
      rw [List.reduceOption_cons_of_some, trace_cons, trace_cons, recorded, recorded,
        List.any_append, List.any_append]
      exact congrArg₂ _ hr (ih h' hs')

/-- In a bare stream no record follows a string that is not empty. -/
theorem Scan.Ok.not_recorded (hg : Coherent ty g P) (h : v.Ok g ty P ph) (hm : v.mark ≠ none)
    {xs : List Byte} (hb : Bare (trace (Scan.byte g) v xs).2) :
    recorded (trace (Scan.byte g) v xs).2 = false := by
  induction xs generalizing v ph with
  | nil => rfl
  | cons ch xs ih =>
    cases hf : v.failed with
    | true => rw [bytes_failed hf]; rfl
    | false =>
      obtain ⟨⟨k, at_⟩, hm⟩ := Option.ne_none_iff_exists'.mp hm
      have hne : at_ ≠ [] := h.nonempty _ hm
      rw [trace_cons] at hb ⊢
      rcases h.byte_open hg hf hm ch with ⟨hnil, hgo⟩ | ⟨cs, hcs⟩
      · obtain ⟨ph', -, h'⟩ := h.byte hg ch
        rw [hnil] at hb ⊢
        rcases hgo with hfail | hmark
        · rw [bytes_failed hfail]
          rfl
        · exact ih h' (by rw [hmark]; simp) hb
      · have hv : (v.byte g ch).2 = .data (g.step v.state ch).2 k at_ :: cs := by
          have := hcs at_
          rw [show ({ v with mark := some (k, at_) } : Scan σ) = v by rw [← hm]] at this
          exact congrArg Prod.snd this
        rw [hv] at hb ⊢
        by_contra hrec
        exact hne (hb [] _ k at_ _ rfl ((Bool.not_eq_false _).mp hrec))

/-- The records of a bare stream do not depend on the cuts. -/
theorem records_of_bare (hg : Coherent ty g P) {δ ρ : Type} {settings : Settings σ δ ρ} {d : δ}
    (h : v.Ok g ty P ph) (is : List (Option Byte))
    (hb : Bare (trace (Scan.byte g) v is.reduceOption).2) :
    (replay settings ty d (trace (Scan.input g) v is).2).1 =
      (replay settings ty d (trace (Scan.byte g) v is.reduceOption).2).1 := by
  induction is generalizing v ph d with
  | nil => rfl
  | cons i is ih =>
    cases i with
    | some ch =>
      obtain ⟨ph', -, h'⟩ := h.byte hg ch
      rw [List.reduceOption_cons_of_some, trace_cons] at hb ⊢
      rw [trace_cons]
      change (replay settings ty d ((v.byte g ch).2 ++ _)).1 = _
      cases hr : (replay settings ty d (v.byte g ch).2).2 with
      | none => rw [replay_append_none (Prod.ext rfl hr), replay_append_none (Prod.ext rfl hr)]
      | some d' =>
        rw [replay_append_some (Prod.ext rfl hr), replay_append_some (Prod.ext rfl hr)]
        exact congrArg ((replay settings ty d (v.byte g ch).2).1 ++ ·) (ih h' hb.right)
    | none =>
      rw [List.reduceOption_cons_of_none] at hb ⊢
      have hsim : v.Similar v := ⟨rfl, rfl, rfl⟩
      by_cases hm : v.mark = none
      · have hcut := (h.cut hsim).2 hm
        rw [trace_cons, Scan.input, hcut]
        exact ih h hb
      · -- No record follows, whatever the cuts.
        have hno := h.not_recorded hg hm hb
        rw [replay_of_not_recorded hno, replay_of_not_recorded]
        rw [recorded_input hg h hsim, List.reduceOption_cons_of_none]
        exact hno

/-! ## Cutting a string off its end -/

/-- The actions of a byte report only empty strings, but for one that was marked before. -/
theorem data_of_acts {as : List Action} (hm : ∀ m, v.mark = some m → m.2 = []) {s : σ}
    {k : Element} {at_ : List Byte} (h : .data s k at_ ∈ (trace Scan.act v as).2) : at_ = [] := by
  induction as generalizing v with
  | nil => cases h
  | cons a as ih =>
    have hact : (∀ m, (v.act a).1.mark = some m → m.2 = []) ∧
        (.data s k at_ ∈ (v.act a).2 → at_ = []) := by
      unfold Scan.act
      split
      · exact ⟨hm, fun h => by cases h⟩
      · cases a with
        | mark k' =>
          refine ⟨fun m h => ?_, fun h => (by cases h)⟩
          cases hv : v.mark with
          | none =>
            rw [hv] at h
            obtain rfl := Option.some.inj h
            rfl
          | some m' =>
            rw [hv] at h
            obtain rfl := Option.some.inj h
            exact hm m' hv
        | data k' =>
          dsimp only
          split
          · exact ⟨hm, fun h => by cases h⟩
          · rename_i k₀ at₀ hv
            split
            · refine ⟨fun m h => (by cases h), fun h => ?_⟩
              obtain ⟨-, -, rfl⟩ := Call.data.injEq .. ▸ List.mem_singleton.mp h
              exact hm _ hv
            · exact ⟨hm, fun h => by cases h⟩
        | headersComplete => exact ⟨hm, fun h => by cases List.mem_singleton.mp h⟩
        | error => exact ⟨hm, fun h => by cases h⟩
    rw [trace_cons, List.mem_append] at h
    exact h.elim hact.2 (ih hact.1)

/-- A string is reported behind callbacks that do not have it. -/
theorem later_of_notMem {pre post : List (Call σ)} {s : σ} {k : Element} {at_ : List Byte}
    (hc : .data s k at_ ∉ cs) (h : cs ++ cs' = pre ++ .data s k at_ :: post) :
    ∃ pre', pre = cs ++ pre' ∧ cs' = pre' ++ .data s k at_ :: post := by
  rcases List.append_eq_append_iff.mp h with ⟨pre', rfl, h'⟩ | ⟨c', rfl, h'⟩
  · exact ⟨pre', rfl, h'⟩
  · cases c' with
    | nil => exact ⟨[], by rw [List.append_nil, List.append_nil], h'.symm⟩
    | cons c c' =>
      obtain ⟨rfl, -⟩ := List.cons_eq_cons.mp h'
      exact absurd (List.mem_append_right _ (List.mem_cons_self ..)) hc

/-- Where a string is reported that is not empty, the stream can be cut: what the parser has
marked in front of the byte is the string. -/
theorem Scan.Ok.locate (hg : Coherent ty g P) (h : v.Ok g ty P ph) {xs : List Byte}
    {pre post : List (Call σ)} {s : σ} {k : Element} {at_ : List Byte} (hne : at_ ≠ [])
    (hx : (trace (Scan.byte g) v xs).2 = pre ++ .data s k at_ :: post) :
    ∃ xs₁ ch xs₂ v₁, xs = xs₁ ++ ch :: xs₂ ∧ trace (Scan.byte g) v xs₁ = (v₁, pre) ∧
      v₁.mark = some (k, at_) ∧ v₁.failed = false ∧ (∃ ph₁, v₁.Ok g ty P ph₁) ∧
      (trace (Scan.byte g) { v₁ with mark := some (k, []) } (ch :: xs₂)).2 =
        .data s k [] :: post := by
  induction xs generalizing v ph pre with
  | nil =>
    cases pre <;> cases hx
  | cons ch xs ih =>
    obtain ⟨ph', -, h'⟩ := h.byte hg ch
    -- The string is reported later, behind the callbacks `cs` of this byte.
    have hlater (pre' : List (Call σ)) (hpre : pre = (v.byte g ch).2 ++ pre')
        (hrest : (trace (Scan.byte g) (v.byte g ch).1 xs).2 = pre' ++ .data s k at_ :: post) :
        ∃ xs₁ ch' xs₂ v₁, ch :: xs = xs₁ ++ ch' :: xs₂ ∧
          trace (Scan.byte g) v xs₁ = (v₁, pre) ∧
          v₁.mark = some (k, at_) ∧ v₁.failed = false ∧ (∃ ph₁, v₁.Ok g ty P ph₁) ∧
          (trace (Scan.byte g) { v₁ with mark := some (k, []) } (ch' :: xs₂)).2 =
            .data s k [] :: post := by
      obtain ⟨xs₁, ch', xs₂, v₁, rfl, htr, hm, hf, hok, hcut⟩ := ih h' hrest
      refine ⟨ch :: xs₁, ch', xs₂, v₁, rfl, ?_, hm, hf, hok, hcut⟩
      rw [trace_cons, htr, hpre]
    rw [trace_cons] at hx
    cases hf : v.failed with
    | true =>
      rw [Scan.byte, if_pos hf, bytes_failed hf] at hx
      cases pre <;> cases hx
    | false =>
      cases hm : v.mark with
      | none =>
        obtain ⟨pre', hpre, hrest⟩ := later_of_notMem (fun hmem => hne <| by
          rw [byte_eq hf] at hmem
          exact data_of_acts (v := v.enter g ch) (fun m hm' => by cases hm.symm.trans hm') hmem) hx
        exact hlater pre' hpre hrest
      | some m =>
        obtain ⟨k₀, at₀⟩ := m
        rcases h.byte_open hg hf hm ch with ⟨hnil, -⟩ | ⟨cs, hcs⟩
        · exact hlater pre (by rw [hnil]; rfl) (by rwa [hnil] at hx)
        · have hv : (v.byte g ch).2 = .data (g.step v.state ch).2 k₀ at₀ :: cs := by
            have := hcs at₀
            rw [show ({ v with mark := some (k₀, at₀) } : Scan σ) = v by rw [← hm]] at this
            exact congrArg Prod.snd this
          have hempty {s : σ} {k : Element} {at_ : List Byte} (hmem : .data s k at_ ∈ cs) :
              at_ = [] := by
            have hbyte : (({ v with mark := some (k₀, []) } : Scan σ).byte g ch).2 =
                .data (g.step v.state ch).2 k₀ [] :: cs := congrArg Prod.snd (hcs [])
            have hmem' := List.mem_cons_of_mem (.data (g.step v.state ch).2 k₀ []) hmem
            rw [← hbyte, byte_eq (v := { v with mark := some (k₀, []) }) hf] at hmem'
            refine data_of_acts (fun m hm' => ?_) hmem'
            obtain rfl := Option.some.inj hm'
            rfl
          cases pre with
          | nil =>
            rw [hv] at hx
            obtain ⟨hd, rfl⟩ := List.cons_eq_cons.mp hx
            obtain ⟨rfl, rfl, rfl⟩ := Call.data.injEq .. ▸ hd
            refine ⟨[], ch, xs, v, rfl, rfl, hm, hf, ⟨ph, h⟩, ?_⟩
            rw [trace_cons, hcs []]
            rfl
          | cons c pre =>
            rw [hv] at hx
            obtain ⟨rfl, hx₂⟩ := List.cons_eq_cons.mp hx
            obtain ⟨pre', rfl, hrest⟩ := later_of_notMem (fun hmem => hne (hempty hmem)) hx₂
            exact hlater pre' (by rw [hv]; rfl) hrest

end Noff.Http
