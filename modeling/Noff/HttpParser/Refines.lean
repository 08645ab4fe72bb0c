import Noff.HttpParser.Machine

/-!
# The code refines the machine

A call of the code that does not end in an error is a call of the machine that
goes byte by byte: it leaves the same members, invokes the same callbacks, and, unless it
stops for an upgrade, parses all of its data (`execute_refines`). No assertion fails in any
call (`execute_isSome`).
-/

namespace Noff.HttpParser

open Http

variable {δ ρ : Type} {settings : Settings Members δ ρ} {input : List Byte}
  {ty : HttpParserType} {s s' s₁ : Members} {ph : Phase} {p : Nat}

/-- The callbacks look at nothing but the type, the method and the status code. -/
structure Sees (settings : Settings Members δ ρ) : Prop where
  onData : ∀ s s' : Members, s.view = s'.view → ∀ k data d,
    settings.onData ⟨s.type, s, false⟩ k data d = settings.onData ⟨s'.type, s', false⟩ k data d
  onHeadersComplete : ∀ s s' : Members, s.view = s'.view → ∀ d,
    settings.onHeadersComplete ⟨s.type, s, false⟩ d =
      settings.onHeadersComplete ⟨s'.type, s', false⟩ d

theorem sees_settings : Sees (Http.settings grammar) := by
  refine ⟨fun s s' h k data d => ?_, fun s s' h d => ?_⟩
  all_goals
    obtain ⟨ht, hm, hc⟩ : s.type = s'.type ∧ s.method = s'.method ∧ s.statusCode = s'.statusCode := by
      simpa [Members.view] using h
  · simp only [Http.settings, grammar, ht, hc]
  · simp only [Http.settings, grammar, ht, hm]

/-! ## Marks -/

/-- The marks of the code in front of the byte `p`, and the marked string. -/
def Marks (input : List Byte) (p : Nat) (mark : Element → Option Nat) :
    Option (Element × List Byte) → Prop
  | none => mark = fun _ => none
  | some (k, at_) => ∃ m ≤ p, at_ = (input.take p).drop m ∧
      mark = Function.update (fun _ => none) k (some m)

variable {mark : Element → Option Nat} {m : Option (Element × List Byte)}

/-- Further bytes. -/
theorem Marks.extend (h : Marks input p mark m) (n : Nat) : Marks input (p + n) mark
    (m.map fun x => (x.1, x.2 ++ (input.drop p).take n)) := by
  cases m with
  | none => exact h
  | some x =>
    obtain ⟨k, at_⟩ := x
    obtain ⟨i, hi, rfl, rfl⟩ := h
    refine ⟨i, hi.trans (Nat.le_add_right ..), ?_, rfl⟩
    rw [List.take_add, List.drop_append]
    dsimp only
    rcases Nat.le_total p input.length with hp | hp
    · rw [Nat.sub_eq_zero_of_le (by rw [List.length_take]; omega), List.drop_zero]
    · rw [List.drop_eq_nil_of_le hp, List.take_nil, List.drop_nil]

/-- The code in front of the byte `p`, and the machine there. -/
structure Sim (input : List Byte) (p : Nat) (v : Vars δ ρ) (e : Exec Members δ ρ) : Prop where
  parser : e.parser = ⟨v.parser.members.type, v.parser.members, false⟩
  httpErrno : v.parser.httpErrno = none
  mark : Marks input p v.mark e.mark
  data : e.data = v.data
  records : e.records = v.records

/-- A call that has ended in an error. -/
def Vars.Failed (v : Vars δ ρ) : Prop :=
  v.parser.httpErrno.isSome ∧ ∃ parsed, v.exit = some (.returned parsed)

/-- What is known of the variables in the course of a turn. -/
structure Track.Of (t : Track) (v : Vars δ ρ) (m : Option (Element × List Byte)) : Prop where
  mark : t.mark.map Prod.fst = m.map Prod.fst
  body : v.bodyMark → t.body
  nread : ∀ n, t.nread = some n → v.parser.nread = BitVec.ofNat 32 n
  small : v.parser.nread.toNat ≤ httpMaxHeaderSize

section effects

variable {v : Vars δ ρ} {e : Exec Members δ ρ} {t t' : Track} {a : Effect} {es : List Effect}

/-- A call that has ended goes on no more. -/
theorem perform_of_exit (h : v.exit.isSome) (a : Effect) : v.perform settings input p a = v :=
  if_pos h

theorem foldl_perform_of_exit (h : v.exit.isSome) (es : List Effect) :
    es.foldl (Vars.perform settings input p) v = v := by
  induction es with
  | nil => rfl
  | cons a es ih => rw [List.foldl_cons, perform_of_exit h, ih]

theorem act_of_ok (settings : Settings Members δ ρ) (h : e.parser.httpErrno = false) (a : Http.Action) : e.act settings a =
    match a with
    | .mark k => { e with mark := e.mark.or (some (k, [])) }
    | .data k => e.report settings k
    | .headersComplete =>
      let (d, rs) := settings.onHeadersComplete e.parser e.data
      { e with data := d, records := e.records ++ rs }
    | .error => { e with parser.httpErrno := true } := by
  unfold Exec.act
  exact if_neg (by rw [h]; decide)

/-- The variables of the code and the machine, in the course of a turn. -/
structure Agree (input : List Byte) (p : Nat) (t : Track) (v : Vars δ ρ) (e : Exec Members δ ρ) :
    Prop where
  sim : Sim input p v e
  track : t.Of v e.mark

/-- The callback for the string that is marked. -/
theorem callbackData_agree {k : Element} (hsees : Sees settings) (h : Sim input p v e)
    (hk : e.mark.map Prod.fst = some k) (hview : s'.view = v.parser.members.view)
    (advance : Bool) :
    (v.callbackData settings input p k advance s').Failed ∨
      ∃ d, v.callbackData settings input p k advance s' =
          { v with mark := fun _ => none, data := d } ∧
        e.act settings (.data k) = { e with mark := none, data := d } := by
  obtain ⟨hparser, hok, hmark, hdata, -⟩ := h
  obtain ⟨⟨k', at_⟩, hsome, rfl⟩ := Option.map_eq_some_iff.mp hk
  rw [hsome] at hmark
  obtain ⟨i, -, rfl, hm⟩ := hmark
  dsimp only at hm ⊢
  have hcb : settings.onData ⟨s'.type, s', false⟩ k' ((input.take p).drop i) v.data =
      settings.onData e.parser k' ((input.take p).drop i) e.data := by
    rw [hsees.onData s' v.parser.members hview, hparser, hdata]
  have hat : v.mark k' = some i := by rw [hm, Function.update_self]
  rw [act_of_ok settings (by rw [hparser])]
  dsimp only
  rw [Exec.report, hsome, Vars.callbackData, hat]
  dsimp only
  rw [if_pos rfl, hcb]
  cases settings.onData e.parser k' ((input.take p).drop i) e.data with
  | none => exact .inl ⟨rfl, _, rfl⟩
  | some d =>
    refine .inr ⟨d, ?_, rfl⟩
    dsimp only
    rw [hm, Function.update_idem, Function.update_eq_self_iff.mpr rfl]

/-- An effect of a turn, in the code and in the machine. -/
theorem perform_agree (hsees : Sees settings) (h : Agree input p t v e) (hx : v.exit = none)
    (ht : t.next ty v.parser.members a = some t') :
    (v.perform settings input p a).Failed ∨
      ((v.perform settings input p a).exit = none ∧
        (v.perform settings input p a).parser.members = v.parser.members ∧
        Agree input p t' (v.perform settings input p a) (a.action.elim e (e.act settings))) := by
  obtain ⟨⟨hparser, hok, hmark, hdata, hrec⟩, htm, hbody, hnread, hsmall⟩ := h
  have hperf : v.perform settings input p a = _ := if_neg (by rw [hx]; decide)
  have hact (b : Http.Action) := act_of_ok settings (e := e) (by rw [hparser]) b
  cases a with
  | mark k =>
    obtain ⟨htnone, -, rfl⟩ := Track.next_mark ht
    have hnone : e.mark = none := by
      rw [htnone] at htm
      exact Option.map_eq_none_iff.mp htm.symm
    rw [hnone] at hmark
    refine .inr ⟨by rw [hperf]; exact hx, by rw [hperf], ?_⟩
    rw [hperf]
    change Agree input p _ _ (e.act settings (.mark k))
    rw [hact]
    refine ⟨⟨hparser, hok, ?_, hdata, hrec⟩, ?_, hbody, hnread, hsmall⟩
    · dsimp only
      rw [hnone]
      refine ⟨p, Nat.le_refl p, ?_, ?_⟩
      · rw [List.drop_eq_nil_of_le (by rw [List.length_take]; exact Nat.min_le_left ..)]
      · rw [hmark]
        rfl
    · dsimp only
      rw [hnone]
      rfl
  | data k advance s' =>
    obtain ⟨old, ph, htsome, hview, -, rfl⟩ := Track.next_data ht
    rw [htsome] at htm
    rw [hperf]
    change _ ∨ _ ∧ _ ∧ Agree input p _ _ (e.act settings (.data k))
    dsimp only
    rcases callbackData_agree hsees ⟨hparser, hok, hmark, hdata, hrec⟩ htm.symm hview advance with
      hfail | ⟨d, hv, he⟩
    · exact .inl hfail
    · rw [hv, he]
      exact .inr ⟨hx, rfl, ⟨hparser, hok, rfl, rfl, hrec⟩, rfl, hbody, hnread, hsmall⟩
  | headersComplete s' =>
    obtain ⟨-, -, hview, rfl⟩ := Track.next_headersComplete ht
    have hcb : settings.onHeadersComplete ⟨s'.type, s', false⟩ v.data =
        settings.onHeadersComplete e.parser e.data := by
      rw [hsees.onHeadersComplete s' v.parser.members hview, hparser, hdata]
    rw [hperf]
    change _ ∨ _ ∧ _ ∧ Agree input p _ _ (e.act settings .headersComplete)
    rw [hact]
    dsimp only
    refine .inr ⟨hx, rfl, ⟨hparser, hok, hmark, ?_, ?_⟩, htm, hbody, hnread, hsmall⟩
    · exact congrArg Prod.fst hcb.symm
    · exact congrArg₂ (· ++ ·) hrec (congrArg Prod.snd hcb.symm)
  | countHeaderSize n =>
    obtain rfl := Option.some.inj ht
    rw [hperf]
    dsimp only
    rw [Vars.countHeaderSize]
    split
    · exact .inl ⟨rfl, _, rfl⟩
    · rename_i hle
      exact .inr ⟨hx, rfl, ⟨hparser, hok, hmark, hdata, hrec⟩, htm, hbody,
        fun n hn => (by cases hn), Nat.le_of_not_lt hle⟩
  | resetNread =>
    obtain rfl := Option.some.inj ht
    rw [hperf]
    exact .inr ⟨hx, rfl, ⟨hparser, hok, hmark, hdata, hrec⟩, htm, hbody,
      fun n hn => (by cases hn; rfl), Nat.zero_le _⟩
  | markBody =>
    obtain rfl := Option.some.inj ht
    rw [hperf]
    exact .inr ⟨hx, rfl, ⟨hparser, hok, hmark, hdata, hrec⟩, htm, fun _ => rfl, hnread, hsmall⟩
  | dataBody =>
    obtain rfl := Option.some.inj ht
    rw [hperf]
    exact .inr ⟨hx, rfl, ⟨hparser, hok, hmark, hdata, hrec⟩, htm, fun hb => (by cases hb), hnread,
      hsmall⟩
  | assert b =>
    rw [Track.next] at ht
    split at ht <;> cases ht
    rename_i hb
    rw [hperf]
    dsimp only
    rw [Vars.assert, if_pos hb]
    exact .inr ⟨hx, rfl, ⟨hparser, hok, hmark, hdata, hrec⟩, htm, hbody, hnread, hsmall⟩
  | assertNread =>
    rw [Track.next] at ht
    split at ht <;> cases ht
    have hone : v.parser.nread = 1 := hnread 1 ‹_›
    rw [hperf]
    dsimp only
    rw [Vars.assert, if_pos (decide_eq_true hone)]
    exact .inr ⟨hx, rfl, ⟨hparser, hok, hmark, hdata, hrec⟩, htm, hbody, hnread, hsmall⟩
  | error err =>
    rw [hperf]
    exact .inl ⟨rfl, _, rfl⟩
  | exit => cases ht

/-- What is known behind the effects of a turn; an upgrade ends the call. -/
structure Turned (ty : HttpParserType) (input : List Byte) (p : Nat) (s : Members) (es : List Effect)
    (v : Vars δ ρ) (e : Exec Members δ ρ) : Prop where
  members : v.parser.members = s
  noError : ∀ err, .error err ∉ es
  exit : v.exit = none ∨ (v.exit = some (.returned (p + 1)) ∧ e.mark = none ∧ .exit ∈ es)
  agree : ∃ t, Agree input p t v e ∧ t.Rest ty s

theorem foldl_perform_turned (hsees : Sees settings) (h : Agree input p t v e) (hx : v.exit = none)
    (hfine : Fine ty v.parser.members t es) :
    (es.foldl (Vars.perform settings input p) v).Failed ∨
      Turned ty input p v.parser.members es (es.foldl (Vars.perform settings input p) v)
        ((actions es).foldl (Exec.act settings) e) := by
  induction es generalizing t v e with
  | nil => exact .inr ⟨rfl, fun err he => (by cases he), .inl hx, t, h, hfine⟩
  | cons a es ih =>
    by_cases hexit : a = .exit
    · subst hexit
      obtain ⟨rfl, htnone, hrest⟩ := hfine
      have hnone : e.mark = none := by
        have := h.track.mark
        rw [htnone] at this
        exact Option.map_eq_none_iff.mp this.symm
      have hstep : v.perform settings input p .exit = { v with exit := some (.returned (p + 1)) } :=
        if_neg (by rw [hx]; decide)
      rw [List.foldl_cons, hstep]
      exact .inr ⟨rfl, fun err he => (by cases List.mem_singleton.mp he),
        .inr ⟨rfl, hnone, List.mem_singleton_self _⟩, t,
        ⟨⟨h.sim.parser, h.sim.httpErrno, h.sim.mark, h.sim.data, h.sim.records⟩,
          ⟨h.track.mark, h.track.body, h.track.nread, h.track.small⟩⟩, hrest⟩
    by_cases herr : ∃ err, a = .error err
    · obtain ⟨err, rfl⟩ := herr
      have hstep : v.perform settings input p (.error err) = v.error err p :=
        if_neg (by rw [hx]; decide)
      rw [List.foldl_cons, hstep, foldl_perform_of_exit rfl]
      exact .inl ⟨rfl, _, rfl⟩
    obtain ⟨t', ht', hfine'⟩ : ∃ t', t.next ty v.parser.members a = some t' ∧
        Fine ty v.parser.members t' es := by
      cases a <;> first | exact absurd rfl hexit | exact absurd ⟨_, rfl⟩ herr | exact hfine
    rw [List.foldl_cons]
    rcases perform_agree hsees h hx ht' with hfail | ⟨hx', hmem, hagree⟩
    · obtain ⟨parsed, hp⟩ := hfail.2
      rw [foldl_perform_of_exit (by rw [hp]; rfl)]
      exact .inl hfail
    · have hact : (actions (a :: es)).foldl (Exec.act settings) e =
          (actions es).foldl (Exec.act settings) (a.action.elim e (e.act settings)) := by
        cases ha : a.action with
        | none => rw [actions, List.filterMap_cons_none ha]; rfl
        | some b => rw [actions, List.filterMap_cons_some ha]; rfl
      rw [hact]
      rcases ih hagree hx' (hmem.symm ▸ hfine') with hfail | hturned
      · exact .inl hfail
      · refine .inr ⟨hturned.members.trans hmem, fun err he => ?_, hturned.exit.imp_right fun h =>
          ⟨h.1, h.2.1, List.mem_cons_of_mem _ h.2.2⟩, ?_⟩
        · rcases List.mem_cons.mp he with he | he
          · exact herr ⟨err, he.symm⟩
          · exact hturned.noError err he
        · rw [← hmem]
          exact hturned.agree

end effects

/-! ## The count of header bytes -/

/-- What the effects count. -/
def counted : List Effect → Nat
  | [] => 0
  | .countHeaderSize n :: es => n + counted es
  | _ :: es => counted es

theorem perform_nread (settings : Settings Members δ ρ) (input : List Byte) {v : Vars δ ρ}
    {a : Effect} (hc : ∀ n, a ≠ .countHeaderSize n)
    (hr : a ≠ .resetNread) :
    (v.perform settings input p a).parser.nread = v.parser.nread := by
  unfold Vars.perform
  split
  · rfl
  cases a with
  | countHeaderSize n => exact absurd rfl (hc n)
  | resetNread => exact absurd rfl hr
  | data k advance s' =>
    dsimp only [Vars.callbackData]
    split
    · rfl
    · split <;> rfl
  | assert b =>
    dsimp only [Vars.assert]
    split <;> rfl
  | assertNread =>
    dsimp only [Vars.assert]
    split <;> rfl
  | _ => rfl

/-- A count that does not overflow. -/
theorem countHeaderSize_spec {v : Vars δ ρ} {n : Nat}
    (hs : v.parser.nread.toNat ≤ httpMaxHeaderSize) (hn : n < 2 ^ 31) (hx : v.exit = none) :
    (v.countHeaderSize p n).Failed ∨ ((v.countHeaderSize p n).exit = none ∧
      v.countHeaderSize p n = { v with parser.nread := v.parser.nread + BitVec.ofNat 32 n } ∧
      (v.countHeaderSize p n).parser.nread.toNat = v.parser.nread.toNat + n ∧
      v.parser.nread.toNat + n ≤ httpMaxHeaderSize) := by
  have hmax : httpMaxHeaderSize = 81920 := rfl
  have hnat : (v.parser.nread + BitVec.ofNat 32 n).toNat = v.parser.nread.toNat + n := by
    rw [BitVec.toNat_add, BitVec.toNat_ofNat]
    omega
  rw [Vars.countHeaderSize]
  split
  · exact .inl ⟨rfl, _, rfl⟩
  · rename_i hle
    exact .inr ⟨hx, rfl, hnat, hnat ▸ Nat.le_of_not_lt hle⟩

/-- As long as nothing is reset, the count is the sum, if it does not wrap around. -/
theorem nread_foldl {v : Vars δ ρ} {es : List Effect} (hr : .resetNread ∉ es)
    (hs : v.parser.nread.toNat ≤ httpMaxHeaderSize) (hc : counted es < 2 ^ 31)
    (hx : (es.foldl (Vars.perform settings input p) v).exit = none) :
    (es.foldl (Vars.perform settings input p) v).parser.nread.toNat =
      v.parser.nread.toNat + counted es := by
  induction es generalizing v with
  | nil => rfl
  | cons a es ih =>
    rw [List.foldl_cons] at hx ⊢
    rw [List.mem_cons, not_or] at hr
    have hx₁ : (v.perform settings input p a).exit = none := by
      by_contra hne
      rw [foldl_perform_of_exit (Option.isSome_iff_ne_none.mpr hne)] at hx
      exact hne hx
    have hx₀ : v.exit = none := by
      by_contra hne
      rw [perform_of_exit (Option.isSome_iff_ne_none.mpr hne)] at hx₁
      exact hne hx₁
    by_cases hcount : ∃ n, a = .countHeaderSize n
    · obtain ⟨n, rfl⟩ := hcount
      have hperf : v.perform settings input p (.countHeaderSize n) = v.countHeaderSize p n :=
        if_neg (by rw [hx₀]; decide)
      rw [counted] at hc ⊢
      rw [hperf] at hx hx₁ ⊢
      rcases countHeaderSize_spec (p := p) hs (by omega : n < 2 ^ 31) hx₀ with hfail | hspec
      · obtain ⟨parsed, hparsed⟩ := hfail.2
        rw [hx₁] at hparsed
        cases hparsed
      · rw [ih hr.2 (hspec.2.2.1.trans_le hspec.2.2.2) (by omega) hx, hspec.2.2.1, Nat.add_assoc]
    · have hn := perform_nread settings input (p := p) (v := v)
        (fun n h => hcount ⟨n, h⟩) (Ne.symm hr.1)
      have hsame : counted (a :: es) = counted es := by
        cases a <;> first | rfl | exact absurd ⟨_, rfl⟩ hcount
      rw [hsame] at hc ⊢
      rw [ih hr.2 (hn ▸ hs) hc hx, hn]

theorem headerFieldLoop_le (s : Members) (bs : List Byte) :
    (headerFieldLoop s bs).1 ≤ bs.length := by
  induction bs generalizing s with
  | nil => exact Nat.le_refl _
  | cons ch bs ih =>
    rw [headerFieldLoop]
    split
    · exact Nat.zero_le _
    split
    · exact Nat.zero_le _
    · exact Nat.succ_le_succ (ih _)

theorem lineEnd_le (bs : List Byte) : lineEnd bs ≤ bs.length := by
  rw [lineEnd]
  cases hf : (bs.take httpMaxHeaderSize).findIdx? fun ch => ch = CR || ch = LF with
  | none => exact Nat.le_refl _
  | some n =>
    obtain ⟨hn, -⟩ := List.findIdx?_eq_some_iff_getElem.mp hf
    rw [List.length_take] at hn
    exact (Nat.lt_of_lt_of_le hn (Nat.min_le_right ..)).le

theorem headerValueLoop_le (s : Members) (bs : List Byte) :
    (headerValueLoop s bs).1 ≤ bs.length := by
  induction bs generalizing s with
  | nil => exact Nat.le_refl _
  | cons ch bs ih =>
    rw [headerValueLoop]
    split
    · exact Nat.zero_le _
    split
    · exact Nat.zero_le _
    split
    · exact Nat.zero_le _
    split
    · exact lineEnd_le _
    split
    · exact Nat.zero_le _
    · exact Nat.zero_le _
    · exact Nat.succ_le_succ (ih _)

/-- The loops count what they take. -/
theorem turn_counted (h : Inv ty s ph) (hs : s.state = .headerField ∨ s.state = .headerValue)
    {ch : Byte} {bs : List Byte} (he : ∀ err, .error err ∉ (turn s ch bs).effects) :
    counted (turn s ch bs).effects = (turn s ch bs).skip ∧ .resetNread ∉ (turn s ch bs).effects ∧
      .exit ∉ (turn s ch bs).effects ∧ (turn s ch bs).skip ≤ bs.length + 1 := by
  rcases hs with hs | hs
  · have ht : turn s ch bs = headerField s (ch :: bs) := by rw [turn, hs]
    obtain ⟨n, s', hl, -⟩ := headerFieldLoop_spec h hs (ch :: bs)
    have hle := headerFieldLoop_le s (ch :: bs)
    rw [hl] at hle
    rw [ht] at he ⊢
    cases hd : (ch :: bs).drop n with
    | nil =>
      rw [headerField_atEnd hl hd]
      exact ⟨rfl, by simp, by simp, hle⟩
    | cons c rest =>
      rw [headerField_stop hl hd] at he ⊢
      split
      · exact ⟨rfl, by simp, by simp, hle⟩
      · rename_i hc
        rw [if_neg hc] at he
        exact absurd (by simp) (he .invalidHeaderToken)
  · have ht : turn s ch bs = headerValue s (ch :: bs) := by rw [turn, hs]
    obtain ⟨n, stop, s', hl, hfail, -⟩ := headerValueLoop_spec h hs (ch :: bs)
    have hle := headerValueLoop_le s (ch :: bs)
    rw [hl] at hle
    rw [ht, headerValue, hl] at he ⊢
    cases stop with
    | atEnd => exact ⟨rfl, by simp, by simp, hle⟩
    | cr => exact ⟨rfl, by simp, by simp, hle⟩
    | lf => exact ⟨rfl, by simp [headerAlmostDone, go], by simp [headerAlmostDone, go], hle⟩
    | error e => exact absurd (List.mem_singleton_self _) (he e)
    | failed => exact absurd rfl hfail

/-- A turn goes on to the end of the data at most, and to an upgrade in the data. -/
theorem turn_skip_le (h : Inv ty s ph) {ch : Byte} {bs : List Byte}
    (he : ∀ err, .error err ∉ (turn s ch bs).effects) : (turn s ch bs).skip ≤ bs.length + 1 ∧
      (.exit ∈ (turn s ch bs).effects → (turn s ch bs).skip ≤ bs.length) := by
  by_cases hr : s.state.readsOn = false
  · rw [turn_of_not_readsOn hr]
    exact ⟨Nat.zero_le _, fun _ => Nat.zero_le _⟩
  have hbody : toRead s (ch :: bs) - 1 ≤ bs.length := by
    have : toRead s (ch :: bs) ≤ bs.length + 1 := Nat.min_le_right ..
    omega
  cases hs : s.state <;> rw [hs] at hr <;> first | exact absurd rfl hr | skip
  case headerField =>
    obtain ⟨-, -, hno, hle⟩ := turn_counted h (.inl hs) he
    exact ⟨hle, fun hx => absurd hx hno⟩
  case headerValue =>
    obtain ⟨-, -, hno, hle⟩ := turn_counted h (.inr hs) he
    exact ⟨hle, fun hx => absurd hx hno⟩
  case bodyIdentity | chunkData =>
    rw [(turn_body (by simp [hs])).1]
    exact ⟨hbody.trans (Nat.le_succ _), fun _ => hbody⟩
  case bodyIdentityEof =>
    have ht : (turn s ch bs).skip = bs.length := by rw [turn, hs]; rfl
    rw [ht]
    exact ⟨Nat.le_succ _, fun _ => Nat.le_refl _⟩

/-! ## An upgrade -/

theorem messageDone_exit (h : .exit ∈ (messageDone s).1) : (messageDone s).2.upgrade = true := by
  rw [messageDone] at h ⊢
  by_contra hu
  rw [if_neg hu] at h
  cases h

theorem headersDone_exit {ch : Byte} (h : .exit ∈ (headersDone s ch).1) :
    (headersDone s ch).2.upgrade = true := by
  unfold headersDone at h ⊢
  split at h
  · simp [fail] at h
  rename_i hch
  rw [if_neg hch]
  dsimp only at h ⊢
  split at h
  · rename_i hu
    rw [if_pos hu]
    exact (Bool.and_eq_true_iff.mp hu).1
  · simp [Effect.then, go] at h

theorem headersAlmostDone_exit {ch : Byte} (h : .exit ∈ (headersAlmostDone s ch).1) :
    (headersAlmostDone s ch).2.upgrade = true := by
  unfold headersAlmostDone at h ⊢
  split at h
  · simp [fail] at h
  rename_i hch
  rw [if_neg hch]
  split at h
  · rename_i ht
    rw [if_pos ht]
    exact messageDone_exit h
  rename_i ht
  rw [if_neg ht]
  split at h
  · simp [fail] at h
  rename_i hc
  rw [if_neg hc]
  refine headersDone_exit ((List.mem_cons.mp h).resolve_left ?_)
  exact fun he => by cases he

theorem headerFieldStart_exit {ch : Byte} (h : .exit ∈ (headerFieldStart s ch).1) :
    (headerFieldStart s ch).2.upgrade = true := by
  unfold headerFieldStart at h ⊢
  split at h
  · simp [go] at h
  rename_i hcr
  rw [if_neg hcr]
  split at h
  · rename_i hlf
    rw [if_pos hlf]
    exact headersAlmostDone_exit h
  · dsimp only at h
    split at h <;> simp [fail] at h

theorem headerValueStart_no_exit {ch : Byte} : .exit ∉ (headerValueStart s ch).1 := by
  unfold headerValueStart
  dsimp only
  (repeat' split) <;> simp

/-- A call ends in front of the end of its data where the protocol changes. -/
theorem switch_exit {ch : Byte} (h : .exit ∈ (switch s ch).1) : (switch s ch).2.upgrade = true := by
  rw [switch] at h ⊢
  cases hs : s.state <;> rw [hs] at h
  case headerFieldStart => exact headerFieldStart_exit h
  case headersAlmostDone => exact headersAlmostDone_exit h
  case headersDone => exact headersDone_exit h
  case messageDone => exact messageDone_exit h
  case headerValueLws =>
    dsimp only [headerValueLws] at h ⊢
    split at h
    · exact absurd h (headerValueStart_no_exit)
    · rename_i hc
      rw [if_neg hc]
      exact headerFieldStart_exit h
  case headerValueDiscardLws =>
    dsimp only [headerValueDiscardLws] at h ⊢
    split at h
    · simp [go] at h
    · rename_i hc
      rw [if_neg hc]
      simp only [Effect.then, List.mem_cons, reduceCtorEq, false_or] at h
      exact headerFieldStart_exit h
  -- The other states do not end a call.
  all_goals
    exfalso
    revert h
    simp only [expect, startRes, resStatusCode, resStatusStart, report, resStatus, versionDigit,
      startReq, reqMethod, url, reqSpacesBeforeUrl, reqSchema, reqUrl, chunkSizeStart, chunkSize,
      chunkParameters, chunkSizeAlmostDone, chunkDataAlmostDone, chunkDataDone, Effect.then, go,
      fail, headerValueDiscardWs, headerAlmostDone, headerValueStart]
    (repeat' split) <;> simp

/-- Of a turn. -/
theorem turn_exit {ch : Byte} {bs : List Byte} (h : .exit ∈ (turn s ch bs).effects) :
    (turn s ch bs).members.upgrade = true := by
  by_cases hr : s.state.readsOn = false
  · rw [turn_of_not_readsOn hr] at h ⊢
    exact switch_exit h
  rw [turn] at h ⊢
  cases hs : s.state <;> rw [hs] at hr h <;> first | exact absurd rfl hr | skip
  case headerField =>
    revert h
    dsimp only [headerField]
    (repeat' split) <;> simp
  case headerValue =>
    revert h
    dsimp only [headerValue]
    (repeat' split) <;> simp [headerAlmostDone, go]
  case bodyIdentity =>
    dsimp only [bodyIdentity] at h ⊢
    simp only [List.mem_cons, reduceCtorEq, false_or] at h
    split at h
    · rename_i hz
      rw [if_pos hz]
      exact messageDone_exit ((List.mem_cons.mp h).resolve_left fun he => by cases he)
    · cases h
  case chunkData =>
    revert h
    dsimp only [chunkData]
    (repeat' split) <;> simp
  case bodyIdentityEof =>
    simp [bodyIdentityEof] at h

/-! ## A turn -/

/-- The code in front of the byte `p`, between two turns. -/
structure AtRest (ty : HttpParserType) (input : List Byte) (p : Nat) (v : Vars δ ρ)
    (e : Exec Members δ ρ) : Prop where
  sim : Sim input p v e
  inv : ∃ ph, Inv ty v.parser.members ph
  mark : marked v.parser.members.state = e.mark.map Prod.fst
  body : v.bodyMark → v.parser.members.state.inBody
  nread : v.parser.members.state = .chunkSizeStart → v.parser.nread = 0
  small : v.parser.nread.toNat ≤ httpMaxHeaderSize

theorem AtRest.of_turned {v : Vars δ ρ} {e : Exec Members δ ρ} {es : List Effect}
    (h : Turned ty input p s es v e) : AtRest ty input p v e := by
  obtain ⟨t, hagree, hrest⟩ := h.agree
  obtain rfl := h.members
  refine ⟨hagree.sim, ⟨_, hrest.inv⟩, ?_, fun hb => hrest.body (hagree.track.body hb), fun hs => ?_,
    hagree.track.small⟩
  · rw [hrest.mark, hagree.track.mark]
  · exact hagree.track.nread 0 (hrest.nread hs)

variable {v : Vars δ ρ} {e : Exec Members δ ρ}

/-- A byte that the machine is not stuck in front of. -/
theorem byte_of_step (settings : Settings Members δ ρ) {ch : Byte} {as : List Http.Action} (he : e.parser = ⟨ty, s, false⟩)
    (hs : step s ch = (as, s')) : e.byte grammar settings ch =
      { as.foldl (Exec.act settings) { e with parser.state := s' } with
        mark := (as.foldl (Exec.act settings) { e with parser.state := s' }).mark.map fun x =>
          (x.1, x.2 ++ [ch]) } := by
  rw [Exec.byte, he, if_neg Bool.false_ne_true]
  dsimp only [grammar]
  rw [hs]

/-- Bytes that the callbacks see nothing of. -/
theorem Quiet.bytes (settings : Settings Members δ ρ) {xs : List Byte} (h : Quiet s xs s') (he : e.parser = ⟨ty, s, false⟩) :
    xs.foldl (Exec.byte grammar settings) e =
      { e with parser.state := s', mark := e.mark.map fun x => (x.1, x.2 ++ xs) } := by
  induction h generalizing e with
  | nil s =>
    obtain ⟨parser, mark, data, records⟩ := e
    obtain rfl := he
    cases mark <;> simp
  | @cons s s₁ s' ch bs hstep _ ih =>
    obtain ⟨parser, mark, data, records⟩ := e
    obtain rfl := he
    rw [List.foldl_cons, byte_of_step settings rfl hstep, ih rfl]
    cases mark <;> simp

/-- The byte at hand is counted. -/
theorem count_agree (settings : Settings Members δ ρ) (h : AtRest ty input p v e) (hx : v.exit = none) :
    (v.count settings input p).Failed ∨ ((v.count settings input p).exit = none ∧
      (v.count settings input p).parser.members = v.parser.members ∧
      (v.parser.members.state.parsingHeader → 0 < (v.count settings input p).parser.nread.toNat) ∧
      ∃ ph, Inv ty v.parser.members ph ∧
        Agree input p (.start v.parser.members.state v.bodyMark ph) (v.count settings input p) e) := by
  obtain ⟨ph, hinv⟩ := h.inv
  have hmark : ((marked v.parser.members.state).map (·, true)).map Prod.fst = e.mark.map Prod.fst := by
    rw [Option.map_map, ← h.mark]
    exact Option.map_id_apply
  rw [Vars.count]
  split
  · rename_i hp
    have hperf : v.perform settings input p (.countHeaderSize 1) = v.countHeaderSize p 1 :=
      if_neg (by rw [hx]; decide)
    rw [hperf]
    rcases countHeaderSize_spec (p := p) h.small (by decide : 1 < 2 ^ 31) hx with hfail | hspec
    · exact .inl hfail
    obtain ⟨hx', heq, hnat, hle⟩ := hspec
    refine .inr ⟨hx', by rw [heq], fun _ => by omega, ph, hinv, ?_⟩
    rw [heq] at hnat ⊢
    refine ⟨⟨h.sim.parser, h.sim.httpErrno, h.sim.mark, h.sim.data, h.sim.records⟩, hmark, id,
      fun n hn => ?_, hnat.trans_le hle⟩
    rw [Track.start] at hn
    dsimp only at hn
    split at hn
    · obtain rfl := Option.some.inj hn
      change v.parser.nread + BitVec.ofNat 32 1 = _
      rw [h.nread ‹_›]
      rfl
    · cases hn
  · rename_i hp
    refine .inr ⟨hx, rfl, fun hp' => absurd hp' hp, ph, hinv, h.sim, hmark, id, fun n hn => ?_, h.small⟩
    rw [Track.start] at hn
    dsimp only at hn
    split at hn
    · rename_i hs
      rw [hs] at hp
      exact absurd rfl hp
    · cases hn

/-- A turn of the code is a run of the machine, unless it fails. -/
theorem take_agree (hsees : Sees settings) (hlen : input.length < 2 ^ 31) {ch : Byte} {bs : List Byte}
    (hd : input.drop p = ch :: bs) {body : Bool} (hinv : Inv ty v.parser.members ph)
    (hb : body → v.parser.members.state.inBody)
    (h : Agree input p (.start v.parser.members.state body ph) v e) (hx : v.exit = none)
    (hpos : v.parser.members.state.parsingHeader → 0 < v.parser.nread.toNat) :
    let t := turn v.parser.members ch bs
    let v' := v.take settings input p t
    v'.Failed ∨ ∃ n, 0 < n ∧ n ≤ bs.length + 1 ∧ bs.drop t.skip = (ch :: bs).drop n ∧
      AtRest ty input (p + n) v' (((ch :: bs).take n).foldl (Exec.byte grammar settings) e) ∧
      (v'.exit = none ∨ v'.exit = some (.returned (p + n)) ∧ v'.parser.members.upgrade = true ∧
        (((ch :: bs).take n).foldl (Exec.byte grammar settings) e).mark = none) := by
  intro t v'
  have hfine : Fine ty t.members (.start v.parser.members.state body ph) t.effects :=
    turn_fine hinv bs hb
  -- The machine where the code has the effects.
  set e₂ : Exec Members δ ρ := { e with
    parser.state := t.members
    mark := e.mark.map fun x => (x.1, x.2 ++ (ch :: bs).take t.skip) } with he₂
  have hagree : Agree input (p + t.skip) (.start v.parser.members.state body ph)
      { v with parser.members := t.members } e₂ := by
    refine ⟨⟨?_, h.sim.httpErrno, ?_, h.sim.data, h.sim.records⟩, ?_, h.track.body, h.track.nread,
      h.track.small⟩
    · rw [he₂]
      dsimp only
      rw [h.sim.parser, hinv.type, ← hfine.type]
    · have := h.sim.mark.extend t.skip
      rwa [hd] at this
    · rw [h.track.mark, he₂]
      cases e.mark <;> rfl
  rcases foldl_perform_turned hsees hagree hx hfine with hfail | hturned
  · exact .inl hfail
  right
  have hno := hturned.noError
  obtain ⟨hskip, hexit⟩ : t.skip ≤ bs.length + 1 ∧ (.exit ∈ t.effects → t.skip ≤ bs.length) :=
    turn_skip_le hinv hno
  -- The loop of a header takes less than is counted at most.
  have hsmall : t.skip < httpMaxHeaderSize ∨ v.parser.members.state.parsingHeader = false := by
    by_cases hs : v.parser.members.state = .headerField ∨ v.parser.members.state = .headerValue
    · left
      obtain ⟨hc, hreset, hnoexit, -⟩ : counted t.effects = t.skip ∧ .resetNread ∉ t.effects ∧
        .exit ∉ t.effects ∧ _ := turn_counted hinv hs hno
      have hx' : v'.exit = none := hturned.exit.resolve_right fun hr => hnoexit hr.2.2
      have hdrop := congrArg List.length hd
      rw [List.length_drop, List.length_cons] at hdrop
      have hsum : v'.parser.nread.toNat = v.parser.nread.toNat + counted t.effects :=
        nread_foldl hreset h.track.small (by rw [hc]; omega) hx'
      obtain ⟨t', hagree', -⟩ := hturned.agree
      have hle : v'.parser.nread.toNat ≤ httpMaxHeaderSize := hagree'.track.small
      have := hpos (by rcases hs with hs | hs <;> rw [hs] <;> rfl)
      omega
    · rw [not_or] at hs
      by_cases hr : v.parser.members.state.readsOn = false
      · left
        show (turn v.parser.members ch bs).skip < httpMaxHeaderSize
        rw [turn_of_not_readsOn hr]
        exact Nat.succ_pos _
      · right
        cases hst : v.parser.members.state <;> rw [hst] at hr hs <;>
          first | exact absurd rfl hr | exact absurd rfl hs.1 | exact absurd rfl hs.2 | rfl
  obtain ⟨s₁, hq, hend⟩ := turn_runs hinv hsmall hno
  have hparser : e.parser = ⟨ty, v.parser.members, false⟩ := by rw [h.sim.parser, hinv.type]
  have hquiet := hq.bytes settings hparser
  have hrest := AtRest.of_turned hturned
  cases hdrop : (ch :: bs).drop t.skip with
  | nil =>
    rw [hdrop] at hend
    obtain ⟨hnil, hmem⟩ := hend
    have hlen' : bs.length + 1 ≤ t.skip := List.drop_eq_nil_iff.mp hdrop
    have hn : t.skip = bs.length + 1 := Nat.le_antisymm hskip hlen'
    have hfold : ((ch :: bs).take (bs.length + 1)).foldl (Exec.byte grammar settings) e =
        (actions t.effects).foldl (Exec.act settings) e₂ := by
      rw [← hn, hquiet, hnil, he₂, hmem]
      rfl
    refine ⟨bs.length + 1, Nat.succ_pos _, Nat.le_refl _, ?_, ?_, ?_⟩
    · rw [List.drop_eq_nil_of_le (by omega), List.drop_eq_nil_of_le (by simp)]
    · rw [hfold, ← hn]
      exact hrest
    · refine .inl (hturned.exit.resolve_right fun hr => ?_)
      have := hexit hr.2.2
      omega
  | cons c rest =>
    rw [hdrop] at hend
    have hlt : t.skip < bs.length + 1 := by
      have := congrArg List.length hdrop
      rw [List.length_drop, List.length_cons, List.length_cons] at this
      omega
    have htake : (ch :: bs).take (t.skip + 1) = (ch :: bs).take t.skip ++ [c] := by
      rw [List.take_add, hdrop]
      rfl
    have hbyte := byte_of_step settings (e := { e with
      parser.state := s₁, mark := e.mark.map fun x => (x.1, x.2 ++ (ch :: bs).take t.skip) })
      (by rw [hparser]) hend
    have hfold : ((ch :: bs).take (t.skip + 1)).foldl (Exec.byte grammar settings) e =
        { (actions t.effects).foldl (Exec.act settings) e₂ with
          mark := ((actions t.effects).foldl (Exec.act settings) e₂).mark.map fun x =>
            (x.1, x.2 ++ [c]) } := by
      rw [htake, List.foldl_append, hquiet, List.foldl_cons, List.foldl_nil]
      exact hbyte
    have hone : (input.drop (p + t.skip)).take 1 = [c] := by
      rw [← List.drop_drop, hd, hdrop]
      rfl
    refine ⟨t.skip + 1, Nat.succ_pos _, hlt, rfl, ?_, ?_⟩
    · rw [hfold, ← Nat.add_assoc]
      refine ⟨⟨hrest.sim.parser, hrest.sim.httpErrno, ?_, hrest.sim.data, hrest.sim.records⟩,
        hrest.inv, ?_, hrest.body, hrest.nread, hrest.small⟩
      · have := hrest.sim.mark.extend 1
        rwa [hone] at this
      · refine hrest.mark.trans ?_
        dsimp only
        cases ((actions t.effects).foldl (Exec.act settings) e₂).mark <;> rfl
    · refine hturned.exit.imp_right fun hr => ⟨hr.1, hturned.members ▸ turn_exit hr.2.2, ?_⟩
      rw [hfold]
      dsimp only
      rw [hr.2.1]
      rfl

/-! ## A call -/

theorem loop_skip (p : Nat) (v : Vars δ ρ) (xs : List Byte) (n : Nat) :
    v.loop settings input p xs n = v.loop settings input (p + n) (xs.drop n) 0 := by
  induction xs generalizing p n with
  | nil => rw [List.drop_nil]; rfl
  | cons ch xs ih =>
    cases n with
    | zero => rfl
    | succ n =>
      rw [Vars.loop, ih, List.drop_succ_cons, Nat.add_assoc, Nat.add_comm 1 n]

theorem loop_of_exit (h : v.exit.isSome) (p : Nat) (xs : List Byte) :
    v.loop settings input p xs 0 = v := by
  cases xs with
  | nil => rfl
  | cons ch xs =>
    have hcount : v.count settings input p = v := by
      rw [Vars.count]
      split
      · exact perform_of_exit h _
      · rfl
    rw [Vars.loop, hcount, if_pos h]

/-- The bytes that the loop goes through. -/
theorem loop_agree (hsees : Sees settings) (hlen : input.length < 2 ^ 31) {xs : List Byte}
    (hd : input.drop p = xs) (h : AtRest ty input p v e) (hx : v.exit = none) :
    (v.loop settings input p xs 0).Failed ∨ ∃ n ≤ xs.length,
      AtRest ty input (p + n) (v.loop settings input p xs 0)
        ((xs.take n).foldl (Exec.byte grammar settings) e) ∧
      ((v.loop settings input p xs 0).exit = none ∧ n = xs.length ∨
        (v.loop settings input p xs 0).exit = some (.returned (p + n)) ∧ 0 < n ∧
          (v.loop settings input p xs 0).parser.members.upgrade = true ∧
          ((xs.take n).foldl (Exec.byte grammar settings) e).mark = none) := by
  induction hk : xs.length using Nat.strong_induction_on generalizing p v e xs with
  | _ k ih =>
    cases xs with
    | nil => exact .inr ⟨0, Nat.zero_le _, h, .inl ⟨hx, hk⟩⟩
    | cons ch bs =>
      rw [List.length_cons] at hk
      rw [Vars.loop]
      rcases count_agree settings h hx with hfail | ⟨hx₁, hmem, hpos, ph, hinv, hagree⟩
      · obtain ⟨parsed, hp⟩ := hfail.2
        dsimp only
        rw [if_pos (by rw [hp]; rfl)]
        exact .inl hfail
      dsimp only
      rw [if_neg (by rw [hx₁]; decide)]
      rw [← hmem] at hinv hpos hagree
      have hbody : v.bodyMark → (v.count settings input p).parser.members.state.inBody := by
        rw [hmem]
        exact h.body
      rcases take_agree hsees hlen hd hinv hbody hagree hx₁ hpos with
        hfail | ⟨n, hpos', hn, hdrop, hrest, hexit⟩
      · obtain ⟨parsed, hp⟩ := hfail.2
        rw [loop_skip, loop_of_exit (by rw [hp]; rfl)]
        exact .inl hfail
      rcases hexit with hnone | ⟨hret, hup, hmark⟩
      · have hlens := congrArg List.length hdrop
        rw [List.length_drop, List.length_drop, List.length_cons] at hlens
        rw [loop_skip, hdrop]
        cases hrem : (ch :: bs).drop n with
        | nil =>
          have hle := List.drop_eq_nil_iff.mp hrem
          rw [List.length_cons] at hle
          exact .inr ⟨n, hk ▸ hn, hrest, .inl ⟨hnone, by omega⟩⟩
        | cons c rest =>
          have hlt := congrArg List.length hrem
          rw [List.length_drop, List.length_cons, List.length_cons] at hlt
          rw [show p + 1 + (turn (v.count settings input p).parser.members ch bs).skip = p + n by omega,
            ← hrem]
          have hd' : input.drop (p + n) = (ch :: bs).drop n := by rw [← List.drop_drop, hd]
          rcases ih _ (by rw [List.length_drop, List.length_cons]; omega) hd' hrest hnone rfl with
            hfail | ⟨n', hn', hrest', hexit'⟩
          · exact .inl hfail
          rw [List.length_drop, List.length_cons] at hn' hexit'
          have hfold : ((ch :: bs).take (n + n')).foldl (Exec.byte grammar settings) e =
              (((ch :: bs).drop n).take n').foldl (Exec.byte grammar settings)
                (((ch :: bs).take n).foldl (Exec.byte grammar settings) e) := by
            rw [List.take_add, List.foldl_append]
          refine .inr ⟨n + n', by omega, ?_, ?_⟩
          · rw [hfold, ← Nat.add_assoc]
            exact hrest'
          · rw [hfold, ← Nat.add_assoc]
            exact hexit'.imp (fun h => ⟨h.1, by omega⟩) fun h => ⟨h.1, by omega, h.2.2⟩
      · rw [loop_skip, loop_of_exit (by rw [hret]; rfl)]
        exact .inr ⟨n, hk ▸ hn, hrest, .inr ⟨hret, hpos', hup, hmark⟩⟩

/-- What holds of a parser between two calls. -/
structure Parser.Ok (ty : HttpParserType) (parser : Parser) : Prop where
  inv : ∃ ph, Inv ty parser.members ph
  nread : parser.members.state = .chunkSizeStart → parser.nread = 0
  small : parser.nread.toNat ≤ httpMaxHeaderSize

theorem ok_init (ty : HttpParserType) : (httpParserInit ty).Ok ty := by
  refine ⟨⟨.idle, inv_init⟩, fun _ => rfl, Nat.zero_le _⟩

/-- A parser of the code, as one of the machine. -/
def Parser.abs (ty : HttpParserType) (parser : Parser) : Http.HttpParser Members :=
  ⟨ty, parser.members, parser.httpErrno.isSome⟩

theorem atRest_start (input : List Byte) {parser : Parser} (h : parser.Ok ty) (hok : parser.httpErrno = none) (d : δ) :
    AtRest ty input 0 (.start parser d : Vars δ ρ) (.start grammar (parser.abs ty) d) := by
  obtain ⟨ph, hinv⟩ := h.inv
  have hmark : (.start grammar (parser.abs ty) d : Exec Members δ ρ).mark =
      (marked parser.members.state).map (·, []) := rfl
  refine ⟨⟨?_, hok, ?_, rfl, rfl⟩, h.inv, ?_, fun hb => (by cases hb), h.nread, h.small⟩
  · show parser.abs ty = ⟨parser.members.type, parser.members, false⟩
    rw [Parser.abs, hok, hinv.type]
    rfl
  · rw [hmark, Vars.start]
    cases hm : marked parser.members.state with
    | none => rfl
    | some k =>
      refine ⟨0, Nat.le_refl 0, rfl, funext fun k' => ?_⟩
      show (if some k = some k' then some 0 else none) = _
      by_cases hk : k' = k
      · rw [hk, Function.update_self, if_pos rfl]
      · rw [Function.update_of_ne hk, if_neg fun h => hk (Option.some.inj h).symm]
  · rw [hmark, Option.map_map]
    exact Option.map_id_apply.symm

/-- Callbacks for strings that are not marked, at the end of a call. -/
theorem foldl_unmarked (settings : Settings Members δ ρ) (input : List Byte) (p : Nat)
    (es : List Effect) (hx : v.exit = none)
    (hes : ∀ a ∈ es, a = .dataBody ∨ ∃ k b s, a = .data k b s ∧ v.mark k = none) :
    ∃ b, es.foldl (Vars.perform settings input p) v = { v with bodyMark := b } := by
  induction es generalizing v with
  | nil => exact ⟨_, rfl⟩
  | cons a es ih =>
    rw [List.foldl_cons]
    rcases hes a (List.mem_cons_self ..) with rfl | ⟨k, b, s, rfl, hk⟩
    · have hperf : v.perform settings input p .dataBody = { v with bodyMark := false } :=
        if_neg (by rw [hx]; decide)
      rw [hperf]
      exact ih (v := { v with bodyMark := false }) hx fun a ha => hes a (List.mem_cons_of_mem _ ha)
    · have hperf : v.perform settings input p (.data k b s) = v.callbackData settings input p k b s :=
        if_neg (by rw [hx]; decide)
      rw [hperf, Vars.callbackData, hk]
      exact ih hx fun a ha => hes a (List.mem_cons_of_mem _ ha)

/-- The callbacks at the end of a call. -/
def reported (s : Members) : List Effect :=
  [.data .headerField false s, .data .headerValue false s, .data .url false s, .dataBody,
    .data .status false s]

theorem reported_split (k : Element) (s : Members) : ∃ es₁ es₂,
    reported s = es₁ ++ .data k false s :: es₂ ∧
      ∀ a ∈ es₁ ++ es₂, a = .dataBody ∨ ∃ k' b s', a = .data k' b s' ∧ k' ≠ k := by
  cases k
  · refine ⟨[.data .headerField false s, .data .headerValue false s], [.dataBody, .data .status false s],
      rfl, by simp⟩
  · exact ⟨[.data .headerField false s, .data .headerValue false s, .data .url false s, .dataBody], [],
      rfl, by simp⟩
  · exact ⟨[], [.data .headerValue false s, .data .url false s, .dataBody, .data .status false s],
      rfl, by simp⟩
  · exact ⟨[.data .headerField false s], [.data .url false s, .dataBody, .data .status false s],
      rfl, by simp⟩

/-- The end of a call. -/
theorem finish_agree (hsees : Sees settings) (h : AtRest ty input input.length v e)
    (hx : v.exit = none) : (v.finish settings input).Failed ∨
      ((v.finish settings input).exit = none ∧ (v.finish settings input).parser = v.parser ∧
        (e.finish settings).parser = e.parser ∧
        (e.finish settings).data = (v.finish settings input).data ∧
        (e.finish settings).records = (v.finish settings input).records) := by
  have hone : [v.mark .headerField, v.mark .headerValue, v.mark .url, v.mark .status].countP
      Option.isSome + v.bodyMark.toNat ≤ 1 := by
    have hm := h.sim.mark
    cases he : e.mark with
    | none =>
      rw [he] at hm
      rw [show v.mark = fun _ => none from hm]
      exact Nat.zero_add _ ▸ Bool.toNat_le _
    | some x =>
      rw [he] at hm
      obtain ⟨i, -, -, hm⟩ := hm
      have hbody : v.bodyMark = false := by
        by_contra hb
        have hin := h.body (Bool.eq_true_of_not_eq_false hb)
        have hnone : marked v.parser.members.state = none := by
          cases hs : v.parser.members.state <;> rw [hs] at hin <;> first | rfl | cases hin
        have hmark := h.mark
        rw [hnone, he] at hmark
        cases hmark
      rw [hbody, hm]
      cases x.1 <;> exact Nat.le_refl 1
  have hassert : v.perform settings input input.length (.assert true) = v := by
    rw [Vars.perform, if_neg (by rw [hx]; decide)]
    rfl
  have hfinish : v.finish settings input =
      (reported v.parser.members).foldl (Vars.perform settings input input.length) v := by
    rw [Vars.finish, decide_eq_true hone, List.foldl_cons, hassert]
    rfl
  have hm := h.sim.mark
  cases he : e.mark with
  | none =>
    rw [he] at hm
    have hfin : e.finish settings = e := by rw [Exec.finish, he]
    obtain ⟨b, hv⟩ := foldl_unmarked settings input input.length (reported v.parser.members) hx
      fun a ha => by
        simp only [reported, List.mem_cons, List.not_mem_nil, or_false] at ha
        rcases ha with rfl | rfl | rfl | rfl | rfl <;>
          first | exact .inl rfl | exact .inr ⟨_, _, _, rfl, congrFun hm _⟩
    rw [hfin, h.sim.data, h.sim.records, hfinish, hv]
    exact .inr ⟨hx, rfl, rfl, rfl, rfl⟩
  | some x =>
    rw [he] at hm
    obtain ⟨i, -, -, hm⟩ := hm
    obtain ⟨es₁, es₂, hsplit, hother⟩ := reported_split x.1 v.parser.members
    have hfin : e.finish settings = e.act settings (.data x.1) := by rw [Exec.finish, he]
    have hkind : e.mark.map Prod.fst = some x.1 := by rw [he]; rfl
    obtain ⟨b₁, hv₁⟩ := foldl_unmarked settings input input.length es₁ hx
      fun a ha => (hother a (List.mem_append_left _ ha)).imp_right (by
        rintro ⟨k, b, s, ha, hk⟩
        exact ⟨k, b, s, ha, by rw [hm, Function.update_of_ne hk]⟩)
    have hsim : Sim input input.length { v with bodyMark := b₁ } e :=
      ⟨h.sim.parser, h.sim.httpErrno, h.sim.mark, h.sim.data, h.sim.records⟩
    have hperf : Vars.perform settings input input.length { v with bodyMark := b₁ }
        (.data x.1 false v.parser.members) =
          Vars.callbackData settings input input.length { v with bodyMark := b₁ } x.1 false
            v.parser.members := if_neg (by rw [hx]; decide)
    rw [hfinish, hsplit, List.foldl_append, hv₁, List.foldl_cons, hperf, hfin]
    rcases callbackData_agree hsees hsim hkind rfl false with
      hfail | ⟨d, hv₂, he₂⟩
    · obtain ⟨parsed, hp⟩ := hfail.2
      rw [foldl_perform_of_exit (by rw [hp]; rfl)]
      exact .inl hfail
    · obtain ⟨b₂, hv₃⟩ := foldl_unmarked settings input input.length es₂
        (v := { v with bodyMark := b₁, mark := fun _ => none, data := d }) hx fun a ha =>
          (hother a (List.mem_append_right _ ha)).imp_right (by
            rintro ⟨k, b, s, ha, -⟩
            exact ⟨k, b, s, ha, rfl⟩)
      rw [hv₂, he₂, hv₃, ← h.sim.records]
      exact .inr ⟨hx, rfl, rfl, rfl, rfl⟩

/-- A parser is left as it should be. -/
theorem AtRest.ok (h : AtRest ty input p v e) : v.parser.Ok ty := ⟨h.inv, h.nread, h.small⟩

theorem AtRest.abs (h : AtRest ty input p v e) : e.parser = v.parser.abs ty := by
  obtain ⟨ph, hinv⟩ := h.inv
  rw [h.sim.parser, Parser.abs, h.sim.httpErrno, hinv.type]
  rfl

/-- A call without an error is a call of the machine. -/
theorem execute_spec (hsees : Sees settings) {parser : Parser} (h : parser.Ok ty)
    (hok : parser.httpErrno = none) {data : List Byte} (hlen : data.length < 2 ^ 31) (d : δ) :
    ∃ r, httpParserExecute settings parser data d = some r ∧
      (r.parser.httpErrno.isSome ∨
        (r.parser.Ok ty ∧ r.parser.httpErrno = none ∧
          (r.parsed = data.length ∨ r.parser.members.upgrade = true) ∧
          Http.httpParserExecute grammar settings (parser.abs ty) (data.take r.parsed) d =
            (r.parser.abs ty, r.data, r.records))) := by
  have habs : (parser.abs ty).httpErrno = false := by rw [Parser.abs, hok]; rfl
  rw [httpParserExecute, if_neg (by rw [hok]; exact Bool.false_ne_true)]
  by_cases hnil : data = []
  · rw [if_pos hnil]
    by_cases heof : atEof parser.members.state
    · rw [if_pos heof]
      refine ⟨_, rfl, .inr ⟨h, hok, .inl (by rw [hnil]; rfl), ?_⟩⟩
      rw [hnil, List.take_nil, Http.httpParserExecute, if_neg (by rw [habs]; exact Bool.false_ne_true),
        if_pos rfl,
        if_pos (show grammar.atEof (parser.abs ty).state = true from heof)]
    · rw [if_neg heof]
      exact ⟨_, rfl, .inl rfl⟩
  rw [if_neg hnil]
  have hexec {bs : List Byte} (hbs : bs ≠ []) :
      Http.httpParserExecute grammar settings (parser.abs ty) bs d =
        let e := (bs.foldl (Exec.byte grammar settings) (.start grammar (parser.abs ty) d)).finish
          settings
        (e.parser, e.data, e.records) := by
    rw [Http.httpParserExecute, if_neg (by rw [habs]; exact Bool.false_ne_true), if_neg hbs]
  have hrest : AtRest ty data 0 (.start parser d : Vars δ ρ) (.start grammar (parser.abs ty) d) :=
    atRest_start data h hok d
  rcases loop_agree hsees hlen List.drop_zero hrest rfl with
    hfail | ⟨n, hn, hrest', ⟨hx, rfl⟩ | ⟨hx, hpos, hup, hmark⟩⟩
  · obtain ⟨parsed, hp⟩ := hfail.2
    dsimp only
    rw [if_pos (by rw [hp]; rfl), hp]
    exact ⟨_, rfl, .inl hfail.1⟩
  · rw [Nat.zero_add, List.take_length] at hrest'
    dsimp only
    rw [if_neg (by rw [hx]; exact Bool.false_ne_true)]
    rcases finish_agree hsees hrest' hx with hfail | ⟨hx', hparser, heparser, hdata, hrecords⟩
    · obtain ⟨parsed, hp⟩ := hfail.2
      rw [hp]
      exact ⟨_, rfl, .inl hfail.1⟩
    · rw [hx']
      refine ⟨_, rfl, .inr ⟨?_, ?_, .inl rfl, ?_⟩⟩
      · dsimp only
        rw [hparser]
        exact hrest'.ok
      · dsimp only
        rw [hparser]
        exact hrest'.sim.httpErrno
      · dsimp only
        rw [List.take_length, hexec hnil]
        dsimp only
        rw [heparser, hdata, hrecords, hparser, hrest'.abs]
  · rw [Nat.zero_add] at hrest' hx
    dsimp only
    rw [if_pos (by rw [hx]; rfl), hx]
    refine ⟨_, rfl, .inr ⟨hrest'.ok, hrest'.sim.httpErrno, .inr hup, ?_⟩⟩
    have htake : data.take n ≠ [] := by
      rw [Ne, List.take_eq_nil_iff, not_or]
      exact ⟨hpos.ne', hnil⟩
    dsimp only
    rw [hexec htake]
    dsimp only
    rw [Exec.finish, hmark]
    dsimp only
    rw [hrest'.abs, hrest'.sim.data, hrest'.sim.records]

end Noff.HttpParser
