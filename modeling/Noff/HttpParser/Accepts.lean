import Noff.HttpParser.Runs

/-!
# Streams that are accepted

What the machine reads without an error the code accepts as well, however the stream comes in
calls, if the bytes of its values are header characters, and if it has no more header
bytes in a row than the code counts (`accepted_of_fits`). The code counts them again at the
end of a call, so that each call costs one byte of that.
-/

namespace Noff.HttpParser

open Http

variable {δ ρ : Type} {settings : Settings Members δ ρ} {ty : HttpParserType}
  {s s' s₁ : Members} {ph : Phase} {ch : Byte} {xs ys bs : List Byte} {L n : Nat}

/-! ## Bytes that fit -/

/-- The count of header bytes behind the byte `ch`. -/
def tick (s : Members) (n : Nat) (ch : Byte) : Nat :=
  if .resetNread ∈ (turn s ch []).effects then 0
  else if s.state.parsingHeader then n + 1 else n

/-- A byte that goes on in a message, as the last of at most `L` header bytes. -/
structure Fit (L : Nat) (s : Members) (n : Nat) (ch : Byte) : Prop where
  noError : .error ∉ (step s ch).1
  noUpgrade : (step s ch).2.upgrade = false
  headerChar : s.state = .headerValue → isHeaderChar ch
  counted : s.state.parsingHeader → n < L

instance (L : Nat) (s : Members) (n : Nat) (ch : Byte) : Decidable (Fit L s n ch) :=
  decidable_of_iff (.error ∉ (step s ch).1 ∧ (step s ch).2.upgrade = false ∧
      (s.state = .headerValue → isHeaderChar ch) ∧ (s.state.parsingHeader → n < L))
    ⟨fun h => ⟨h.1, h.2.1, h.2.2.1, h.2.2.2⟩,
      fun h => ⟨h.noError, h.noUpgrade, h.headerChar, h.counted⟩⟩

/-- A byte of the machine, and the count. -/
def next (x : Members × Nat) (ch : Byte) : Members × Nat := ((step x.1 ch).2, tick x.1 x.2 ch)

def walk (x : Members × Nat) (bs : List Byte) : Members × Nat := bs.foldl next x

def Fits (L : Nat) (x : Members × Nat) : List Byte → Prop
  | [] => True
  | ch :: bs => Fit L x.1 x.2 ch ∧ Fits L (next x ch) bs

instance Fits.decidable (L : Nat) : ∀ x bs, Decidable (Fits L x bs)
  | _, [] => .isTrue trivial
  | x, ch :: bs => @instDecidableAnd _ _ _ (decidable L (next x ch) bs)

variable {x : Members × Nat}

theorem walk_cons : walk x (ch :: bs) = walk (next x ch) bs := rfl

theorem walk_append : walk x (xs ++ ys) = walk (walk x xs) ys := List.foldl_append

theorem fits_append : Fits L x (xs ++ ys) ↔ Fits L x xs ∧ Fits L (walk x xs) ys := by
  induction xs generalizing x with
  | nil => exact ⟨fun h => ⟨trivial, h⟩, And.right⟩
  | cons ch xs ih => rw [List.cons_append, Fits, Fits, ih, and_assoc, walk_cons]

theorem Quiet.walk_fst (h : Quiet s xs s') (n : Nat) : (walk (s, n) xs).1 = s' := by
  induction h generalizing n with
  | nil => rfl
  | @cons s s₁ s' ch bs hstep _ ih =>
    have hnext : next (s, n) ch = (s₁, tick s n ch) := by rw [next, hstep]
    rw [walk_cons, hnext]
    exact ih _

/-- A byte that fits is no error in a turn of its own. -/
theorem Fit.turn_noError (h : Fit L s n ch) (err : HttpErrno) :
    .error err ∉ (turn s ch []).effects := by
  have hne := h.noError
  rw [step] at hne
  split at hne
  · rename_i hg
    obtain ⟨hs, hgen, hcr, hlf⟩ := hg
    have hgood : ¬ (!s.lenientHttpHeaders && !isHeaderChar ch) = true := by
      rw [h.headerChar hs]
      simp
    have hend : lineEnd [ch] = 1 := by
      simp [lineEnd, hcr, hlf, httpMaxHeaderSize]
    have hturn : turn s ch [] = headerValue s [ch] := by rw [turn, hs]
    rw [hturn, headerValue, headerValueLoop, if_neg hcr, if_neg hlf, if_neg hgood, if_pos hgen, hend]
    simp
  · intro he
    exact hne (List.mem_filterMap.mpr ⟨_, he, rfl⟩)

/-! ## Headers -/

/-- The states whose bytes are counted by a loop. -/
def State.inHeader : State → Bool
  | .headerField | .headerValue => true
  | _ => false

theorem State.inHeader_iff {st : State} : st.inHeader ↔ st = .headerField ∨ st = .headerValue := by
  cases st <;> simp [State.inHeader]

theorem Fit.tick_header (h : Fit L s n ch) (hi : Inv ty s ph) (hs : s.state.inHeader) :
    tick s n ch = n + 1 := by
  have hst := State.inHeader_iff.mp hs
  obtain ⟨-, hreset, -⟩ := turn_counted hi hst h.turn_noError
  rw [tick, if_neg hreset, if_pos]
  rcases hst with hst | hst <;> rw [hst] <;> rfl

/-- A quiet byte in a header leaves its state. -/
theorem quiet_header (hi : Inv ty s ph) (hs : s.state.inHeader) (h : step s ch = ([], s₁)) :
    Inv ty s₁ ph ∧ s₁.state = s.state := by
  rcases State.inHeader_iff.mp hs with hs | hs
  · rw [step_headerField hs] at h
    by_cases ht : tokens ch = 0
    · rw [headerField_stop (headerFieldLoop_stop ht) rfl] at h
      split at h <;> simp [actions, Effect.action] at h
    · obtain ⟨s₂, hb, hi₂, hs₂⟩ : ∃ s₂, headerFieldByte s ch = some s₂ ∧ Inv ty s₂ ph ∧
        s₂.state = .headerField := headerFieldByte_spec hi hs
      rw [headerField_atEnd (headerFieldLoop_token ht hb) rfl] at h
      obtain rfl : s₂ = s₁ := congrArg Prod.snd h
      exact ⟨hi₂, hs₂.trans hs.symm⟩
  · rw [step] at h
    split at h
    · cases h
      exact ⟨hi, rfl⟩
    obtain ⟨n, stop, s₂, hl, hfail, hi₂, hs₂⟩ := headerValueLoop_spec hi hs [ch]
    rw [turn, hs] at h
    dsimp only at h
    rw [headerValue, hl] at h
    cases stop with
    | atEnd =>
      obtain rfl : s₂ = s₁ := congrArg Prod.snd h
      exact ⟨hi₂, hs₂.trans hs.symm⟩
    | failed => exact absurd rfl hfail
    | _ => simp [actions, Effect.action] at h

/-- Quiet bytes in a header are all counted. -/
theorem Quiet.walk_header (h : Quiet s xs s') (hi : Inv ty s ph) (hs : s.state.inHeader)
    (hfits : Fits L (s, n) xs) :
    walk (s, n) xs = (s', n + xs.length) ∧ Inv ty s' ph ∧ s'.state = s.state := by
  induction h generalizing n with
  | nil => exact ⟨rfl, hi, rfl⟩
  | @cons s s₁ s' ch bs hstep _ ih =>
    obtain ⟨hi₁, hs₁⟩ := quiet_header hi hs hstep
    have hnext : next (s, n) ch = (s₁, n + 1) := by
      rw [next, hstep, hfits.1.tick_header hi hs]
    have hrest := hfits.2
    rw [hnext] at hrest
    obtain ⟨hw, hi', hs'⟩ := ih hi₁ (hs₁ ▸ hs) hrest
    refine ⟨?_, hi', hs'.trans hs₁⟩
    rw [walk_cons, hnext, hw, List.length_cons, Nat.add_assoc, Nat.add_comm 1]

/-- The bytes of a header that fit are `L` at most. -/
theorem Quiet.length_le (h : Quiet s xs s') (hi : Inv ty s ph) (hs : s.state.inHeader)
    (hfits : Fits L (s, n) xs) (hn : n ≤ L) : n + xs.length ≤ L := by
  induction h generalizing n with
  | nil => exact hn
  | @cons s s₁ s' ch bs hstep _ ih =>
    obtain ⟨hi₁, hs₁⟩ := quiet_header hi hs hstep
    have hrest := hfits.2
    rw [next, hstep, hfits.1.tick_header hi hs] at hrest
    have hlt : n < L := hfits.1.counted (by cases hst : s.state <;> rw [hst] at hs <;> first | rfl | cases hs)
    rw [List.length_cons, Nat.add_comm bs.length, ← Nat.add_assoc]
    exact ih hi₁ (hs₁ ▸ hs) hrest hlt

theorem headerField_noError (hi : Inv ty s ph) (hs : s.state = .headerField)
    (hfits : Fits L (s, n) xs) (err : HttpErrno) : .error err ∉ (headerField s xs).effects := by
  obtain ⟨k, s', hl, -, hs'⟩ := headerFieldLoop_spec hi hs xs
  obtain ⟨hq, hstop⟩ := headerFieldLoop_quiet hi hs hl
  cases hd : xs.drop k with
  | nil =>
    rw [headerField_atEnd hl hd]
    simp
  | cons c rest =>
    have hc : tokens c = 0 := hstop c (by rw [hd]; rfl)
    rw [headerField_stop hl hd]
    split
    · simp
    · rename_i hcolon
      rw [← List.take_append_drop k xs, fits_append, hd] at hfits
      have hne := hfits.2.1.noError
      rw [hq.walk_fst, step_headerField hs', headerField_stop (headerFieldLoop_stop hc) rfl,
        if_neg hcolon] at hne
      exact absurd (by simp [actions, Effect.action]) hne

/-- The end of the line is in the bytes that fit, or behind them. -/
theorem lineEnd_fits (hi : Inv ty s ph) (hs : s.state = .headerValue) (hg : s.headerState = .general)
    (hfits : Fits L (s, n) xs) (hn : n ≤ L) (hL : L < httpMaxHeaderSize) : n + lineEnd xs ≤ L := by
  have hquiet (ys : List Byte) (h : ∀ c ∈ ys, c ≠ CR ∧ c ≠ LF) (hy : Fits L (s, n) ys) :
      n + ys.length ≤ L := (quiet_general hs hg h).length_le hi (by rw [hs]; rfl) hy hn
  rw [lineEnd]
  have htake (k : Nat) : Fits L (s, n) (xs.take k) := by
    rw [← List.take_append_drop k xs, fits_append] at hfits
    exact hfits.1
  cases hf : (xs.take httpMaxHeaderSize).findIdx? fun ch => ch = CR || ch = LF with
  | none =>
    have := hquiet _ (fun c hc => by simpa using List.findIdx?_eq_none_iff.mp hf c hc)
      (htake httpMaxHeaderSize)
    rw [List.length_take] at this
    rw [Option.getD_none]
    omega
  | some k =>
    obtain ⟨hk, -, hbefore⟩ := List.findIdx?_eq_some_iff_getElem.mp hf
    rw [List.length_take] at hk
    have := hquiet (xs.take k) (fun c hc => ?_) (htake k)
    · rw [List.length_take] at this
      rw [Option.getD_some]
      omega
    · obtain ⟨j, hj, rfl⟩ := List.mem_iff_getElem.mp hc
      rw [List.length_take] at hj
      have := hbefore j (by omega)
      rw [List.getElem_take] at this ⊢
      simpa using this

/-- The loop of `s_header_value` does not end in an error, and takes at most what fits. -/
theorem headerValueLoop_fits (hi : Inv ty s ph) (hs : s.state = .headerValue)
    (hfits : Fits L (s, n) xs) (hn : n ≤ L) (hL : L < httpMaxHeaderSize) :
    (∀ err, (headerValueLoop s xs).2.1 ≠ .error err) ∧ n + (headerValueLoop s xs).1 ≤ L := by
  induction xs generalizing s n with
  | nil => exact ⟨fun err h => (by cases h), hn⟩
  | cons ch bs ih =>
    have hfit := hfits.1
    have hgood : ¬ (!s.lenientHttpHeaders && !isHeaderChar ch) = true := by
      rw [hfit.headerChar hs]
      simp
    rw [headerValueLoop]
    split
    · exact ⟨fun err h => (by cases h), hn⟩
    rename_i hcr
    split
    · exact ⟨fun err h => (by cases h), hn⟩
    rename_i hlf
    split
    · rename_i hg
      refine ⟨fun err h => ?_, lineEnd_fits hi hs hg hfits hn hL⟩
      dsimp only at h
      split at h
      · cases h
      · split at h <;> cases h
    · rename_i hg
      obtain ⟨r, hr, hok⟩ : ∃ r, headerValueByte s ch = some r ∧
        ∀ s', r = .ok s' → Inv ty s' ph ∧ s'.state = .headerValue := headerValueByte_spec hi hs
      rw [hr]
      cases r with
      | error e =>
        have hne := hfit.noError
        have hone : headerValueLoop s [ch] = (0, .error e, s) := by
          rw [headerValueLoop, if_neg hcr, if_neg hlf, if_neg hgood, if_neg hg, hr]
        rw [step, if_neg fun hc => hg hc.2.1, turn, hs] at hne
        dsimp only at hne
        rw [headerValue, hone] at hne
        exact absurd (by simp [actions, Effect.action]) hne
      | ok s₁ =>
        obtain ⟨hi₁, hs₁⟩ := hok s₁ rfl
        have hone : headerValueLoop s [ch] = (1, .atEnd, s₁) := by
          rw [headerValueLoop, if_neg hcr, if_neg hlf, if_neg hgood, if_neg hg, hr]
          rfl
        have hstep : step s ch = ([], s₁) := by
          rw [step, if_neg fun hc => hg hc.2.1, turn, hs]
          dsimp only
          rw [headerValue, hone]
          rfl
        have hrest := hfits.2
        rw [next, hstep, hfit.tick_header hi (by rw [hs]; rfl)] at hrest
        obtain ⟨hne, hle⟩ := ih hi₁ hs₁ hrest (hfit.counted (by rw [hs]; rfl))
        exact ⟨hne, by dsimp only; omega⟩

/-! ## Bodies -/

/-- The states of a body whose bytes are not counted. -/
theorem tick_body (hs : s.state = .bodyIdentity ∨ s.state = .chunkData ∨ s.state = .bodyIdentityEof) :
    tick s n ch = n := by
  have hreset : .resetNread ∉ (turn s ch []).effects := by
    rcases hs with hs | hs | hs <;> rw [turn, hs]
    · dsimp only [bodyIdentity, messageDone]
      split <;> simp [Effect.then]
    · simp [chunkData]
    · simp [bodyIdentityEof]
  rw [tick, if_neg hreset, if_neg]
  rcases hs with hs | hs | hs <;> rw [hs] <;> decide

theorem walk_body (hs : s.state = .bodyIdentity ∨ s.state = .chunkData)
    (h : xs.length ≤ s.contentLength.toNat) : (walk (s, n) xs).2 = n := by
  induction xs generalizing s with
  | nil => rfl
  | cons ch xs ih =>
    have htick : tick s n ch = n := tick_body (by tauto)
    rw [List.length_cons] at h
    cases xs with
    | nil => exact htick
    | cons c xs =>
      rw [List.length_cons] at h
      have hleft := toNat_read (s := s) (n := 1) (by omega)
      have hz : s.contentLength ≠ 0 := toNat_pos_iff.mp (by omega)
      have hz' : (s.read 1).contentLength ≠ 0 := toNat_pos_iff.mp (by omega)
      have hnext : next (s, n) ch = (s.read 1, n) := by
        rw [next, htick, step_body hs hz, bodyOut, if_neg hz', if_neg hz', ite_self]
      rw [walk_cons, hnext]
      exact ih (s := s.read 1) hs (by rw [List.length_cons]; omega)

theorem walk_bodyEof (hs : s.state = .bodyIdentityEof) : walk (s, n) xs = (s, n) := by
  induction xs with
  | nil => rfl
  | cons ch xs ih =>
    have hstep : step s ch = ([], s) := by
      rw [step_of_state (by rw [hs]; decide), turn, hs]
      rfl
    have hnext : next (s, n) ch = (s, n) := by rw [next, hstep, tick_body (.inr (.inr hs))]
    rw [walk_cons, hnext, ih]

/-! ## Turns -/

/-- A turn on bytes that fit is no error. -/
theorem turn_noError (hi : Inv ty s ph) (hfits : Fits L (s, n) (ch :: bs))
    (hL : L < httpMaxHeaderSize) (err : HttpErrno) : .error err ∉ (turn s ch bs).effects := by
  have hfit := hfits.1
  by_cases hr : s.state.readsOn = false
  · have := hfit.turn_noError err
    rwa [turn_of_not_readsOn hr] at this ⊢
  cases hs : s.state <;> rw [hs] at hr <;> first | exact absurd rfl hr | skip
  case headerField =>
    have ht : turn s ch bs = headerField s (ch :: bs) := by rw [turn, hs]
    rw [ht]
    exact headerField_noError hi hs hfits err
  case headerValue =>
    have ht : turn s ch bs = headerValue s (ch :: bs) := by rw [turn, hs]
    have hlt : n < L := hfit.counted (by rw [hs]; rfl)
    obtain ⟨hne, -⟩ := headerValueLoop_fits hi hs hfits hlt.le hL
    rw [ht, headerValue]
    generalize headerValueLoop s (ch :: bs) = r at hne
    obtain ⟨k, stop, s'⟩ := r
    cases stop with
    | error e => exact absurd rfl (hne e)
    | _ => simp [headerAlmostDone, go]
  case bodyIdentity =>
    rw [turn, hs]
    dsimp only [bodyIdentity, messageDone]
    split <;> simp [Effect.then]
  case bodyIdentityEof =>
    rw [turn, hs]
    simp [bodyIdentityEof]
  case chunkData =>
    rw [turn, hs]
    simp [chunkData]

@[simp] theorem counted_then (a : Effect) (o : Out) : counted (a.then o).1 = counted (a :: o.1) := rfl

theorem messageDone_counted : counted (messageDone s).1 = 0 := by
  dsimp only [messageDone]
  split <;> rfl

theorem headersDone_counted : counted (headersDone s ch).1 = 0 := by
  unfold headersDone
  split
  · rfl
  dsimp only
  split <;> rfl

theorem headersAlmostDone_counted : counted (headersAlmostDone s ch).1 = 0 := by
  unfold headersAlmostDone
  split
  · rfl
  split
  · exact messageDone_counted
  split
  · rfl
  · exact headersDone_counted

theorem headerFieldStart_counted : counted (headerFieldStart s ch).1 = 0 := by
  unfold headerFieldStart
  split
  · rfl
  split
  · exact headersAlmostDone_counted
  dsimp only
  split <;> rfl

theorem headerValueStart_counted : counted (headerValueStart s ch).1 = 0 := by
  unfold headerValueStart
  dsimp only
  (repeat' split) <;> rfl

/-- Only the loops count. -/
theorem switch_counted (s : Members) (ch : Byte) : counted (switch s ch).1 = 0 := by
  rw [switch]
  cases s.state
  case headerFieldStart => exact headerFieldStart_counted
  case headersAlmostDone => exact headersAlmostDone_counted
  case headersDone => exact headersDone_counted
  case messageDone => exact messageDone_counted
  case headerValueStart => exact headerValueStart_counted
  case headerValueLws =>
    dsimp only [headerValueLws]
    split
    · exact headerValueStart_counted
    · exact headerFieldStart_counted
  case headerValueDiscardLws =>
    dsimp only [headerValueDiscardLws]
    split
    · rfl
    · exact headerFieldStart_counted
  case headerValueDiscardWs =>
    dsimp only [headerValueDiscardWs]
    (repeat' split) <;> first | rfl | exact headerValueStart_counted
  all_goals
    simp only [expect, startRes, resStatusCode, resStatusStart, report, resStatus, versionDigit,
      startReq, reqMethod, url, reqSpacesBeforeUrl, reqSchema, reqUrl, chunkSizeStart, chunkSize,
      chunkParameters, chunkSizeAlmostDone, chunkDataAlmostDone, chunkDataDone, Effect.then, go,
      fail, headerAlmostDone]
    (repeat' split) <;> rfl

/-- What a turn on bytes that fit counts: no more than it takes. -/
theorem turn_counted_le (hi : Inv ty s ph) (hfits : Fits L (s, n) (ch :: bs))
    (hL : L < httpMaxHeaderSize) :
    counted (turn s ch bs).effects = 0 ∨ s.state.inHeader ∧
      counted (turn s ch bs).effects = (turn s ch bs).skip := by
  have hne := turn_noError hi hfits hL
  by_cases hr : s.state.readsOn = false
  · rw [turn_of_not_readsOn hr]
    exact .inl (switch_counted s ch)
  by_cases hs : s.state.inHeader
  · exact .inr ⟨hs, (turn_counted hi (State.inHeader_iff.mp hs) hne).1⟩
  left
  cases hst : s.state <;> rw [hst] at hr hs <;>
    first | exact absurd rfl hr | exact absurd rfl hs | skip
  case bodyIdentity =>
    rw [turn, hst]
    dsimp only [bodyIdentity]
    split
    · exact messageDone_counted
    · rfl
  case bodyIdentityEof =>
    rw [turn, hst]
    rfl
  case chunkData =>
    rw [turn, hst]
    rfl

/-! ## The count of the code -/

variable {input : List Byte} {p : Nat} {v : Vars δ ρ} {e : Exec Members δ ρ} {es : List Effect}

/-- Callbacks that do not fail. -/
def NeverFails (settings : Settings Members δ ρ) : Prop :=
  ∀ parser k data d, (settings.onData parser k data d).isSome

theorem countHeaderSize_ok (p : Nat) {k : Nat} (h : v.parser.nread.toNat + k ≤ httpMaxHeaderSize) :
    v.countHeaderSize p k = { v with parser.nread := v.parser.nread + BitVec.ofNat 32 k } ∧
      (v.parser.nread + BitVec.ofNat 32 k).toNat = v.parser.nread.toNat + k := by
  have hmax : httpMaxHeaderSize = 81920 := rfl
  have hnat : (v.parser.nread + BitVec.ofNat 32 k).toNat = v.parser.nread.toNat + k := by
    rw [BitVec.toNat_add, BitVec.toNat_ofNat]
    omega
  refine ⟨?_, hnat⟩
  rw [Vars.countHeaderSize]
  exact if_neg (by dsimp only; omega)

/-- An effect that is no error. -/
theorem perform_ok (hcb : NeverFails settings) (input : List Byte) (p : Nat) {a : Effect} (hne : ∀ err, a ≠ .error err)
    (hcount : ∀ k, a ≠ .countHeaderSize k) (hok : v.parser.httpErrno = none) :
    (v.perform settings input p a).parser.httpErrno = none := by
  unfold Vars.perform
  split
  · exact hok
  cases a with
  | error err => exact absurd rfl (hne err)
  | countHeaderSize k => exact absurd rfl (hcount k)
  | data k advance s' =>
    dsimp only [Vars.callbackData]
    split
    · exact hok
    rename_i m hm
    obtain ⟨d, hd⟩ := Option.isSome_iff_exists.mp
      (hcb ⟨s'.type, s', false⟩ k ((input.take p).drop m) v.data)
    rw [hd]
    exact hok
  | assert b =>
    dsimp only [Vars.assert]
    split <;> exact hok
  | assertNread =>
    dsimp only [Vars.assert]
    split <;> exact hok
  | _ => exact hok

/-- Effects without an error, with a count that stays small. -/
theorem foldl_perform_ok (hcb : NeverFails settings) (input : List Byte) (p : Nat)
    (hne : ∀ err, .error err ∉ es) (hok : v.parser.httpErrno = none) (hn : v.parser.nread.toNat + counted es ≤ httpMaxHeaderSize) :
    (es.foldl (Vars.perform settings input p) v).parser.httpErrno = none ∧
      ((es.foldl (Vars.perform settings input p) v).exit = none →
        (es.foldl (Vars.perform settings input p) v).parser.nread.toNat ≤
          (if .resetNread ∈ es then 0 else v.parser.nread.toNat) + counted es) := by
  induction es generalizing v with
  | nil => exact ⟨hok, fun _ => Nat.le_refl _⟩
  | cons a es ih =>
    have hne' : ∀ err, .error err ∉ es := fun err h => hne err (List.mem_cons_of_mem _ h)
    have ha : ∀ err, a ≠ .error err := fun err h => hne err (h ▸ List.mem_cons_self ..)
    rw [List.foldl_cons]
    cases hx : v.exit with
    | some x =>
      have hsome : v.exit.isSome := by rw [hx]; rfl
      rw [perform_of_exit hsome, foldl_perform_of_exit hsome]
      exact ⟨hok, fun h => by rw [hx] at h; cases h⟩
    | none =>
      have hperf : v.perform settings input p a = _ := if_neg (by rw [hx]; decide)
      by_cases hcount : ∃ k, a = .countHeaderSize k
      · obtain ⟨k, rfl⟩ := hcount
        rw [counted] at hn ⊢
        obtain ⟨hstep, hnat⟩ := countHeaderSize_ok (v := v) p (k := k) (by omega)
        have hperf : v.perform settings input p (.countHeaderSize k) = _ := hperf.trans hstep
        rw [hperf]
        obtain ⟨hok', hle⟩ := ih (v := { v with parser.nread := v.parser.nread + BitVec.ofNat 32 k }) hne'
          hok (by dsimp only; omega)
        refine ⟨hok', fun h => (hle h).trans ?_⟩
        simp only [List.mem_cons, reduceCtorEq, false_or]
        split <;> omega
      · have hsame : counted (a :: es) = counted es := by
          cases a <;> first | rfl | exact absurd ⟨_, rfl⟩ hcount
        have hok₁ := perform_ok hcb input p ha (fun k h => hcount ⟨k, h⟩) hok
        rw [hsame] at hn ⊢
        by_cases hreset : a = .resetNread
        · subst hreset
          have hperf : v.perform settings input p .resetNread = { v with parser.nread := 0 } := hperf
          rw [hperf]
          obtain ⟨hok', hle⟩ := ih (v := { v with parser.nread := 0 }) hne' hok (by
            show 0 + counted es ≤ httpMaxHeaderSize
            omega)
          refine ⟨hok', fun h => (hle h).trans ?_⟩
          rw [if_pos (List.mem_cons_self ..)]
          split <;> exact Nat.le_refl _
        · have hnread := perform_nread settings input (p := p) (v := v) (fun k h => hcount ⟨k, h⟩) hreset
          obtain ⟨hok', hle⟩ := ih hne' hok₁ (by rw [hnread]; exact hn)
          rw [hnread] at hle
          have hmem : .resetNread ∈ a :: es ↔ .resetNread ∈ es := by
            rw [List.mem_cons, or_iff_right (Ne.symm hreset)]
          exact ⟨hok', fun h => by simpa only [hmem] using hle h⟩

/-! ## Calls -/

/-- A byte of the machine changes the state as its step does, unless it has failed. -/
theorem foldl_byte_state (h : (xs.foldl (Exec.byte grammar settings) e).parser.httpErrno = false)
    (n : Nat) : (xs.foldl (Exec.byte grammar settings) e).parser.state =
      (walk (e.parser.state, n) xs).1 := by
  have hact (e : Exec Members δ ρ) (a : Http.Action) : (e.act settings a).parser.state = e.parser.state := by
    unfold Exec.act Exec.report
    (repeat' split) <;> rfl
  have hacts (as : List Http.Action) (e : Exec Members δ ρ) :
      (as.foldl (Exec.act settings) e).parser.state = e.parser.state := by
    induction as generalizing e with
    | nil => rfl
    | cons a as ih => rw [List.foldl_cons, ih, hact]
  have hstuck (xs : List Byte) (e : Exec Members δ ρ) (he : e.parser.httpErrno = true) :
      xs.foldl (Exec.byte grammar settings) e = e := by
    induction xs with
    | nil => rfl
    | cons ch xs ih =>
      have hbyte : e.byte grammar settings ch = e := by rw [Exec.byte, if_pos he]
      rw [List.foldl_cons, hbyte, ih]
  induction xs generalizing e n with
  | nil => rfl
  | cons ch xs ih =>
    rw [List.foldl_cons] at h ⊢
    cases he : e.parser.httpErrno with
    | true =>
      have hbyte : e.byte grammar settings ch = e := by rw [Exec.byte, if_pos he]
      rw [hbyte, hstuck xs e he, he] at h
      cases h
    | false =>
      have hbyte : (e.byte grammar settings ch).parser.state = (step e.parser.state ch).2 := by
        rw [Exec.byte, he, if_neg Bool.false_ne_true]
        exact hacts _ _
      rw [ih h (tick e.parser.state n ch), hbyte]
      rfl

/-- The bytes at hand fit, and the code has counted at most `k` bytes twice. -/
structure Room (L k : Nat) (v : Vars δ ρ) (n : Nat) (xs : List Byte) : Prop where
  fits : Fits L (v.parser.members, n) xs
  nread : v.parser.nread.toNat ≤ n + k
  room : L + k < httpMaxHeaderSize

/-- The byte at hand is counted without an error. -/
theorem count_room (settings : Settings Members δ ρ) (input : List Byte) (p : Nat) {k : Nat} (h : Room L k v n (ch :: bs))
    (hok : v.parser.httpErrno = none) (hx : v.exit = none) :
    ¬ (v.count settings input p).Failed ∧ (v.count settings input p).parser.nread.toNat ≤
      n + k + (if v.parser.members.state.parsingHeader then 1 else 0) := by
  rw [Vars.count]
  have hnread := h.nread
  have hroom := h.room
  split
  · rename_i hp
    have hlt := h.fits.1.counted hp
    have hperf : v.perform settings input p (.countHeaderSize 1) = v.countHeaderSize p 1 :=
      if_neg (by rw [hx]; decide)
    obtain ⟨hstep, hnat⟩ := countHeaderSize_ok (v := v) p (k := 1) (by dsimp only at hlt; omega)
    rw [hperf, hstep]
    refine ⟨fun hf => ?_, by dsimp only; omega⟩
    have := hf.1
    rw [hok] at this
    cases this
  · refine ⟨fun hf => ?_, hnread⟩
    have := hf.1
    rw [hok] at this
    cases this

theorem Fits.take (h : Fits L x xs) (m : Nat) : Fits L x (xs.take m) := by
  rw [← List.take_append_drop m xs, fits_append] at h
  exact h.1

theorem Fits.drop (h : Fits L x xs) (m : Nat) : Fits L (walk x (xs.take m)) (xs.drop m) := by
  rw [← List.take_append_drop m xs, fits_append] at h
  exact h.2

/-- Behind bytes that fit, the protocol is the same. -/
theorem Fits.upgrade (h : Fits L x xs) (hne : xs ≠ []) : (walk x xs).1.upgrade = false := by
  obtain ⟨ys, c, rfl⟩ := xs.eq_nil_or_concat.resolve_left hne
  rw [List.concat_eq_append] at h ⊢
  rw [walk_append]
  exact (fits_append.mp h).2.1.noUpgrade

/-- The loops take what fits. -/
theorem turn_skip_fits (hi : Inv ty s ph) (hs : s.state.inHeader) (hfits : Fits L (s, n) (ch :: bs))
    (hL : L < httpMaxHeaderSize) : n + (turn s ch bs).skip ≤ L := by
  have hlt : n < L := hfits.1.counted (by
    rcases State.inHeader_iff.mp hs with hs | hs <;> rw [hs] <;> rfl)
  rcases State.inHeader_iff.mp hs with hs' | hs'
  · obtain ⟨k, s', hl, -⟩ := headerFieldLoop_spec hi hs' (ch :: bs)
    obtain ⟨hq, -⟩ := headerFieldLoop_quiet hi hs' hl
    have hle := headerFieldLoop_le s (ch :: bs)
    have hskip : (turn s ch bs).skip = k := by
      rw [turn, hs']
      dsimp only
      rw [headerField, hl]
      dsimp only
      (repeat' split) <;> rfl
    rw [hl] at hle
    have := hq.length_le hi hs (hfits.take k) hlt.le
    rw [List.length_take, Nat.min_eq_left hle] at this
    rwa [hskip]
  · obtain ⟨-, hle⟩ := headerValueLoop_fits hi hs' hfits hlt.le hL
    have hskip : (turn s ch bs).skip = (headerValueLoop s (ch :: bs)).1 := by
      rw [turn, hs']
      dsimp only
      rw [headerValue]
      (repeat' split) <;> simp_all
    rwa [hskip]

/-- The count of the machine behind a turn that takes `m` bytes. -/
theorem turn_walk (hi : Inv ty s ph) (hfits : Fits L (s, n) (ch :: bs)) (hL : L < httpMaxHeaderSize)
    {m : Nat} (hm : m ≤ bs.length + 1) (hdrop : bs.drop (turn s ch bs).skip = (ch :: bs).drop m) :
    (if .resetNread ∈ (turn s ch bs).effects then 0
      else n + (if s.state.parsingHeader then 1 else 0)) + counted (turn s ch bs).effects ≤
      (walk (s, n) ((ch :: bs).take m)).2 + (if (ch :: bs).drop m = [] then 1 else 0) := by
  have hlens := congrArg List.length hdrop
  rw [List.length_drop, List.length_drop, List.length_cons] at hlens
  have hne := turn_noError hi hfits hL
  by_cases hr : s.state.readsOn = false
  · have hturn (xs : List Byte) : turn s ch xs = ⟨0, (switch s ch).1, (switch s ch).2⟩ :=
      turn_of_not_readsOn hr xs
    rw [hturn] at hlens ⊢
    obtain rfl : m = 1 := by
      dsimp only at hlens
      omega
    rw [switch_counted, Nat.add_zero]
    refine Nat.le_trans ?_ (Nat.le_add_right ..)
    show _ ≤ tick s n ch
    rw [tick, hturn]
    split
    · exact Nat.le_refl _
    · split <;> exact Nat.le_refl _
  by_cases hs : s.state.inHeader
  · obtain ⟨hcounted, hreset, -, hskip⟩ := turn_counted hi (State.inHeader_iff.mp hs) hne
    have hle := turn_skip_fits hi hs hfits hL
    have hp : s.state.parsingHeader := by
      rcases State.inHeader_iff.mp hs with hs | hs <;> rw [hs] <;> rfl
    obtain ⟨s₁, hq, -⟩ := turn_runs hi (.inl (by omega)) hne
    obtain ⟨hwalk, hi₁, hs₁⟩ := hq.walk_header hi hs (hfits.take _)
    rw [List.length_take, List.length_cons, Nat.min_eq_left hskip] at hwalk
    rw [if_neg hreset, if_pos hp, hcounted]
    cases hd : (ch :: bs).drop (turn s ch bs).skip with
    | nil =>
      have hlen := List.drop_eq_nil_iff.mp hd
      rw [List.length_cons] at hlen
      obtain rfl : m = (turn s ch bs).skip := by omega
      rw [hwalk, hd, if_pos rfl]
      dsimp only
      omega
    | cons c rest =>
      have hlt := congrArg List.length hd
      rw [List.length_drop, List.length_cons, List.length_cons] at hlt
      obtain rfl : m = (turn s ch bs).skip + 1 := by omega
      have hfit := (hfits.drop (turn s ch bs).skip)
      rw [hd, hwalk] at hfit
      have htake : (ch :: bs).take ((turn s ch bs).skip + 1) =
          (ch :: bs).take (turn s ch bs).skip ++ [c] := by
        rw [List.take_add, hd]
        rfl
      rw [htake, walk_append, hwalk]
      have htick : tick s₁ (n + (turn s ch bs).skip) c = _ := hfit.1.tick_header hi₁ (hs₁ ▸ hs)
      show _ ≤ tick s₁ (n + (turn s ch bs).skip) c + _
      rw [htick]
      omega
  -- A body is not counted.
  · have hcounted := (turn_counted_le hi hfits hL).resolve_right fun h => hs h.1
    have hwalk : (walk (s, n) ((ch :: bs).take m)).2 = n := by
      cases hst : s.state <;> rw [hst] at hr hs <;>
        first | exact absurd rfl hr | exact absurd rfl hs | skip
      case bodyIdentityEof => rw [walk_bodyEof hst]
      all_goals
        have hbody : s.state = .bodyIdentity ∨ s.state = .chunkData := by simp [hst]
        have hskip : (turn s ch bs).skip = toRead s (ch :: bs) - 1 := (turn_body hbody).1
        have hsized := hi.sizes
        rw [Members.Sized, hst] at hsized
        have hpos : 0 < s.contentLength.toNat := toNat_pos_iff.mpr (by simp_all)
        have hread : toRead s (ch :: bs) = min s.contentLength.toNat (bs.length + 1) := rfl
        refine walk_body hbody ?_
        rw [List.length_take, List.length_cons]
        omega
    have hp : s.state.parsingHeader = false := by
      cases hst : s.state <;> rw [hst] at hr hs <;>
        first | exact absurd rfl hr | exact absurd rfl hs | rfl
    rw [hwalk, hcounted, hp]
    split <;> simp

theorem not_failed (h : v.parser.httpErrno = none) : ¬ v.Failed := fun hf => by
  have := hf.1
  rw [h] at this
  cases this

/-- A turn on bytes that fit. -/
theorem take_room (hsees : Sees settings) (hcb : NeverFails settings) (hlen : input.length < 2 ^ 31)
    (hd : input.drop p = ch :: bs) {body : Bool} (hi : Inv ty v.parser.members ph)
    (hb : body → v.parser.members.state.inBody)
    (h : Agree input p (.start v.parser.members.state body ph) v e) (hx : v.exit = none)
    (hpos : v.parser.members.state.parsingHeader → 0 < v.parser.nread.toNat) {k : Nat}
    (hfits : Fits L (v.parser.members, n) (ch :: bs)) (hroom : L + k < httpMaxHeaderSize)
    (hn : v.parser.nread.toNat ≤ n + k + (if v.parser.members.state.parsingHeader then 1 else 0)) :
    let v' := v.take settings input p (turn v.parser.members ch bs)
    ∃ m, 0 < m ∧ m ≤ bs.length + 1 ∧
      bs.drop (turn v.parser.members ch bs).skip = (ch :: bs).drop m ∧
      AtRest ty input (p + m) v' (((ch :: bs).take m).foldl (Exec.byte grammar settings) e) ∧
      v'.exit = none ∧ v'.parser.members = (walk (v.parser.members, n) ((ch :: bs).take m)).1 ∧
      v'.parser.nread.toNat ≤ (walk (v.parser.members, n) ((ch :: bs).take m)).2 + k +
        (if (ch :: bs).drop m = [] then 1 else 0) := by
  intro v'
  have hL : L < httpMaxHeaderSize := by omega
  have hne := turn_noError hi hfits hL
  have hsmall := h.track.small
  have hsum : v.parser.nread.toNat + counted (turn v.parser.members ch bs).effects ≤
      httpMaxHeaderSize := by
    rcases turn_counted_le hi hfits hL with hc | ⟨hs, hc⟩
    · rw [hc]
      exact hsmall
    · have := turn_skip_fits hi hs hfits hL
      rw [hc]
      split at hn <;> omega
  obtain ⟨hok, hnread⟩ := foldl_perform_ok
    (v := { v with parser.members := (turn v.parser.members ch bs).members }) hcb input
    (p + (turn v.parser.members ch bs).skip) hne h.sim.httpErrno hsum
  obtain ⟨m, hm, hm', hdrop, hrest, hexit⟩ :=
    (take_agree hsees hlen hd hi hb h hx hpos).resolve_left (not_failed hok)
  have hmem : v'.parser.members = (walk (v.parser.members, n) ((ch :: bs).take m)).1 := by
    have hstate := congrArg HttpParser.state hrest.sim.parser
    rw [foldl_byte_state (by rw [hrest.sim.parser]) n, h.sim.parser] at hstate
    exact hstate.symm
  have hx' : v'.exit = none := hexit.resolve_right fun hup => by
    have := (hfits.take m).upgrade (by cases m <;> simp at hm ⊢)
    rw [← hmem, hup.2.1] at this
    cases this
  refine ⟨m, hm, hm', hdrop, hrest, hx', hmem, ?_⟩
  have hle : v'.parser.nread.toNat ≤
      (if .resetNread ∈ (turn v.parser.members ch bs).effects then 0 else v.parser.nread.toNat) +
        counted (turn v.parser.members ch bs).effects := hnread hx'
  have hwalk := turn_walk hi hfits hL hm' hdrop
  split at hle
  · rw [if_pos ‹_›] at hwalk
    omega
  · rw [if_neg ‹_›] at hwalk
    omega

/-- The bytes of a call, all of which fit. -/
theorem loop_room (hsees : Sees settings) (hcb : NeverFails settings) (hlen : input.length < 2 ^ 31)
    {xs : List Byte} (hd : input.drop p = xs) (h : AtRest ty input p v e) (hx : v.exit = none) {k : Nat}
    (hr : Room L k v n xs) :
    let v' := v.loop settings input p xs 0
    AtRest ty input (p + xs.length) v' (xs.foldl (Exec.byte grammar settings) e) ∧
      v'.exit = none ∧ v'.parser.members = (walk (v.parser.members, n) xs).1 ∧
      v'.parser.nread.toNat ≤ (walk (v.parser.members, n) xs).2 + k + 1 := by
  induction hk : xs.length using Nat.strong_induction_on generalizing p v e n xs with
  | _ l ih =>
    cases xs with
    | nil => exact ⟨hk ▸ h, hx, rfl, hr.nread.trans (Nat.le_succ _)⟩
    | cons ch bs =>
      rw [List.length_cons] at hk
      rw [Vars.loop]
      obtain ⟨hok, hn⟩ := count_room settings input p hr h.sim.httpErrno hx
      obtain ⟨hx₁, hmem, hpos, ph, hi, hagree⟩ := (count_agree settings h hx).resolve_left hok
      have hbody := h.body
      have hfits := hr.fits
      dsimp only
      generalize v.count settings input p = v₁ at *
      rw [if_neg (by rw [hx₁]; decide)]
      rw [← hmem] at hi hpos hagree hn hbody hfits ⊢
      obtain ⟨m, hm, hm', hdrop, hrest, hx', hmem', hnread⟩ := take_room hsees hcb hlen hd hi hbody
        hagree hx₁ hpos hfits hr.room hn
      have hlens := congrArg List.length hdrop
      rw [List.length_drop, List.length_drop, List.length_cons] at hlens
      rw [loop_skip, hdrop]
      cases hrem : (ch :: bs).drop m with
      | nil =>
        have hle := List.drop_eq_nil_iff.mp hrem
        rw [List.length_cons] at hle
        obtain rfl : m = l := by omega
        rw [List.take_of_length_le (by rw [List.length_cons]; omega)] at hrest hmem' hnread
        rw [hrem, if_pos rfl] at hnread
        exact ⟨hrest, hx', hmem', hnread⟩
      | cons c rest =>
        have hlt := congrArg List.length hrem
        rw [List.length_drop, List.length_cons, List.length_cons] at hlt
        rw [show p + 1 + (turn v₁.parser.members ch bs).skip = p + m by omega, ← hrem]
        rw [hrem, if_neg (List.cons_ne_nil _ _), Nat.add_zero] at hnread
        have hd' : input.drop (p + m) = (ch :: bs).drop m := by rw [← List.drop_drop, hd]
        have hroom : Room L k _ _ ((ch :: bs).drop m) := ⟨hmem'.symm ▸ hfits.drop m, hnread, hr.room⟩
        obtain ⟨hrest', hx'', hmem'', hnread'⟩ :=
          ih _ (by rw [List.length_drop, List.length_cons]; omega) hd' hrest hx' hroom rfl
        rw [hmem', ← walk_append, List.take_append_drop] at hmem'' hnread'
        refine ⟨?_, hx'', hmem'', hnread'⟩
        rw [List.length_drop, List.length_cons, ← List.foldl_append, List.take_append_drop] at hrest'
        rwa [show p + m + (bs.length + 1 - m) = p + l by omega] at hrest'

/-- A call whose bytes fit. -/
theorem execute_room (hsees : Sees settings) (hcb : NeverFails settings) {parser : Parser}
    (h : parser.Ok ty) (hok : parser.httpErrno = none) {data : List Byte} (hne : data ≠ [])
    (hlen : data.length < 2 ^ 31) (d : δ) {k : Nat} (hfits : Fits L (parser.members, n) data)
    (hn : parser.nread.toNat ≤ n + k) (hL : L + k < httpMaxHeaderSize) :
    ∃ r, httpParserExecute settings parser data d = some r ∧ r.parser.httpErrno = none ∧
      r.parser.Ok ty ∧ r.parser.members = (walk (parser.members, n) data).1 ∧
      r.parser.nread.toNat ≤ (walk (parser.members, n) data).2 + (k + 1) := by
  have hrest : AtRest ty data 0 (.start parser d : Vars δ ρ) (.start grammar (parser.abs ty) d) :=
    atRest_start data h hok d
  obtain ⟨hrest', hx, hmem, hnread⟩ := loop_room hsees hcb hlen List.drop_zero hrest rfl
    ⟨hfits, hn, hL⟩
  rw [Nat.zero_add] at hrest'
  rw [httpParserExecute, if_neg (by rw [hok]; exact Bool.false_ne_true), if_neg hne]
  generalize (Vars.start parser d : Vars δ ρ).loop settings data 0 data 0 = v at *
  have hfinish : (v.finish settings data).parser.httpErrno = none := by
    refine (foldl_perform_ok hcb data data.length ?_ hrest'.sim.httpErrno ?_).1
    · simp
    · exact hrest'.small
  obtain ⟨hx', hparser, -⟩ := (finish_agree hsees hrest' hx).resolve_left (not_failed hfinish)
  dsimp only
  rw [if_neg (by rw [hx]; exact Bool.false_ne_true), hx']
  refine ⟨_, rfl, ?_⟩
  dsimp only
  rw [hparser]
  exact ⟨hrest'.sim.httpErrno, hrest'.ok, hmem, hnread⟩

/-! ## Streams -/

variable {cs : List (List Byte)}

theorem run_feed_room (hsees : Sees settings) (hcb : NeverFails settings) {y : Parser × δ} (h : y.1.Ok ty)
    (hok : y.1.httpErrno = none) (hcs : ∀ c ∈ cs, c ≠ [] ∧ c.length < 2 ^ 31) {k : Nat}
    (hfits : Fits L (y.1.members, n) cs.flatten) (hn : y.1.nread.toNat ≤ n + k)
    (hL : L + k + cs.length ≤ httpMaxHeaderSize) :
    ∃ y' rs, run (feed settings) y cs = some (y', rs) ∧ y'.1.httpErrno = none ∧
      ∀ r ∈ rs, r.parser.members.upgrade = false := by
  induction cs generalizing y n k with
  | nil => exact ⟨y, [], rfl, hok, fun r hr => by cases hr⟩
  | cons c cs ih =>
    obtain ⟨hne, hlen⟩ := hcs c (List.mem_cons_self ..)
    rw [List.flatten_cons, fits_append] at hfits
    rw [List.length_cons] at hL
    obtain ⟨r, hr, hok', h', hmem, hnread⟩ := execute_room hsees hcb h hok hne hlen y.2 hfits.1 hn
      (by omega)
    have hrest : Fits L (r.parser.members, (walk (y.1.members, n) c).2) cs.flatten := by
      rw [hmem]
      exact hfits.2
    obtain ⟨y', rs, hrun, hok'', hup⟩ := ih (y := (r.parser, r.data)) h' hok'
      (fun c' hc' => hcs c' (List.mem_cons_of_mem _ hc')) hrest hnread (by omega)
    refine ⟨y', r :: rs, run_cons.mpr ⟨_, _, _, _, feed_eq_some hr, hrun, rfl⟩, hok'', fun r' hr' => ?_⟩
    rcases List.mem_cons.mp hr' with rfl | hr'
    · rw [hmem]
      exact hfits.1.upgrade hne
    · exact hup r' hr'

theorem exists_accepted (hcs : ∀ c ∈ cs, c ≠ [] ∧ c.length < 2 ^ 31)
    (hfits : Fits L (.init ty, 0) cs.flatten) (hL : L + cs.length ≤ httpMaxHeaderSize) :
    ∃ out, accepted ty cs = some out := by
  obtain ⟨⟨parser, out⟩, rs, hrun, hok, hup⟩ := run_feed_room sees_recorder (fun _ _ _ _ => rfl)
    (y := (httpParserInit ty, [])) (k := 0) (ok_init ty) rfl hcs hfits (Nat.zero_le _) hL
  exact ⟨out, accepted_eq_some.mpr ⟨parser, rs, hrun, hok, hup⟩⟩

/-- What the machine reads, the code accepts, however it comes in calls: if no byte is an error
or changes the protocol, the bytes of values are header characters, and there is room for
the header bytes in a row and one byte for each call. -/
theorem accepted_of_fits (hcs : ∀ c ∈ cs, c ≠ [] ∧ c.length < 2 ^ 31)
    (hfits : Fits L (.init ty, 0) cs.flatten) (hL : L + cs.length ≤ httpMaxHeaderSize) :
    ∃ out, accepted ty cs = some out ∧ joined out = streamReports grammar (.init ty) cs.flatten := by
  obtain ⟨out, h⟩ := exists_accepted hcs hfits hL
  exact ⟨out, h, joined_accepted hcs h⟩

/-- A request in two calls. -/
theorem accepted_of_fits_get : ∃ out,
    accepted .request [getStream.take 6, getStream.drop 6] = some out ∧
      joined out = streamReports grammar (.init .request) [getStream.take 6, getStream.drop 6].flatten :=
  accepted_of_fits (L := 1000) (by decide +kernel) (by decide +kernel) (by decide +kernel)

end Noff.HttpParser
