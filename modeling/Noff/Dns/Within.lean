import Noff.Dns.Dnsparser

/-!
# Where the DNS parser reads

`readRRname` stays within the message (`readRRname_within`): its second loop goes
the way of the first. `parserQuestions` and `parseRR` test other positions than
they read; `QuestionsFit` and `RecordsFit` say of a message where these lie, and
the parser stays within exactly the messages that `Fits` (`processDns_within_iff`).
-/

namespace Noff.Dns

open Reading

variable {data : List Byte} {idPos : Pos}

/-! ## Names -/

theorem below_iff {pos : Pos} : below data pos = true ↔ pos.toNat < data.length := by
  rw [below, decide_eq_true_eq]

theorem not_isPointer {c : Byte} (h : c.toNat < 192) : isPointer c = false := by
  refine decide_eq_false fun hand => ?_
  have hbits := congrArg BitVec.toNat hand
  rw [BitVec.toNat_and] at hbits
  have hle : c.toNat &&& (0xc0 : Byte).toNat ≤ c.toNat := Nat.and_le_left
  rw [hbits] at hle
  exact absurd hle (by show ¬ 192 ≤ c.toNat; omega)

theorem scanning_within (v : NameScan) : (scanning data v).Within data.length := by
  unfold scanning
  split_ifs with hpos hnext
  · exact within_bind.mpr ⟨within_readAt.mpr (below_iff.mp hpos), within_pure _⟩
  · exact within_pure _
  · exact within_pure _

/-- The first loop goes on at a byte of the message, and not at the end of the name. -/
theorem scanning_true {v : NameScan} (h : (scanning data v).value = true) :
    below data v.pos = true ∧ (v.next = v.pos → byteAt data v.pos.toNat ≠ 0) := by
  unfold scanning at h
  split_ifs at h with hpos hnext
  · exact ⟨hpos, fun _ => of_decide_eq_true h⟩
  · exact ⟨hpos, fun h => absurd h hnext⟩

/-- Within the message, it stops at the end of the name only. -/
theorem scanning_false {v : NameScan} (h : (scanning data v).value = false)
    (hpos : below data v.pos = true) : v.next = v.pos ∧ byteAt data v.pos.toNat = 0 := by
  unfold scanning at h
  split_ifs at h with hnext
  exact ⟨hnext, not_not.mp (of_decide_eq_false h)⟩

theorem scanByte_within {v : NameScan} (hpos : below data v.pos = true) :
    (scanByte data idPos v).Within data.length := by
  unfold scanByte
  refine within_bind.mpr ⟨within_readAt.mpr (below_iff.mp hpos), ?_⟩
  by_cases hnext : v.next = v.pos
  · rw [if_pos hnext]
    split
    · split
      case isTrue hpos' =>
        exact within_bind.mpr ⟨within_readAt.mpr (below_iff.mp hpos'), within_pure _⟩
      case isFalse => exact within_pure _
    · exact within_pure _
  · rw [if_neg hnext]
    exact within_pure _

theorem scanName_within (left : Nat) (v : NameScan) :
    (scanName data idPos left v).Within data.length := by
  induction left generalizing v with
  | zero =>
    rw [scanName]
    refine within_bind.mpr ⟨scanning_within v, ?_⟩
    split <;> exact within_pure _
  | succ left ih =>
    rw [scanName]
    refine within_bind.mpr ⟨scanning_within v, ?_⟩
    split
    case isFalse => exact within_pure _
    case isTrue hgo =>
      refine within_bind.mpr ⟨scanByte_within (scanning_true hgo).1, ?_⟩
      cases (scanByte data idPos v).value with
      | none => exact within_pure _
      | some v' => exact ih v'

/-- A round of the first loop: a pointer, the length of a label, or a byte of a label. -/
inductive Round (data : List Byte) (idPos : Pos) (v : NameScan) : NameScan → Prop where
  | pointer (hnext : v.next = v.pos) (hptr : isPointer (byteAt data v.pos.toNat) = true)
    (hpos : below data (v.pos + 1) = true) : Round data idPos v { v with
      endPos := if v.endPos = 0 then v.pos + 1 else v.endPos
      pos := target idPos (byteAt data v.pos.toNat) (byteAt data (v.pos + 1).toNat)
      next := target idPos (byteAt data v.pos.toNat) (byteAt data (v.pos + 1).toNat) }
  | label (hnext : v.next = v.pos) (hne : byteAt data v.pos.toNat ≠ 0)
    (hptr : isPointer (byteAt data v.pos.toNat) = false) : Round data idPos v { v with
      nameLen := v.nameLen + 1
      pos := v.pos + 1
      next := v.next + (byteAt data v.pos.toNat).signExtend 32 + 1 }
  | byte (hnext : v.next ≠ v.pos) : Round data idPos v { v with
      nameLen := v.nameLen + if 0x21 ≤ byteAt data v.pos.toNat ∧ byteAt data v.pos.toNat ≤ 0x7a ∧
        byteAt data v.pos.toNat ≠ 0x5c then 1 else 4
      pos := v.pos + 1 }

theorem round_of_scanByte {v v' : NameScan} (hgo : (scanning data v).value = true)
    (hv : (scanByte data idPos v).value = some v') :
    below data v.pos = true ∧ Round data idPos v v' := by
  obtain ⟨hpos, hne⟩ := scanning_true hgo
  refine ⟨hpos, ?_⟩
  unfold scanByte at hv
  rw [value_bind, value_readAt] at hv
  by_cases hnext : v.next = v.pos
  · rw [if_pos hnext] at hv
    by_cases hptr : isPointer (byteAt data v.pos.toNat) = true
    · rw [if_pos hptr] at hv
      split at hv
      case isTrue hpos' =>
        cases hv
        exact .pointer hnext hptr hpos'
      case isFalse => cases hv
    · rw [if_neg hptr] at hv
      cases hv
      exact .label hnext (hne hnext) (Bool.not_eq_true _ ▸ hptr)
  · rw [if_neg hnext] at hv
    cases hv
    exact .byte hnext

/-- What the rounds of the first loop keep, with the steps left, holds behind it. With steps
left it has not stopped for want of them. -/
theorem scanName_rounds {I : Nat → NameScan → Prop} (hstep : ∀ left v v', below data v.pos = true →
      Round data idPos v v' → I (left + 1) v → I left v') {left : Nat} {v v' : NameScan}
    {left' : Nat} (h : (scanName data idPos left v).value = some (v', left')) (hI : I left v) :
    I left' v' ∧ (left' ≠ 0 → (scanning data v').value = false) := by
  induction left generalizing v with
  | zero =>
    rw [scanName] at h
    simp only [value_bind] at h
    split at h <;>
    · cases h
      exact ⟨hI, fun hne => absurd rfl hne⟩
  | succ left ih =>
    rw [scanName] at h
    simp only [value_bind] at h
    split at h
    case isTrue hgo =>
      cases hv : (scanByte data idPos v).value with
      | none =>
        rw [value_bind, hv] at h
        cases h
      | some v₁ =>
        rw [value_bind, hv] at h
        obtain ⟨hpos, hround⟩ := round_of_scanByte hgo hv
        exact ih h (hstep left v v₁ hpos hround hI)
    case isFalse hstop =>
      cases h
      exact ⟨hI, fun _ => Bool.not_eq_true _ ▸ hstop⟩

/-- What is written of the name in a round. -/
def copied (data : List Byte) (v : NameScan) (name : List Byte) : List Byte :=
  if v.next = v.pos then
    if isPointer (byteAt data v.pos.toNat) then name
    else if name ≠ [] then name ++ [0x2e] else name
  else name ++ escape (byteAt data v.pos.toNat)

/-- The second loop, with the position at which it stops. -/
def copyLoop (data : List Byte) (idPos : Pos) :
    Nat → Pos → Pos → List Byte → Reading (Option (List Byte × Pos))
  | fuel, pos, next, name => do
    if ← copying data pos next then
      match fuel with
      | 0 => return none
      | fuel + 1 =>
        let c ← readAt data pos
        if pos = next then
          if isPointer c then do
            let d ← readAt data (pos + 1)
            copyLoop data idPos fuel (target idPos c d) (target idPos c d) name
          else
            let name := if name ≠ [] then name ++ [0x2e] else name
            copyLoop data idPos fuel (pos + 1) (pos + c.signExtend 32 + 1) name
        else copyLoop data idPos fuel (pos + 1) next (name ++ escape c)
    else return some (name, pos)

/-- `copyName` is the loop without the position. -/
theorem copyName_eq (fuel : Nat) (pos next : Pos) (name : List Byte) :
    (copyName data idPos fuel pos next name).reads =
        (copyLoop data idPos fuel pos next name).reads ∧
      (copyName data idPos fuel pos next name).value =
        (copyLoop data idPos fuel pos next name).value.map Prod.fst := by
  induction fuel generalizing pos next name with
  | zero =>
    rw [copyName, copyLoop]
    simp only [reads_bind, value_bind]
    split <;> exact ⟨rfl, rfl⟩
  | succ fuel ih =>
    rw [copyName, copyLoop]
    simp only [reads_bind, value_bind]
    split
    · simp only [reads_bind, value_bind]
      split
      · split
        · simp only [reads_bind, value_bind, ih, and_self]
        · simp only [ih, and_self]
      · simp only [ih, and_self]
    · exact ⟨rfl, rfl⟩

/-- One round of the second loop, along one of the first. -/
theorem copyLoop_succ {v v' : NameScan} (hgo : (scanning data v).value = true)
    (hv : (scanByte data idPos v).value = some v') (fuel : Nat) (name : List Byte) :
    ((copyLoop data idPos (fuel + 1) v.pos v.next name).Within data.length ↔
        (copyLoop data idPos fuel v'.pos v'.next (copied data v name)).Within data.length) ∧
      (copyLoop data idPos (fuel + 1) v.pos v.next name).value =
        (copyLoop data idPos fuel v'.pos v'.next (copied data v name)).value := by
  obtain ⟨hpos, hround⟩ := round_of_scanByte hgo hv
  have hne := (scanning_true hgo).2
  have hlt := below_iff.mp hpos
  have hcopy : (copying data v.pos v.next).Within data.length ∧
      (copying data v.pos v.next).value = true := by
    unfold copying
    by_cases hnext : v.next = v.pos
    · rw [if_pos hnext]
      exact ⟨within_bind.mpr ⟨within_readAt.mpr hlt, within_pure _⟩, decide_eq_true (hne hnext)⟩
    · rw [if_neg hnext]
      exact ⟨within_pure _, rfl⟩
  rw [copyLoop]
  simp only [within_bind, value_bind, hcopy, true_and, if_true, within_readAt, hlt]
  rw [value_readAt, copied]
  cases hround with
  | pointer hnext hptr hpos' =>
    rw [if_pos hnext, if_pos hptr, if_pos hnext.symm, if_pos hptr]
    simp only [within_bind, within_readAt, below_iff.mp hpos', true_and]
    exact ⟨Iff.rfl, rfl⟩
  | label hnext _ hptr =>
    have hptr' : ¬ isPointer (byteAt data v.pos.toNat) = true := by rw [hptr]; decide
    rw [if_pos hnext, if_neg hptr', if_pos hnext.symm, if_neg hptr', ← hnext]
    exact ⟨Iff.rfl, rfl⟩
  | byte hnext =>
    rw [if_neg hnext, if_neg (Ne.symm hnext)]
    exact ⟨Iff.rfl, rfl⟩

/-- If the first loop comes to the end of a name, so does the second, at the same position;
what the rounds of both keep holds there. -/
theorem copyLoop_of_scanName {I : NameScan → List Byte → Prop}
    (hstep : ∀ v v' name, below data v.pos = true → Round data idPos v v' → I v name →
      I v' (copied data v name))
    {left : Nat} {v v' : NameScan} {left' : Nat}
    (h : (scanName data idPos left v).value = some (v', left')) (hleft : left' ≠ 0)
    (hpos : below data v'.pos = true) {fuel : Nat} (hfuel : left ≤ fuel) {name : List Byte}
    (hI : I v name) :
    (copyLoop data idPos fuel v.pos v.next name).Within data.length ∧
      ∃ name', (copyLoop data idPos fuel v.pos v.next name).value = some (name', v'.pos) ∧
        I v' name' := by
  induction left generalizing v fuel name with
  | zero =>
    rw [scanName] at h
    simp only [value_bind] at h
    split at h
    · cases h
      exact absurd rfl hleft
    · cases h
      exact absurd rfl hleft
  | succ left ih =>
    rw [scanName] at h
    simp only [value_bind] at h
    by_cases hgo : (scanning data v).value = true
    · rw [if_pos hgo, value_bind] at h
      obtain ⟨fuel, rfl⟩ : ∃ k, fuel = k + 1 := ⟨fuel - 1, by omega⟩
      cases hv : (scanByte data idPos v).value with
      | none =>
        rw [hv] at h
        cases h
      | some v₁ =>
        rw [hv] at h
        obtain ⟨hw, hval⟩ := copyLoop_succ hgo hv fuel name
        rw [hw, hval]
        obtain ⟨hbelow, hround⟩ := round_of_scanByte hgo hv
        exact ih h (by omega) (hstep v v₁ name hbelow hround hI)
    · rw [if_neg hgo] at h
      cases h
      obtain ⟨hnext, hzero⟩ := scanning_false (Bool.eq_false_iff.mpr hgo) hpos
      have hcopy : copying data v'.pos v'.next =
          (readAt data v'.pos >>= fun c => pure (decide (c ≠ 0))) := by
        rw [copying, if_pos hnext]
      have hval : (copying data v'.pos v'.next).value = false := by
        rw [hcopy]
        exact decide_eq_false (not_not.mpr hzero)
      have hwith : (copying data v'.pos v'.next).Within data.length := by
        rw [hcopy]
        exact within_bind.mpr ⟨within_readAt.mpr (below_iff.mp hpos), within_pure _⟩
      cases fuel <;>
      · rw [copyLoop]
        refine ⟨within_bind.mpr ⟨hwith, ?_⟩, name, ?_, hI⟩
        · rw [hval]
          exact within_pure _
        · rw [value_bind, hval]
          rfl

theorem copyName_of_scanName {left : Nat} {v v' : NameScan} {left' : Nat}
    (h : (scanName data idPos left v).value = some (v', left')) (hleft : left' ≠ 0)
    (hpos : below data v'.pos = true) {fuel : Nat} (hfuel : left ≤ fuel) (name : List Byte) :
    (copyName data idPos fuel v.pos v.next name).Within data.length ∧
      (copyName data idPos fuel v.pos v.next name).value.isSome := by
  obtain ⟨hw, name', hval, -⟩ := copyLoop_of_scanName (I := fun _ _ => True)
    (fun _ _ _ _ _ _ => trivial) h hleft hpos hfuel trivial
  have hreads : (copyName data idPos fuel v.pos v.next name).reads = _ := (copyName_eq ..).1
  have hvalue : (copyName data idPos fuel v.pos v.next name).value = _ := (copyName_eq ..).2
  refine ⟨?_, by rw [hvalue, hval]; rfl⟩
  rw [Within, hreads]
  exact hw

/-- Behind the first loop, the position at which the name ends lies in the message. -/
theorem endPos_lt {left : Nat} {v v' : NameScan} {left' : Nat}
    (h : (scanName data idPos left v).value = some (v', left'))
    (hend : v.endPos ≠ 0 → v.endPos.toNat < data.length) :
    v'.endPos ≠ 0 → v'.endPos.toNat < data.length := by
  refine (scanName_rounds (I := fun _ v => v.endPos ≠ 0 → v.endPos.toNat < data.length)
    (fun _ v v' _ hround hend => ?_) h hend).1
  cases hround with
  | pointer _ _ hpos' =>
    dsimp only
    split
    · exact fun _ => below_iff.mp hpos'
    · exact hend
  | label => exact hend
  | byte => exact hend

/-- Both loops of `readRRname` read within the message, and the second comes to its end. -/
theorem readRRname_within (pos : Pos) : (readRRname data pos idPos).Within data.length := by
  rw [readRRname]
  refine within_bind.mpr ⟨scanName_within _ _, ?_⟩
  cases hs : (scanName data idPos (2 * data.length) ⟨pos, pos, 0, 0⟩).value with
  | none => exact within_pure _
  | some r =>
    obtain ⟨v, left⟩ := r
    dsimp only
    split
    case isTrue => exact within_pure _
    case isFalse hok =>
      rw [not_or, not_not] at hok
      obtain ⟨hw, hsome⟩ := copyName_of_scanName hs hok.1 hok.2 le_rfl []
      refine within_bind.mpr ⟨hw, ?_⟩
      split <;> exact within_pure _

/-- The position behind a name. -/
theorem readRRname_le {pos q : Pos} {name : List Byte} (hlen : data.length < 2 ^ 16)
    (h : (readRRname data pos idPos).value = some (name, q)) : 0 < q.toNat ∧ q.toNat ≤ data.length := by
  rw [readRRname, value_bind] at h
  cases hs : (scanName data idPos (2 * data.length) ⟨pos, pos, 0, 0⟩).value with
  | none =>
    rw [hs] at h
    cases h
  | some r =>
    obtain ⟨v, left⟩ := r
    rw [hs] at h
    dsimp only at h
    split at h
    · cases h
    case isFalse hok =>
      rw [not_or, not_not] at hok
      have hend : (if v.endPos = 0 then v.pos else v.endPos).toNat < data.length := by
        split
        case isTrue => exact below_iff.mp hok.2
        case isFalse hne => exact endPos_lt hs (fun h => absurd rfl h) hne
      rw [value_bind] at h
      split at h
      · cases h
      · cases h
        generalize (if v.endPos = 0 then v.pos else v.endPos) = e at hend
        bv_omega

/-! ## Questions -/

/-- The questions from position `pos` on: no name ends three bytes in front of the end of the
message. Behind the last of them, `K` holds. -/
def QuestionsFit (data : List Byte) (startPos : Pos) (K : Pos → Bool → Prop) :
    Nat → Pos → Bool → Prop
  | 0, pos, named => K pos named
  | count + 1, pos, _ => ∀ name q, (readRRname data pos startPos).value = some (name, q) →
    q.toNat + 3 ≠ data.length ∧
      (q.toNat + 3 < data.length → QuestionsFit data startPos K count (q + 4) true)

theorem readWord_within {n : Nat} {pos : Pos} (h : pos.toNat + 1 < 2 ^ 32) :
    (readWord data pos).Within n ↔ pos.toNat + 1 < n := by
  rw [readWord]
  simp only [within_bind, within_readAt, within_pure, and_true]
  have hnext : (pos + 1).toNat = pos.toNat + 1 := by bv_omega
  omega

/-- Whether `parserQuestions` stays within the message, and what holds of its result. -/
theorem parserQuestions_within {startPos : Pos} {K : Pos → Bool → Prop}
    (hlen : data.length < 2 ^ 16) (count : Nat) {pos : Pos} (hpos : pos ≠ 0) (info : DnsInfo) :
    (parserQuestions data startPos count pos info).Within data.length ∧
        ((parserQuestions data startPos count pos info).value.1 ≠ 0 →
          K (parserQuestions data startPos count pos info).value.1
            (parserQuestions data startPos count pos info).value.2.name.isSome) ↔
      QuestionsFit data startPos K count pos info.name.isSome := by
  induction count generalizing pos info with
  | zero =>
    rw [parserQuestions, QuestionsFit]
    exact ⟨fun h => h.2 hpos, fun h => ⟨within_pure _, fun _ => h⟩⟩
  | succ count ih =>
    rw [parserQuestions, QuestionsFit]
    simp only [within_bind, value_bind, readRRname_within, true_and]
    cases hname : (readRRname data pos startPos).value with
    | none => simp
    | some r =>
      obtain ⟨name, q⟩ := r
      obtain ⟨hq, hle⟩ := readRRname_le hlen hname
      have hbelow : below data (q + 2) = true ↔ q.toNat + 2 < data.length := by
        rw [below_iff, show (q + 2).toNat = q.toNat + 2 by bv_omega]
      dsimp only
      by_cases hlt : q.toNat + 2 < data.length
      · rw [if_pos (hbelow.mpr hlt)]
        simp only [within_bind, value_bind, readWord_within (by omega : q.toNat + 1 < 2 ^ 32)]
        rw [readWord_within (by bv_omega), show (q + 2).toNat = q.toNat + 2 by bv_omega, and_assoc,
          and_assoc, ih (by bv_omega)]
        constructor
        · rintro ⟨-, hin, hfit⟩ _ _ ⟨⟩
          exact ⟨by omega, fun _ => hfit⟩
        · intro h
          obtain ⟨hne, hfit⟩ := h name q rfl
          exact ⟨by omega, by omega, hfit (by omega)⟩
      · rw [if_neg (by rw [hbelow]; exact hlt)]
        refine ⟨?_, fun _ => ⟨within_pure _, fun h => absurd rfl h⟩⟩
        rintro - _ _ ⟨⟩
        exact ⟨by omega, fun h => absurd h (by omega)⟩

/-- Questions end little behind the message at most. -/
theorem parserQuestions_lt {startPos : Pos} (hlen : data.length < 2 ^ 16) (count : Nat) {pos : Pos}
    (hpos : pos.toNat < 2 ^ 20) (info : DnsInfo) :
    (parserQuestions data startPos count pos info).value.1.toNat < 2 ^ 20 := by
  induction count generalizing pos info with
  | zero => exact hpos
  | succ count ih =>
    rw [parserQuestions]
    simp only [value_bind]
    cases hname : (readRRname data pos startPos).value with
    | none => simp
    | some r =>
      have hq := readRRname_le hlen hname
      dsimp only
      split
      · exact ih (by bv_omega) _
      · simp

/-! ## Records -/

/-- The two bytes at `pos`, as the parser has them. -/
def wordAt (data : List Byte) (pos : Pos) : BitVec 16 := (readWord data pos).value

/-- Where the fields of a record begin: behind its name, or two bytes behind its
start if an earlier name is taken for it. -/
def FieldsAt (data : List Byte) (named : Bool) (pos q : Pos) : Prop :=
  if named then q = pos + 2 else ∃ name, (readRRname data pos pos).value = some (name, q)

/-- Where the data of a record begins. -/
def dataAt (data : List Byte) (q : Pos) : Pos := if wordAt data q = 41 then q + 2 else q + 10

/-- The records from position `pos` on: the fields of none begin behind the end of the
message, and the four bytes of an address lie in it. -/
def RecordsFit (data : List Byte) : Nat → Pos → Bool → Prop
  | 0, _, _ => True
  | count + 1, pos, named => ∀ q, FieldsAt data named pos q →
    q.toNat ≤ data.length ∧
      (q.toNat + 10 ≤ data.length → pos.toNat + 10 + (wordAt data (q + 8)).toNat ≤ data.length →
        (wordAt data q = 1 → wordAt data (q + 8) = 4 → q.toNat + 14 ≤ data.length) ∧
        RecordsFit data count (dataAt data q + (wordAt data (q + 8)).zeroExtend 32) true)

theorem readTtl_within {n : Nat} {pos : Pos} (h : pos.toNat + 3 < 2 ^ 32) :
    (readTtl data pos).Within n ↔ pos.toNat + 3 < n := by
  rw [readTtl]
  simp only [within_bind, within_readAt, within_pure, and_true]
  have h₁ : (pos + 1).toNat = pos.toNat + 1 := by bv_omega
  have h₂ : (pos + 2).toNat = pos.toNat + 2 := by bv_omega
  have h₃ : (pos + 3).toNat = pos.toNat + 3 := by bv_omega
  omega

theorem a_within {n : Nat} {pos : Pos} {rdlength : BitVec 16} (h : pos.toNat + 3 < 2 ^ 32) :
    (a data pos rdlength).Within n ↔ (rdlength = 4 → pos.toNat + 3 < n) := by
  rw [a]
  by_cases hrd : rdlength = 4
  · rw [if_neg (not_not.mpr hrd)]
    simp only [within_bind, within_readAt, within_pure, and_true]
    have h₁ : (pos + 1).toNat = pos.toNat + 1 := by bv_omega
    have h₂ : (pos + 2).toNat = pos.toNat + 2 := by bv_omega
    have h₃ : (pos + 3).toNat = pos.toNat + 3 := by bv_omega
    exact ⟨fun h _ => by omega, fun h => by have := h hrd; omega⟩
  · rw [if_pos hrd]
    exact ⟨fun _ h => absurd h hrd, fun _ => within_pure _⟩

/-- The fields of a record lie in the message if there are ten bytes for them. -/
theorem recordFields_within {q : Pos} (hq : q.toNat + 10 ≤ data.length) (hlen : data.length < 2 ^ 16)
    (rr : DnsRR) : (recordFields data q rr).Within data.length ∧
      (recordFields data q rr).value.1 = (if rr.type = 41 then q + 2 else q + 10) ∧
      (recordFields data q rr).value.2.type = rr.type ∧
      (recordFields data q rr).value.2.rdlength = rr.rdlength ∧
      (recordFields data q rr).value.2.name = rr.name := by
  unfold recordFields
  split
  · exact ⟨within_pure _, rfl, rfl, rfl, rfl⟩
  · refine ⟨?_, rfl, rfl, rfl, rfl⟩
    rw [within_bind, within_bind, readWord_within (by bv_omega), readTtl_within (by bv_omega)]
    exact ⟨by bv_omega, by bv_omega, within_pure _⟩

theorem recordData_within {pos : Pos} {rr : DnsRR} {n : Nat} (h : pos.toNat + 3 < 2 ^ 32) :
    (recordData data pos rr).Within n ↔ (rr.type = 1 → rr.rdlength = 4 → pos.toNat + 3 < n) := by
  rw [recordData]
  split
  case isTrue htype => rw [a_within h]; exact ⟨fun h _ => h, fun h => h htype⟩
  case isFalse htype => exact ⟨fun _ h => absurd h htype, fun _ => within_pure _⟩

theorem recordName_within (pos : Pos) (rr : DnsRR) : (recordName data pos rr).Within data.length := by
  rw [recordName]
  split
  · exact readRRname_within pos
  · exact within_pure _

/-- Where the fields begin, if there is a name. -/
theorem recordName_value (pos q : Pos) (rr : DnsRR) :
    (∃ name, (recordName data pos rr).value = some (name, q)) ↔
      FieldsAt data rr.name.isSome pos q := by
  rw [recordName, FieldsAt]
  cases rr.name with
  | none => rfl
  | some name =>
    constructor
    · rintro ⟨_, ⟨⟩⟩
      rfl
    · rintro (rfl : q = pos + 2)
      exact ⟨name, rfl⟩

theorem parseRR_none {pos : Pos} {rr : DnsRR} (h : (recordName data pos rr).value = none) :
    (parseRR data pos rr).Within data.length ∧ (parseRR data pos rr).value.1 = 0 := by
  rw [parseRR, within_bind, value_bind, h]
  exact ⟨⟨recordName_within pos rr, within_pure _⟩, rfl⟩

/-- Behind the end of the message, the difference to it wraps around, and the type is read. -/
theorem parseRR_behind {pos q : Pos} {rr : DnsRR} {name : List Byte} (hlen : data.length < 2 ^ 16)
    (h : (recordName data pos rr).value = some (name, q)) (hq : q.toNat < 2 ^ 31)
    (hlt : data.length < q.toNat) : ¬ (parseRR data pos rr).Within data.length := by
  rw [parseRR, within_bind, h]
  dsimp only
  rw [if_neg (by bv_omega), within_bind, readWord_within (by omega)]
  omega

/-- With less than ten bytes left, nothing is read of a record. -/
theorem parseRR_short {pos q : Pos} {rr : DnsRR} {name : List Byte}
    (h : (recordName data pos rr).value = some (name, q)) (hq : q.toNat ≤ data.length)
    (hlt : data.length < q.toNat + 10) :
    (parseRR data pos rr).Within data.length ∧ (parseRR data pos rr).value.1 = 0 := by
  rw [parseRR, within_bind, value_bind, h]
  dsimp only
  rw [if_pos (by bv_omega)]
  exact ⟨⟨recordName_within pos rr, within_pure _⟩, rfl⟩

/-- A record whose fields lie in the message: whether there is data, and where. -/
theorem parseRR_fields {pos q : Pos} {rr : DnsRR} {name : List Byte} (hlen : data.length < 2 ^ 16)
    (hpos : pos.toNat < 2 ^ 31) (h : (recordName data pos rr).value = some (name, q))
    (hq : q.toNat + 10 ≤ data.length) :
    if data.length < pos.toNat + 10 + (wordAt data (q + 8)).toNat then
      (parseRR data pos rr).Within data.length ∧ (parseRR data pos rr).value.1 = 0
    else ((parseRR data pos rr).Within data.length ↔
        (wordAt data q = 1 → wordAt data (q + 8) = 4 → q.toNat + 14 ≤ data.length)) ∧
      (parseRR data pos rr).value.1 = dataAt data q + (wordAt data (q + 8)).zeroExtend 32 ∧
      (parseRR data pos rr).value.2.name = some name := by
  have h8 : (q + 8).toNat = q.toNat + 8 := by bv_omega
  have hrd := (wordAt data (q + 8)).isLt
  obtain ⟨hw, hv, htype, hrdl, hname⟩ := recordFields_within hq hlen
    { rr with name := some name, data := none, type := wordAt data q, rdlength := wordAt data (q + 8) }
  have hsum : (pos + 10 + (wordAt data (q + 8)).zeroExtend 32).toNat =
      pos.toNat + 10 + (wordAt data (q + 8)).toNat := by
    have hz : ((wordAt data (q + 8)).zeroExtend 32).toNat = (wordAt data (q + 8)).toNat := by
      rw [BitVec.toNat_setWidth, Nat.mod_eq_of_lt (by omega)]
    bv_omega
  rw [parseRR, within_bind, value_bind, h]
  simp only [recordName_within, true_and]
  rw [if_neg (show ¬ BitVec.ofNat 32 data.length - q < 10 by bv_omega)]
  unfold wordAt at *
  simp only [within_bind, value_bind]
  rw [readWord_within (by omega), readWord_within (by omega), h8]
  simp only [hw, true_and, hrdl, hsum, hv]
  by_cases hshort : data.length < pos.toNat + 10 + (readWord data (q + 8)).value.toNat
  · simp only [hshort, if_true]
    exact ⟨⟨by omega, by omega, within_pure _⟩, rfl⟩
  · simp only [hshort, if_false, within_bind, value_bind]
    refine ⟨?_, rfl, hname⟩
    have hdata : (if (readWord data q).value = 41 then q + 2 else q + 10).toNat + 3 < 2 ^ 32 := by
      split <;> bv_omega
    rw [recordData_within hdata, htype, hrdl]
    constructor
    · rintro ⟨-, -, h, -⟩ (h₁ : (readWord data q).value = 1) h₄
      have hin := h h₁ h₄
      rw [if_neg (by rw [h₁]; decide)] at hin
      bv_omega
    · intro h
      refine ⟨by omega, by omega, fun (h₁ : (readWord data q).value = 1) h₄ => ?_, within_pure _⟩
      have hin := h h₁ h₄
      rw [if_neg (by rw [h₁]; decide)]
      bv_omega

/-- What `parseRRset` does with a record that has been parsed. -/
def DnsInfo.push (info : DnsInfo) (rr : DnsRR) : DnsInfo :=
  if rr.type = 1 then { info with answers := info.answers ++ [rr] } else info

theorem parseRRset_succ (count : Nat) (pos : Pos) (rr : DnsRR) (info : DnsInfo) :
    parseRRset data (count + 1) pos rr info = parseRR data pos { rr with data := none } >>= fun r =>
      if r.1 = 0 then pure (0, info) else parseRRset data count r.1 r.2 (info.push r.2) := rfl

/-- Whether `parseRRset` stays within the message. -/
theorem parseRRset_within (hlen : data.length < 2 ^ 16) (count : Nat) {pos : Pos}
    (hpos : pos.toNat < 2 ^ 20) (rr : DnsRR) (info : DnsInfo) :
    (parseRRset data count pos rr info).Within data.length ↔
      RecordsFit data count pos rr.name.isSome := by
  induction count generalizing pos rr info with
  | zero =>
    rw [parseRRset]
    exact iff_of_true (within_pure _) trivial
  | succ count ih =>
    have hfields (q : Pos) : (∃ name, (recordName data pos { rr with data := none }).value =
        some (name, q)) ↔ FieldsAt data rr.name.isSome pos q := recordName_value pos q _
    rw [parseRRset_succ, RecordsFit, within_bind]
    cases hname : (recordName data pos { rr with data := none }).value with
    | none =>
      obtain ⟨hw, hzero⟩ := parseRR_none hname
      rw [if_pos hzero]
      refine iff_of_true ⟨hw, within_pure _⟩ fun q hq => ?_
      obtain ⟨name, hq⟩ := (hfields q).mpr hq
      rw [hname] at hq
      cases hq
    | some r =>
      obtain ⟨name, q⟩ := r
      have hq : FieldsAt data rr.name.isSome pos q := (hfields q).mp ⟨name, hname⟩
      have hunique {q' : Pos} (h : FieldsAt data rr.name.isSome pos q') : q' = q := by
        obtain ⟨name', h⟩ := (hfields q').mpr h
        rw [hname] at h
        cases h
        rfl
      have hqle : q.toNat < 2 ^ 31 := by
        cases hn : rr.name.isSome with
        | false =>
          rw [FieldsAt, hn] at hq
          obtain ⟨_, hq⟩ := hq
          have := readRRname_le hlen hq
          omega
        | true =>
          rw [FieldsAt, hn, if_pos rfl] at hq
          bv_omega
      by_cases hbehind : data.length < q.toNat
      · refine iff_of_false (fun h => parseRR_behind hlen hname hqle hbehind h.1) fun h => ?_
        have := (h q hq).1
        omega
      by_cases hten : data.length < q.toNat + 10
      · obtain ⟨hw, hzero⟩ := parseRR_short hname (by omega) hten
        rw [if_pos hzero]
        refine iff_of_true ⟨hw, within_pure _⟩ fun q' hq' => ?_
        obtain rfl := hunique hq'
        exact ⟨by omega, fun h => absurd h (by omega)⟩
      have hrec := parseRR_fields hlen (by omega) hname (by omega)
      have hrd := (wordAt data (q + 8)).isLt
      split at hrec
      case isTrue hshort =>
        obtain ⟨hw, hzero⟩ := hrec
        rw [if_pos hzero]
        refine iff_of_true ⟨hw, within_pure _⟩ fun q' hq' => ?_
        obtain rfl := hunique hq'
        exact ⟨by omega, fun _ h => absurd h (by omega)⟩
      case isFalse hlong =>
        obtain ⟨hw, hval, hsome⟩ := hrec
        have hnext : (dataAt data q + (wordAt data (q + 8)).zeroExtend 32).toNat < 2 ^ 20 ∧
            dataAt data q + (wordAt data (q + 8)).zeroExtend 32 ≠ 0 := by
          have hz : ((wordAt data (q + 8)).zeroExtend 32).toNat = (wordAt data (q + 8)).toNat := by
            rw [BitVec.toNat_setWidth, Nat.mod_eq_of_lt (by omega)]
          rw [dataAt]
          split <;> constructor <;> bv_omega
        rw [hw, hval, if_neg hnext.2, ih hnext.1, hsome, Option.isSome_some]
        constructor
        · rintro ⟨hdata, hrest⟩ q' hq'
          obtain rfl := hunique hq'
          exact ⟨by omega, fun _ _ => ⟨hdata, hrest⟩⟩
        · intro h
          exact (h q hq).2 (by omega) (by omega)

/-! ## Messages -/

/-- A message in whose questions, and answers if it is a response, nothing is read behind its
end. `named` is whether the name of `DnsInfo` happens not to be `NULL` at first. -/
def Fits (data : List Byte) (response named : Bool) : Prop :=
  12 ≤ data.length → (byteAt data 3 &&& 0x0f).toNat ≤ 5 →
    QuestionsFit data 12 (fun pos named => response = true →
      RecordsFit data (wordAt data 6).toNat pos named) (wordAt data 4).toNat 12 named

theorem readHeader_within (h : 12 ≤ data.length) : (readHeader data).Within data.length ∧
    (readHeader data).value = if (byteAt data 3 &&& 0x0f).toNat > 5 then none
      else some (wordAt data 4, wordAt data 6) := by
  unfold readHeader
  simp only [within_bind, value_bind]
  rw [readWord_within (by decide), within_readAt, within_readAt]
  have h₃ : (readAt data 3).value = byteAt data 3 := rfl
  rw [h₃]
  split
  · exact ⟨⟨by simp; omega, by simp; omega, by simp; omega, within_pure _⟩, rfl⟩
  · simp only [within_bind, value_bind]
    rw [readWord_within (by decide), readWord_within (by decide), readWord_within (by decide),
      readWord_within (by decide)]
    exact ⟨⟨by simp; omega, by simp; omega, by simp; omega, by simp; omega, by simp; omega,
      by simp; omega, by simp; omega, within_pure _⟩, rfl⟩

theorem readResponse_within (hlen : data.length < 2 ^ 16) (junk : Uninitialized)
    (qdcount ancount : BitVec 16) :
    (readResponse data junk qdcount ancount).Within data.length ↔
      QuestionsFit data 12 (fun pos named => RecordsFit data ancount.toNat pos named)
        qdcount.toNat 12 junk.name.isSome := by
  have hlt : (parserQuestions data 12 qdcount.toNat 12 ⟨junk.name, [], []⟩).value.1.toNat < 2 ^ 20 :=
    parserQuestions_lt hlen _ (by decide) _
  rw [readResponse, within_bind, ← parserQuestions_within hlen _ (by decide) ⟨junk.name, [], []⟩]
  dsimp only
  refine and_congr_right fun _ => ?_
  split
  case isTrue hne =>
    rw [parseRRset_within hlen _ hlt]
    exact ⟨fun h _ => h, fun h => h hne⟩
  case isFalse hzero => exact ⟨fun _ h => absurd h hzero, fun _ => within_pure _⟩

/-- Without answers to read, the questions alone count. -/
theorem questions_within (hlen : data.length < 2 ^ 16) (info : DnsInfo) (qdcount : BitVec 16) :
    (parserQuestions data 12 qdcount.toNat 12 info).Within data.length ↔
      QuestionsFit data 12 (fun _ _ => True) qdcount.toNat 12 info.name.isSome := by
  rw [← parserQuestions_within hlen _ (by decide) info]
  exact (and_iff_left fun _ => trivial).symm

/-- `processDns` reads within exactly the messages that fit. -/
theorem processDns_within_iff (hlen : data.length < 2 ^ 16) (junk : Uninitialized)
    (parser : DnsParser) {t4 : Tuple4} (timeStamp : Int) (h53 : t4.source = 53 ∨ t4.dest = 53) :
    (processDns data junk parser t4 timeStamp).Within data.length ↔
      Fits data (t4.source = 53) junk.name.isSome := by
  rw [processDns, Fits]
  by_cases hsrc : t4.source = 53
  · rw [if_pos hsrc]
    by_cases h12 : data.length < 12
    · rw [if_pos h12]
      exact iff_of_true (within_pure _) fun h => absurd h (by omega)
    obtain ⟨hw, hval⟩ := readHeader_within (by omega : 12 ≤ data.length)
    rw [if_neg h12, within_bind, hval]
    by_cases hcode : (byteAt data 3 &&& 0x0f).toNat > 5
    · rw [if_pos hcode]
      exact iff_of_true ⟨hw, within_pure _⟩ fun _ h => absurd h (by omega)
    · rw [if_neg hcode]
      dsimp only
      rw [within_bind, readResponse_within hlen]
      have hfit : (fun pos named => decide (t4.source = 53) = true →
          RecordsFit data (wordAt data 6).toNat pos named) =
          fun pos named => RecordsFit data (wordAt data 6).toNat pos named := by
        simp only [hsrc, decide_true, true_implies]
      rw [hfit]
      exact ⟨fun h _ _ => h.2.1, fun h => ⟨hw, h (by omega) (by omega), within_pure _⟩⟩
  · rw [if_neg hsrc, if_pos (h53.resolve_left hsrc)]
    by_cases h12 : data.length < 12
    · rw [if_pos h12]
      exact iff_of_true (within_pure _) fun h => absurd h (by omega)
    obtain ⟨hw, hval⟩ := readHeader_within (by omega : 12 ≤ data.length)
    rw [if_neg h12, within_bind, hval]
    by_cases hcode : (byteAt data 3 &&& 0x0f).toNat > 5
    · rw [if_pos hcode]
      exact iff_of_true ⟨hw, within_pure _⟩ fun _ h => absurd h (by omega)
    · rw [if_neg hcode]
      dsimp only
      rw [within_bind, questions_within hlen]
      have hfit : (fun pos named => decide (t4.source = 53) = true →
          RecordsFit data (wordAt data 6).toNat pos named) = fun _ _ => True := by
        simp only [hsrc, decide_false, Bool.false_eq_true, false_implies]
      rw [hfit]
      exact ⟨fun h _ _ => h.2.1, fun h => ⟨hw, h (by omega) (by omega), within_pure _⟩⟩

def junk : Uninitialized :=
  ⟨none, ⟨none, 0, 0, 0, 0, none⟩, ⟨0, 0, 0, [], 0, 0⟩, ⟨0, 0, 0, [], 0, 0, 0, ""⟩⟩

/-- A response with the address `10.0.0.1` of the root. -/
def rootAddress : List Byte :=
  [0, 7, 0x81, 0x80, 0, 1, 0, 1, 0, 0, 0, 0] ++ [0, 0, 1, 0, 1] ++
    [0xc0, 0x0c, 0, 1, 0, 1, 0, 0, 0, 60, 0, 4, 10, 0, 0, 1]

/-- The address is read up to the last byte, and nothing behind it. -/
theorem processDns_within_rootAddress :
    (processDns rootAddress junk ⟨0, 0, 0⟩ ⟨53, 1000, 0, 0⟩ 0).Within 33 ∧
      32 ∈ (processDns rootAddress junk ⟨0, 0, 0⟩ ⟨53, 1000, 0, 0⟩ 0).reads := by
  refine ⟨(processDns_within_iff (by decide) junk ⟨0, 0, 0⟩ 0 (.inl rfl)).mpr fun _ _ => ?_, by decide⟩
  have hquestions : (wordAt rootAddress 4).toNat = 1 := by decide
  have hanswers : (wordAt rootAddress 6).toNat = 1 := by decide
  have hname : (readRRname rootAddress 12 12).value = some ([], 13) := by decide
  rw [hquestions, hanswers]
  intro name q hq
  rw [hname] at hq
  cases hq
  refine ⟨by decide, fun _ _ q hq => ?_⟩
  obtain rfl : q = 19 := hq
  exact ⟨by decide, fun _ _ => ⟨by decide, trivial⟩⟩

/-- A query for the root, with `n` of the four bytes behind the name. -/
def rootQuery (n : Nat) : List Byte := [0, 7, 1, 0, 0, 1, 0, 0, 0, 0, 0, 0, 0] ++ [0, 1, 0, 1].take n

/-- With one byte less, the last byte of the class is read behind the end. -/
theorem processDns_beyond_rootQuery : (rootQuery 3).length = 16 ∧
    16 ∈ (processDns (rootQuery 3) junk ⟨0, 0, 0⟩ ⟨1000, 53, 0, 0⟩ 0).reads := by
  decide

end Noff.Dns
