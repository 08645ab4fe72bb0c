import Noff.Dns.Within

/-!
# The two loops of `readRRname`

The first loop measures a name and the second writes it, without a bound of its
own. A round of the first makes room for what the same round of the second
writes (`Measures`), and the name ends where its encoding ends in place
(`InPlace`), wherever the pointers lead. Together, `readRRname` is safe for any
message and any positions (`readRRname_safe`).
-/

namespace Noff.Dns

open Reading

variable {data : List Byte} {idPos : Pos}

/-! ## The room for the name -/

/-- A character that is printed, and no space. -/
def Printable (c : Byte) : Prop := 0x21 ≤ c ∧ c ≤ 0x7e

instance (c : Byte) : Decidable (Printable c) := inferInstanceAs (Decidable (_ ∧ _))

theorem printable_digit {x : Byte} (hx : x.toNat < 16) :
    Printable (if x + 0x30 > 0x39 then x + 0x30 + 0x27 else x + 0x30) := by
  rw [Printable]
  split <;> constructor <;> bv_omega

theorem printable_escape (c : Byte) : ∀ x ∈ escape c, Printable x := by
  unfold escape
  intro x hx
  split at hx
  case isTrue h =>
    obtain rfl := List.mem_singleton.mp hx
    exact ⟨h.1, h.2.1⟩
  case isFalse =>
    have hdiv : (c / 16).toNat < 16 := by
      rw [BitVec.toNat_udiv]
      exact Nat.div_lt_of_lt_mul c.isLt
    have hmod : (c % 16).toNat < 16 := by
      rw [BitVec.toNat_umod]
      exact Nat.mod_lt _ (by decide)
    simp only [List.mem_cons, List.not_mem_nil, or_false] at hx
    rcases hx with rfl | rfl | rfl | rfl
    · decide
    · decide
    · exact printable_digit hdiv
    · exact printable_digit hmod

/-- A byte takes no more than what the first loop counts for it, although the first takes the
bytes from `{` to `~` for ones that are not printed. -/
theorem length_escape (c : Byte) :
    (escape c).length ≤ if 0x21 ≤ c ∧ c ≤ 0x7a ∧ c ≠ 0x5c then 1 else 4 := by
  unfold escape
  split
  · split <;> simp
  case isFalse h =>
    rw [if_neg]
    · simp
    · rintro ⟨h1, h2, h3⟩
      exact h ⟨h1, by bv_omega, h3⟩

/-- The name so far is printable, and there is room for it. -/
structure Measures (v : NameScan) (name : List Byte) : Prop where
  length : name.length ≤ v.nameLen
  printable : ∀ c ∈ name, Printable c

theorem Measures.round {v v' : NameScan} {name : List Byte} (h : Measures v name)
    (hr : Round data idPos v v') : Measures v' (copied data v name) := by
  have hlen := h.length
  rw [copied]
  cases hr with
  | pointer hnext hptr =>
    rw [if_pos hnext, if_pos hptr]
    exact ⟨hlen, h.printable⟩
  | label hnext _ hptr =>
    rw [if_pos hnext, if_neg (by rw [hptr]; decide)]
    split
    · refine ⟨by rw [List.length_append]; exact Nat.succ_le_succ hlen, fun c hc => ?_⟩
      rcases List.mem_append.mp hc with hc | hc
      · exact h.printable c hc
      · obtain rfl := List.mem_singleton.mp hc
        decide
    · exact ⟨Nat.le_succ_of_le hlen, h.printable⟩
  | byte hnext =>
    rw [if_neg hnext]
    refine ⟨?_, fun c hc => ?_⟩
    · rw [List.length_append]
      exact Nat.add_le_add hlen (length_escape _)
    · rcases List.mem_append.mp hc with hc | hc
      · exact h.printable c hc
      · exact printable_escape _ c hc

/-- `name_len` grows by at most four in a step. -/
theorem nameLen_le {left : Nat} {v v' : NameScan} {left' : Nat}
    (h : (scanName data idPos left v).value = some (v', left')) :
    v'.nameLen + 4 * left' ≤ v.nameLen + 4 * left := by
  refine (scanName_rounds (I := fun k u => u.nameLen + 4 * k ≤ v.nameLen + 4 * left)
    (fun k u u' _ hr hle => ?_) h le_rfl).1
  cases hr with
  | pointer => dsimp only; omega
  | label => dsimp only; omega
  | byte => dsimp only; split <;> omega

/-! ## Where a name ends -/

/-- A name is encoded from position `p` of the message to position `e`: labels, and then a zero
or a pointer. -/
inductive InPlace (data : List Byte) : Nat → Nat → Prop where
  | zero {p : Nat} (hlt : p < data.length) (h : byteAt data p = 0) : InPlace data p (p + 1)
  | pointer {p : Nat} (hlt : p + 1 < data.length) (h : isPointer (byteAt data p) = true) :
    InPlace data p (p + 2)
  | label {p e : Nat} (hne : byteAt data p ≠ 0) (h128 : (byteAt data p).toNat < 128)
    (h : InPlace data (p + 1 + (byteAt data p).toNat) e) : InPlace data p e

theorem InPlace.le {p e : Nat} (h : InPlace data p e) : p < e ∧ e ≤ data.length := by
  induction h with
  | zero hlt => exact ⟨Nat.lt_succ_self _, hlt⟩
  | pointer hlt => exact ⟨by omega, by omega⟩
  | label _ _ _ ih => exact ⟨by omega, ih.2⟩

/-- A name has one end. -/
theorem InPlace.unique {p e e' : Nat} (h : InPlace data p e) (h' : InPlace data p e') : e = e' := by
  induction h with
  | zero _ h0 =>
    cases h' with
    | zero => rfl
    | pointer _ hptr =>
      rw [h0] at hptr
      exact absurd hptr (by decide)
    | label hne => exact absurd h0 hne
  | pointer _ hptr =>
    cases h' with
    | zero _ h0 =>
      rw [h0] at hptr
      exact absurd hptr (by decide)
    | pointer => rfl
    | label _ h128 =>
      rw [not_isPointer (by omega)] at hptr
      cases hptr
  | label hne h128 _ ih =>
    cases h' with
    | zero _ h0 => exact absurd h0 hne
    | pointer _ hptr =>
      rw [not_isPointer (by omega)] at hptr
      cases hptr
    | label _ _ h' => exact ih h'

/-- The encoding that begins at `start` is read as far as `v`. A label of negative length leads
out of the message, as `next` is not reached any more. -/
structure Follows (data : List Byte) (start : Nat) (v : NameScan) : Prop where
  going : v.endPos = 0 → v.pos.toNat ≤ v.next.toNat → v.next.toNat < data.length →
    ∀ e, InPlace data v.next.toNat e → InPlace data start e
  ended : v.endPos ≠ 0 → InPlace data start (v.endPos.toNat + 1)

/-- Where the length of a label leads, if it is not behind the position nor out of the message. -/
theorem toNat_label (hlen : data.length < 2 ^ 16) {pos : Pos} (hpos : pos.toNat < data.length)
    (c : Byte) (hle : (pos + 1).toNat ≤ (pos + c.signExtend 32 + 1).toNat)
    (hlt : (pos + c.signExtend 32 + 1).toNat < data.length) :
    c.toNat < 128 ∧ (pos + c.signExtend 32 + 1).toNat = pos.toNat + 1 + c.toNat := by
  have hmsb : c.msb = decide (128 ≤ c.toNat) := BitVec.msb_eq_decide c
  have hc := c.isLt
  have hext : (c.signExtend 32).toNat = c.toNat + if 128 ≤ c.toNat then 2 ^ 32 - 2 ^ 8 else 0 := by
    rw [BitVec.toNat_signExtend, hmsb, BitVec.toNat_setWidth, Nat.mod_eq_of_lt (by omega)]
    simp only [decide_eq_true_eq]
  split at hext
  · exfalso
    bv_omega
  · refine ⟨by omega, ?_⟩
    bv_omega

theorem Follows.round (hlen : data.length < 2 ^ 16) {start : Nat} {v v' : NameScan}
    (hpos : below data v.pos = true) (hr : Round data idPos v v') (h : Follows data start v) :
    Follows data start v' := by
  have hlt := below_iff.mp hpos
  have hsucc : (v.pos + 1).toNat = v.pos.toNat + 1 := by bv_omega
  cases hr with
  | pointer hnext hptr hpos' =>
    have hlt' := below_iff.mp hpos'
    have hne : v.pos + 1 ≠ 0 := by bv_omega
    have hgoing := hnext ▸ h.going
    by_cases hend : v.endPos = 0
    · rw [if_pos hend]
      refine ⟨fun h0 => absurd h0 hne, fun _ => ?_⟩
      have hplace := InPlace.pointer (by omega) hptr
      exact hsucc ▸ hgoing hend le_rfl hlt _ hplace
    · rw [if_neg hend]
      exact ⟨fun h0 => absurd h0 hend, h.ended⟩
  | label hnext hne hptr =>
    refine ⟨fun hend hle hlt' e he => ?_, h.ended⟩
    have hgoing := hnext ▸ h.going
    dsimp only at hle hlt' he
    rw [hnext] at hle hlt' he
    obtain ⟨h128, hto⟩ := toNat_label hlen hlt _ hle hlt'
    rw [hto] at he
    exact hgoing hend le_rfl hlt e (.label hne h128 he)
  | byte hnext =>
    refine ⟨fun hend hle => h.going hend ?_, h.ended⟩
    dsimp only at hle
    omega

/-- `readRRname` has measured the name that begins at `pos`: the first loop stops at `v`. -/
structure Measured (data : List Byte) (idPos pos : Pos) (v : NameScan) : Prop where
  scanned : ∃ left, (scanName data idPos (2 * data.length) ⟨pos, pos, 0, 0⟩).value = some (v, left) ∧
    left ≠ 0
  below : below data v.pos = true

/-- Past the first loop, the second stops where it did, and the name fits into the `name_len`
bytes that are allocated. -/
theorem Measured.copyLoop (hlen : data.length < 2 ^ 16) {pos : Pos} {v : NameScan}
    (h : Measured data idPos pos v) :
    ∃ name, (copyLoop data idPos (2 * data.length) pos pos []).value = some (name, v.pos) ∧
      name.length + 1 ≤ v.nameLen + 1 ∧ v.nameLen + 1 < 2 ^ 32 ∧ ∀ c ∈ name, Printable c := by
  obtain ⟨left, hscan, hleft⟩ := h.scanned
  have hempty : Measures ⟨pos, pos, 0, 0⟩ [] := ⟨le_rfl, fun _ hc => absurd hc List.not_mem_nil⟩
  obtain ⟨-, name, hval, hm⟩ := copyLoop_of_scanName (I := Measures)
    (fun _ _ _ _ hr hm => hm.round hr) hscan hleft h.below le_rfl hempty
  have hle := nameLen_le hscan
  dsimp only at hle
  exact ⟨name, hval, Nat.succ_le_succ hm.length, by omega, hm.printable⟩

/-- `readRRname` returns a name if and only if its first loop has measured one. -/
theorem readRRname_eq_some {pos q : Pos} {name : List Byte} :
    (readRRname data pos idPos).value = some (name, q) ↔ ∃ v, Measured data idPos pos v ∧
      (copyLoop data idPos (2 * data.length) pos pos []).value = some (name, v.pos) ∧
        q = (if v.endPos = 0 then v.pos else v.endPos) + 1 := by
  rw [readRRname, value_bind]
  constructor
  · intro h
    cases hscan : (scanName data idPos (2 * data.length) ⟨pos, pos, 0, 0⟩).value with
    | none =>
      rw [hscan] at h
      cases h
    | some r =>
      obtain ⟨v, left⟩ := r
      rw [hscan] at h
      dsimp only at h
      split at h
      · cases h
      case isFalse hok =>
        rw [not_or, not_not] at hok
        have hm : Measured data idPos pos v := ⟨⟨left, hscan, hok.1⟩, hok.2⟩
        obtain ⟨-, name', hval, -⟩ := copyLoop_of_scanName (I := fun _ _ => True)
          (fun _ _ _ _ _ _ => trivial) hscan hok.1 hok.2 le_rfl trivial
        have hname : (copyName data idPos (2 * data.length) pos pos []).value = some name' := by
          rw [(copyName_eq ..).2, hval]
          rfl
        rw [value_bind, hname] at h
        cases h
        exact ⟨v, hm, hval, rfl⟩
  · rintro ⟨v, hm, hval, rfl⟩
    obtain ⟨left, hscan, hleft⟩ := hm.scanned
    have hname : (copyName data idPos (2 * data.length) pos pos []).value = some name := by
      rw [(copyName_eq ..).2, hval]
      rfl
    rw [hscan]
    dsimp only
    rw [if_neg (by rw [not_or, not_not]; exact ⟨hleft, hm.below⟩), value_bind, hname]
    rfl

/-- The name ends where `readRRname` says. -/
theorem Measured.inPlace (hlen : data.length < 2 ^ 16) {pos : Pos} {v : NameScan}
    (h : Measured data idPos pos v) :
    InPlace data pos.toNat ((if v.endPos = 0 then v.pos else v.endPos) + 1).toNat := by
  obtain ⟨left, hscan, hleft⟩ := h.scanned
  have hstart : Follows data pos.toNat ⟨pos, pos, 0, 0⟩ :=
    ⟨fun _ _ _ _ he => he, fun h => absurd rfl h⟩
  obtain ⟨hf, hstop⟩ := scanName_rounds (I := fun _ => Follows data pos.toNat)
    (fun _ _ _ hpos hr hf => hf.round hlen hpos hr) hscan hstart
  obtain ⟨hnext, hzero⟩ := scanning_false (hstop hleft) h.below
  have hlt := below_iff.mp h.below
  split
  case isTrue hend =>
    have hsucc : (v.pos + 1).toNat = v.pos.toNat + 1 := by bv_omega
    rw [hsucc]
    have hgoing := hnext ▸ hf.going
    exact hgoing hend le_rfl hlt _ (.zero hlt hzero)
  case isFalse hend =>
    have hplace := hf.ended hend
    have hle := hplace.le
    have hsucc : (v.endPos + 1).toNat = v.endPos.toNat + 1 := by bv_omega
    rw [hsucc]
    exact hplace

/-- `readRRname` reads within the message, wherever the pointers and the labels of a name lead.
Behind a first loop that has measured a name, the second stops at the same position, and writes
printable characters into the room for them; the new position is behind the name. -/
theorem readRRname_safe (data : List Byte) (hlen : data.length ≤ 65535) (pos idPos : Pos) :
    (readRRname data pos idPos).Within data.length ∧
      (∀ v, Measured data idPos pos v → ∃ name,
        (copyLoop data idPos (2 * data.length) pos pos []).value = some (name, v.pos) ∧
          name.length + 1 ≤ v.nameLen + 1 ∧ v.nameLen + 1 < 2 ^ 32 ∧ ∀ c ∈ name, Printable c) ∧
      ∀ name q, (readRRname data pos idPos).value = some (name, q) →
        (∃ v, Measured data idPos pos v ∧
          (copyLoop data idPos (2 * data.length) pos pos []).value = some (name, v.pos)) ∧
        q.toNat ≤ data.length ∧ InPlace data pos.toNat q.toNat := by
  have hlt : data.length < 2 ^ 16 := by omega
  refine ⟨readRRname_within pos, fun v hv => hv.copyLoop hlt, fun name q h => ?_⟩
  obtain ⟨v, hv, hcopy, rfl⟩ := readRRname_eq_some.mp h
  have hplace := hv.inPlace hlt
  exact ⟨⟨v, hv, hcopy⟩, hplace.le.2, hplace⟩

/-- The name `a`. -/
theorem readRRname_safe_a : (readRRname [1, 0x61, 0] 0 0).value = some ([0x61], 3) ∧
    InPlace [1, 0x61, 0] 0 3 := by
  have hread : (readRRname [1, 0x61, 0] 0 0).value = some ([0x61], 3) := by decide
  exact ⟨hread, ((readRRname_safe _ (by decide) 0 0).2.2 _ _ hread).2.2⟩

end Noff.Dns
