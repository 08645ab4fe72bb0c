import Noff.Dns.Pointers

/-!
# Responses, decoded

A record is decoded right if and only if it is `Clean`: it is no OPT record, and
the numbers that count have positive low bytes and fit the fields they are
stored in (`parseRR_right_iff`). A response with clean answers yields its
addresses, in order (`response_decoded`).
-/

namespace Noff.Dns

open Reading

variable {data : List Byte} {pos : Pos}

/-- An answer of a well-formed response, with a compressed name of two bytes. -/
structure Answer where
  pointer : Byte
  pointerLow : Byte
  type : BitVec 16
  cls : BitVec 16
  ttl : BitVec 32
  rdata : List Byte
  compressed : isPointer pointer = true
  rdlength : rdata.length < 2 ^ 16
  positive : ttl.toNat < 2 ^ 31
  address : type = 1 → rdata.length = 4

namespace Answer

/-- The fixed fields. -/
def fields (r : Answer) : List Byte :=
  wire16 r.type ++ (wire16 r.cls ++ (wire32 r.ttl ++ wire16 (BitVec.ofNat 16 r.rdata.length)))

def wire (r : Answer) : List Byte := [r.pointer, r.pointerLow] ++ (r.fields ++ r.rdata)

theorem length_wire (r : Answer) : r.wire.length = 12 + r.rdata.length := by
  simp [wire, fields, wire16, wire32]
  omega

/-- The four numbers of an address. -/
def dotted (r : Answer) : String :=
  toString (byteAt r.rdata 0).toNat ++ "." ++ toString (byteAt r.rdata 1).toNat ++ "." ++
    toString (byteAt r.rdata 2).toNat ++ "." ++ toString (byteAt r.rdata 3).toNat

/-- The parser decodes the record as it is on the wire. -/
structure Clean (r : Answer) : Prop where
  noOpt : r.type ≠ 41
  rdlength : (BitVec.ofNat 16 r.rdata.length).getLsbD 7 = false
  cls : r.type = 1 → r.cls.getLsbD 7 = false
  ttl : r.type = 1 → r.ttl.toNat < 2 ^ 16 ∧ (r.ttl.extractLsb' 0 16).getLsbD 7 = false

end Answer

/-- What the parser has of a record is what the message says. -/
structure DnsRR.Represents (rr : DnsRR) (r : Answer) : Prop where
  type : rr.type = r.type
  cls : rr.cls = r.cls
  ttl : rr.ttl.toNat = r.ttl.toNat
  data : rr.data = some r.dotted

/-- The record at `q` without the name, if its data is there. -/
theorem parseRR_value {q : Pos} {rr : DnsRR} {name : List Byte} (hlen : data.length < 2 ^ 16)
    (hpos : pos.toNat < 2 ^ 31) (h : (recordName data pos rr).value = some (name, q))
    (hq : q.toNat + 10 ≤ data.length)
    (hlong : pos.toNat + 10 + (wordAt data (q + 8)).toNat ≤ data.length) :
    (parseRR data pos rr).value = (dataAt data q + (wordAt data (q + 8)).zeroExtend 32,
      ⟨some name, wordAt data q, if wordAt data q = 41 then 0 else wordAt data (q + 2),
        if wordAt data q = 41 then 0 else (readTtl data (q + 4)).value, wordAt data (q + 8),
        if wordAt data q = 1 then (a data (dataAt data q) (wordAt data (q + 8))).value else none⟩) := by
  have hrd := (wordAt data (q + 8)).isLt
  have hsum : (pos + 10 + (wordAt data (q + 8)).zeroExtend 32).toNat =
      pos.toNat + 10 + (wordAt data (q + 8)).toNat := by
    have hz : ((wordAt data (q + 8)).zeroExtend 32).toNat = (wordAt data (q + 8)).toNat := by
      rw [BitVec.toNat_setWidth, Nat.mod_eq_of_lt (by omega)]
    bv_omega
  rw [parseRR, value_bind, h]
  dsimp only
  rw [if_neg (show ¬ BitVec.ofNat 32 data.length - q < 10 by bv_omega)]
  unfold dataAt wordAt at *
  simp only [value_bind, recordFields, recordData]
  by_cases hopt : (readWord data q).value = 41
  · have hone : (readWord data q).value ≠ 1 := by rw [hopt]; decide
    simp only [hopt, if_true, value_pure, hsum]
    rw [if_neg (by omega)]
    rfl
  · simp only [hopt, if_false, value_bind, value_pure, hsum]
    rw [if_neg (by omega)]
    by_cases hone : (readWord data q).value = 1
    · simp only [hone, if_true, value_bind, value_pure]
    · simp only [hone, if_false, value_bind, value_pure]

/-- The numbers of a record, as they are read. -/
structure FieldsRead (data : List Byte) (pos : Pos) (r : Answer) : Prop where
  le : pos.toNat + 12 + r.rdata.length ≤ data.length
  type : wordAt data (pos + 2) = signedLow r.type
  cls : wordAt data (pos + 2 + 2) = signedLow r.cls
  ttl : (readTtl data (pos + 2 + 4)).value = signedLow (r.ttl.extractLsb' 0 16)
  rdlength : wordAt data (pos + 2 + 8) = signedLow (BitVec.ofNat 16 r.rdata.length)
  rdata : At data (pos.toNat + 12) r.rdata

theorem fieldsRead {r : Answer} (hat : At data pos.toNat r.wire) (hlen : data.length < 2 ^ 16) :
    FieldsRead data pos r := by
  have hle := hat.le (by rw [Answer.wire]; exact List.cons_ne_nil _ _)
  rw [Answer.length_wire] at hle
  obtain ⟨-, hrest⟩ := At.append.mp hat
  obtain ⟨hfields, hrdata⟩ := At.append.mp hrest
  obtain ⟨htype, hfields⟩ := At.append.mp hfields
  obtain ⟨hcls, hfields⟩ := At.append.mp hfields
  obtain ⟨httl, hrd⟩ := At.append.mp hfields
  have h₂ : (pos + 2).toNat = pos.toNat + 2 := by bv_omega
  have h₄ : (pos + 2 + 2).toNat = pos.toNat + 4 := by bv_omega
  have h₆ : (pos + 2 + 4).toNat = pos.toNat + 6 := by bv_omega
  have h₁₀ : (pos + 2 + 8).toNat = pos.toNat + 10 := by bv_omega
  exact ⟨by omega, readWord_wire (by omega) (by rw [h₂]; exact htype),
    readWord_wire (by omega) (by rw [h₄]; exact hcls),
    readTtl_wire (by omega) (by rw [h₆]; exact httl),
    readWord_wire (by omega) (by rw [h₁₀]; exact hrd), hrdata⟩

/-- The four bytes of an address, printed. -/
theorem a_value {r : Answer} {p : Pos} (hat : At data p.toNat r.rdata) (h4 : r.rdata.length = 4)
    (hp : p.toNat + 3 < 2 ^ 32) : (a data p 4).value = some r.dotted := by
  obtain ⟨b₀, b₁, b₂, b₃, hr⟩ : ∃ b₀ b₁ b₂ b₃, r.rdata = [b₀, b₁, b₂, b₃] := by
    match hr : r.rdata, h4 with
    | [b₀, b₁, b₂, b₃], _ => exact ⟨b₀, b₁, b₂, b₃, rfl⟩
  rw [hr] at hat
  obtain ⟨-, h₀, hat⟩ := At.cons.mp hat
  obtain ⟨-, h₁, hat⟩ := At.cons.mp hat
  obtain ⟨-, h₂, hat⟩ := At.cons.mp hat
  obtain ⟨-, h₃, -⟩ := At.cons.mp hat
  have e₁ : (p + 1).toNat = p.toNat + 1 := by bv_omega
  have e₂ : (p + 2).toNat = p.toNat + 1 + 1 := by bv_omega
  have e₃ : (p + 3).toNat = p.toNat + 1 + 1 + 1 := by bv_omega
  rw [a, if_neg (by decide), Answer.dotted, hr]
  simp only [value_bind, value_pure, value_readAt, e₁, e₂, e₃, h₀, h₁, h₂, h₃]
  rfl

/-- The result of `parseRR` is what the message says of a record. -/
structure Right (res : Pos × DnsRR) (pos : Pos) (r : Answer) : Prop where
  pos : res.1.toNat = pos.toNat + r.wire.length
  isAddress : res.2.type = 1 ↔ r.type = 1
  represents : r.type = 1 → res.2.Represents r

theorem parseRR_right_iff {r : Answer} {rr : DnsRR} {name : List Byte}
    (hat : At data pos.toNat r.wire) (hlen : data.length < 2 ^ 16) (hname : rr.name = some name) :
    Right (parseRR data pos rr).value pos r ↔ r.Clean := by
  have hf := fieldsRead hat hlen
  have hle := hf.le
  have hrec : (recordName data pos rr).value = some (name, pos + 2) := by
    rw [recordName, hname]
    rfl
  have hq : (pos + 2).toNat = pos.toNat + 2 := by bv_omega
  have hlen16 : (BitVec.ofNat 16 r.rdata.length).toNat = r.rdata.length := by
    rw [BitVec.toNat_ofNat, Nat.mod_eq_of_lt r.rdlength]
  have hrd := toNat_signedLow (BitVec.ofNat 16 r.rdata.length)
  have hiff := signedLow_eq_iff (x := BitVec.ofNat 16 r.rdata.length)
  rw [hlen16] at hrd
  by_cases hshort : data.length < pos.toNat + 10 + (wordAt data (pos + 2 + 8)).toNat
  · have hzero := parseRR_fields hlen (by omega) hrec (by omega)
    rw [if_pos hshort] at hzero
    refine iff_of_false (fun h => ?_) fun h => ?_
    · have hpos := h.pos
      rw [hzero.2, r.length_wire] at hpos
      exact absurd hpos (by simp; omega)
    · rw [hf.rdlength, hiff.mpr h.rdlength, hlen16] at hshort
      omega
  · rw [parseRR_value hlen (by omega) hrec (by omega) (by omega), hf.type, hf.cls, hf.ttl,
      hf.rdlength, dataAt, hf.type]
    have hopt : signedLow r.type = 41 ↔ r.type = 41 := signedLow_eq (by decide)
    have hone : signedLow r.type = 1 ↔ r.type = 1 := signedLow_eq (by decide)
    have hz : ((signedLow (BitVec.ofNat 16 r.rdata.length)).zeroExtend 32).toNat =
        (signedLow (BitVec.ofNat 16 r.rdata.length)).toNat := by
      have := (signedLow (BitVec.ofNat 16 r.rdata.length)).isLt
      rw [BitVec.toNat_setWidth, Nat.mod_eq_of_lt (by omega)]
    by_cases h41 : r.type = 41
    · refine iff_of_false (fun h => ?_) fun h => h.noOpt h41
      have hpos := h.pos
      rw [if_pos (hopt.mpr h41), r.length_wire] at hpos
      split at hrd <;> bv_omega
    · rw [if_neg fun h => h41 (hopt.mp h), if_neg fun h => h41 (hopt.mp h),
        if_neg fun h => h41 (hopt.mp h)]
      have hlo : (r.ttl.extractLsb' 0 16).toNat = r.ttl.toNat % 2 ^ 16 := by
        rw [BitVec.extractLsb'_toNat, Nat.shiftRight_zero]
      have hlo' := toNat_signedLow (r.ttl.extractLsb' 0 16)
      rw [hlo] at hlo'
      constructor
      · intro h
        have hpos := h.pos
        rw [r.length_wire] at hpos
        refine ⟨h41, ?_, fun h1 => signedLow_eq_iff.mp (h.represents h1).cls, fun h1 => ?_⟩
        · rw [← hiff, ← BitVec.toNat_inj, hlen16]
          split at hrd <;> bv_omega
        · have httl : (signedLow (r.ttl.extractLsb' 0 16)).toNat = r.ttl.toNat := (h.represents h1).ttl
          have hlt := (signedLow (r.ttl.extractLsb' 0 16)).isLt
          refine ⟨by omega, ?_⟩
          rw [← signedLow_eq_iff, ← BitVec.toNat_inj, httl, hlo, Nat.mod_eq_of_lt (by omega)]
      · intro h
        rw [hiff.mpr h.rdlength]
        rw [hiff.mpr h.rdlength, hlen16] at hz
        refine ⟨?_, hone, fun h1 => ⟨hone.mpr h1 ▸ h1.symm, signedLow_eq_iff.mpr (h.cls h1), ?_, ?_⟩⟩
        · rw [r.length_wire]
          bv_omega
        · show (signedLow (r.ttl.extractLsb' 0 16)).toNat = _
          rw [signedLow_eq_iff.mpr (h.ttl h1).2, hlo, Nat.mod_eq_of_lt (h.ttl h1).1]
        · show (if signedLow r.type = 1 then _ else _) = _
          rw [if_pos (hone.mpr h1), r.address h1]
          have hdata : (pos + 2 + 10).toNat = pos.toNat + 12 := by bv_omega
          exact a_value (by rw [hdata]; exact hf.rdata) (r.address h1) (by omega)

/-! ## The answer section -/

/-- The records that `parseRRset` adds do not depend on what is there. -/
theorem parseRRset_answers (count : Nat) (pos : Pos) (rr : DnsRR) (info : DnsInfo) :
    (parseRRset data count pos rr info).value =
      ((parseRRset data count pos rr { info with answers := [] }).value.1,
        { info with answers := info.answers ++
          (parseRRset data count pos rr { info with answers := [] }).value.2.answers }) := by
  induction count generalizing pos rr info with
  | zero => simp [parseRRset]
  | succ count ih =>
    simp only [parseRRset_succ, value_bind]
    generalize (parseRR data pos { rr with data := none }).value = r
    split
    · simp
    · rw [ih, ih r.1 r.2 (DnsInfo.push _ r.2)]
      unfold DnsInfo.push
      split <;> simp

/-- After the records `rs` from position `p` on, the result of `parseRRset` is what the
message says of them. -/
structure AnswersRight (res : Pos × DnsInfo) (p : Nat) (rs : List Answer) : Prop where
  pos : res.1.toNat = p + (rs.flatMap Answer.wire).length
  answers : List.Forall₂ DnsRR.Represents res.2.answers (rs.filter fun r => r.type = 1)

theorem answersRight_cons {r : Answer} {rs : List Answer} {count : Nat} {rr : DnsRR} {info : DnsInfo}
    (hright : Right (parseRR data pos { rr with data := none }).value pos r) :
    AnswersRight (parseRRset data (count + 1) pos rr { info with answers := [] }).value pos.toNat
        (r :: rs) ↔
      AnswersRight (parseRRset data count (parseRR data pos { rr with data := none }).value.1
        (parseRR data pos { rr with data := none }).value.2 { info with answers := [] }).value
        (parseRR data pos { rr with data := none }).value.1.toNat rs := by
  have hpos := hright.pos
  rw [r.length_wire] at hpos
  rw [parseRRset_succ, value_bind, if_neg fun h => by rw [h] at hpos; simp at hpos; omega,
    parseRRset_answers]
  generalize (parseRR data pos { rr with data := none }).value = res at *
  have hsame : ({ DnsInfo.push { info with answers := [] } res.2 with answers := [] } : DnsInfo) =
      { info with answers := [] } := by
    unfold DnsInfo.push
    split <;> rfl
  have hpush : (DnsInfo.push { info with answers := [] } res.2).answers =
      if r.type = 1 then [res.2] else [] := by
    unfold DnsInfo.push
    by_cases h1 : r.type = 1
    · rw [if_pos (hright.isAddress.mpr h1), if_pos h1]
      rfl
    · rw [if_neg fun h => h1 (hright.isAddress.mp h), if_neg h1]
  rw [hsame, hpush]
  generalize (parseRRset data count res.1 res.2 { info with answers := [] }).value = R
  have hlength : ((r :: rs).flatMap Answer.wire).length =
      r.wire.length + (rs.flatMap Answer.wire).length := by
    rw [List.flatMap_cons, List.length_append]
  have hrpos := hright.pos
  have hanswers : List.Forall₂ DnsRR.Represents ((if r.type = 1 then [res.2] else []) ++ R.2.answers)
      ((r :: rs).filter fun r => r.type = 1) ↔
        List.Forall₂ DnsRR.Represents R.2.answers (rs.filter fun r => r.type = 1) := by
    by_cases h1 : r.type = 1
    · rw [if_pos h1, List.filter_cons_of_pos (by simpa using h1), List.singleton_append,
        List.forall₂_cons]
      exact and_iff_right (hright.represents h1)
    · rw [if_neg h1, List.filter_cons_of_neg (by simpa using h1), List.nil_append]
  constructor
  · intro h
    have hp := h.pos
    refine ⟨?_, hanswers.mp h.answers⟩
    dsimp only at hp
    omega
  · intro h
    have hp := h.pos
    refine ⟨?_, hanswers.mpr h.answers⟩
    dsimp only
    omega

/-- One record alone is right if it is parsed right. -/
theorem answersRight_one {r : Answer} {rr : DnsRR} {info : DnsInfo} :
    AnswersRight (parseRRset data 1 pos rr { info with answers := [] }).value pos.toNat [r] ↔
      Right (parseRR data pos { rr with data := none }).value pos r := by
  constructor
  · intro h
    have hp := h.pos
    have ha := h.answers
    rw [List.flatMap_singleton] at hp
    rw [parseRRset_succ, value_bind] at hp ha
    have hlength := r.length_wire
    split at hp
    case isTrue => exact absurd hp (by simp; omega)
    case isFalse hne =>
      rw [if_neg hne] at ha
      have hpush : (DnsInfo.push { info with answers := [] }
          (parseRR data pos { rr with data := none }).value.2).answers =
        if (parseRR data pos { rr with data := none }).value.2.type = 1 then
          [(parseRR data pos { rr with data := none }).value.2] else [] := by
        unfold DnsInfo.push
        split <;> rfl
      have ha' : List.Forall₂ DnsRR.Represents
          (if (parseRR data pos { rr with data := none }).value.2.type = 1 then
            [(parseRR data pos { rr with data := none }).value.2] else [])
          ([r].filter fun r => r.type = 1) := by
        rw [← hpush]
        exact ha
      by_cases h1 : r.type = 1
      · rw [List.filter_cons_of_pos (by simpa using h1)] at ha'
        split at ha'
        case isTrue htype =>
          exact ⟨hp, iff_of_true htype h1, fun _ => (List.forall₂_cons.mp ha').1⟩
        case isFalse => cases ha'
      · rw [List.filter_cons_of_neg (by simpa using h1)] at ha'
        split at ha'
        case isTrue => cases ha'
        case isFalse htype => exact ⟨hp, iff_of_false htype h1, fun h => absurd h h1⟩
  · intro h
    rw [answersRight_cons h]
    exact ⟨rfl, .nil⟩

theorem parseRR_name {r : Answer} {rr : DnsRR} {name : List Byte} (hat : At data pos.toNat r.wire)
    (hlen : data.length < 2 ^ 16) (hname : rr.name = some name)
    (h : Right (parseRR data pos rr).value pos r) :
    (parseRR data pos rr).value.2.name = some name := by
  have hle := (fieldsRead hat hlen).le
  have hpos := h.pos
  rw [r.length_wire] at hpos
  have hrec : (recordName data pos rr).value = some (name, pos + 2) := by
    rw [recordName, hname]
    rfl
  have hfields := parseRR_fields hlen (by omega) hrec (by bv_omega)
  split at hfields
  · rw [hfields.2] at hpos
    exact absurd hpos (by simp; omega)
  · exact hfields.2.2

/-- Each part of the answer section is parsed right if and only if all its records are clean. -/
theorem parseRRset_right_iff {rs : List Answer} (hat : At data pos.toNat (rs.flatMap Answer.wire))
    (hlen : data.length < 2 ^ 16) {rr : DnsRR} {name : List Byte} (hname : rr.name = some name)
    (info : DnsInfo) :
    (∀ k ≤ rs.length, AnswersRight (parseRRset data k pos rr { info with answers := [] }).value
      pos.toNat (rs.take k)) ↔ ∀ r ∈ rs, r.Clean := by
  induction rs generalizing pos rr name with
  | nil =>
    refine iff_of_true (fun k hk => ?_) fun r hr => by cases hr
    obtain rfl : k = 0 := Nat.le_zero.mp hk
    exact ⟨rfl, .nil⟩
  | cons r rs ih =>
    rw [List.flatMap_cons] at hat
    obtain ⟨hr, hrs⟩ := At.append.mp hat
    have hiff : Right (parseRR data pos { rr with data := none }).value pos r ↔ r.Clean :=
      parseRR_right_iff hr hlen hname
    rw [List.forall_mem_cons]
    have hrest (hright : Right (parseRR data pos { rr with data := none }).value pos r) :=
      ih (by rw [hright.pos]; exact hrs) (parseRR_name hr hlen (by exact hname) hright)
    constructor
    · intro h
      have hright := answersRight_one.mp (h 1 (by rw [List.length_cons]; omega))
      refine ⟨hiff.mp hright, (hrest hright).mp fun k hk => ?_⟩
      rw [← answersRight_cons hright]
      exact h (k + 1) (by rw [List.length_cons]; omega)
    · rintro ⟨hclean, hcleans⟩ k hk
      have hright := hiff.mpr hclean
      cases k with
      | zero => exact ⟨rfl, .nil⟩
      | succ k =>
        rw [List.take_succ_cons, answersRight_cons hright]
        exact (hrest hright).mpr hcleans k (by rw [List.length_cons] at hk; omega)

/-! ## Messages -/

/-- A response with one question and answers whose names are compressed. Behind the answers
may stand other sections. -/
structure Response where
  id : BitVec 16
  flags : Byte
  rcode : Byte
  nscount : BitVec 16
  arcount : BitVec 16
  qname : List (List Byte)
  qtype : BitVec 16
  qclass : BitVec 16
  answers : List Answer
  rest : List Byte
  noError : (rcode &&& 0x0f).toNat ≤ 5
  labels : LabelsOk qname
  count : answers.length < 2 ^ 16

namespace Response

def header (m : Response) : List Byte :=
  wire16 m.id ++ ([m.flags, m.rcode] ++ (wire16 1 ++ (wire16 (BitVec.ofNat 16 m.answers.length) ++
    (wire16 m.nscount ++ wire16 m.arcount))))

def question (m : Response) : List Byte := wireName m.qname ++ (wire16 m.qtype ++ wire16 m.qclass)

def wire (m : Response) : List Byte :=
  m.header ++ (m.question ++ (m.answers.flatMap Answer.wire ++ m.rest))

/-- The position of the first answer. -/
def answersAt (m : Response) : Nat := 12 + m.question.length

/-- The parser gets the number of answers right, and after each answer its position and
the addresses so far. -/
structure Decoded (m : Response) (junk : Uninitialized) : Prop where
  header : (readHeader m.wire).value = some (1, BitVec.ofNat 16 m.answers.length)
  answers : ∀ k ≤ m.answers.length,
    AnswersRight (readResponse m.wire junk 1 (BitVec.ofNat 16 k)).value m.answersAt (m.answers.take k)

end Response

namespace Response

variable (m : Response)

theorem at_header : At m.wire 0 m.header := ⟨_, rfl⟩

theorem at_rest : At m.wire 12 (m.question ++ m.answers.flatMap Answer.wire) := by
  refine ⟨m.rest, ?_⟩
  rw [wire, List.append_assoc]
  exact (List.drop_left' (by simp [header, wire16])).symm

/-- What the parser has of the header. -/
theorem readHeader_value :
    (readHeader m.wire).value = some (1, signedLow (BitVec.ofNat 16 m.answers.length)) := by
  obtain ⟨hid, hrest⟩ := At.append.mp m.at_header
  obtain ⟨hflags, hrest⟩ := At.append.mp hrest
  obtain ⟨hqd, hrest⟩ := At.append.mp hrest
  obtain ⟨han, -⟩ := At.append.mp hrest
  obtain ⟨-, -, hcode⟩ := At.cons.mp hflags
  obtain ⟨-, hcode, -⟩ := At.cons.mp hcode
  have h12 : 12 ≤ m.wire.length := by
    simp [wire, header, wire16]
  have hqd' : wordAt m.wire 4 = signedLow 1 := readWord_wire (by decide) hqd
  have han' : wordAt m.wire 6 = signedLow (BitVec.ofNat 16 m.answers.length) :=
    readWord_wire (by decide) han
  have hcode' : byteAt m.wire 3 = m.rcode := hcode
  rw [(readHeader_within h12).2, hcode', if_neg (Nat.not_lt.mpr m.noError), hqd', han']
  rfl

/-- Behind the question, `parseRRset` comes to the answers with a name. -/
theorem readResponse_value (hlen : m.wire.length < 2 ^ 16) (junk : Uninitialized) :
    ∃ (pos : Pos) (rr : DnsRR) (name : List Byte) (info : DnsInfo), pos.toNat = m.answersAt ∧
      rr.name = some name ∧ ∀ k : BitVec 16, (readResponse m.wire junk 1 k).value =
        (parseRRset m.wire k.toNat pos rr { info with answers := [] }).value := by
  obtain ⟨hquestion, -⟩ := At.append.mp m.at_rest
  obtain ⟨hname, hwords⟩ := At.append.mp hquestion
  have hle := hwords.le (List.cons_ne_nil _ _)
  have h4 : (wire16 m.qtype ++ wire16 m.qclass).length = 4 := rfl
  obtain ⟨q, hread, hq⟩ := readRRname_written 12 m.labels
    (show At m.wire (12 : Pos).toNat (wireName m.qname) from hname) hlen
  have hq' : q.toNat = 12 + (wireName m.qname).length := hq
  have hbelow : below m.wire (q + 2) = true := below_iff.mpr (by bv_omega)
  refine ⟨q + 4, { junk.rr with name := some (printed m.qname) }, printed m.qname,
    ⟨some (printed m.qname), [⟨printed m.qname, wordAt m.wire q, wordAt m.wire (q + 2)⟩], []⟩, ?_,
    rfl, fun k => ?_⟩
  · rw [answersAt, question, List.length_append, h4]
    bv_omega
  · have hquestions : (parserQuestions m.wire 12 (1 : BitVec 16).toNat 12 ⟨junk.name, [], []⟩).value =
        (q + 4, ⟨some (printed m.qname), [⟨printed m.qname, wordAt m.wire q, wordAt m.wire (q + 2)⟩],
          []⟩) := by
      show (parserQuestions m.wire 12 1 12 ⟨junk.name, [], []⟩).value = _
      rw [parserQuestions, value_bind, hread]
      dsimp only
      rw [if_pos hbelow]
      rfl
    rw [readResponse, value_bind, hquestions]
    dsimp only
    rw [if_pos (show q + 4 ≠ 0 by bv_omega)]

end Response

/-- A response is decoded right if and only if the low byte of its number of answers is
positive, and all answers are clean. -/
theorem response_decoded_iff (m : Response) (hlen : m.wire.length < 2 ^ 16) (junk : Uninitialized) :
    m.Decoded junk ↔
      (BitVec.ofNat 16 m.answers.length).getLsbD 7 = false ∧ ∀ r ∈ m.answers, r.Clean := by
  obtain ⟨pos, rr, name, info, hpos, hname, hvalue⟩ := m.readResponse_value hlen junk
  have hat : At m.wire pos.toNat (m.answers.flatMap Answer.wire) := by
    rw [hpos]
    exact (At.append.mp m.at_rest).2
  have hset := parseRRset_right_iff hat hlen hname info
  have hk (k : Nat) (h : k ≤ m.answers.length) : (BitVec.ofNat 16 k).toNat = k := by
    have := m.count
    rw [BitVec.toNat_ofNat, Nat.mod_eq_of_lt (by omega)]
  constructor
  · rintro ⟨hheader, hanswers⟩
    rw [m.readHeader_value] at hheader
    refine ⟨signedLow_eq_iff.mp (Prod.ext_iff.mp (Option.some.inj hheader)).2, hset.mp fun k h => ?_⟩
    have hright := hanswers k h
    rwa [hvalue, hk k h, ← hpos] at hright
  · rintro ⟨hcount, hclean⟩
    refine ⟨by rw [m.readHeader_value, signedLow_eq_iff.mpr hcount], fun k h => ?_⟩
    rw [hvalue, hk k h, ← hpos]
    exact hset.mpr hclean k h

/-- The address `10.0.0.1` of the name in the question. -/
def addressAnswer (ttl : BitVec 32) (h : ttl.toNat < 2 ^ 31) : Answer :=
  ⟨0xc0, 0x0c, 1, 1, ttl, [10, 0, 0, 1], by decide, by decide, h, fun _ => rfl⟩

/-- A response for the name `a` with one answer. -/
def addressResponse (r : Answer) : Response :=
  ⟨7, 0x81, 0x80, 0, 0, [[0x61]], 1, 1, [r], [], by decide, by
    intro l hl
    obtain rfl := List.mem_singleton.mp hl
    decide, by
    rw [List.length_singleton]
    decide⟩

/-- A TTL of one minute. -/
theorem response_decoded_minute :
    (addressResponse (addressAnswer 60 (by decide))).Decoded junk := by
  refine (response_decoded_iff _ (by decide) junk).mpr ⟨by decide, fun r hr => ?_⟩
  obtain rfl := List.mem_singleton.mp hr
  exact ⟨by decide, by decide, fun _ => by decide, fun _ => by decide⟩

/-- Of a TTL of 200 seconds, 256 are lost. -/
theorem response_ttl_200 :
    ((readResponse (addressResponse (addressAnswer 200 (by decide))).wire junk 1 1).value.2.answers.map
      fun rr => (rr.type, rr.ttl)) = [(1, 65480)] := by
  decide

end Noff.Dns
