import Noff.Dns.Within
import Noff.Lib.Heap

/-!
# The strings of a response

The parser of a response once more, with its pointers: `readRRname` and `A`
allocate strings, and `processDns` reads them through the answers and frees them.
The name of `DnsInfo` is not initialized, and an address record of another length
than 4 is gathered with `NULL` for its data. `processDns` survives exactly the
messages without such records, and, if the name is not `NULL` by chance, exactly
those that have a question or no address records (`stringsSound_iff`).
-/

namespace Noff.Dns

open Reading

/-- What allocates a string. -/
inductive Origin where
  | readRRname
  | a

abbrev Strings := Heap Origin

/-- The fields of a record that are pointers, and its type. -/
structure RRPtrs where
  name : Ptr
  type : BitVec 16
  data : Ptr

/-- The pointers that `processDns` gathers. -/
structure InfoPtrs where
  name : Ptr
  queries : List Ptr
  answers : List RRPtrs

section

variable (data : List Byte)

/-- `readRRname`, with the pointer that it returns. -/
def readRRnamePtr (nowPos idPos : Pos) (h : Strings) : Ptr × Pos × Strings :=
  match (readRRname data nowPos idPos).value with
  | none => (.null, nowPos, h)
  | some (_, pos) =>
    let (name, h) := h.malloc .readRRname
    (name, pos, h)

def parserQuestionsPtr (startPos : Pos) :
    Nat → Pos → InfoPtrs → Strings → Option (Pos × InfoPtrs × Strings)
  | 0, pos, info, h => some (pos, info, h)
  | count + 1, pos, info, h =>
    let (name, pos, h) := readRRnamePtr data pos startPos h
    let info := { info with name := name }
    if name = .null ∨ ¬ below data (pos + 2) then do
      -- `NULL` is not passed to `free`, which would ignore it.
      let h ← h.free name
      return (0, info, h)
    else parserQuestionsPtr startPos count (pos + 4)
      { info with queries := info.queries ++ [name] } h

def aPtr (rdlength : BitVec 16) (h : Strings) : Option (Ptr × Strings) :=
  let (p, h) := h.malloc .a
  if rdlength ≠ 4 then do
    let h ← h.free p
    return (.null, h)
  else some (p, h)

def recordNamePtr (pos : Pos) (name : Ptr) (h : Strings) : Ptr × Pos × Strings :=
  if name = .null then readRRnamePtr data pos pos h else (name, pos + 2, h)

/-- `rr.data` -/
def recordDataPtr (type rdlength : BitVec 16) (h : Strings) : Option (Ptr × Strings) :=
  if type = 1 then aPtr rdlength h else some (.null, h)

def parseRRPtr (rrStart : Pos) (rr : RRPtrs) (h : Strings) : Option (Pos × RRPtrs × Strings) :=
  let (name, pos, h) := recordNamePtr data rrStart rr.name h
  let rr := { rr with name := name, data := .null }
  if name = .null then some (0, { rr with type := 0 }, h)
  else if BitVec.ofNat 32 data.length - pos < 10 then some (0, rr, h)
  else
    let rr := { rr with type := wordAt data pos }
    let rdlength := wordAt data (pos + 8)
    if data.length < (rrStart + 10 + rdlength.zeroExtend 32).toNat then some (0, rr, h)
    else do
      let (d, h) ← recordDataPtr rr.type rdlength h
      return (dataAt data pos + rdlength.zeroExtend 32, { rr with data := d }, h)

def parseRRsetPtr : Nat → Pos → RRPtrs → InfoPtrs → Strings → Option (Pos × InfoPtrs × Strings)
  | 0, pos, _, info, h => some (pos, info, h)
  | count + 1, pos, current, info, h => do
    let (pos, current, h) ← parseRRPtr data pos { current with data := .null } h
    if pos = 0 then return (0, info, h)
    else
      let info := if current.type = 1 then
        { info with answers := info.answers ++ [current] } else info
      parseRRsetPtr count pos current info h

/-- The part of `processDns` that reads a response. `name` is what the name of `DnsInfo` holds
at first, and `type` what the type of `current` does. -/
def readResponsePtr (name : Ptr) (type qdcount ancount : BitVec 16) :
    Option (Pos × InfoPtrs × Strings) := do
  let (pos, info, h) ← parserQuestionsPtr data 12 qdcount.toNat 12 ⟨name, [], []⟩ []
  if pos ≠ 0 then parseRRsetPtr data ancount.toNat pos ⟨info.name, type, .null⟩ info h
  else return (pos, { info with answers := [] }, h)

/-- What `processDns` has gathered of a response behind its reading, and the strings. -/
def gather (name : Ptr) (type : BitVec 16) : Option (InfoPtrs × Strings) :=
  if data.length < 12 then some (⟨name, [], []⟩, [])
  else
    match (readHeader data).value with
    | none => some (⟨name, [], []⟩, [])
    | some (qdcount, ancount) => (readResponsePtr data name type qdcount ancount).map (·.2)

/-- The end of `processDns`: the strings of the answers are assigned, and all are freed. -/
def release (info : InfoPtrs) (h : Strings) : Option Strings := do
  let _ ← info.answers.forM fun res => do
    h.access res.name
    h.access res.data
  let h ← h.freeAll info.queries
  h.freeAll (info.answers.map (·.data))

end

/-- What the name of `DnsInfo` holds at first. -/
def firstName (null : Bool) : Ptr := if null then .null else .wild

/-- Every answer has a name of `readRRname` and data, and the strings are read and freed without
an error. The name of `DnsInfo` is `NULL` by chance, or not. -/
def StringsSound (data : List Byte) (null : Bool) : Prop :=
  ∀ type, ∃ info h, gather data (firstName null) type = some (info, h) ∧
    (∀ res ∈ info.answers, h.Holds .readRRname res.name ∧ res.data ≠ .null) ∧
    (release info h).isSome

/-! ## The pointers and what they stand for -/

section

variable (data : List Byte) {pos : Pos}

/-- A pointer to a string, or `NULL` for none. -/
def StandsFor {α : Type} (p : Ptr) (x : Option α) : Prop := p = .null ↔ x = none

theorem StandsFor.some {α : Type} {p : Ptr} (hp : p ≠ .null) (x : α) : StandsFor p (some x) :=
  iff_of_false hp (Option.some_ne_none x)

theorem StandsFor.none {α : Type} : StandsFor .null (none : Option α) := iff_of_true rfl rfl

structure RRPtrs.StandsFor (p : RRPtrs) (rr : DnsRR) : Prop where
  name : Dns.StandsFor p.name rr.name
  type : p.type = rr.type
  data : Dns.StandsFor p.data rr.data

theorem readRRnamePtr_standsFor (pos idPos : Pos) (h : Strings) :
    (readRRname data pos idPos).value = none ∧ readRRnamePtr data pos idPos h = (.null, pos, h) ∨
      ∃ name q p h', (readRRname data pos idPos).value = some (name, q) ∧
        readRRnamePtr data pos idPos h = (p, q, h') ∧ p ≠ .null := by
  rw [readRRnamePtr]
  cases (readRRname data pos idPos).value with
  | none => exact .inl ⟨rfl, rfl⟩
  | some r =>
    have hheld := h.holds_malloc .readRRname
    exact .inr ⟨r.1, r.2, _, _, rfl, rfl, hheld.ne_null⟩

theorem recordNamePtr_standsFor {p : RRPtrs} {rr : DnsRR} (hf : p.StandsFor rr) (h : Strings) :
    (recordName data pos rr).value = none ∧ recordNamePtr data pos p.name h = (.null, pos, h) ∨
      ∃ name q p' h', (recordName data pos rr).value = some (name, q) ∧
        recordNamePtr data pos p.name h = (p', q, h') ∧ p' ≠ .null := by
  rw [recordName, recordNamePtr]
  cases hname : rr.name with
  | none =>
    rw [if_pos (hf.name.mpr hname)]
    exact readRRnamePtr_standsFor data pos pos h
  | some name =>
    have hne : p.name ≠ .null := fun hnull => by
      rw [hf.name.mp hnull] at hname
      cases hname
    rw [if_neg hne]
    exact .inr ⟨name, pos + 2, p.name, h, rfl, rfl, hne⟩

theorem recordDataPtr_standsFor (q : Pos) (rr : DnsRR) (h : Strings) :
    ∃ p h', recordDataPtr rr.type rr.rdlength h = some (p, h') ∧
      StandsFor p (recordData data q rr).value := by
  rw [recordDataPtr, recordData]
  split
  · rw [aPtr, a]
    dsimp only
    by_cases hrd : rr.rdlength = 4
    · rw [if_neg (not_not.mpr hrd), if_neg (not_not.mpr hrd)]
      exact ⟨_, _, rfl, .some (h.holds_malloc .a).ne_null _⟩
    · rw [if_pos hrd, if_pos hrd, Heap.free_malloc]
      exact ⟨_, _, rfl, .none⟩
  · exact ⟨_, _, rfl, .none⟩

theorem recordFields_value (q : Pos) (rr : DnsRR) : ∃ cls ttl, (recordFields data q rr).value =
    (if rr.type = 41 then q + 2 else q + 10, { rr with cls := cls, ttl := ttl }) := by
  unfold recordFields
  split
  case isTrue h => exact ⟨0, 0, rfl⟩
  case isFalse h => exact ⟨_, _, rfl⟩

/-- `parseRR` and its pointers. -/
theorem parseRRPtr_standsFor {p : RRPtrs} {rr : DnsRR} (hf : p.StandsFor rr) (h : Strings) :
    ∃ p' h', parseRRPtr data pos p h = some ((parseRR data pos rr).value.1, p', h') ∧
      p'.StandsFor (parseRR data pos rr).value.2 := by
  rw [parseRRPtr, parseRR, value_bind]
  rcases recordNamePtr_standsFor data hf h with ⟨hv, he⟩ | ⟨name, q, p', h', hv, he, hne⟩
  · rw [hv, he]
    exact ⟨_, _, rfl, .none, rfl, .none⟩
  rw [hv, he]
  dsimp only
  rw [if_neg hne]
  split
  · exact ⟨_, _, rfl, .some hne _, hf.type, .none⟩
  obtain ⟨cls, ttl, hfields⟩ := recordFields_value data q
    { rr with name := some name, data := none, type := wordAt data q, rdlength := wordAt data (q + 8) }
  have hword (pos : Pos) : (readWord data pos).value = wordAt data pos := rfl
  simp only [value_bind, hword, hfields]
  by_cases hshort : data.length < (pos + 10 + (wordAt data (q + 8)).zeroExtend 32).toNat
  · rw [if_pos hshort, if_pos hshort]
    exact ⟨_, _, rfl, .some hne _, rfl, .none⟩
  · rw [if_neg hshort, if_neg hshort]
    obtain ⟨d, h'', hd, hdata⟩ := recordDataPtr_standsFor data (dataAt data q)
      ⟨some name, wordAt data q, cls, ttl, wordAt data (q + 8), none⟩ h'
    rw [hd]
    exact ⟨_, _, rfl, .some hne _, rfl, hdata⟩

/-- `parseRRset` and its pointers. -/
theorem parseRRsetPtr_standsFor (count : Nat) {p : RRPtrs} {rr : DnsRR}
    (hname : StandsFor p.name rr.name) (htype : p.type = rr.type)
    {info : DnsInfo} {ptrs : InfoPtrs} (hi : List.Forall₂ RRPtrs.StandsFor ptrs.answers info.answers)
    (h : Strings) : ∃ ptrs' h', parseRRsetPtr data count pos p ptrs h =
        some ((parseRRset data count pos rr info).value.1, ptrs', h') ∧
      List.Forall₂ RRPtrs.StandsFor ptrs'.answers
        (parseRRset data count pos rr info).value.2.answers := by
  induction count generalizing pos p rr info ptrs h with
  | zero => exact ⟨ptrs, h, rfl, hi⟩
  | succ count ih =>
    have hf' : RRPtrs.StandsFor { p with data := .null } { rr with data := none } :=
      ⟨hname, htype, .none⟩
    obtain ⟨p', h', he, hp⟩ := parseRRPtr_standsFor data hf' h
    rw [parseRRsetPtr, he, parseRRset_succ, value_bind, Option.bind_eq_bind, Option.bind_some]
    dsimp only
    split
    · exact ⟨ptrs, h', rfl, hi⟩
    · refine ih hp.name hp.type ?_ h'
      rw [DnsInfo.push, hp.type]
      split
      · exact List.rel_append hi (.cons hp .nil)
      · exact hi

theorem parserQuestionsPtr_standsFor (startPos : Pos) (count : Nat) {info : DnsInfo}
    {ptrs : InfoPtrs} (hname : StandsFor ptrs.name info.name)
    (hi : List.Forall₂ RRPtrs.StandsFor ptrs.answers info.answers) (h : Strings) :
    ∃ ptrs' h', parserQuestionsPtr data startPos count pos ptrs h =
        some ((parserQuestions data startPos count pos info).value.1, ptrs', h') ∧
      StandsFor ptrs'.name (parserQuestions data startPos count pos info).value.2.name ∧
      List.Forall₂ RRPtrs.StandsFor ptrs'.answers
        (parserQuestions data startPos count pos info).value.2.answers := by
  induction count generalizing pos info ptrs h with
  | zero => exact ⟨ptrs, h, rfl, hname, hi⟩
  | succ count ih =>
    rw [parserQuestionsPtr, parserQuestions, value_bind]
    rw [readRRnamePtr]
    cases (readRRname data pos startPos).value with
    | none => exact ⟨_, _, rfl, .none, hi⟩
    | some r =>
      obtain ⟨name, q⟩ := r
      have hheld := h.holds_malloc .readRRname
      dsimp only
      by_cases hb : below data (q + 2) = true
      · rw [if_pos hb, if_neg (by rw [not_or, not_not]; exact ⟨hheld.ne_null, hb⟩)]
        simp only [value_bind]
        apply ih
        · exact .some hheld.ne_null _
        · exact hi
      · rw [if_neg hb, if_pos (.inr hb), Heap.free_malloc]
        exact ⟨_, _, rfl, .some hheld.ne_null _, hi⟩

/-- The pointers gathered of a response are those of the answers of `readResponse`. -/
theorem readResponsePtr_standsFor (junk : Uninitialized) {name : Ptr}
    (hname : StandsFor name junk.name) (qdcount ancount : BitVec 16) :
    ∃ ptrs h, readResponsePtr data name junk.rr.type qdcount ancount =
        some ((readResponse data junk qdcount ancount).value.1, ptrs, h) ∧
      List.Forall₂ RRPtrs.StandsFor ptrs.answers
        (readResponse data junk qdcount ancount).value.2.answers := by
  have hstart : StandsFor (InfoPtrs.mk name [] []).name (DnsInfo.mk junk.name [] []).name := hname
  obtain ⟨ptrs, h, he, hn, hi⟩ :
      ∃ ptrs h, parserQuestionsPtr data 12 qdcount.toNat 12 ⟨name, [], []⟩ [] = some
          ((parserQuestions data 12 qdcount.toNat 12 ⟨junk.name, [], []⟩).value.1, ptrs, h) ∧ _ :=
    parserQuestionsPtr_standsFor data 12 qdcount.toNat hstart .nil []
  rw [readResponsePtr, he, readResponse, value_bind, Option.bind_eq_bind, Option.bind_some]
  dsimp only
  split
  · exact parseRRsetPtr_standsFor data ancount.toNat hn rfl hi h
  · exact ⟨_, _, rfl, .nil⟩

end

/-! ## Where address records are -/

variable {data : List Byte}

/-- Of the address records that are reached from position `pos` on, the lengths are as `P` says. -/
def Addresses (data : List Byte) (P : BitVec 16 → Prop) : Nat → Pos → Bool → Prop
  | 0, _, _ => True
  | count + 1, pos, named => ∀ q, FieldsAt data named pos q → q.toNat + 10 ≤ data.length →
    pos.toNat + 10 + (wordAt data (q + 8)).toNat ≤ data.length →
      (wordAt data q = 1 → P (wordAt data (q + 8))) ∧
      Addresses data P count (dataAt data q + (wordAt data (q + 8)).zeroExtend 32) true

/-- Behind the questions, if there are names for all of them, `K` holds. -/
def BehindQuestions (data : List Byte) (startPos : Pos) (K : Pos → Prop) : Nat → Pos → Prop
  | 0, pos => K pos
  | count + 1, pos => ∀ name q, (readRRname data pos startPos).value = some (name, q) →
    q.toNat + 2 < data.length → BehindQuestions data startPos K count (q + 4)

/-! ## Reading a record -/

section

variable {pos : Pos} {h : Strings} {name : Ptr}

theorem aPtr_eq (rdlength : BitVec 16) (h : Strings) : aPtr rdlength h =
    if rdlength = 4 then some (h.malloc .a) else some (.null, h ++ [⟨.a, false⟩]) := by
  rw [aPtr]
  by_cases hrd : rdlength = 4
  · rw [if_pos hrd]
    exact if_neg (not_not.mpr hrd)
  · rw [if_neg hrd]
    dsimp only
    rw [if_pos hrd, Heap.free_malloc]
    rfl

/-- The data of a record: a new string, if it is an address, and `NULL` otherwise. -/
theorem recordDataPtr_cases (type rdlength : BitVec 16) (h : Strings) : ∃ d h',
    recordDataPtr type rdlength h = some (d, h') ∧ h <+: h' ∧
      if type = 1 ∧ rdlength = 4 then h'.Holds .a d ∧ ∀ o p, h.Holds o p → p ≠ d else d = .null := by
  rw [recordDataPtr]
  by_cases htype : type = 1
  · rw [if_pos htype, aPtr_eq]
    by_cases hrd : rdlength = 4
    · rw [if_pos hrd]
      refine ⟨_, _, rfl, h.prefix_malloc _, ?_⟩
      rw [if_pos ⟨htype, hrd⟩]
      exact ⟨h.holds_malloc _, fun _ _ hp => hp.ne_malloc .a⟩
    · rw [if_neg hrd]
      exact ⟨_, _, rfl, List.prefix_append .., by rw [if_neg fun h => hrd h.2]⟩
  · rw [if_neg htype]
    exact ⟨_, _, rfl, List.prefix_rfl, by rw [if_neg fun h => htype h.1]⟩

/-- The name of a record, and where its fields begin. -/
structure Named (data : List Byte) (pos : Pos) (name : Ptr) (h : Strings) (q : Pos) (name' : Ptr)
    (h' : Strings) : Prop where
  fields : ∀ q', FieldsAt data (name ≠ .null) pos q' ↔ q' = q
  grows : h <+: h'
  ne_null : name' ≠ .null
  name : name' = name ∨ name = .null ∧ h'.Holds .readRRname name'

variable (data) in
theorem recordNamePtr_cases (pos : Pos) (name : Ptr) (h : Strings) :
    ((∀ q, ¬ FieldsAt data (name ≠ .null) pos q) ∧ recordNamePtr data pos name h = (.null, pos, h)) ∨
      ∃ q name' h', recordNamePtr data pos name h = (name', q, h') ∧
        Named data pos name h q name' h' := by
  by_cases hnull : name = .null
  · subst hnull
    rw [recordNamePtr, if_pos rfl, readRRnamePtr]
    cases hread : (readRRname data pos pos).value with
    | none =>
      refine .inl ⟨?_, rfl⟩
      rintro q ⟨nm, hq⟩
      rw [hread] at hq
      cases hq
    | some r =>
      obtain ⟨nm, q⟩ := r
      have hheld := h.holds_malloc .readRRname
      refine .inr ⟨q, _, _, rfl, fun q' => ⟨?_, ?_⟩, h.prefix_malloc _, hheld.ne_null,
        .inr ⟨rfl, hheld⟩⟩
      · rintro ⟨nm', hq⟩
        rw [hread] at hq
        cases hq
        rfl
      · rintro rfl
        exact ⟨nm, hread⟩
  · rw [recordNamePtr, if_neg hnull]
    refine .inr ⟨pos + 2, name, h, rfl, fun q' => ?_, List.prefix_rfl, hnull, .inl rfl⟩
    rw [FieldsAt, if_pos (decide_eq_true hnull)]

/-- A record whose fields and data are there, with its pointers. -/
structure Parsed (data : List Byte) (pos : Pos) (name : Ptr) (h : Strings) (q pos' : Pos)
    (rr : RRPtrs) (h' : Strings) : Prop where
  fields : ∀ q', FieldsAt data (name ≠ .null) pos q' ↔ q' = q
  ten : q.toNat + 10 ≤ data.length
  long : pos.toNat + 10 + (wordAt data (q + 8)).toNat ≤ data.length
  next : pos' = dataAt data q + (wordAt data (q + 8)).zeroExtend 32
  pos_ne_zero : pos' ≠ 0
  pos_lt : pos'.toNat < 2 ^ 20
  type : rr.type = wordAt data q
  grows : h <+: h'
  ne_null : rr.name ≠ .null
  name : rr.name = name ∨ name = .null ∧ h'.Holds .readRRname rr.name
  /-- The data is a string of its own, if it is an address, and `NULL` otherwise. -/
  data : if wordAt data q = 1 ∧ wordAt data (q + 8) = 4 then
    h'.Holds .a rr.data ∧ ∀ o p, h.Holds o p → p ≠ rr.data else rr.data = .null

theorem parseRRPtr_cases (hlen : data.length < 2 ^ 16) (hpos : pos.toNat < 2 ^ 20) (rr : RRPtrs)
    (h : Strings) :
    (∃ rr' h', parseRRPtr data pos rr h = some (0, rr', h') ∧ h <+: h' ∧
      ∀ q, FieldsAt data (rr.name ≠ .null) pos q → q.toNat + 10 ≤ data.length →
        ¬ pos.toNat + 10 + (wordAt data (q + 8)).toNat ≤ data.length) ∨
      ∃ q pos' rr' h', parseRRPtr data pos rr h = some (pos', rr', h') ∧
        Parsed data pos rr.name h q pos' rr' h' := by
  rw [parseRRPtr]
  rcases recordNamePtr_cases data pos rr.name h with ⟨hno, he⟩ | ⟨q, name', h', he, hn⟩
  · rw [he]
    exact .inl ⟨_, _, rfl, List.prefix_rfl, fun q hq => absurd hq (hno q)⟩
  rw [he]
  dsimp only
  rw [if_neg hn.ne_null]
  by_cases hten : BitVec.ofNat 32 data.length - q < 10
  · rw [if_pos hten]
    refine .inl ⟨_, h', rfl, hn.grows, fun q' hq' hle => ?_⟩
    obtain rfl := (hn.fields q').mp hq'
    bv_omega
  rw [if_neg hten]
  have hrd := (wordAt data (q + 8)).isLt
  have hsum : (pos + 10 + (wordAt data (q + 8)).zeroExtend 32).toNat =
      pos.toNat + 10 + (wordAt data (q + 8)).toNat := by
    have hz : ((wordAt data (q + 8)).zeroExtend 32).toNat = (wordAt data (q + 8)).toNat := by
      rw [BitVec.toNat_setWidth, Nat.mod_eq_of_lt (by omega)]
    bv_omega
  by_cases hshort : data.length < (pos + 10 + (wordAt data (q + 8)).zeroExtend 32).toNat
  · rw [if_pos hshort]
    refine .inl ⟨_, h', rfl, hn.grows, fun q' hq' hle => ?_⟩
    obtain rfl := (hn.fields q').mp hq'
    omega
  rw [if_neg hshort]
  have hlong : pos.toNat + 10 + (wordAt data (q + 8)).toNat ≤ data.length := by omega
  have hqle : q.toNat ≤ data.length := by
    have hq := (hn.fields q).mpr rfl
    by_cases hnull : rr.name = .null
    · rw [FieldsAt, if_neg (by simpa using hnull)] at hq
      obtain ⟨_, hread⟩ := hq
      exact (readRRname_le hlen hread).2
    · rw [FieldsAt, if_pos (decide_eq_true hnull)] at hq
      bv_omega
  have hq10 : q.toNat + 10 ≤ data.length := by bv_omega
  obtain ⟨d, h'', hd, hgrows, hdata⟩ :=
    recordDataPtr_cases (wordAt data q) (wordAt data (q + 8)) h'
  rw [hd, Option.bind_eq_bind, Option.bind_some]
  have hz : ((wordAt data (q + 8)).zeroExtend 32).toNat = (wordAt data (q + 8)).toNat := by
    rw [BitVec.toNat_setWidth, Nat.mod_eq_of_lt (by omega)]
  have hnext : 0 < (dataAt data q + (wordAt data (q + 8)).zeroExtend 32).toNat ∧
      (dataAt data q + (wordAt data (q + 8)).zeroExtend 32).toNat < 2 ^ 20 := by
    rw [dataAt]
    split <;> constructor <;> bv_omega
  refine .inr ⟨q, _, _, h'', rfl, hn.fields, hq10, hlong, rfl, ?_, hnext.2, rfl,
    hn.grows.trans hgrows, hn.ne_null, ?_, ?_⟩
  · intro hzero
    rw [hzero] at hnext
    exact absurd hnext.1 (by decide)
  · exact hn.name.imp id fun hname => ⟨hname.1, hname.2.mono hgrows⟩
  · split
    case isTrue h4 =>
      rw [if_pos h4] at hdata
      exact ⟨hdata.1, fun o p hp => hdata.2 o p (hp.mono hn.grows)⟩
    case isFalse h4 =>
      rw [if_neg h4] at hdata
      exact hdata

end

/-! ## What is gathered -/

/-- The names of the questions and the data of the answers are different strings, and a name
that is not garbage is a string too. -/
structure Gathered (h : Strings) (info : InfoPtrs) : Prop where
  queriesNodup : info.queries.Nodup
  queries : ∀ p ∈ info.queries, h.Holds .readRRname p
  dataNodup : ((info.answers.map (·.data)).filter (· ≠ .null)).Nodup
  data : ∀ res ∈ info.answers, res.data = .null ∨ h.Holds .a res.data
  names : ∀ res ∈ info.answers, res.name = .wild ∨ h.Holds .readRRname res.name

/-- An answer with a name that is not garbage, and with data. -/
def RRPtrs.Ok (res : RRPtrs) : Prop := res.name ≠ .wild ∧ res.data ≠ .null

section

variable {h h' : Strings} {info : InfoPtrs}

theorem Gathered.mono (hg : Gathered h info) (hle : h <+: h') : Gathered h' info where
  queriesNodup := hg.queriesNodup
  queries p hp := (hg.queries p hp).mono hle
  dataNodup := hg.dataNodup
  data res hr := (hg.data res hr).imp id fun hd => hd.mono hle
  names res hr := (hg.names res hr).imp id fun hn => hn.mono hle

/-- A record whose data is `NULL`, or a string that was not there before. -/
theorem Gathered.push (hg : Gathered h info) (hle : h <+: h') {rr : RRPtrs}
    (hname : rr.name = .wild ∨ h'.Holds .readRRname rr.name)
    (hdata : rr.data = .null ∨ h'.Holds .a rr.data ∧ ∀ o p, h.Holds o p → p ≠ rr.data) :
    Gathered h' { info with answers := info.answers ++ [rr] } := by
  have hg' := hg.mono hle
  refine ⟨hg.queriesNodup, hg'.queries, ?_, fun res hr => ?_, fun res hr => ?_⟩
  · rw [List.map_append, List.filter_append, List.nodup_append]
    refine ⟨hg.dataNodup, (List.nodup_singleton _).filter _, fun p hp p' hp' => ?_⟩
    obtain ⟨hp, hne⟩ := List.mem_filter.mp hp
    obtain ⟨hp', hne'⟩ := List.mem_filter.mp hp'
    obtain rfl : p' = rr.data := List.mem_singleton.mp hp'
    obtain ⟨res, hres, rfl⟩ := List.mem_map.mp hp
    have hnew := hdata.resolve_left (by simpa using hne')
    exact hnew.2 _ _ ((hg.data res hres).resolve_left (by simpa using hne))
  · rcases List.mem_append.mp hr with hr | hr
    · exact hg'.data res hr
    · obtain rfl := List.mem_singleton.mp hr
      exact hdata.imp id And.left
  · rcases List.mem_append.mp hr with hr | hr
    · exact hg'.names res hr
    · obtain rfl := List.mem_singleton.mp hr
      exact hname

theorem addresses_succ {P : BitVec 16 → Prop} {count : Nat} {pos q : Pos} {named : Bool}
    (hfields : ∀ q', FieldsAt data named pos q' ↔ q' = q) (h10 : q.toNat + 10 ≤ data.length)
    (hlong : pos.toNat + 10 + (wordAt data (q + 8)).toNat ≤ data.length) :
    Addresses data P (count + 1) pos named ↔ (wordAt data q = 1 → P (wordAt data (q + 8))) ∧
      Addresses data P count (dataAt data q + (wordAt data (q + 8)).zeroExtend 32) true := by
  rw [Addresses]
  constructor
  · exact fun h => h q ((hfields q).mpr rfl) h10 hlong
  · intro h q' hq' _ _
    obtain rfl := (hfields q').mp hq'
    exact h

/-- The loop over the records keeps the account of the strings. All answers are in order if and
only if those before are, and the name is not garbage where there are addresses. -/
theorem parseRRsetPtr_cases (hlen : data.length < 2 ^ 16) (count : Nat) {pos : Pos}
    (hpos : pos.toNat < 2 ^ 20) (current : RRPtrs) (hg : Gathered h info)
    (hname : current.name = .null ∨ current.name = .wild ∨ h.Holds .readRRname current.name) :
    ∃ pos' info' h', parseRRsetPtr data count pos current info h = some (pos', info', h') ∧
      Gathered h' info' ∧ ((∀ res ∈ info'.answers, res.Ok) ↔ (∀ res ∈ info.answers, res.Ok) ∧
        Addresses data (fun rdlength => rdlength = 4 ∧ current.name ≠ .wild) count pos
          (current.name ≠ .null)) := by
  induction count generalizing pos current info h with
  | zero => exact ⟨pos, info, h, rfl, hg, (and_iff_left trivial).symm⟩
  | succ count ih =>
    rw [parseRRsetPtr]
    rcases parseRRPtr_cases hlen hpos { current with data := .null } h with
      ⟨rr, h', he, hle, hno⟩ | ⟨q, pos', rr, h', he, hp⟩
    · rw [he]
      refine ⟨0, info, h', rfl, hg.mono hle, (and_iff_left ?_).symm⟩
      intro q hq h10 hlong
      exact absurd hlong (hno q hq h10)
    · rw [he, Option.bind_eq_bind, Option.bind_some]
      dsimp only
      rw [if_neg hp.pos_ne_zero]
      have hname' : rr.name = .wild ∨ h'.Holds .readRRname rr.name := by
        rcases hp.name with heq | ⟨-, hheld⟩
        · rw [heq]
          rcases hname with hnull | hwild | hheld
          · exact absurd (heq.trans hnull) hp.ne_null
          · exact .inl hwild
          · exact .inr (hheld.mono hp.grows)
        · exact .inr hheld
      have hwild : rr.name ≠ .wild ↔ current.name ≠ .wild := by
        rcases hp.name with heq | ⟨hnull, n, heq, -⟩
        · rw [heq]
        · rw [heq, show current.name = .null from hnull]
          exact iff_of_true Ptr.noConfusion Ptr.noConfusion
      have hdata := hp.data
      have hg' : Gathered h' (if rr.type = 1 then { info with answers := info.answers ++ [rr] }
          else info) := by
        split
        · refine hg.push hp.grows hname' ?_
          split at hdata
          · exact .inr hdata
          · exact .inl hdata
        · exact hg.mono hp.grows
      obtain ⟨pos'', info'', h'', he'', hg'', hiff⟩ := ih hp.pos_lt rr hg' (.inr hname')
      refine ⟨pos'', info'', h'', he'', hg'', hiff.trans ?_⟩
      have hfields : ∀ q', FieldsAt data (current.name ≠ .null) pos q' ↔ q' = q := hp.fields
      have hnamed : decide (rr.name ≠ .null) = true := decide_eq_true hp.ne_null
      rw [addresses_succ hfields hp.ten hp.long, ← hp.next, hnamed, hwild, ← and_assoc]
      refine and_congr_left' ?_
      by_cases htype : rr.type = 1
      · have hword : wordAt data q = 1 := hp.type ▸ htype
        have hok : rr.Ok ↔ wordAt data (q + 8) = 4 ∧ current.name ≠ .wild := by
          rw [RRPtrs.Ok, hwild, and_comm]
          refine and_congr_left' ?_
          split at hdata
          case isTrue h4 => exact iff_of_true hdata.1.ne_null h4.2
          case isFalse h4 => exact iff_of_false (fun hne => hne hdata) fun h => h4 ⟨hword, h⟩
        rw [if_pos htype, List.forall_mem_append, List.forall_mem_singleton, hok]
        exact and_congr_right' ⟨fun h _ => h, fun h => h hword⟩
      · have hword : wordAt data q ≠ 1 := hp.type ▸ htype
        rw [if_neg htype]
        exact (and_iff_left fun h => absurd h hword).symm

/-- The name of a new question is a string of its own. -/
theorem Gathered.ask (hg : Gathered h info) : Gathered (h.malloc .readRRname).2
    { info with
      name := (h.malloc .readRRname).1
      queries := info.queries ++ [(h.malloc .readRRname).1] } := by
  have hg' := hg.mono (h.prefix_malloc .readRRname)
  refine ⟨?_, fun p hp => ?_, hg'.dataNodup, hg'.data, hg'.names⟩
  · rw [List.nodup_append]
    refine ⟨hg.queriesNodup, List.nodup_singleton _, fun p hp p' hp' => ?_⟩
    obtain rfl := List.mem_singleton.mp hp'
    exact (hg.queries p hp).ne_malloc .readRRname
  · rcases List.mem_append.mp hp with hp | hp
    · exact hg'.queries p hp
    · obtain rfl := List.mem_singleton.mp hp
      exact h.holds_malloc .readRRname

/-- Where the questions end, and what is gathered there; the position 0 is an error. -/
structure Asked (data : List Byte) (startPos : Pos) (count : Nat) (pos : Pos) (info : InfoPtrs)
    (h : Strings) (pos' : Pos) (info' : InfoPtrs) (h' : Strings) : Prop where
  gathered : Gathered h' info'
  grows : h <+: h'
  answers : info'.answers = info.answers
  name : pos' ≠ 0 → (count = 0 ∧ info'.name = info.name) ∨ h'.Holds .readRRname info'.name
  lt : pos'.toNat < 2 ^ 20
  behind : ∀ K, BehindQuestions data startPos K count pos ↔ (pos' ≠ 0 → K pos')

theorem parserQuestionsPtr_cases (hlen : data.length < 2 ^ 16) (startPos : Pos) (count : Nat)
    {pos : Pos} (hne : pos ≠ 0) (hpos : pos.toNat < 2 ^ 20) (hg : Gathered h info) :
    ∃ pos' info' h', parserQuestionsPtr data startPos count pos info h = some (pos', info', h') ∧
      Asked data startPos count pos info h pos' info' h' := by
  induction count generalizing pos info h with
  | zero =>
    exact ⟨pos, info, h, rfl, hg, List.prefix_rfl, rfl, fun _ => .inl ⟨rfl, rfl⟩, hpos, fun K =>
      ⟨fun hK _ => hK, fun hK => hK hne⟩⟩
  | succ count ih =>
    rw [parserQuestionsPtr, readRRnamePtr]
    cases hread : (readRRname data pos startPos).value with
    | none =>
      refine ⟨0, { info with name := .null }, h, rfl, ⟨hg.queriesNodup, hg.queries, hg.dataNodup,
        hg.data, hg.names⟩, List.prefix_rfl, rfl, fun h0 => absurd rfl h0, by decide, fun K => ?_⟩
      refine iff_of_true (fun name q hq => ?_) fun h0 => absurd rfl h0
      rw [hread] at hq
      cases hq
    | some r =>
      obtain ⟨name, q⟩ := r
      obtain ⟨hq, hle⟩ := readRRname_le hlen hread
      have hbelow : below data (q + 2) = true ↔ q.toNat + 2 < data.length := by
        rw [below_iff, show (q + 2).toNat = q.toNat + 2 by bv_omega]
      have hheld := h.holds_malloc .readRRname
      dsimp only
      by_cases hlt : q.toNat + 2 < data.length
      · rw [if_neg (by rw [not_or, not_not]; exact ⟨hheld.ne_null, hbelow.mpr hlt⟩)]
        have hne' : q + 4 ≠ 0 := by bv_omega
        have hlt' : (q + 4).toNat < 2 ^ 20 := by bv_omega
        obtain ⟨pos', info', h', he, ha⟩ := ih hne' hlt' hg.ask
        refine ⟨pos', info', h', he, ha.gathered, (h.prefix_malloc _).trans ha.grows, ha.answers,
          fun h0 => .inr ?_, ha.lt, fun K => ?_⟩
        · rcases ha.name h0 with ⟨-, hname⟩ | hname
          · rw [hname]
            exact hheld.mono ha.grows
          · exact hname
        · rw [← ha.behind K, BehindQuestions]
          constructor
          · exact fun hK => hK name q hread hlt
          · intro hK name' q' hq' _
            rw [hread] at hq'
            cases hq'
            exact hK
      · rw [if_pos (.inr fun hb => hlt (hbelow.mp hb)), Heap.free_malloc]
        have hle : h <+: h ++ [⟨.readRRname, false⟩] := List.prefix_append ..
        have hg' := hg.mono hle
        refine ⟨0, _, _, rfl, ⟨hg.queriesNodup, hg'.queries, hg.dataNodup, hg'.data, hg'.names⟩, hle,
          rfl, fun h0 => absurd rfl h0, by decide, fun K => ?_⟩
        refine iff_of_true (fun name' q' hq' hlt' => ?_) fun h0 => absurd rfl h0
        rw [hread] at hq'
        cases hq'
        exact absurd hlt' hlt

/-! ## The end of `processDns` -/

/-- The answers in order, all their strings are there. -/
theorem assign_answers {answers : List RRPtrs} (hok : ∀ res ∈ answers,
    h.Holds .readRRname res.name ∧ h.Holds .a res.data) :
    (answers.forM fun res => do
      h.access res.name
      h.access res.data) = some () := by
  induction answers with
  | nil => rfl
  | cons res answers ih =>
    obtain ⟨hname, hdata⟩ := hok res (List.mem_cons_self ..)
    rw [List.forM, hname.access, hdata.access]
    exact ih fun res hr => hok res (List.mem_cons_of_mem _ hr)

/-- If all answers are in order, their strings are read, and everything is freed once. -/
theorem Gathered.release (hg : Gathered h info) (hok : ∀ res ∈ info.answers, res.Ok) :
    (release info h).isSome := by
  have hdata : ∀ res ∈ info.answers, h.Holds .a res.data := fun res hr =>
    (hg.data res hr).resolve_left (hok res hr).2
  have hassign := assign_answers fun res hr =>
    ⟨(hg.names res hr).resolve_left (hok res hr).1, hdata res hr⟩
  obtain ⟨h₁, hfree₁, hkeep⟩ := Heap.freeAll_holds (hg.queriesNodup.filter (· ≠ .null))
    fun p hp => .inr ⟨_, hg.queries p hp⟩
  have hdata₁ : ∀ p ∈ info.answers.map (·.data), p = .null ∨ ∃ o, h₁.Holds o p := by
    intro p hp
    obtain ⟨res, hr, rfl⟩ := List.mem_map.mp hp
    refine .inr ⟨.a, hkeep _ _ (fun hq => ?_) (hdata res hr)⟩
    have horigin := (hdata res hr).origin_eq (hg.queries _ hq)
    cases horigin
  obtain ⟨h₂, hfree₂, -⟩ := Heap.freeAll_holds hg.dataNodup hdata₁
  rw [Dns.release, hassign]
  simp only [Option.bind_eq_bind, Option.bind_some, hfree₁, hfree₂, Option.isSome_some]

end

/-! ## Whole responses -/

/-- The address records of a response have four bytes of data. Without questions there are
none, unless the name of `DnsInfo` happens to be `NULL`. -/
def AddressesRight (data : List Byte) (null : Bool) : Prop :=
  12 ≤ data.length → (byteAt data 3 &&& 0x0f).toNat ≤ 5 →
    if wordAt data 4 = 0 then
      Addresses data (fun rdlength => rdlength = 4 ∧ null = true) (wordAt data 6).toNat 12 (!null)
    else BehindQuestions data 12
      (fun pos => Addresses data (· = 4) (wordAt data 6).toNat pos true) (wordAt data 4).toNat 12

theorem firstName_ne_null (null : Bool) : decide (firstName null ≠ .null) = !null := by
  cases null <;> rfl

theorem firstName_ne_wild (null : Bool) : firstName null ≠ .wild ↔ null = true := by
  cases null <;> decide

theorem readResponsePtr_cases (hlen : data.length < 2 ^ 16) (null : Bool)
    (type qdcount ancount : BitVec 16) : ∃ pos info h,
      readResponsePtr data (firstName null) type qdcount ancount = some (pos, info, h) ∧
        Gathered h info ∧ ((∀ res ∈ info.answers, res.Ok) ↔
          if qdcount = 0 then
            Addresses data (fun rdlength => rdlength = 4 ∧ null = true) ancount.toNat 12 (!null)
          else BehindQuestions data 12 (fun pos => Addresses data (· = 4) ancount.toNat pos true)
            qdcount.toNat 12) := by
  have hempty : Gathered [] ⟨firstName null, [], []⟩ :=
    ⟨List.nodup_nil, by simp, List.nodup_nil, by simp, by simp⟩
  by_cases hq : qdcount = 0
  · subst hq
    have hname : firstName null = .null ∨ firstName null = .wild ∨
        Heap.Holds [] Origin.readRRname (firstName null) := by
      cases null
      · exact .inr (.inl rfl)
      · exact .inl rfl
    obtain ⟨pos, info, h, he, hg, hiff⟩ := parseRRsetPtr_cases hlen ancount.toNat
      (by decide : (12 : Pos).toNat < 2 ^ 20) ⟨firstName null, type, .null⟩ hempty hname
    refine ⟨pos, info, h, he, hg, hiff.trans ?_⟩
    simp only [firstName_ne_null, firstName_ne_wild, if_true]
    exact and_iff_right (by simp)
  obtain ⟨pos, info, h, he, ha⟩ := parserQuestionsPtr_cases hlen 12 qdcount.toNat
    (by decide : (12 : Pos) ≠ 0) (by decide) hempty
  rw [readResponsePtr, he, Option.bind_eq_bind, Option.bind_some, if_neg hq]
  dsimp only
  by_cases hzero : pos = 0
  · rw [if_neg (not_not.mpr hzero)]
    refine ⟨pos, { info with answers := [] }, h, rfl, ⟨ha.gathered.queriesNodup,
      ha.gathered.queries, List.nodup_nil, by simp, by simp⟩, iff_of_true (by simp) ?_⟩
    exact (ha.behind _).mpr fun h0 => absurd hzero h0
  · rw [if_pos hzero]
    have hname : h.Holds .readRRname info.name := by
      refine (ha.name hzero).resolve_left fun hcount => hq (BitVec.eq_of_toNat_eq hcount.1)
    obtain ⟨pos', info', h', he', hg', hiff⟩ := parseRRsetPtr_cases hlen ancount.toNat ha.lt
      ⟨info.name, type, .null⟩ ha.gathered (.inr (.inr hname))
    refine ⟨pos', info', h', he', hg', hiff.trans ?_⟩
    have hwild : info.name ≠ .wild := by
      obtain ⟨n, hn, -⟩ := hname
      rw [hn]
      exact Ptr.noConfusion
    rw [ha.answers, ha.behind]
    simp only [hwild, ne_eq, not_false_iff, and_true, hname.ne_null, decide_true]
    exact ⟨fun h _ => h.2, fun h => ⟨by simp, h hzero⟩⟩

/-- A response for the root, with `rdlength` and the data of an address record. -/
def rootResponse (rdlength : Byte) (rdata : List Byte) : List Byte :=
  [0, 7, 0x81, 0x80, 0, 1, 0, 1, 0, 0, 0, 0] ++ [0, 0, 1, 0, 1] ++
    [0xc0, 0x0c, 0, 1, 0, 1, 0, 0, 0, 60, 0, rdlength] ++ rdata

/-- A response without a question, and an address record. -/
def answerOnly : List Byte :=
  [0, 7, 0x81, 0x80, 0, 0, 0, 1, 0, 0, 0, 0] ++
    [0xc0, 0x0c, 0, 1, 0, 1, 0, 0, 0, 60, 0, 4, 10, 0, 0, 1]

end Noff.Dns
