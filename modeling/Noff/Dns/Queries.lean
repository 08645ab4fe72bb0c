import Noff.Dns.Pointers

/-!
# Queries

`QuestionsAt` is the question section of RFC 1035: pointers in its names are
relative to the start of the message, and lead to what stands before them. It is
decoded right if the parser comes to the same names, though it looks for what a
pointer leads to elsewhere, and no low byte is taken for a negative number
(`sectionRight_iff`). A record is never right: `processDns` assigns the class to
`Qtype` and leaves `Qclass` as it was (`queryRight_iff`).
-/

namespace Noff.Dns

open Reading

/-! ## The section on the wire -/

/-- The name with these labels at position `p`, which ends in front of `e`. -/
inductive NameAt (data : List Byte) : Nat → List (List Byte) → Nat → Prop where
  | root {p : Nat} (h : At data p [0]) : NameAt data p [] (p + 1)
  | label {p e : Nat} {l : List Byte} {labels : List (List Byte)} (hne : l ≠ []) (h64 : l.length < 64)
    (h : At data p (BitVec.ofNat 8 l.length :: l)) (hrest : NameAt data (p + 1 + l.length) labels e) :
    NameAt data p (l :: labels) e
  | pointer {p e : Nat} {c d : Byte} {labels : List (List Byte)} (h : At data p [c, d])
    (hptr : isPointer c = true) (hback : (c &&& 0x3f).toNat * 256 + d.toNat < p)
    (hname : NameAt data ((c &&& 0x3f).toNat * 256 + d.toNat) labels e) :
    NameAt data p labels (p + 2)

/-- The labels of a name take no more than 255 bytes, with their lengths and the zero. -/
def NameFits (labels : List (List Byte)) : Prop := (wireName labels).length ≤ 255

structure Question where
  qname : List (List Byte)
  qtype : BitVec 16
  qclass : BitVec 16

/-- The questions from position `p` to `e`. -/
inductive QuestionsAt (data : List Byte) : Nat → List Question → Nat → Prop where
  | nil (p : Nat) : QuestionsAt data p [] p
  | cons {p e e' : Nat} {q : Question} {qs : List Question} (hname : NameAt data p q.qname e)
    (hfits : NameFits q.qname) (h : At data e (wire16 q.qtype ++ wire16 q.qclass))
    (hrest : QuestionsAt data (e + 4) qs e') : QuestionsAt data p (q :: qs) e'

/-- A message with the questions `qs`, up to position `e`. -/
structure HasQuestions (data : List Byte) (qs : List Question) (e : Nat) : Prop where
  header : 12 ≤ data.length
  count : qs.length = (be16 data 4).toNat
  questions : QuestionsAt data 12 qs e

/-- The question, as the parser keeps it. -/
def Question.decoded (q : Question) : DnsQuestion := ⟨printed q.qname, q.qtype, q.qclass⟩

/-! ## The section, as the parser reads it -/

variable {data : List Byte} {idPos : Pos}

theorem NameAt.inPlace {p e : Nat} {labels : List (List Byte)} (h : NameAt data p labels e) :
    InPlace data p e := by
  induction h with
  | root h => exact .zero (At.cons.mp h).1 (At.cons.mp h).2.1
  | label hne h64 h _ ih =>
    obtain ⟨-, hc, -⟩ := At.cons.mp h
    have hpos := List.length_pos_iff.mpr hne
    have h0 := (length_byte hpos (by omega)).1
    have hto := congrArg BitVec.toNat hc
    rw [BitVec.toNat_ofNat, Nat.mod_eq_of_lt (by omega)] at hto
    exact .label (hc ▸ h0) (by omega) (by rw [hto]; exact ih)
  | pointer h hptr =>
    obtain ⟨-, hc, hd⟩ := At.cons.mp h
    exact .pointer (At.cons.mp hd).1 (hc ▸ hptr)

theorem QuestionsAt.le {p e : Nat} {qs : List Question} (h : QuestionsAt data p qs e) : p ≤ e := by
  induction h with
  | nil => exact le_rfl
  | cons hname _ _ _ ih =>
    have := hname.inPlace.le
    omega

/-- What the parser takes the questions from position `p` for is what they are: with its pointers,
a name is printed alike and found in rounds enough, and no low byte is negative. -/
inductive AsMeant (data : List Byte) : Nat → List Question → Prop where
  | nil (p : Nat) : AsMeant data p []
  | cons {p e n : Nat} {labels : List (List Byte)} {q : Question} {qs : List Question}
    (hplace : InPlace data p e) (hname : Found data 12 p labels n) (hrounds : n < 2 * data.length)
    (hprinted : printed labels = printed q.qname) (htype : q.qtype.getLsbD 7 = false)
    (hclass : q.qclass.getLsbD 7 = false) (hrest : AsMeant data (e + 4) qs) :
    AsMeant data p (q :: qs)

variable (data idPos) in
/-- The loop appends `count` questions, or returns 0. -/
theorem queries_parserQuestions (count : Nat) (pos : Pos) (info : DnsInfo) : ∃ queries,
    (parserQuestions data idPos count pos info).value.2.queries = info.queries ++ queries ∧
      ((parserQuestions data idPos count pos info).value.1 = 0 ∨ queries.length = count) := by
  induction count generalizing pos info with
  | zero => exact ⟨[], (List.append_nil _).symm, .inr rfl⟩
  | succ count ih =>
    rw [parserQuestions, value_bind]
    cases (readRRname data pos idPos).value with
    | none => exact ⟨[], (List.append_nil _).symm, .inl rfl⟩
    | some r =>
      obtain ⟨name, q⟩ := r
      dsimp only
      split
      case isFalse => exact ⟨[], (List.append_nil _).symm, .inl rfl⟩
      case isTrue =>
        simp only [value_bind]
        obtain ⟨queries, hqueries, hcount⟩ := ih (q + 4) ⟨some name,
          info.queries ++ [⟨name, (readWord data q).value, (readWord data (q + 2)).value⟩],
          info.answers⟩
        refine ⟨_ :: queries, hqueries.trans (List.append_assoc ..), hcount.imp_right fun h => ?_⟩
        rw [List.length_cons, h]

/-- One round: a question whose name is found, and the next ones behind it. -/
theorem parserQuestions_cons {p e : Nat} {q : Question} (hlen : data.length < 2 ^ 16)
    (hplace : InPlace data p e) (h : At data e (wire16 q.qtype ++ wire16 q.qclass)) {pos : Pos}
    (hpos : pos.toNat = p) {labels : List (List Byte)} {n : Nat} (hname : Found data idPos p labels n)
    (hrounds : n < 2 * data.length) (count : Nat) (info : DnsInfo) : ∃ q' : Pos,
      q'.toNat = e + 4 ∧ (parserQuestions data idPos (count + 1) pos info).value =
        (parserQuestions data idPos count q' { info with
          name := some (printed labels)
          queries := info.queries ++
            [⟨printed labels, signedLow q.qtype, signedLow q.qclass⟩] }).value := by
  obtain ⟨htype, hclass⟩ := At.append.mp h
  have hle : e + 4 ≤ data.length := h.le (List.cons_ne_nil _ _)
  have he : (BitVec.ofNat 32 e).toNat = e := by
    rw [BitVec.toNat_ofNat, Nat.mod_eq_of_lt (by omega)]
  obtain ⟨a, ha⟩ : ∃ a : Pos, a.toNat = e := ⟨_, he⟩
  subst hpos ha
  have ha2 : (a + 2).toNat = a.toNat + 2 := by bv_omega
  have ha4 : (a + 4).toNat = a.toNat + 4 := by bv_omega
  refine ⟨a + 4, ha4, ?_⟩
  rw [parserQuestions, value_bind,
    (readRRname_eq_some_iff hlen).mpr ⟨hplace, labels, n, hname, hrounds, rfl⟩]
  dsimp only
  rw [if_pos (below_iff.mpr (by omega)), value_bind, value_bind, readWord_wire (by omega) htype,
    readWord_wire (by omega) (ha2 ▸ hclass)]

/-- The loop decodes the questions right if and only if it takes them for what they are. -/
theorem parserQuestions_right_iff (hlen : data.length < 2 ^ 16) {qs : List Question} {p e : Nat}
    (h : QuestionsAt data p qs e) (hp : 0 < p) {pos : Pos} (hpos : pos.toNat = p) (info : DnsInfo) :
    ((parserQuestions data 12 qs.length pos info).value.1.toNat = e ∧
      (parserQuestions data 12 qs.length pos info).value.2.queries =
        info.queries ++ qs.map Question.decoded) ↔ AsMeant data p qs := by
  induction h generalizing pos info with
  | nil p => exact ⟨fun _ => .nil p, fun _ => ⟨hpos, (List.append_nil _).symm⟩⟩
  | @cons p e e' q qs hname hfits h hrest ih =>
    have hplace := hname.inPlace
    have hle := hrest.le
    constructor
    · rintro ⟨hend, hqueries⟩
      cases hread : (readRRname data pos 12).value with
      | none =>
        rw [List.length_cons, parserQuestions, value_bind, hread] at hend
        exact absurd hend (show 0 ≠ e' by omega)
      | some r =>
        obtain ⟨name, a⟩ := r
        obtain ⟨-, labels, n, hfound, hrounds, -⟩ := (readRRname_eq_some_iff hlen).mp hread
        rw [hpos] at hfound
        obtain ⟨q', hq', hval⟩ := parserQuestions_cons hlen hplace h hpos hfound hrounds qs.length info
        rw [List.length_cons, hval] at hend hqueries
        obtain ⟨queries, happ, -⟩ := queries_parserQuestions data 12 qs.length q'
          ⟨some (printed labels), info.queries ++
            [⟨printed labels, signedLow q.qtype, signedLow q.qclass⟩], info.answers⟩
        have hfirst : (⟨printed labels, signedLow q.qtype, signedLow q.qclass⟩ : DnsQuestion) =
            q.decoded := by
          rw [happ, List.append_assoc, List.map_cons] at hqueries
          exact (List.cons_eq_cons.mp (List.append_cancel_left hqueries)).1
        obtain ⟨hprinted, htype, hclass⟩ := DnsQuestion.mk.injEq .. ▸ hfirst
        refine .cons hplace hfound hrounds hprinted (signedLow_eq_iff.mp htype)
          (signedLow_eq_iff.mp hclass) ((ih (by omega) hq' _).mp ⟨hend, ?_⟩)
        rw [hqueries, hfirst, List.append_assoc]
        rfl
    · rintro (_ | ⟨hplace', hfound, hrounds, hprinted, htype, hclass, hmeant⟩)
      obtain rfl := hplace.unique hplace'
      obtain ⟨q', hq', hval⟩ := parserQuestions_cons hlen hplace h hpos hfound hrounds qs.length info
      rw [List.length_cons, hval, hprinted, signedLow_eq_iff.mpr htype, signedLow_eq_iff.mpr hclass]
      obtain ⟨hend, hqueries⟩ := (ih (by omega) hq' _).mpr hmeant
      exact ⟨hend, hqueries.trans (List.append_assoc ..)⟩

/-! ## What is handed over -/

/-- `parserQuestions` yields the questions and the position behind them, whatever the variables
hold that are not initialized. -/
def SectionRight (data : List Byte) (qs : List Question) (e : Nat) : Prop :=
  ∀ junk : Uninitialized, ∃ qdcount ancount pos info,
    (readHeader data).value = some (qdcount, ancount) ∧
      (parserQuestions data 12 qdcount.toNat 12 ⟨junk.name, [], []⟩).value = (pos, info) ∧
      pos.toNat = e ∧ info.queries = qs.map Question.decoded

/-- The records that the callbacks are invoked with. -/
def records (data : List Byte) (junk : Uninitialized) (parser : DnsParser) (t4 : Tuple4)
    (timeStamp : Int) : Option (List DnsRecord) :=
  (processDns data junk parser t4 timeStamp).value.map fun r => r.2.2

/-- Those of requests. -/
def requests (data : List Byte) (junk : Uninitialized) (parser : DnsParser) (t4 : Tuple4)
    (timeStamp : Int) : List DnsRequest :=
  ((records data junk parser t4 timeStamp).getD []).filterMap fun
    | .request r => some r
    | .response _ => none

/-- What `processDns` is to do with a query. Without a last question, no record of a request shows
what the variables hold that are not initialized. -/
structure QueryRight (data : List Byte) (parser : DnsParser) (t4 : Tuple4) (timeStamp : Int) :
    Prop where
  questions : ∀ qs e, HasQuestions data qs e → SectionRight data qs e
  record : ∀ junk qs q e, HasQuestions data (qs ++ [q]) e → ∃ r,
    records data junk parser t4 timeStamp = some [.request r] ∧
      r.qname = printed q.qname ∧ r.qtype = q.qtype ∧ r.qclass = q.qclass
  unset : (¬ ∃ qs q e, HasQuestions data (qs ++ [q]) e) → ∀ junk junk',
    requests data junk parser t4 timeStamp = requests data junk' parser t4 timeStamp

variable {t4 : Tuple4}

/-- The header, if there is no error code above 5. -/
theorem readHeader_value (h12 : 12 ≤ data.length) (hcode : (byteAt data 3 &&& 0x0f).toNat ≤ 5) :
    (readHeader data).value = some (signedLow (be16 data 4), wordAt data 6) := by
  have hcount : wordAt data 4 = signedLow (be16 data 4) := by
    rw [← add_bytes, be16]
    simp only [BitVec.extractLsb'_append_eq_left, BitVec.extractLsb'_append_eq_right]
    rfl
  rw [(readHeader_within h12).2, if_neg (Nat.not_lt.mpr hcode), hcount]

/-- The section is decoded right if and only if the low byte of the number of questions is
positive, and the parser takes the questions for what they are. -/
theorem sectionRight_iff (hlen : data.length < 2 ^ 16) (hcode : (byteAt data 3 &&& 0x0f).toNat ≤ 5)
    {qs : List Question} {e : Nat} (hq : HasQuestions data qs e) :
    SectionRight data qs e ↔ (be16 data 4).getLsbD 7 = false ∧ AsMeant data 12 qs := by
  have hheader := readHeader_value hq.header hcode
  have h12 : (12 : Pos).toNat = 12 := rfl
  have hright (name : Option (List Byte)) :=
    parserQuestions_right_iff hlen hq.questions (by decide) h12 ⟨name, [], []⟩
  have hle := hq.questions.le
  constructor
  · intro h
    obtain ⟨qdcount, ancount, pos, info, hh, hval, hpos, hqueries⟩ := h junk
    rw [hheader] at hh
    cases hh
    -- the loop has appended as many questions as the signed number says
    obtain ⟨queries, happ, hcount⟩ := queries_parserQuestions data 12
      (signedLow (be16 data 4)).toNat 12 ⟨junk.name, [], []⟩
    rw [hval] at happ hcount
    have hlength : queries.length = qs.length := by
      rw [← List.length_map (f := Question.decoded), ← hqueries, happ]
      rfl
    have hne : pos ≠ 0 := by
      rintro rfl
      exact absurd hpos (show 0 ≠ e by omega)
    have hsigned : signedLow (be16 data 4) = be16 data 4 := by
      apply BitVec.eq_of_toNat_eq
      rw [← hcount.resolve_left hne, hlength, hq.count]
    refine ⟨signedLow_eq_iff.mp hsigned, (hright junk.name).mp ?_⟩
    rw [hq.count, ← hsigned, hval]
    exact ⟨hpos, hqueries⟩
  · rintro ⟨hcount, hmeant⟩ junk
    obtain ⟨hpos, hqueries⟩ := (hright junk.name).mpr hmeant
    rw [hq.count, ← signedLow_eq_iff.mpr hcount] at hpos hqueries
    exact ⟨_, _, _, _, hheader, rfl, hpos, hqueries⟩

/-- `Qclass` is what the variable held. -/
theorem qclass_requestOf (junk : Uninitialized) (t4 : Tuple4) (timeStamp : Int)
    (queries : List DnsQuestion) :
    (requestOf junk t4 timeStamp queries).qclass = junk.request.qclass := by
  have hfold (r : DnsRequest) : (queries.foldl (fun r res =>
      ⟨timeStamp, t4.saddr, t4.daddr, res.name, res.cls, r.qclass⟩ : _ → _ → DnsRequest) r).qclass =
        r.qclass := by
    induction queries generalizing r with
    | nil => rfl
    | cons res queries ih => rw [List.foldl_cons, ih]
  exact hfold _

/-- A query without error gives one record, whose `Qclass` is not initialized. -/
theorem records_query (h53 : t4.dest = 53) (hsrc : t4.source ≠ 53) (h12 : 12 ≤ data.length)
    (hcode : (byteAt data 3 &&& 0x0f).toNat ≤ 5) (junk : Uninitialized) (parser : DnsParser)
    (timeStamp : Int) : ∃ r, records data junk parser t4 timeStamp = some [.request r] ∧
      r.qclass = junk.request.qclass := by
  refine ⟨_, ?_, qclass_requestOf junk t4 timeStamp
    (parserQuestions data 12 (signedLow (be16 data 4)).toNat 12 ⟨junk.name, [], []⟩).value.2.queries⟩
  rw [records, processDns, if_neg hsrc, if_pos h53, if_neg (Nat.not_lt.mpr h12), value_bind,
    readHeader_value h12 hcode]
  rfl

/-- Of a message without a header, nothing is handed over. -/
theorem requests_short (h12 : data.length < 12) (junk : Uninitialized) (parser : DnsParser)
    (timeStamp : Int) : requests data junk parser t4 timeStamp = [] := by
  rw [requests, records, processDns, if_pos h12, if_pos h12]
  split
  · rfl
  · split <;> rfl

variable (data) in
/-- A message from port 53 is a response, and gives no request. -/
theorem requests_response (hsrc : t4.source = 53) (junk : Uninitialized) (parser : DnsParser)
    (timeStamp : Int) : requests data junk parser t4 timeStamp = [] := by
  rw [requests, records, processDns, if_pos hsrc]
  split
  · rfl
  · rw [value_bind]
    cases (readHeader data).value with
    | none => rfl
    | some counts =>
      dsimp only
      rw [value_bind, value_pure, Option.map_map]
      cases responseOf junk t4 timeStamp _ with
      | none => rfl
      | some r =>
        dsimp only [Option.map_some, Function.comp_apply, Option.getD_some]
        split <;> rfl

/-- A query that is taken for one is not handed over right: two runs on it differ in `Qclass`. -/
theorem not_queryRight (h53 : t4.dest = 53) (hsrc : t4.source ≠ 53) (h12 : 12 ≤ data.length)
    (hcode : (byteAt data 3 &&& 0x0f).toNat ≤ 5) (parser : DnsParser) (timeStamp : Int) :
    ¬ QueryRight data parser t4 timeStamp := by
  intro h
  have hrecord (x : BitVec 16) := records_query h53 hsrc h12 hcode
    { junk with request.qclass := x } parser timeStamp
  by_cases hwf : ∃ qs q e, HasQuestions data (qs ++ [q]) e
  · obtain ⟨qs, q, e, hq⟩ := hwf
    obtain ⟨r, hr, hclass⟩ := hrecord (q.qclass + 1)
    obtain ⟨r', hr', -, -, hclass'⟩ := h.record _ _ q e hq
    rw [hr] at hr'
    cases hr'
    rw [hclass'] at hclass
    exact absurd hclass (by bv_omega)
  · obtain ⟨r, hr, hclass⟩ := hrecord 0
    obtain ⟨r', hr', hclass'⟩ := hrecord 1
    have hsame := h.unset hwf { junk with request.qclass := 0 } { junk with request.qclass := 1 }
    rw [requests, requests, hr, hr'] at hsame
    cases hsame
    rw [hclass'] at hclass
    exact absurd hclass (by decide)

/-- Without a last question there is nothing to hand over. -/
theorem queryRight_of_requests (hcode : (byteAt data 3 &&& 0x0f).toNat ≤ 5)
    (hno : ¬ ∃ qs q e, HasQuestions data (qs ++ [q]) e) {parser : DnsParser} {timeStamp : Int}
    (h : ∀ junk, requests data junk parser t4 timeStamp = []) :
    QueryRight data parser t4 timeStamp := by
  refine ⟨fun qs e hq junk => ?_, fun _ qs q e hq => absurd ⟨qs, q, e, hq⟩ hno,
    fun _ junk junk' => by rw [h, h]⟩
  rcases List.eq_nil_or_concat qs with rfl | ⟨qs, q, rfl⟩
  · have hzero : be16 data 4 = 0 := BitVec.eq_of_toNat_eq hq.count.symm
    obtain rfl : e = 12 := by
      cases hq.questions
      rfl
    refine ⟨0, wordAt data 6, 12, ⟨junk.name, [], []⟩, ?_, rfl, rfl, rfl⟩
    rw [readHeader_value hq.header hcode, hzero]
    rfl
  · exact absurd ⟨qs, q, e, by rwa [List.concat_eq_append] at hq⟩ hno

/-- A query is handed over right if and only if it has no header, or is taken for a response and
has no well-formed questions. Its section is decoded right if and only if the low byte of the
number of questions is positive, and the parser takes them for what they are. -/
theorem queryRight_iff (data : List Byte) (parser : DnsParser) {t4 : Tuple4} (timeStamp : Int)
    (h53 : t4.dest = 53) (hcode : (byteAt data 3 &&& 0x0f).toNat ≤ 5) :
    (QueryRight data parser t4 timeStamp ↔ data.length < 12 ∨
      t4.source = 53 ∧ ¬ ∃ qs q e, HasQuestions data (qs ++ [q]) e) ∧
    (data.length < 2 ^ 16 → ∀ qs e, HasQuestions data qs e → (SectionRight data qs e ↔
      (be16 data 4).getLsbD 7 = false ∧ AsMeant data 12 qs)) := by
  refine ⟨⟨fun h => ?_, fun h => ?_⟩, fun hlen qs e hq => sectionRight_iff hlen hcode hq⟩
  · by_cases h12 : data.length < 12
    · exact .inl h12
    · by_cases hsrc : t4.source = 53
      · refine .inr ⟨hsrc, fun ⟨qs, q, e, hq⟩ => ?_⟩
        obtain ⟨r, hr, -⟩ := h.record junk qs q e hq
        have hnone := requests_response data hsrc junk parser timeStamp
        rw [requests, hr] at hnone
        cases hnone
      · exact absurd h (not_queryRight h53 hsrc (Nat.not_lt.mp h12) hcode parser timeStamp)
  · rcases h with h12 | ⟨hsrc, hno⟩
    · exact queryRight_of_requests hcode (fun ⟨_, _, _, hq⟩ => absurd hq.header (by omega))
        fun junk => requests_short h12 junk parser timeStamp
    · exact queryRight_of_requests hcode hno fun junk => requests_response data hsrc junk parser timeStamp

def abcdef : List (List Byte) := [[0x61, 0x62, 0x63, 0x64, 0x65, 0x66]]

/-- Three queries for the address of `abcdef` in version 6: the third name is a pointer to the
first. Its offset leads the parser 12 bytes too far, to the second. -/
def threeQueries : List Byte :=
  [0, 7, 1, 0, 0, 3, 0, 0, 0, 0, 0, 0] ++ (wireName abcdef ++ [0, 28, 0, 1]) ++
    (wireName abcdef ++ [0, 28, 0, 1]) ++ [0xc0, 12, 0, 28, 0, 1]

theorem queryRight_three : (¬ QueryRight threeQueries ⟨0, 0, 0⟩ ⟨1000, 53, 0, 0⟩ 0) ∧
    SectionRight threeQueries (List.replicate 3 ⟨abcdef, 28, 1⟩) 42 := by
  have hname (p : Nat) (h : At threeQueries p (wireName abcdef)) :
      NameAt threeQueries p abcdef (p + 8) :=
    .label (List.cons_ne_nil _ _) (by decide) (At.append.mp h).1 (.root (At.append.mp h).2)
  have hfound (p : Nat) (h : At threeQueries p (wireName abcdef)) :
      Found threeQueries 12 p abcdef 7 :=
    .label (List.cons_ne_nil _ _) (by decide) (At.append.mp h).1 (.zero (At.append.mp h).2)
  have hq : HasQuestions threeQueries (List.replicate 3 ⟨abcdef, 28, 1⟩) 42 :=
    ⟨by decide, rfl, .cons (hname 12 ⟨_, rfl⟩) (by unfold NameFits; decide) ⟨_, rfl⟩
      (.cons (hname 24 ⟨_, rfl⟩) (by unfold NameFits; decide) ⟨_, rfl⟩
      (.cons (.pointer ⟨_, rfl⟩ rfl (by decide) (hname 12 ⟨_, rfl⟩)) (by unfold NameFits; decide)
        ⟨_, rfl⟩ (.nil 42)))⟩
  have hmeant : AsMeant threeQueries 12 (List.replicate 3 ⟨abcdef, 28, 1⟩) :=
    .cons (hname 12 ⟨_, rfl⟩).inPlace (hfound 12 ⟨_, rfl⟩) (by decide) rfl rfl rfl
      (.cons (hname 24 ⟨_, rfl⟩).inPlace (hfound 24 ⟨_, rfl⟩) (by decide) rfl rfl rfl
      (.cons (.pointer (by decide) rfl) (.pointer ⟨_, rfl⟩ rfl (hfound 24 ⟨_, rfl⟩)) (by decide)
        rfl rfl rfl (.nil 42)))
  have h53 : (⟨1000, 53, 0, 0⟩ : Tuple4).dest = 53 := rfl
  obtain ⟨hright, hsection⟩ := queryRight_iff threeQueries ⟨0, 0, 0⟩ 0 h53 (by decide)
  refine ⟨fun h => ?_, (hsection (by decide) _ _ hq).mpr ⟨by decide, hmeant⟩⟩
  rcases hright.mp h with h12 | ⟨hsrc, -⟩
  · exact absurd h12 (by decide)
  · exact absurd hsrc (by decide)

/-- Two queries for the address of `a` in version 6, of which the second points at the name of
the first. -/
def pointerQuery : List Byte :=
  [0, 7, 1, 0, 0, 2, 0, 0, 0, 0, 0, 0] ++ (wireName [[0x61]] ++ [0, 28, 0, 1]) ++
    [0xc0, 12, 0, 28, 0, 1]

/-- The parser finds no second name and gives up. Its record has the type 1, and the class that
the variable happened to hold. -/
theorem pointerQuery_not_right :
    HasQuestions pointerQuery (List.replicate 2 ⟨[[0x61]], 28, 1⟩) 25 ∧
    (parserQuestions pointerQuery 12 2 12 ⟨none, [], []⟩).value.1 = 0 ∧
    (∀ x, records pointerQuery { junk with request.qclass := x } ⟨0, 0, 0⟩ ⟨1000, 53, 0, 0⟩ 0 =
      some [.request ⟨0, 0, 0, [0x61], 1, x⟩]) ∧
    ¬ QueryRight pointerQuery ⟨0, 0, 0⟩ ⟨1000, 53, 0, 0⟩ 0 := by
  have hname : NameAt pointerQuery 12 [[0x61]] 15 :=
    .label (List.cons_ne_nil _ _) (by decide) ⟨_, rfl⟩ (.root ⟨_, rfl⟩)
  refine ⟨⟨by decide, rfl, ?_⟩, by decide, fun _ => rfl, ?_⟩
  · exact .cons hname (by unfold NameFits; decide) ⟨_, rfl⟩
      (.cons (.pointer ⟨_, rfl⟩ rfl (by decide) hname) (by unfold NameFits; decide) ⟨_, rfl⟩ (.nil 25))
  · exact not_queryRight rfl (by decide) (by decide) (by decide) ⟨0, 0, 0⟩ 0

end Noff.Dns
