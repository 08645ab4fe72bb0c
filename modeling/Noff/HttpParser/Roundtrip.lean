import Mathlib.Data.Nat.Digits.Lemmas
import Noff.HttpParser.Headers

/-!
# Messages, written and read back

`Wire` is a message as a sender writes it: with or without a body, whose length is given or
which comes in chunks with trailers behind them. A stream of such messages is accepted, however
it is cut into calls, and what is reported of it is what is reported of the messages
(`accepted_messages_written`).
-/

namespace Noff.HttpParser

open Http

variable {ty : HttpParserType} {s s' s₀ s₁ t : Members} {ch : Byte} {bs xs data : List Byte}
  {rs rs' p : List Http.Report} {m m' m₁ : Mark} {L n : Nat} {x y z : Members × Nat}

/-! ## Bytes that are read, with the count of header bytes -/

theorem tick_le : tick s n ch ≤ n + 1 := by
  rw [tick]
  split
  · exact Nat.zero_le _
  split <;> omega

theorem tick_reset (hr : s.state.readsOn = false) (h : .resetNread ∈ (switch s ch).1) :
    tick s n ch = 0 := by
  rw [tick, turn_of_not_readsOn hr, if_pos h]

/-- A byte that leaves no error was none. -/
theorem step_of_byte {cs : List (Call Members)}
    (h : (Scan.mk s m false).byte grammar ch = (⟨s₁, m₁, false⟩, cs)) :
    .error ∉ (step s ch).1 ∧ (step s ch).2 = s₁ := by
  rw [byte_eq rfl] at h
  have hscan := congrArg Prod.fst h
  refine ⟨fun he => ?_, ?_⟩
  · have hfail := failed_of_error (v := (Scan.mk s m false).enter grammar ch) he
    have hfailed : _ = false := congrArg Scan.failed hscan
    exact absurd (hfail.symm.trans hfailed) (by decide)
  · have hstate := congrArg Scan.state hscan
    exact (acts_state _ _).symm.trans hstate

/-- Bytes that a parser between two strings reads on, with at most `L` header bytes in a row. -/
structure Reads (L : Nat) (x : Members × Nat) (bs : List Byte) (rs : List Http.Report)
    (y : Members × Nat) : Prop where
  fits : Fits L x bs
  walk : walk x bs = y
  tells : Tells x.1 none bs rs y.1 none

theorem Reads.nil (x : Members × Nat) : Reads L x [] [] x := ⟨trivial, rfl, .nil _ _⟩

theorem Reads.append (h : Reads L x bs rs y) (h' : Reads L y xs rs' z) :
    Reads L x (bs ++ xs) (rs ++ rs') z where
  fits := fits_append.mpr ⟨h.fits, by rw [h.walk]; exact h'.fits⟩
  walk := by rw [walk_append, h.walk, h'.walk]
  tells := h.tells.append h'.tells

theorem Tells.fits (h : Tells s m bs rs s' m') (hn : n + bs.length ≤ L) :
    Fits L (s, n) bs ∧ ∃ k ≤ n + bs.length, walk (s, n) bs = (s', k) := by
  induction h generalizing n with
  | nil => exact ⟨trivial, n, Nat.le_refl n, rfl⟩
  | @cons s s₁ s' m m₁ m' ch bs rs cs hbyte hup hchar _ ih =>
    rw [List.length_cons] at hn ⊢
    obtain ⟨hne, hst⟩ := step_of_byte hbyte
    have htick : tick s n ch ≤ n + 1 := tick_le
    have hnext : next (s, n) ch = (s₁, tick s n ch) := by rw [next, hst]
    obtain ⟨hfits, k, hk, hwalk⟩ := ih (n := tick s n ch) (by omega)
    refine ⟨⟨⟨hne, hst ▸ hup, hchar, fun _ => by omega⟩, hnext ▸ hfits⟩, k, by omega, ?_⟩
    rw [walk_cons, hnext, hwalk]

theorem Tells.reads (h : Tells s none bs rs s' none) (hn : n + bs.length ≤ L) :
    ∃ k ≤ n + bs.length, Reads L (s, n) bs rs (s', k) := by
  obtain ⟨hfits, k, hk, hwalk⟩ := h.fits hn
  exact ⟨k, hk, hfits, hwalk, h⟩

/-- Bytes behind the last of which the count starts again. -/
theorem Tells.reads_reset (h : Tells s none bs rs t none) (h' : Tells t none [ch] rs' s' none)
    (htick : ∀ k, tick t k ch = 0) (hn : n + (bs ++ [ch]).length ≤ L) :
    Reads L (s, n) (bs ++ [ch]) (rs ++ rs') (s', 0) := by
  rw [List.length_append] at hn
  obtain ⟨k, hk, hreads⟩ := h.reads (n := n) (L := L) (by omega)
  have hlen : k + [ch].length ≤ L := by omega
  obtain ⟨hfits, k', -, hwalk⟩ := h'.fits hlen
  have hzero : walk (t, k) [ch] = (s', 0) := by
    have hstate := congrArg Prod.fst hwalk
    exact Prod.ext hstate (htick k)
  exact hreads.append ⟨hfits, hzero, h'⟩

theorem Reads.quiet (hstep : step s ch = ([], s₁)) (hup : s₁.upgrade = false)
    (hchar : s.state = .headerValue → isHeaderChar ch) (hcount : s.state.parsingHeader → n < L)
    (h : Reads L (s₁, tick s n ch) bs rs y) : Reads L (s, n) (ch :: bs) rs y := by
  have hnext : next (s, n) ch = (s₁, tick s n ch) := by rw [next, hstep]
  refine ⟨⟨⟨?_, ?_, hchar, hcount⟩, hnext ▸ h.fits⟩, ?_, .quiet hstep hup hchar h.tells⟩
  · rw [hstep]
    exact List.not_mem_nil
  · rw [hstep]
    exact hup
  · rw [walk_cons, hnext, h.walk]

/-! ## Bodies -/

theorem bodyOut_done (hz : s.contentLength = 0) (hup : s.upgrade = false) :
    bodyOut s = ([], (bodyOut s).2) ∧ (bodyOut s).2.upgrade = false := by
  rw [bodyOut, if_pos hz, if_pos hz]
  split
  · rw [messageDone, hup]
    exact ⟨rfl, rfl⟩
  · exact ⟨rfl, hup⟩

theorem read_all (h : s.contentLength.toNat = n) : (s.read n).contentLength = 0 := by
  by_contra hne
  have hpos := toNat_pos_iff.mpr hne
  rw [toNat_read h.ge, h] at hpos
  omega

/-- The bytes of a body or a chunk, as many as there should be. -/
theorem reads_body (hs : s.state = .bodyIdentity ∨ s.state = .chunkData) (hup : s.upgrade = false)
    (h : s.contentLength.toNat = bs.length) (hne : bs ≠ []) :
    Reads L (s, n) bs [] ((bodyOut (s.read bs.length)).2, n) := by
  induction bs generalizing s with
  | nil => exact absurd rfl hne
  | cons c bs ih =>
    rw [List.length_cons] at h ⊢
    have hz : s.contentLength ≠ 0 := toNat_pos_iff.mp (by omega)
    have htick : tick s n c = n := tick_body (by tauto)
    have hleft := toNat_read (s := s) (n := 1) (by omega)
    have hchar : s.state = .headerValue → isHeaderChar c := by
      rintro hv
      rcases hs with hs | hs <;> exact absurd (hs.symm.trans hv) (by decide)
    have hcount : s.state.parsingHeader → n < L := by
      intro hp
      rcases hs with hs | hs <;> rw [hs] at hp <;> cases hp
    cases bs with
    | nil =>
      obtain ⟨hout, hup'⟩ := bodyOut_done (read_all h) hup
      exact .quiet ((step_body hs hz).trans hout) hup' hchar hcount (htick.symm ▸ .nil _)
    | cons c' bs =>
      rw [List.length_cons] at h
      have hz' : (s.read 1).contentLength ≠ 0 := toNat_pos_iff.mp (by omega)
      have hstep : step s c = ([], s.read 1) := by
        rw [step_body hs hz, bodyOut, if_neg hz', if_neg hz', ite_self]
      have hrest := ih (s := s.read 1) hs hup (by rw [List.length_cons]; omega) (List.cons_ne_nil _ _)
      rw [Members.read_read, Nat.add_comm 1] at hrest
      exact .quiet hstep hup hchar hcount (htick.symm ▸ hrest)

/-! ## Chunks -/

/-- A digit in hexadecimals. -/
def hexDigit (d : Nat) : Byte := BitVec.ofNat 8 (if d < 10 then 0x30 + d else 0x57 + d)

theorem unhex_hexDigit : ∀ d < 16, unhex (hexDigit d) = some d ∧ hexDigit d ≠ CR := by decide +kernel

/-- The number in front of a chunk, which is not 0. -/
def hex (n : Nat) : List Byte := (Nat.digits 16 n).reverse.map hexDigit

/-- A number with the hexadecimal digits `ds` more. -/
def hexValue (n : Nat) (ds : List Nat) : Nat := ds.foldl (fun n d => n * 16 + d) n

theorem hexValue_cons (d : Nat) (ds : List Nat) : hexValue n (d :: ds) = hexValue (n * 16 + d) ds :=
  List.foldl_cons ..

theorem le_hexValue (n : Nat) (ds : List Nat) : n ≤ hexValue n ds := by
  induction ds generalizing n with
  | nil => exact Nat.le_refl n
  | cons d ds ih =>
    rw [hexValue_cons]
    exact Nat.le_trans (by omega) (ih (n * 16 + d))

theorem hexValue_digits (n : Nat) : hexValue 0 (Nat.digits 16 n).reverse = n := by
  rw [hexValue, List.foldl_reverse]
  refine Eq.trans ?_ (Nat.ofDigits_digits 16 n)
  rw [Nat.ofDigits_eq_foldr]
  refine congrArg (fun f => List.foldr f 0 _) ?_
  funext d n
  rw [Nat.mul_comm, Nat.add_comm]
  rfl

theorem length_hex_le (h : n < 2 ^ 64) : (hex n).length ≤ 16 := by
  rw [hex, List.length_map, List.length_reverse]
  exact (Nat.digits_length_le_iff (by decide) n).mpr (h.trans_le (by decide))

/-- A byte whose effects the callbacks do not see. -/
theorem Tells.still {es : List Effect} (hr : s.state.readsOn = false)
    (hs : HttpParser.switch s ch = (es, s₁)) (hes : actions es = []) (hup : s₁.upgrade = false)
    (h : Tells s₁ (m.push [ch]) bs rs s' m') :
    Tells s m (ch :: bs) rs s' m' := by
  have h₁ := Tells.switch (m := m) hr hs hup (by rw [hes]; rfl)
  exact h₁.append h

theorem tells_chunkSize (hup : s.upgrade = false) {k : Nat} {ds : List Nat} (hlt : ∀ d ∈ ds, d < 16)
    (h : hexValue k ds < 2 ^ 64 - 16) :
    Tells { s with state := .chunkSize, contentLength := BitVec.ofNat 64 k } none (ds.map hexDigit) []
      { s with state := .chunkSize, contentLength := BitVec.ofNat 64 (hexValue k ds) } none := by
  induction ds generalizing k with
  | nil => exact .nil _ _
  | cons d ds ih =>
    obtain ⟨hhex, hcr⟩ := unhex_hexDigit d (hlt d (List.mem_cons_self ..))
    have hle := le_hexValue (k * 16 + d) ds
    rw [hexValue_cons] at h ⊢
    have hadd : addLength 16 (BitVec.ofNat 64 k) d = some (BitVec.ofNat 64 (k * 16 + d)) :=
      addLength_ofNat (b := 16) (by decide) (by omega)
    have hsw : switch { s with state := .chunkSize, contentLength := BitVec.ofNat 64 k } (hexDigit d) =
        ([.assert s.flags.chunked],
          { s with state := .chunkSize, contentLength := BitVec.ofNat 64 (k * 16 + d) }) := by
      show chunkSize _ _ = _
      rw [chunkSize, if_neg hcr, hhex]
      dsimp only
      rw [hadd]
      rfl
    exact .still rfl hsw rfl hup (ih (fun d hd => hlt d (List.mem_cons_of_mem _ hd)) h)

/-- The line in front of a chunk, without its LF. -/
theorem tells_sizeLine (hs : s.state = .chunkSizeStart) (hup : s.upgrade = false) {l : List Nat}
    (hne : l ≠ []) (hlt : ∀ d ∈ l, d < 16) (h : hexValue 0 l < 2 ^ 64 - 16) :
    Tells s none (l.map hexDigit ++ [CR]) [] { s with
      state := .chunkSizeAlmostDone, contentLength := BitVec.ofNat 64 (hexValue 0 l) } none := by
  cases l with
  | nil => exact absurd rfl hne
  | cons d ds =>
    have hhex := (unhex_hexDigit d (hlt d (List.mem_cons_self ..))).1
    rw [hexValue_cons, Nat.zero_mul, Nat.zero_add] at h ⊢
    have hsw : switch s (hexDigit d) = ([.assertNread, .assert s.flags.chunked],
        { s with state := .chunkSize, contentLength := BitVec.ofNat 64 d }) := by
      rw [switch, hs]
      dsimp only
      rw [chunkSizeStart, hhex]
      rfl
    have h₁ := tells_chunkSize (s := s) hup (fun d hd => hlt d (List.mem_cons_of_mem _ hd)) h
    have h₂ : Tells { s with state := .chunkSize, contentLength := BitVec.ofNat 64 (hexValue d ds) }
        none [CR] [] { s with
          state := .chunkSizeAlmostDone, contentLength := BitVec.ofNat 64 (hexValue d ds) } none :=
      .still rfl rfl rfl hup (.nil _ _)
    exact .still (by rw [hs]; rfl) hsw rfl hup (h₁.append h₂)

/-- A chunk. -/
def chunk (data : List Byte) : List Byte := hex data.length ++ CR :: LF :: (data ++ [CR, LF])

/-- The line in front of a chunk. -/
theorem reads_sizeLine (hs : s.state = .chunkSizeStart) (hup : s.upgrade = false) (hn : 0 < n)
    (hlen : n < 2 ^ 64 - 16) (hL : 18 ≤ L) : Reads L (s, 0) (hex n ++ [CR, LF]) []
      ({ s with state := .chunkData, contentLength := BitVec.ofNat 64 n }, 0) := by
  have hvalue := hexValue_digits n
  have h₁ := tells_sizeLine (l := (Nat.digits 16 n).reverse) hs hup
    (fun he => Nat.digits_ne_nil_iff_ne_zero.mpr (by omega) (List.reverse_eq_nil_iff.mp he))
    (fun d hd => Nat.digits_lt_base (by decide) (List.mem_reverse.mp hd)) (by rwa [hvalue])
  rw [hvalue] at h₁
  have hne : BitVec.ofNat 64 n ≠ 0 := by
    refine toNat_pos_iff.mp ?_
    rwa [BitVec.toNat_ofNat, Nat.mod_eq_of_lt (by omega)]
  let a : Members := { s with state := .chunkSizeAlmostDone, contentLength := BitVec.ofNat 64 n }
  let b : Members := { s with state := .chunkData, contentLength := BitVec.ofNat 64 n }
  have hsw : switch a LF = ([.assert s.flags.chunked, .resetNread], b) := by
    show Effect.then _ (ite _ _ (Effect.then _ (if BitVec.ofNat 64 n = 0 then _ else _))) = _
    rw [if_neg (by decide), if_neg hne]
    rfl
  have h₂ : Tells a none [LF] [] b none := .still rfl hsw rfl hup (.nil _ _)
  have hreset (k : Nat) : tick a k LF = 0 := tick_reset rfl (by rw [hsw]; simp)
  have hline := h₁.reads_reset (n := 0) (L := L) h₂ hreset (by
    have hlong := length_hex_le (n := n) (by omega)
    rw [hex] at hlong
    simp only [List.length_append, List.length_cons, List.length_nil]
    omega)
  rw [List.append_assoc] at hline
  exact hline

/-- The end of the line behind a chunk. -/
theorem reads_chunkEnd (hs : s.state = .chunkDataAlmostDone) (hup : s.upgrade = false)
    (hL : 2 ≤ L) : Reads L (s, 0) [CR, LF] [] ({ s with state := .chunkSizeStart }, 0) := by
  let a : Members := { s with state := .chunkDataDone }
  have hsw : switch s CR =
      ([.assert s.flags.chunked, .assert (s.contentLength = 0), .dataBody], a) := by
    rw [switch, hs]
    rfl
  have h₁ : Tells s none [CR] [] a none := .still (by rw [hs]; rfl) hsw rfl hup (.nil _ _)
  have hsw' : switch a LF =
      ([.assert s.flags.chunked, .resetNread], { s with state := .chunkSizeStart }) := rfl
  have h₂ : Tells a none [LF] [] { s with state := .chunkSizeStart } none :=
    .still rfl hsw' rfl hup (.nil _ _)
  have hreset (k : Nat) : tick a k LF = 0 := tick_reset rfl (by rw [hsw']; simp)
  exact h₁.reads_reset (n := 0) (L := L) h₂ hreset hL

theorem reads_chunk (hs : s.state = .chunkSizeStart) (hup : s.upgrade = false) (hne : data ≠ [])
    (hlen : data.length < 2 ^ 64 - 16) (hL : 18 ≤ L) : ∃ s', s'.state = .chunkSizeStart ∧
      s'.core = { s with contentLength := 0 }.core ∧ Reads L (s, 0) (chunk data) [] (s', 0) := by
  have hline := reads_sizeLine hs hup (List.length_pos_iff.mpr hne) hlen hL
  let b : Members := { s with state := .chunkData, contentLength := BitVec.ofNat 64 data.length }
  have hl : b.contentLength.toNat = data.length := by
    show (BitVec.ofNat 64 data.length).toNat = _
    rw [BitVec.toNat_ofNat, Nat.mod_eq_of_lt (by omega)]
  have hbody : Reads L (b, 0) data [] ((bodyOut (b.read data.length)).2, 0) :=
    reads_body (.inr rfl) hup hl hne
  let c : Members := { s with state := .chunkDataAlmostDone, contentLength := 0 }
  have hc : (bodyOut (b.read data.length)).2 = c := by
    have hzero := read_all hl
    have hst : (b.read data.length).state ≠ .bodyIdentity :=
      show State.chunkData ≠ .bodyIdentity by decide
    rw [bodyOut, if_neg hst, if_pos hzero]
    show { b.read data.length with state := .chunkDataAlmostDone } = c
    rw [Members.read] at hzero ⊢
    dsimp only at hzero
    rw [hzero]
  have hend : Reads L (c, 0) [CR, LF] [] _ := reads_chunkEnd rfl hup (by omega)
  have hall := hline.append ((hc ▸ hbody).append hend)
  rw [List.append_assoc] at hall
  exact ⟨{ c with state := .chunkSizeStart }, rfl, rfl, hall⟩

theorem reads_chunks {cs : List (List Byte)} (hs : s.state = .chunkSizeStart)
    (hup : s.upgrade = false) (hcs : ∀ c ∈ cs, c ≠ [] ∧ c.length < 2 ^ 64 - 16) (hL : 18 ≤ L) :
    ∃ s', s'.state = .chunkSizeStart ∧
      { s' with contentLength := 0 }.core = { s with contentLength := 0 }.core ∧
      Reads L (s, 0) (cs.flatMap chunk) [] (s', 0) := by
  induction cs generalizing s with
  | nil => exact ⟨s, hs, rfl, .nil _⟩
  | cons c cs ih =>
    obtain ⟨hne, hlen⟩ := hcs c (List.mem_cons_self ..)
    obtain ⟨s₁, hs₁, hc₁, h₁⟩ := reads_chunk hs hup hne hlen hL
    have hup₁ : s₁.upgrade = false := (congrArg Members.upgrade hc₁).trans hup
    obtain ⟨s', hs', hc', h'⟩ := ih hs₁ hup₁ fun c hc => hcs c (List.mem_cons_of_mem _ hc)
    refine ⟨s', hs', hc'.trans ?_, h₁.append h'⟩
    exact congrArg (fun s => { s with contentLength := 0 }.core) hc₁

/-! ## Messages -/

inductive Body where
  | none
  /-- A body with its length in front. -/
  | sized (data : List Byte)
  | chunked (chunks : List (List Byte)) (trailers : List (List Byte × List Byte))

/-- A message that is written. A request has no status, and a response no method and no URL. -/
structure Wire where
  method : HttpMethod
  url : List Byte
  statusCode : Nat
  reason : List Byte
  /-- The headers in front of the one that frames the body, and those behind it. -/
  before : List (List Byte × List Byte)
  after : List (List Byte × List Byte)
  body : Body

namespace Body

/-- The header that frames a body. -/
def framing : Body → List (List Byte × List Byte)
  | .none => []
  | .sized data => [(text "Content-Length", decimal data.length)]
  | .chunked _ _ => [(text "Transfer-Encoding", text "chunked")]

def trailers : Body → List (List Byte × List Byte)
  | .chunked _ trailers => trailers
  | _ => []

def bytes : Body → List Byte
  | .none => []
  | .sized data => data
  | .chunked chunks trailers =>
    chunks.flatMap chunk ++ (text "0\r\n" ++ (trailers.flatMap headerLine ++ text "\r\n"))

/-- The header bytes behind a body. They count for the message that comes next. -/
def tailLength : Body → Nat
  | .chunked _ trailers => (trailers.flatMap headerLine).length + 2
  | _ => 0

/-- The lengths can be read, and no chunk but the last is empty. -/
def Ok : Body → Prop
  | .none => True
  | .sized data => data.length < 2 ^ 64 - 6
  | .chunked chunks trailers => (∀ c ∈ chunks, c ≠ [] ∧ c.length < 2 ^ 64 - 16) ∧
    ∀ h ∈ trailers, PlainName h.1 ∧ PlainValue h.2

instance : ∀ b : Body, Decidable b.Ok
  | .none => .isTrue trivial
  | .sized data => inferInstanceAs (Decidable (data.length < 2 ^ 64 - 6))
  | .chunked chunks trailers =>
    inferInstanceAs (Decidable ((∀ c ∈ chunks, c ≠ [] ∧ c.length < 2 ^ 64 - 16) ∧
      ∀ h ∈ trailers, PlainName h.1 ∧ PlainValue h.2))

/-- The members behind the header that frames the body. -/
def frame (s : Members) : Body → Members
  | .none => s
  | .sized data => { s with
      flags.contentlength := true, contentLength := BitVec.ofNat 64 data.length }
  | .chunked _ _ => { s with flags.chunked := true }

end Body

namespace Wire

def startLine (ty : HttpParserType) (w : Wire) : List Byte :=
  match ty with
  | .request => w.method.string ++ 0x20 :: (w.url ++ 0x20 :: text "HTTP/1.1\r\n")
  | .response => text "HTTP/1.1 " ++ (decimal w.statusCode ++ 0x20 :: (w.reason ++ [CR, LF]))

def headers (w : Wire) : List (List Byte × List Byte) := w.before ++ (w.body.framing ++ w.after)

/-- The start line and the headers. -/
def head (ty : HttpParserType) (w : Wire) : List Byte :=
  w.startLine ty ++ (w.headers.flatMap headerLine ++ text "\r\n")

def bytes (ty : HttpParserType) (w : Wire) : List Byte := w.head ty ++ w.body.bytes

/-- The method of a message. That of a response is the one with the number 0. -/
def methodOf (ty : HttpParserType) (w : Wire) : HttpMethod :=
  match ty with
  | .request => w.method
  | .response => .delete

/-- What is reported of a message. -/
def message (ty : HttpParserType) (w : Wire) : Message where
  method := (w.methodOf ty).string
  url := w.url
  statusCode := w.statusCode
  reason := w.reason
  headers := w.headers
  trailers := w.body.trailers

/-- The statuses that no body comes with. -/
def bodiless (code : Nat) : Bool := code / 100 = 1 || code = 204 || code = 304

/-- A start line that can be read back. A method `CONNECT` asks for an upgrade, and a response
without a length has a body up to the end of the stream, unless its status excludes one. -/
def OkStart (ty : HttpParserType) (w : Wire) : Prop :=
  match ty with
  | .request => w.method ≠ .connect ∧ (urlState .reqSpacesBeforeUrl w.url).urlEnd
  | .response => w.statusCode ≤ 999 ∧ (∀ c ∈ w.reason, c ≠ CR ∧ c ≠ LF) ∧
    (w.body.framing = [] → bodiless w.statusCode)

instance : ∀ (ty : HttpParserType) (w : Wire), Decidable (w.OkStart ty)
  | .request, w => inferInstanceAs
    (Decidable (w.method ≠ .connect ∧ (urlState .reqSpacesBeforeUrl w.url).urlEnd))
  | .response, w => inferInstanceAs
    (Decidable (w.statusCode ≤ 999 ∧ (∀ c ∈ w.reason, c ≠ CR ∧ c ≠ LF) ∧
      (w.body.framing = [] → bodiless w.statusCode)))

/-- A message that can be read back. Its other headers are not those that the code looks at. -/
structure Ok (ty : HttpParserType) (w : Wire) : Prop where
  start : w.OkStart ty
  before : ∀ h ∈ w.before, PlainName h.1 ∧ PlainValue h.2
  after : ∀ h ∈ w.after, PlainName h.1 ∧ PlainValue h.2
  body : w.body.Ok

instance (ty : HttpParserType) (w : Wire) : Decidable (w.Ok ty) :=
  decidable_of_iff (w.OkStart ty ∧ (∀ h ∈ w.before, PlainName h.1 ∧ PlainValue h.2) ∧
    (∀ h ∈ w.after, PlainName h.1 ∧ PlainValue h.2) ∧ w.body.Ok)
    ⟨fun h => ⟨h.1, h.2.1, h.2.2.1, h.2.2.2⟩, fun h => ⟨h.start, h.before, h.after, h.body⟩⟩

end Wire

/-! ### Heads -/

variable {w : Wire}

/-- The members between two messages. -/
structure Ready (ty : HttpParserType) (s : Members) : Prop where
  state : s.state = startState ty
  type : s.type = ty
  upgrade : s.upgrade = false
  method : ty = .response → s.method = .delete

/-- The members behind the start line of a message. -/
structure Started (ty : HttpParserType) (w : Wire) (s : Members) : Prop where
  type : s.type = ty
  upgrade : s.upgrade = false
  flags : s.flags = .none
  contentLength : s.contentLength = ullongMax
  version : s.httpMajor = 1 ∧ s.httpMinor = 1
  method : s.method = w.methodOf ty
  statusCode : ty = .response → s.statusCode = w.statusCode

theorem tells_startLine (hr : Ready ty s) (hw : w.OkStart ty) : ∃ s', s'.state = .headerFieldStart ∧
    Started ty w s' ∧ Tells s none (w.startLine ty) ((w.message ty).firstLine ty) s' none := by
  obtain ⟨hs, ht, hup, hm⟩ := hr
  cases ty with
  | request =>
    obtain ⟨hc, hurl⟩ := hw
    have htells := tells_requestLine hs hup hc hurl
    refine ⟨_, ?_, ?_, htells⟩
    · rfl
    · exact ⟨ht, hup, rfl, rfl, ⟨rfl, rfl⟩, rfl, fun h => by cases h⟩
  | response =>
    obtain ⟨hcode, hreason, -⟩ := hw
    obtain ⟨s', hs', he, htells⟩ := tells_statusLine hs hup hcode hreason
    exact ⟨s', hs', ⟨(congrArg Members.type he).trans ht, (congrArg Members.upgrade he).trans hup,
      congrArg Members.flags he, congrArg Members.contentLength he,
      ⟨congrArg Members.httpMajor he, congrArg Members.httpMinor he⟩,
      (congrArg Members.method he).trans (hm rfl), fun _ => congrArg Members.statusCode he⟩, htells⟩

theorem Started.of_core (h : Started ty w s) (hc : s'.core = s.core) : Started ty w s' where
  type := (congrArg Members.type hc).trans h.type
  upgrade := (congrArg Members.upgrade hc).trans h.upgrade
  flags := (congrArg Members.flags hc).trans h.flags
  contentLength := (congrArg Members.contentLength hc).trans h.contentLength
  version := ⟨(congrArg Members.httpMajor hc).trans h.version.1,
    (congrArg Members.httpMinor hc).trans h.version.2⟩
  method := (congrArg Members.method hc).trans h.method
  statusCode := fun ht => (congrArg Members.statusCode hc).trans (h.statusCode ht)

theorem frame_core (b : Body) (h : s'.core = s.core) : (b.frame s').core = (b.frame s).core := by
  have hcore (s : Members) : (b.frame s).core = (b.frame s.core).core := by cases b <;> rfl
  rw [hcore s', h, ← hcore s]

/-- The header that frames the body. -/
theorem tells_framing (h : LineStart s p s₀) (hs : Started ty w s₀) (hb : w.body.Ok) :
    ∃ rs s' p' s₀', Tells s none (w.body.framing.flatMap headerLine) rs s' none ∧ LineStart s' p' s₀' ∧
      s₀'.core = (w.body.frame s₀).core ∧ rs ++ p' = p ++ headerReports w.body.framing := by
  have hup : s.upgrade = false := h.upgrade.trans hs.upgrade
  cases hbody : w.body with
  | none => exact ⟨[], s, p, s₀, .nil _ _, h, rfl, (List.append_nil p).symm⟩
  | sized data =>
    rw [hbody] at hb
    obtain ⟨rs, s', p', s₀', ht, hl, hc, hr⟩ :=
      tells_contentLength h hup (by rw [hs.flags]; rfl) hb
    refine ⟨rs, s', p', s₀', ?_, hl, hc, hr⟩
    rwa [Body.framing, List.flatMap_singleton]
  | chunked chunks trailers =>
    obtain ⟨rs, s', p', s₀', ht, hl, hc, hr⟩ := tells_chunked h hup
    refine ⟨rs, s', p', s₀', ?_, hl, hc, hr⟩
    rwa [Body.framing, List.flatMap_singleton]

/-- The start line and the headers, without the line that is empty. -/
theorem tells_headerSection (hr : Ready ty s) (hw : w.Ok ty) : ∃ t rs s' p s₀, Started ty w t ∧
    Tells s none (w.startLine ty ++ w.headers.flatMap headerLine) rs s' none ∧ LineStart s' p s₀ ∧
    s₀.core = (w.body.frame t).core ∧
    rs ++ p = (w.message ty).firstLine ty ++ headerReports w.headers := by
  obtain ⟨t, hs, ht, htells⟩ := tells_startLine hr hw.start
  obtain ⟨rs₁, s₁, p₁, t₁, h₁, hl₁, hc₁, hr₁⟩ := tells_headers (.first hs) ht.upgrade hw.before
  have ht₁ := ht.of_core hc₁
  obtain ⟨rs₂, s₂, p₂, t₂, h₂, hl₂, hc₂, hr₂⟩ := tells_framing hl₁ ht₁ hw.body
  have hup₂ : s₂.upgrade = false := by
    have hframe : (w.body.frame t₁).upgrade = t₁.upgrade := by cases w.body <;> rfl
    exact hl₂.upgrade.trans ((congrArg Members.upgrade hc₂).trans (hframe.trans ht₁.upgrade))
  obtain ⟨rs₃, s₃, p₃, t₃, h₃, hl₃, hc₃, hr₃⟩ := tells_headers hl₂ hup₂ hw.after
  refine ⟨t, (w.message ty).firstLine ty ++ (rs₁ ++ (rs₂ ++ rs₃)), s₃, p₃, t₃, ht, ?_, hl₃,
    hc₃.trans (hc₂.trans (frame_core _ hc₁)), ?_⟩
  · rw [Wire.headers, List.flatMap_append, List.flatMap_append]
    exact htells.append (h₁.append (h₂.append h₃))
  · rw [Wire.headers, headerReports, List.flatMap_append, List.flatMap_append]
    change _ = _ ++ (headerReports w.before ++ (headerReports w.body.framing ++ headerReports w.after))
    rw [List.append_assoc, List.append_assoc, List.append_assoc, hr₃, ← List.append_assoc rs₂, hr₂,
      List.append_assoc, ← List.append_assoc rs₁, hr₁]
    rfl

/-! ### The end of the headers -/

theorem needsEof_of_framed (h : (s.flags.chunked || s.contentLength ≠ ullongMax) = true) :
    httpMessageNeedsEof s = false := by
  rw [httpMessageNeedsEof, if_pos h, ite_self, ite_self]

/-- A message that is kept alive is followed by another. -/
theorem newMessage_eq (hv : s.httpMajor = 1 ∧ s.httpMinor = 1) (hc : s.flags.connectionClose = false)
    (he : httpMessageNeedsEof s = false) : newMessage s = startState s.type := by
  rw [newMessage, httpShouldKeepAlive, hv.1, hv.2, hc, he]
  rfl

/-- The state behind the headers. -/
def bodyState (s : Members) : State :=
  if s.flags.chunked then .chunkSizeStart
  else if s.contentLength = 0 then newMessage s
  else if s.contentLength ≠ ullongMax then .bodyIdentity
  else if !httpMessageNeedsEof s then newMessage s
  else .bodyIdentityEof

theorem switch_headEnd (hs : s.state = .headersAlmostDone) (hup : s.upgrade = false)
    (ht : s.flags.trailing = false) (hcc : (s.flags.chunked && s.flags.contentlength) = false)
    (hfu : s.flags.upgrade = false) (hskip : s.flags.skipbody = false) (hm : s.method ≠ .connect) :
    switch s LF = ([.headersComplete { s with state := .headersDone }, .resetNread],
      { s with state := bodyState s }) := by
  have hu : (s.flags.upgrade && s.flags.connectionUpgrade || decide (s.method = .connect)) =
      s.upgrade := by
    rw [hfu, hup, decide_eq_false hm]
    rfl
  rw [switch, hs]
  dsimp only
  rw [headersAlmostDone, if_neg (by decide), ht, if_neg (by decide), hcc, if_neg (by decide)]
  dsimp only
  rw [hu, headersDone, if_neg (by decide)]
  dsimp only
  rw [hup, Bool.false_and, if_neg (by decide), hskip, if_neg (by decide)]
  rfl

/-- Where a body is read. -/
def Body.next (ty : HttpParserType) : Body → State
  | .none => startState ty
  | .sized data => if data = [] then startState ty else .bodyIdentity
  | .chunked _ _ => .chunkSizeStart

/-- What the members are behind the headers of a message. -/
structure Framed (ty : HttpParserType) (w : Wire) (s : Members) : Prop where
  type : s.type = ty
  upgrade : s.upgrade = false
  flags : s.flags = (w.body.frame (.init ty)).flags
  version : s.httpMajor = 1 ∧ s.httpMinor = 1
  method : s.method = w.methodOf ty
  statusCode : ty = .response → s.statusCode = w.statusCode
  contentLength : s.contentLength =
    (w.body.frame { Members.init ty with contentLength := ullongMax }).contentLength

theorem Started.framed (h : Started ty w t) (hc : s.core = (w.body.frame t).core) : Framed ty w s := by
  have htype := congrArg Members.type hc
  have hup := congrArg Members.upgrade hc
  have hflags := congrArg Members.flags hc
  have hmajor := congrArg Members.httpMajor hc
  have hminor := congrArg Members.httpMinor hc
  have hmethod := congrArg Members.method hc
  have hcode := congrArg Members.statusCode hc
  have hlen := congrArg Members.contentLength hc
  cases hb : w.body with
  | none =>
    rw [hb] at htype hup hflags hmajor hminor hmethod hcode hlen
    exact ⟨htype.trans h.type, hup.trans h.upgrade, hb ▸ hflags.trans h.flags,
      ⟨hmajor.trans h.version.1, hminor.trans h.version.2⟩, hmethod.trans h.method,
      fun ht => hcode.trans (h.statusCode ht), hb ▸ hlen.trans h.contentLength⟩
  | sized data =>
    rw [hb] at htype hup hflags hmajor hminor hmethod hcode hlen
    refine ⟨htype.trans h.type, hup.trans h.upgrade, ?_,
      ⟨hmajor.trans h.version.1, hminor.trans h.version.2⟩, hmethod.trans h.method,
      fun ht => hcode.trans (h.statusCode ht), hb ▸ hlen⟩
    rw [hb]
    exact hflags.trans (congrArg (fun f => { f with contentlength := true }) h.flags)
  | chunked chunks trailers =>
    rw [hb] at htype hup hflags hmajor hminor hmethod hcode hlen
    refine ⟨htype.trans h.type, hup.trans h.upgrade, ?_,
      ⟨hmajor.trans h.version.1, hminor.trans h.version.2⟩, hmethod.trans h.method,
      fun ht => hcode.trans (h.statusCode ht), hb ▸ hlen.trans h.contentLength⟩
    rw [hb]
    exact hflags.trans (congrArg (fun f => { f with chunked := true }) h.flags)

/-- The flags that no header of such a message sets. -/
theorem Framed.flags_eq (h : Framed ty w s) : s.flags.connectionClose = false ∧
    s.flags.trailing = false ∧ (s.flags.chunked && s.flags.contentlength) = false ∧
    s.flags.upgrade = false ∧ s.flags.skipbody = false := by
  rw [h.flags]
  cases w.body <;> exact ⟨rfl, rfl, rfl, rfl, rfl⟩

theorem length_of_sized (hw : w.Ok ty) (hb : w.body = .sized data) (h : Framed ty w s) :
    s.contentLength = BitVec.ofNat 64 data.length ∧ s.contentLength.toNat = data.length ∧
      s.contentLength ≠ ullongMax := by
  have hok := hw.body
  have hlen := h.contentLength
  rw [hb] at hok hlen
  have hlt : data.length < 2 ^ 64 - 6 := hok
  have hnat : (BitVec.ofNat 64 data.length).toNat = data.length := by
    rw [BitVec.toNat_ofNat, Nat.mod_eq_of_lt (by omega)]
  refine ⟨hlen, (congrArg BitVec.toNat hlen).trans hnat, fun he => ?_⟩
  have hmax : data.length = 2 ^ 64 - 1 := hnat.symm.trans (congrArg BitVec.toNat (hlen.symm.trans he))
  omega

theorem Framed.needsEof (h : Framed ty w s) (hw : w.Ok ty) : httpMessageNeedsEof s = false := by
  have hflags := h.flags
  cases hb : w.body with
  | none =>
    cases ty with
    | request => exact if_pos h.type
    | response =>
      have hcode := hw.start.2.2 (by rw [hb]; rfl)
      rw [← h.statusCode rfl, Wire.bodiless] at hcode
      rw [httpMessageNeedsEof, h.type, if_neg (by decide), hcode]
      rfl
  | sized data =>
    have hne := (length_of_sized hw hb h).2.2
    exact needsEof_of_framed (by rw [decide_eq_true hne, Bool.or_true])
  | chunked chunks trailers =>
    rw [hb] at hflags
    exact needsEof_of_framed (by rw [hflags]; rfl)

theorem Framed.newMessage (h : Framed ty w s) (hw : w.Ok ty) : newMessage s = startState ty := by
  rw [newMessage_eq h.version h.flags_eq.1 (h.needsEof hw), h.type]

theorem Framed.bodyState (h : Framed ty w s) (hw : w.Ok ty) : bodyState s = w.body.next ty := by
  have hflags := h.flags
  have hlen := h.contentLength
  cases hb : w.body with
  | none =>
    rw [hb] at hflags hlen
    rw [HttpParser.bodyState, hflags, hlen, h.needsEof hw]
    exact h.newMessage hw
  | sized data =>
    obtain ⟨-, hnat, hmax⟩ := length_of_sized hw hb h
    rw [hb] at hflags
    have hzero : s.contentLength = 0 ↔ data = [] := by
      rw [← List.length_eq_zero_iff, ← hnat]
      exact ⟨fun he => by rw [he]; rfl, fun he => BitVec.eq_of_toNat_eq he⟩
    rw [HttpParser.bodyState, hflags, Body.next, h.newMessage hw, if_pos hmax]
    exact (if_neg (show ¬ false = true by decide)).trans (by simp only [hzero])
  | chunked chunks trailers =>
    rw [hb] at hflags
    rw [HttpParser.bodyState, hflags]
    rfl

theorem Framed.of_core (h : Framed ty w s) (hc : s'.core = s.core) : Framed ty w s' where
  type := (congrArg Members.type hc).trans h.type
  upgrade := (congrArg Members.upgrade hc).trans h.upgrade
  flags := (congrArg Members.flags hc).trans h.flags
  version := ⟨(congrArg Members.httpMajor hc).trans h.version.1,
    (congrArg Members.httpMinor hc).trans h.version.2⟩
  method := (congrArg Members.method hc).trans h.method
  statusCode := fun ht => (congrArg Members.statusCode hc).trans (h.statusCode ht)
  contentLength := (congrArg Members.contentLength hc).trans h.contentLength

/-- The methods of the messages do not ask for an upgrade. -/
theorem methodOf_ne (hw : w.OkStart ty) : w.methodOf ty ≠ .connect := by
  cases ty with
  | request => exact hw.1
  | response => exact fun h => by cases h

/-- Where a message is over: `s` is ready for the next, but for the method of a response. -/
theorem Framed.ready (h : Framed ty w s) (hs : s.state = startState ty) : Ready ty s :=
  ⟨hs, h.type, h.upgrade, fun ht => h.method.trans (by rw [ht]; rfl)⟩

/-- The start line, the headers, and the line that is empty. -/
theorem reads_head (hr : Ready ty s) (hw : w.Ok ty) (hL : n + (w.head ty).length ≤ L) :
    ∃ s', Framed ty w s' ∧ s'.state = w.body.next ty ∧ Reads L (s, n) (w.head ty)
      ((w.message ty).firstLine ty ++ (headerReports w.headers ++
        [.headersComplete (w.methodOf ty).string])) (s', 0) := by
  obtain ⟨t, rs, s₁, p, s₀, ht, h₁, hl, hc, hrs⟩ := tells_headerSection hr hw
  have hf₀ := ht.framed hc
  have hup : s₁.upgrade = false := hl.upgrade.trans hf₀.upgrade
  have hcrlf : text "\r\n" = [CR] ++ [LF] := by decide +kernel
  let a : Members := { s₀ with state := .headersAlmostDone }
  have hf : Framed ty w a := hf₀.of_core rfl
  obtain ⟨-, htr, hcc, hfu, hskip⟩ := hf.flags_eq
  have hm : a.method ≠ .connect := hf.method ▸ methodOf_ne hw.start
  have hsw := switch_headEnd rfl hf.upgrade htr hcc hfu hskip hm
  have h₂ : Tells s₁ none [CR] (p ++ []) a none :=
    hl.tells (by decide) (by decide) (e := []) rfl hf.upgrade rfl
  have h₃ : Tells a none [LF] [.headersComplete a.method.string] { a with state := bodyState a } none :=
    .switch rfl hsw hf.upgrade rfl
  have hreset (k : Nat) : tick a k LF = 0 := tick_reset rfl (by rw [hsw]; simp)
  have hlen : w.startLine ty ++ w.headers.flatMap headerLine ++ [CR] ++ [LF] = w.head ty := by
    rw [Wire.head, hcrlf, List.append_assoc, List.append_assoc]
  have hreads := (h₁.append h₂).reads_reset (n := n) (L := L) h₃ hreset (by rw [hlen]; exact hL)
  have hreport : [Http.Report.headersComplete a.method.string] =
      [.headersComplete (w.methodOf ty).string] := by rw [hf.method]
  rw [hlen, List.append_nil, hrs, hreport, List.append_assoc] at hreads
  exact ⟨{ a with state := HttpParser.bodyState a }, hf.of_core rfl, hf.bodyState hw, hreads⟩

/-! ### What comes behind the headers -/

/-- The end of a body whose length is given. -/
theorem reads_sized (hf : Framed ty w s) (hw : w.Ok ty) (hb : w.body = .sized data) (hne : data ≠ [])
    (hs : s.state = .bodyIdentity) : ∃ s', Ready ty s' ∧ Reads L (s, n) data [] (s', n) := by
  obtain ⟨-, hnat, -⟩ := length_of_sized hw hb hf
  have hreads : Reads L (s, n) data [] _ := reads_body (.inl hs) hf.upgrade hnat hne
  have hread : (s.read data.length).state = .bodyIdentity := hs
  have hzero := read_all hnat
  let d : Members := { s.read data.length with state := .messageDone }
  have hlen : d.contentLength = 0 := hzero
  have heof : httpMessageNeedsEof d = false := needsEof_of_framed (by
    rw [hlen, decide_eq_true (by decide : (0 : BitVec 64) ≠ ullongMax), Bool.or_true])
  have hnew : newMessage d = startState ty :=
    (newMessage_eq (s := d) hf.version hf.flags_eq.1 heof).trans (congrArg startState hf.type)
  refine ⟨_, ?_, hreads⟩
  rw [bodyOut, if_pos hread, if_pos hzero]
  exact ⟨hnew, hf.type, hf.upgrade, fun ht => hf.method.trans (by rw [ht]; rfl)⟩

/-- The last chunk, which is empty. -/
theorem reads_lastChunk (hs : s.state = .chunkSizeStart) (hup : s.upgrade = false) (hL : 3 ≤ L) :
    Reads L (s, 0) (text "0\r\n") [] ({ s with
      state := .headerFieldStart, contentLength := 0, flags.trailing := true }, 0) := by
  let a : Members := { s with state := .chunkSizeAlmostDone, contentLength := 0 }
  let b : Members := { a with state := .headerFieldStart, flags.trailing := true }
  have h₁ : Tells s none ([0].map hexDigit ++ [CR]) [] a none :=
    tells_sizeLine hs hup (by decide) (by decide) (by decide)
  have hsw : switch a LF = ([.assert s.flags.chunked, .resetNread], b) := rfl
  have h₂ : Tells a none [LF] [] b none := .still rfl hsw rfl hup (.nil _ _)
  have hreset (k : Nat) : tick a k LF = 0 := tick_reset rfl (by rw [hsw]; simp)
  have hreads := h₁.reads_reset (n := 0) (L := L) h₂ hreset (by
    simp only [List.length_append, List.length_map, List.length_cons, List.length_nil]
    omega)
  have hzero : [0].map hexDigit ++ [CR] ++ [LF] = text "0\r\n" := by decide +kernel
  rwa [hzero] at hreads

/-- The trailers, and the line that is empty. -/
theorem tells_trailers {ts : List (List Byte × List Byte)} (hs : s.state = .headerFieldStart)
    (hup : s.upgrade = false) (htr : s.flags.trailing = true)
    (hts : ∀ h ∈ ts, PlainName h.1 ∧ PlainValue h.2) : ∃ d : Members, d.core = s.core ∧
      Tells s none (ts.flatMap headerLine ++ text "\r\n") (headerReports ts)
        { d with state := newMessage d } none := by
  obtain ⟨rs, s₁, p, s₀, h₁, hl, hc, hrs⟩ := tells_headers (.first hs) hup hts
  let c : Members := { s₀ with state := .headersAlmostDone }
  let d : Members := { c with state := .messageDone }
  have hcore : c.core = s.core := hc
  have hupc : c.upgrade = false := (congrArg Members.upgrade hcore).trans hup
  have htrc : c.flags.trailing = true := (congrArg (fun s => s.flags.trailing) hcore).trans htr
  have h₂ : Tells s₁ none [CR] (p ++ []) c none :=
    hl.tells (by decide) (by decide) (e := []) rfl hupc rfl
  have hsw : switch c LF = ([], { d with state := newMessage d }) := by
    show headersAlmostDone c LF = _
    rw [headersAlmostDone, if_neg (by decide), if_pos htrc, messageDone]
    exact Prod.ext (if_neg (by rw [hupc]; decide)) rfl
  have h₃ : Tells c none [LF] [] { d with state := newMessage d } none :=
    .still rfl hsw rfl hupc (.nil _ _)
  have hcrlf : [CR] ++ [LF] = text "\r\n" := by decide +kernel
  have hall := h₁.append (h₂.append h₃)
  rw [hcrlf, List.append_nil, List.append_nil, hrs] at hall
  exact ⟨d, hc, hall⟩

/-- Chunks, and the trailers behind them. -/
theorem reads_chunked {cs : List (List Byte)} {ts : List (List Byte × List Byte)} (hf : Framed ty w s)
    (hw : w.Ok ty) (hb : w.body = .chunked cs ts) (hs : s.state = .chunkSizeStart) (hL : 18 ≤ L)
    (htail : w.body.tailLength ≤ L) : ∃ s' k, Ready ty s' ∧ k ≤ w.body.tailLength ∧
      Reads L (s, 0) w.body.bytes (headerReports ts) (s', k) := by
  have hok := hw.body
  have hflags := hf.flags
  rw [hb] at hok htail hflags ⊢
  obtain ⟨s₁, hs₁, hc₁, h₁⟩ := reads_chunks hs hf.upgrade hok.1 hL
  have hup₁ : s₁.upgrade = false := (congrArg Members.upgrade hc₁).trans hf.upgrade
  have hlast := reads_lastChunk hs₁ hup₁ (L := L) (by omega)
  let b : Members :=
    { s₁ with state := .headerFieldStart, contentLength := 0, flags.trailing := true }
  have hts : ∀ h ∈ ts, PlainName h.1 ∧ PlainValue h.2 := hok.2
  obtain ⟨d, hd, htrailers⟩ := tells_trailers (s := b) rfl hup₁ rfl hts
  have hcore : d.core = { s with contentLength := 0, flags.trailing := true }.core :=
    hd.trans (congrArg (fun s => { s with flags.trailing := true }) hc₁)
  have hflagsd : d.flags = { s.flags with trailing := true } := congrArg Members.flags hcore
  have hversion : d.httpMajor = 1 ∧ d.httpMinor = 1 :=
    ⟨(congrArg Members.httpMajor hcore).trans hf.version.1,
      (congrArg Members.httpMinor hcore).trans hf.version.2⟩
  have htype : d.type = ty := (congrArg Members.type hcore).trans hf.type
  have hup : d.upgrade = false := (congrArg Members.upgrade hcore).trans hf.upgrade
  have hmethod : d.method = w.methodOf ty := (congrArg Members.method hcore).trans hf.method
  have hclose : d.flags.connectionClose = false := by
    rw [hflagsd]
    exact hf.flags_eq.1
  have heof : httpMessageNeedsEof d = false := needsEof_of_framed (by rw [hflagsd, hflags]; rfl)
  have hnew : newMessage d = startState ty := by rw [newMessage_eq hversion hclose heof, htype]
  have htwo : (text "\r\n").length = 2 := by decide +kernel
  have hlen : (ts.flatMap headerLine ++ text "\r\n").length = (Body.chunked cs ts).tailLength := by
    rw [List.length_append, htwo]
    rfl
  obtain ⟨k, hk, hreads⟩ := htrailers.reads (n := 0) (L := L) (by rwa [hlen, Nat.zero_add])
  rw [hlen, Nat.zero_add] at hk
  exact ⟨{ d with state := newMessage d }, k,
    ⟨hnew, htype, hup, fun ht => hmethod.trans (by rw [ht]; rfl)⟩, hk,
    h₁.append (hlast.append hreads)⟩

/-- A message. The trailers count for what comes behind it. -/
theorem reads_message (hr : Ready ty s) (hw : w.Ok ty) (hL : n + (w.head ty).length ≤ L)
    (htail : w.body.tailLength ≤ L) : ∃ s' k, Ready ty s' ∧ k ≤ w.body.tailLength ∧
      Reads L (s, n) (w.bytes ty) ((w.message ty).reports ty) (s', k) := by
  obtain ⟨s₁, hf, hs₁, hhead⟩ := reads_head hr hw hL
  obtain ⟨s', k, hready, hk, hbody⟩ : ∃ s' k, Ready ty s' ∧ k ≤ w.body.tailLength ∧
      Reads L (s₁, 0) w.body.bytes (headerReports w.body.trailers) (s', k) := by
    cases hb : w.body with
    | none =>
      rw [hb] at hs₁
      exact ⟨s₁, 0, hf.ready hs₁, Nat.le_refl _, .nil _⟩
    | sized data =>
      rw [hb] at hs₁
      by_cases hne : data = []
      · subst hne
        exact ⟨s₁, 0, hf.ready hs₁, Nat.le_refl _, .nil _⟩
      · obtain ⟨s', hready, h⟩ := reads_sized hf hw hb hne (hs₁.trans (if_neg hne))
        exact ⟨s', 0, hready, Nat.le_refl _, h⟩
    | chunked cs ts =>
      rw [hb] at hs₁
      have hline : (headerLine (text "Transfer-Encoding", text "chunked")).length = 28 := by
        decide +kernel
      have hlong : 18 ≤ (w.head ty).length := by
        rw [Wire.head, Wire.headers, hb, Body.framing]
        simp only [List.length_append, List.flatMap_append, List.flatMap_singleton, hline]
        omega
      have h := reads_chunked hf hw hb hs₁ (by omega) htail
      rwa [hb] at h
  refine ⟨s', k, hready, hk, ?_⟩
  have hall := hhead.append hbody
  rw [List.append_assoc, List.append_assoc] at hall
  exact hall

/-! ## Streams of messages -/

/-- What is reported of messages one behind the other. -/
def written (ty : HttpParserType) (ws : List Wire) : List Http.Report :=
  ws.flatMap fun w => (w.message ty).reports ty

/-- Messages, when there are at most `k` header bytes from before. -/
theorem reads_messages {ws : List Wire} {k : Nat} (hr : Ready ty s) (hn : n ≤ k)
    (hw : ∀ w ∈ ws, w.Ok ty) (hfirst : ∀ w ∈ ws, k + (w.head ty).length ≤ L)
    (hL : ∀ w ∈ ws, ∀ w' ∈ ws, w.body.tailLength + (w'.head ty).length ≤ L) :
    ∃ y, Reads L (s, n) (ws.flatMap (Wire.bytes ty)) (written ty ws) y := by
  induction ws generalizing s n k with
  | nil => exact ⟨_, .nil _⟩
  | cons w ws ih =>
    have hmem := List.mem_cons_self (a := w) (l := ws)
    have hhead := hfirst w hmem
    have htail := hL w hmem w hmem
    obtain ⟨s₁, k₁, hr₁, hk₁, h₁⟩ :=
      reads_message hr (hw w hmem) (n := n) (L := L) (by omega) (by omega)
    obtain ⟨y, h'⟩ := ih hr₁ hk₁ (fun w hw' => hw w (List.mem_cons_of_mem _ hw'))
      (fun w' hw' => hL w hmem w' (List.mem_cons_of_mem _ hw'))
      (fun w hw₁ w' hw₂ => hL w (List.mem_cons_of_mem _ hw₁) w' (List.mem_cons_of_mem _ hw₂))
    exact ⟨y, h₁.append h'⟩

/-! ### What is reported -/

theorem Tells.trace (h : Tells s m bs rs s' m') : ∃ cs,
    trace (Scan.byte grammar) ⟨s, m, false⟩ bs = (⟨s', m', false⟩, cs) ∧
      cs.map (Call.report grammar) = rs := by
  induction h with
  | nil => exact ⟨[], rfl, rfl⟩
  | @cons s s₁ s' m m₁ m' ch bs rs cs hbyte _ _ _ ih =>
    obtain ⟨cs', htrace, rfl⟩ := ih
    refine ⟨cs ++ cs', ?_, List.map_append ..⟩
    rw [trace_cons, hbyte]
    dsimp only
    rw [htrace]

variable {q : List Http.Report}

/-- Headers are reported one by one. -/
theorem foldl_headerReports (hs : List (List Byte × List Byte)) {P : Http.Report → Prop}
    (hP : ∀ value, P (.headerValue value)) (hnot : ∀ name, ¬ P (.headerField name))
    (h : ∀ r ∈ q.head?, P r) :
    (headerReports hs).foldl joinOnto q = (headerReports hs).reverse ++ q ∧
      ∀ r ∈ ((headerReports hs).reverse ++ q).head?, P r := by
  induction hs generalizing q with
  | nil => exact ⟨rfl, h⟩
  | cons x hs ih =>
    have hname : joinOnto q (.headerField x.1) = .headerField x.1 :: q := by
      refine joinOnto_of_last fun r hr => ?_
      have hPr := h r hr
      cases r with
      | headerField name => exact absurd hPr (hnot name)
      | _ => rfl
    have hvalue : joinOnto (.headerField x.1 :: q) (.headerValue x.2) =
        .headerValue x.2 :: .headerField x.1 :: q := rfl
    have hcons : headerReports (x :: hs) =
        .headerField x.1 :: .headerValue x.2 :: headerReports hs := rfl
    obtain ⟨hfold, hlast⟩ := ih (q := .headerValue x.2 :: .headerField x.1 :: q) fun r hr => by
      obtain rfl := Option.some.inj hr
      exact hP x.2
    rw [hcons, List.foldl_cons, List.foldl_cons, hname, hvalue, List.reverse_cons, List.reverse_cons,
      List.append_assoc, List.append_assoc]
    exact ⟨hfold, hlast⟩

/-- What is reported last of a message. -/
def closing : Http.Report → Bool
  | .headerValue _ | .headersComplete _ => true
  | _ => false

/-- What is reported last in front of a name. -/
def notName : Http.Report → Bool
  | .headerField _ => false
  | _ => true

theorem foldl_reports (ty : HttpParserType) (w : Message) (h : ∀ r ∈ q.head?, closing r) :
    (w.reports ty).foldl joinOnto q = (w.reports ty).reverse ++ q ∧
      ∀ r ∈ ((w.reports ty).reverse ++ q).head?, closing r := by
  have hfirst : (w.firstLine ty).foldl joinOnto q = (w.firstLine ty).reverse ++ q ∧
      ∀ r ∈ ((w.firstLine ty).reverse ++ q).head?, notName r := by
    have hnone : ∀ r ∈ q.head?, notName r := by
      intro r hr
      have hc := h r hr
      cases r <;> first | rfl | cases hc
    have hone (r : Http.Report) (hr : notName r) (hj : ∀ r' ∈ q.head?, r'.join r = none) :
        [r].foldl joinOnto q = [r].reverse ++ q ∧ ∀ r' ∈ ([r].reverse ++ q).head?, notName r' := by
      refine ⟨joinOnto_of_last hj, fun r' hr' => ?_⟩
      obtain rfl := Option.some.inj hr'
      exact hr
    cases ty with
    | request =>
      refine hone (.url w.url) rfl fun r' hr' => ?_
      have hc := h r' hr'
      cases r' <;> first | rfl | cases hc
    | response =>
      rw [Message.firstLine]
      split
      · exact ⟨rfl, hnone⟩
      · refine hone (.status w.statusCode w.reason) rfl fun r' hr' => ?_
        have hc := h r' hr'
        cases r' <;> first | rfl | cases hc
  obtain ⟨hheaders, -⟩ := foldl_headerReports w.headers (P := fun r => notName r) (fun _ => rfl)
    (fun _ h => by cases h) hfirst.2
  obtain ⟨htrailers, hlast⟩ := foldl_headerReports w.trailers (P := fun r => closing r)
    (q := .headersComplete w.method :: ((headerReports w.headers).reverse ++
      ((w.firstLine ty).reverse ++ q))) (fun _ => rfl) (fun _ h => by cases h) fun r hr => by
    obtain rfl := Option.some.inj hr
    rfl
  have hcomplete (q : List Http.Report) :
      joinOnto q (.headersComplete w.method) = .headersComplete w.method :: q := by
    refine joinOnto_of_last fun r _ => ?_
    cases r <;> rfl
  have hrev : (w.reports ty).reverse ++ q = (headerReports w.trailers).reverse ++
      (.headersComplete w.method :: ((headerReports w.headers).reverse ++
        ((w.firstLine ty).reverse ++ q))) := by
    rw [Message.reports]
    simp
  rw [hrev]
  refine ⟨?_, hlast⟩
  rw [Message.reports, List.foldl_append, hfirst.1, List.foldl_append, hheaders, List.foldl_cons,
    hcomplete, htrailers]

/-- Nothing that is reported of messages is a part of what is reported before it. -/
theorem foldl_written (ws : List Wire) (h : ∀ r ∈ q.head?, closing r) :
    (written ty ws).foldl joinOnto q = (written ty ws).reverse ++ q := by
  induction ws generalizing q with
  | nil => rfl
  | cons w ws ih =>
    obtain ⟨hfold, hlast⟩ := foldl_reports ty (w.message ty) h
    have hcons : written ty (w :: ws) = (w.message ty).reports ty ++ written ty ws :=
      List.flatMap_cons
    rw [hcons, List.foldl_append, hfold, ih hlast, List.reverse_append, List.append_assoc]

theorem Reads.streamReports {ws : List Wire} (h : Reads L (.init ty, 0) bs (written ty ws) y) :
    streamReports grammar (.init ty) bs = written ty ws := by
  obtain ⟨cs, htrace, hcs⟩ := h.tells.trace
  have hstart : Scan.start grammar (.init ty) = ⟨.init ty, none, false⟩ := by cases ty <;> rfl
  have hjoin : joinCalls grammar [] cs = (written ty ws).reverse := by
    rw [joinCalls, hcs, foldl_written ws (fun r hr => (by cases hr)), List.append_nil]
  rw [Http.streamReports, hstart, htrace]
  show (joinCalls grammar [] cs).reverse = _
  rw [hjoin, List.reverse_reverse]

/-- Messages that are written are read back: the code accepts them in any calls, as long as no
header section, with the trailers in front of it and the number of calls, is too long, and what
it reports is what is reported of the messages, once divided strings are joined. -/
theorem accepted_messages_written {ws : List Wire} {cs : List (List Byte)} (hw : ∀ w ∈ ws, w.Ok ty)
    (hcs : ∀ c ∈ cs, c ≠ [] ∧ c.length < 2 ^ 31) (hbytes : cs.flatten = ws.flatMap (Wire.bytes ty))
    (hsize : ∀ w ∈ ws, ∀ w' ∈ ws,
      w.body.tailLength + (w'.head ty).length + cs.length ≤ httpMaxHeaderSize) :
    ∃ out, accepted ty cs = some out ∧
      joined out = ws.flatMap fun w => (w.message ty).reports ty := by
  have hready : Ready ty (.init ty) := ⟨rfl, rfl, rfl, fun _ => rfl⟩
  have hcount : cs.length ≤ httpMaxHeaderSize := by
    cases ws with
    | nil =>
      cases cs with
      | nil => exact Nat.zero_le _
      | cons c cs =>
        obtain ⟨hne, -⟩ := hcs c (List.mem_cons_self ..)
        exact absurd (List.append_eq_nil_iff.mp hbytes).1 hne
    | cons w ws =>
      have h := hsize w (List.mem_cons_self ..) w (List.mem_cons_self ..)
      omega
  obtain ⟨y, hreads⟩ := reads_messages (L := httpMaxHeaderSize - cs.length) (n := 0) (k := 0) hready
    (Nat.le_refl 0) hw (fun w hw => by have := hsize w hw w hw; omega)
    (fun w hw w' hw' => by have := hsize w hw w' hw'; omega)
  rw [← hbytes] at hreads
  obtain ⟨out, h⟩ := exists_accepted hcs hreads.fits (by omega)
  exact ⟨out, h, (joined_accepted hcs h).trans hreads.streamReports⟩

/-- A request with a body in chunks and a trailer, and one without a body. -/
def wirePair : List Wire :=
  [⟨.post, text "/a", 0, [], [(text "Host", text "c")], [(text "Accept", [])],
      .chunked [text "0123456789abcdefg", text "h"] [(text "Date", text "v")]⟩,
    ⟨.get, text "/b", 0, [], [], [], .none⟩]

def wirePairBytes : List Byte := wirePair.flatMap (Wire.bytes .request)

/-- The two, with a cut in the middle of a name. -/
theorem accepted_messages_written_pair : ∃ out,
    accepted .request [wirePairBytes.take 19, wirePairBytes.drop 19] = some out ∧
      joined out = wirePair.flatMap fun w => (w.message .request).reports .request :=
  accepted_messages_written (by decide +kernel) (by decide +kernel) (by decide +kernel)
    (by decide +kernel)

end Noff.HttpParser
