import Noff.HttpParser.Runs

/-!
# The records of a connection

What the callbacks for requests and responses are given of one direction of a
connection. Two ways to cut its stream into calls make the same records only if there is no
string to be cut (`records_split_iff`), and a record need not describe its own
message alone (`records_own_iff`). Both are about any parser that calls back in the order of
`Coherent`, and are tried on that of the code, `grammar`.
-/

namespace Noff.HttpParser

open Http

variable {σ : Type} {g : Grammar σ} {P : σ → Phase → Prop}

/-! ## Streams that are cut -/

/-- The records of a connection do not depend on how its stream is cut into calls,
for exactly those streams in which every string in front of a record is empty. -/
theorem records_split_iff {http : Http σ} {t4 : Tuple4} {ts : Int} (fromClient : Bool)
    (hg : Http.Coherent (typeOf fromClient) g P) (h80 : t4.dest = 80)
    (hnew : http.table t4 = some (.create g t4 ts)) (x : List Byte) :
    (∀ cs cs' : List (List Byte), cs.flatten = x → cs'.flatten = x → (∀ c ∈ cs, c ≠ []) →
        (∀ c ∈ cs', c ≠ []) →
        http.feed g t4 fromClient cs = http.feed g t4 fromClient cs') ↔
      Bare (calls g (g.init (typeOf fromClient)) [x]) := by
  have hstart := Scan.Ok.start hg
  obtain ⟨rest, hrest, hcalls⟩ := calls_single (g := g) (g.init (typeOf fromClient)) x
  rw [hcalls]
  constructor
  · intro h
    refine Bare.append_not_recorded ?_ hrest
    by_contra hbare
    -- The last string that is not empty is cut off its end.
    obtain ⟨pre, s, k, at_, post, hx, hr, hne, hpost⟩ := exists_last_of_not_bare hbare
    obtain ⟨x₁, ch, x₂, v₁, rfl, htr, hm, hf, ⟨ph₁, hok⟩, hcut⟩ := hstart.locate hg hne hx
    have hx₁ : x₁ ≠ [] := by
      rintro rfl
      cases htr
      have hmark : g.marked (g.init (typeOf fromClient)) = _ := hstart.marked rfl
      rw [hm, hg.unmarked] at hmark
      cases hmark
    obtain ⟨rest', hrest', hpair⟩ := calls_pair _ htr (ch :: x₂)
    have heq := h [x₁ ++ ch :: x₂] [x₁, ch :: x₂] (by simp) (by simp) (by simp) (by simp [hx₁])
    rw [Http.feed_eq_replay fromClient h80 hnew (by simp),
      Http.feed_eq_replay fromClient h80 hnew (by simp [hx₁]), hcalls, hpair,
      replay_append_not_recorded hrest, replay_append_not_recorded hrest', hok.cut_open hf hm,
      hcut, hx, List.append_assoc] at heq
    obtain ⟨ph', hafter, -⟩ := hstart.bytes hg (x₁ ++ ch :: x₂)
    rw [hx] at hafter
    obtain ⟨ph₂, hpre, hafter⟩ := Phase.after_append.mp hafter
    obtain ⟨c, hc, hfield⟩ := replay_running (g := g) hpre
      (c := ⟨.create t4 ts, .create t4 ts⟩) fun hidle => absurd rfl hidle
    rw [replay_append_some (Prod.ext rfl hc), replay_append_some (Prod.ext rfl hc)] at heq
    exact replay_cut_ne hfield hafter hne hpost hr (List.append_cancel_left heq)
  · intro hbare cs cs' hcs hcs' hne hne'
    have hone {cs : List (List Byte)} (hcs : cs.flatten = x) (hne : ∀ c ∈ cs, c ≠ []) :
        http.feed g t4 fromClient cs = (replay (settings g) (typeOf fromClient)
          ⟨.create t4 ts, .create t4 ts⟩ (trace (Scan.byte g)
            (.start g (g.init (typeOf fromClient))) x).2).1 := by
      have hflat : (inputs cs).reduceOption = x := (reduceOption_inputs cs).trans hcs
      rw [Http.feed_eq_replay fromClient h80 hnew hne, calls, ← hflat]
      exact records_of_bare hg hstart (inputs cs) (by rw [hflat]; exact hbare.left)
    rw [hone hcs hne, hone hcs' hne']

/-- A connection to port 80 of which nothing has been read. -/
def getT4 : Tuple4 := ⟨1, 80, 0x0100000a, 0x0200000a⟩

def getHttp : Http Members := Http.empty.set getT4 (some (.create grammar getT4 0))

/-- A request without headers. -/
def bareGet : List Byte := text "GET /ab HTTP/1.1\r\n\r\n"

/-- The URL of the request is not empty, so its record depends on the cuts. -/
theorem records_split_get :
    ¬ ∀ cs cs' : List (List Byte), cs.flatten = bareGet → cs'.flatten = bareGet →
      (∀ c ∈ cs, c ≠ []) → (∀ c ∈ cs', c ≠ []) →
      getHttp.feed grammar getT4 true cs = getHttp.feed grammar getT4 true cs' := by
  rw [records_split_iff true (grammar_coherent .request) rfl rfl]
  have hcalls : (calls grammar (grammar.init .request) [bareGet]).map (Call.report grammar) =
      [.url (text "/ab"), .headersComplete (text "GET")] := by decide +kernel
  obtain ⟨call, cs, heq, hurl, hrest⟩ := List.map_eq_cons_iff.mp hcalls
  obtain ⟨call', cs', rfl, hcomplete, -⟩ := List.map_eq_cons_iff.mp hrest
  intro hbare
  cases call with
  | headersComplete s => cases hurl
  | data s k at_ =>
    cases call' with
    | data s' k' at' => cases k' <;> cases hcomplete
    | headersComplete s' =>
      obtain rfl : at_ = [] := hbare [] s k at_ _ heq rfl
      cases k <;> cases hurl

/-- The URL and `bytes` of a record. -/
def urlBytes : HttpRecord → List Byte × Nat
  | .request r => (r.url, r.bytes.toNat)
  | .response r => ([], r.bytes.toNat)

/-- The URL `/ab` is reported in two pieces, and the second is all that is kept. -/
theorem records_split_url :
    (accepted .request [bareGet]).isSome ∧
      (accepted .request [bareGet.take 6, bareGet.drop 6]).isSome ∧
      (getHttp.feed grammar getT4 true [bareGet]).map urlBytes = [(text "/ab", 3)] ∧
      (getHttp.feed grammar getT4 true [bareGet.take 6, bareGet.drop 6]).map
        urlBytes = [(text "b", 3)] := by
  decide +kernel

/-! ## Messages that are pipelined -/

/-- Two requests: a header of the first is folded, and another of the same name counts. -/
def foldedRequests : List (List Byte) :=
  [text "GET /ab HTTP/1.1\r\nA: b\r\n c\r\nA: d\r\n\r\n", text "HEAD /c HTTP/1.1\r\nHost: e\r\n\r\n"]

def foldedMessages : List Folded :=
  [⟨text "GET", text "/ab", 0, [], [⟨text "A", [text "b", text " c"]⟩, ⟨text "A", [text "d"]⟩], []⟩,
    ⟨text "HEAD", text "/c", 0, [], [⟨text "Host", [text "e"]⟩], []⟩]

/-- A response with a reason phrase, and one without. A parser for responses has the method 0. -/
def responses : List (List Byte) :=
  [text "HTTP/1.1 304 N\r\n\r\n", text "HTTP/1.1 204\r\n\r\n"]

def responseMessages : List Folded :=
  [⟨text "DELETE", [], 304, text "N", [], []⟩, ⟨text "DELETE", [], 204, [], [], []⟩]

def status : HttpRecord → Option Nat
  | .request _ => none
  | .response r => r.statusCode

end Noff.HttpParser
