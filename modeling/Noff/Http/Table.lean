import Noff.Http.Http
import Noff.Tcp.Buffer
import Noff.Tcp.LifeCycle

/-!
# The table of HTTP connections

A callback changes the entry of the connection it is about and no other
(`run_onEvent`), so that the entry of a stream is what the callbacks about
this stream alone have made of it (`Agrees`). As long as no connected stream to port
80 is freed without a callback (`Drops`), every packet keeps it so, and no
connection is announced that is still in the table (`httpTable_agrees`). A second
SYN for a connection does free it so (`httpTable_stale`).
-/

namespace Noff.Http

open Noff.Tcp TcpFragment

variable {σ : Type} {g : Grammar σ} {hash : Hash} {junk : StreamPtr → TcpStream}

/-! ## One entry -/

section

variable (g)

/-- What a callback about the connection `t4` makes of its entry. -/
def advance (ts : Int) (t4 : Tuple4) (x : Option (HttpDetail σ)) :
    Callback → Option (HttpDetail σ)
  | .connection => some (.create g t4 ts)
  | .data fc chunk => x.map fun detail => (detail.onTcpData g fc chunk.bytes).1
  | .close | .rst | .timeout => none

/-- The entry that callbacks about the connection `t4` lead to, from no entry. -/
def entryOf (ts : Int) (t4 : Tuple4) (cbs : List Callback) : Option (HttpDetail σ) :=
  cbs.foldl (advance g ts t4) none

end

variable {ts : Int} {t4 : Tuple4} {x : Option (HttpDetail σ)} {cb : Callback} {cbs : List Callback}
  {l l' : Life}

/-- There is an entry while the stream is open. -/
def Fits (x : Option (HttpDetail σ)) (l : Life) : Prop := x.isSome ↔ l = .opened

theorem Fits.advance (h : Fits x l) (hl : l.next cb = some l') :
    Fits (advance g ts t4 x cb) l' := by
  cases l <;> cases cb <;> cases hl <;> simp_all [Fits, Http.advance]

theorem Fits.foldl (h : Fits x l) (hl : l.after cbs = some l') :
    Fits (cbs.foldl (Http.advance g ts t4) x) l' := by
  induction cbs generalizing x l with
  | nil =>
    cases hl
    exact h
  | cons cb cbs ih =>
    obtain ⟨l₁, h₁, h₂⟩ := Option.bind_eq_some_iff.mp hl
    exact ih (h.advance h₁) h₂

theorem fits_entryOf (hl : Life.silent.after cbs = some l) : Fits (entryOf g ts t4 cbs) l :=
  Fits.foldl (by simp [Fits]) hl

theorem nil_of_silent (h : Life.silent.after cbs = some .silent) : cbs = [] := by
  obtain ⟨he, -⟩ | ⟨data, last, -, -, ⟨-, ho⟩ | ⟨cb, -, -, ho⟩⟩ := Life.word_of_after h
  · exact he
  · cases ho
  · cases ho

/-- Once a stream is open, the time does not matter any more. -/
theorem foldl_advance_congr {ts' : Int} (hl : l ≠ .silent) (h : l.after cbs = some l') :
    cbs.foldl (advance g ts t4) x = cbs.foldl (advance g ts' t4) x := by
  induction cbs generalizing x l with
  | nil => rfl
  | cons cb cbs ih =>
    obtain ⟨l₁, h₁, h₂⟩ := Option.bind_eq_some_iff.mp h
    have hne : l₁ ≠ .silent := by
      rintro rfl
      cases l <;> cases cb <;> cases h₁
    have hcb : advance g ts t4 x cb = advance g ts' t4 x cb := by
      cases cb with
      | connection => cases l <;> [exact absurd rfl hl; cases h₁; cases h₁]
      | _ => rfl
    rw [List.foldl_cons, List.foldl_cons, hcb]
    exact ih hne h₂

/-! ## The callbacks of a packet -/

/-- The callbacks about the connection `t4`. -/
def eventsAt (t4 : Tuple4) (es : List Event) : List Callback :=
  (es.filter (·.addr = t4)).map (·.callback)

theorem eventsAt_cons (t4 : Tuple4) (e : Event) (es : List Event) :
    eventsAt t4 (e :: es) = if e.addr = t4 then e.callback :: eventsAt t4 es else eventsAt t4 es := by
  rw [eventsAt, List.filter_cons]
  split <;> rename_i h
  · rw [if_pos (by simpa using h)]
    rfl
  · rw [if_neg (by simpa using h)]
    rfl

variable {http http' : Http σ} {es es' : List Event}

variable (g ts) in
/-- A callback that fits the entry changes it alone. -/
theorem onEvent_table {e : Event} (h : e.addr.dest = 80) {l : Life} (hx : Fits (http.table e.addr) l)
    (hl : l.next e.callback = some l') : ∃ rs, http.onEvent g ts e =
      some (http.set e.addr (advance g ts e.addr (http.table e.addr) e.callback), rs) := by
  have herase : some (http.erase e.addr, ([] : List HttpRecord)) =
      some (http.set e.addr none, []) := by
    rw [Http.erase, if_neg (not_not.mpr h)]
  cases hcb : e.callback with
  | connection =>
    have hno : ¬ (http.table e.addr).isSome = true := by
      intro hs
      rw [hx.mp hs, hcb] at hl
      cases hl
    refine ⟨[], ?_⟩
    rw [Http.onEvent, hcb]
    simp only [Http.onTcpConnection, h, ne_eq, not_true_eq_false, if_false, hno]
    rfl
  | data fc chunk =>
    rw [Http.onEvent, hcb]
    simp only [Http.onTcpData, h, ne_eq, not_true_eq_false, if_false]
    cases hd : http.table e.addr with
    | none =>
      refine ⟨[], ?_⟩
      simp only [advance, Option.map_none]
      rw [← hd, Http.set_table]
    | some detail => exact ⟨_, rfl⟩
  | close => exact ⟨[], by rw [Http.onEvent, hcb]; exact herase⟩
  | rst => exact ⟨[], by rw [Http.onEvent, hcb]; exact herase⟩
  | timeout => exact ⟨[], by rw [Http.onEvent, hcb]; exact herase⟩

/-- A callback about a connection to another port changes nothing. -/
theorem onEvent_other {e : Event} (h : e.addr.dest ≠ 80) :
    http.onEvent g ts e = some (http, []) := by
  have herase : http.erase e.addr = http := if_pos h
  cases hcb : e.callback <;> rw [Http.onEvent, hcb] <;>
    simp only [Http.onTcpConnection, Http.onTcpData, Http.onTcpClose, Http.onTcpRst,
      Http.onTcpTimeout, h, herase, ne_eq, not_false_eq_true, if_true, Option.map_some]

variable (g ts) in
/-- Callbacks that fit the entries they are about make of each what they would alone. -/
theorem run_onEvent (h : ∀ t4 : Tuple4, t4.dest = 80 → ∃ l l', Fits (http.table t4) l ∧
      l.after (eventsAt t4 es) = some l') :
    ∃ http' rs, run (Http.onEvent g ts) http es = some (http', rs) ∧
      ∀ t4, http'.table t4 = if t4.dest = 80 then
        (eventsAt t4 es).foldl (advance g ts t4) (http.table t4) else http.table t4 := by
  induction es generalizing http with
  | nil => exact ⟨http, [], rfl, fun t4 => (ite_self _).symm⟩
  | cons e es ih =>
    by_cases hdest : e.addr.dest = 80
    · obtain ⟨l, l', hx, hl⟩ := h e.addr hdest
      rw [eventsAt_cons, if_pos rfl] at hl
      obtain ⟨l₁, h₁, h₂⟩ := Option.bind_eq_some_iff.mp hl
      obtain ⟨rs, hrs⟩ := onEvent_table g ts hdest hx h₁
      have hnext : ∀ t4 : Tuple4, t4.dest = 80 → ∃ l l', Fits ((http.set e.addr
          (advance g ts e.addr (http.table e.addr) e.callback)).table t4) l ∧
          l.after (eventsAt t4 es) = some l' := fun t4 hd => by
        by_cases he : t4 = e.addr
        · subst he
          refine ⟨l₁, l', ?_, h₂⟩
          rw [Http.table_set_self]
          exact hx.advance h₁
        · obtain ⟨k, k', hk, hk'⟩ := h t4 hd
          rw [eventsAt_cons, if_neg (Ne.symm he)] at hk'
          exact ⟨k, k', by rwa [Http.table_set_of_ne _ _ he], hk'⟩
      obtain ⟨http', rs', hrun, htab⟩ := ih hnext
      refine ⟨http', rs ++ rs', run_cons.mpr ⟨_, rs, http', rs', hrs, hrun, rfl⟩, fun t4 => ?_⟩
      rw [htab t4, eventsAt_cons]
      by_cases he : t4 = e.addr
      · subst he
        rw [if_pos rfl, Http.table_set_self, if_pos hdest, if_pos hdest, List.foldl_cons]
      · rw [if_neg (Ne.symm he), Http.table_set_of_ne _ _ he]
    · have hat {t4 : Tuple4} (hd : t4.dest = 80) : eventsAt t4 (e :: es) = eventsAt t4 es := by
        rw [eventsAt_cons, if_neg]
        rintro rfl
        exact hdest hd
      obtain ⟨http', rs, hrun, htab⟩ := ih fun t4 hd => hat hd ▸ h t4 hd
      refine ⟨http', rs, run_cons.mpr ⟨http, [], http', rs, onEvent_other hdest, hrun, rfl⟩,
        fun t4 => ?_⟩
      rw [htab t4]
      split
      · rename_i hd
        rw [hat hd]
      · rfl

/-! ## The two tables -/

variable {t t' : TcpFragment} {a : StreamPtr} {s : TcpStream} {p : Packet}

/-- The entries are those of the streams to port 80, each as the callbacks
`es` about its stream have left it. -/
structure Agrees (g : Grammar σ) (t : TcpFragment) (es : List Event) (http : Http σ) : Prop where
  own : ∀ a s, t.deref a = some s → s.addr.dest = 80 →
    ∃ ts, http.table s.addr = entryOf g ts s.addr (callbacksOf a es)
  only : ∀ t4, (http.table t4).isSome → t4.dest = 80 ∧ ∃ a s, t.deref a = some s ∧ s.addr = t4

/-- The events are about streams in the map. -/
def About (t : TcpFragment) (es : List Event) : Prop :=
  ∀ e ∈ es, ∃ s, t.deref e.aTcp = some s ∧ s.addr = e.addr

theorem addr_inj (hi : t.Inv hash) {b : StreamPtr} {s' : TcpStream} (h : t.deref a = some s)
    (h' : t.deref b = some s') (he : s.addr = s'.addr) : a = b := by
  obtain ⟨m, hm, rfl, rfl⟩ := exists_of_deref h
  obtain ⟨n, hn, rfl, rfl⟩ := exists_of_deref h'
  rw [hi.eq_of_samePair hm hn (.inl he)]

/-- The callbacks about a connection are those about its stream. -/
theorem eventsAt_eq_callbacksOf (hi : t.Inv hash) (hes : About t es) (hd : t.deref a = some s) :
    eventsAt s.addr es = callbacksOf a es := by
  rw [eventsAt, callbacksOf]
  congr 1
  refine List.filter_congr fun e he => decide_eq_decide.mpr ?_
  obtain ⟨s', hs', haddr⟩ := hes e he
  constructor
  · intro h
    exact addr_inj hi hs' hd (haddr.trans h)
  · rintro rfl
    rw [hd] at hs'
    cases hs'
    exact haddr.symm

theorem eventsAt_eq_nil (hes : About t es) {t4 : Tuple4}
    (h : ∀ a s, t.deref a = some s → s.addr ≠ t4) : eventsAt t4 es = [] := by
  rw [eventsAt, List.filter_eq_nil_iff.mpr, List.map_nil]
  intro e he
  obtain ⟨s, hs, haddr⟩ := hes e he
  simpa [← haddr] using h _ s hs

/-- The callbacks of a packet keep the tables in agreement, as long as they are a word of `Life`
for every stream. -/
theorem Agrees.events (h : Agrees g t es http) (hi : t.Inv hash) (hes : About t es')
    (hlife : ∀ a, ∃ l, Life.silent.after (callbacksOf a (es ++ es')) = some l) (ts : Int) :
    ∃ http' rs, run (Http.onEvent g ts) http es' = some (http', rs) ∧
      Agrees g t (es ++ es') http' := by
  -- Where a stream is, its entry is too, and the callbacks go on from there.
  have hgo {a : StreamPtr} {s : TcpStream} (hd : t.deref a = some s) (hp : s.addr.dest = 80) :
      ∃ l l', Life.silent.after (callbacksOf a es) = some l ∧ Fits (http.table s.addr) l ∧
        l.after (callbacksOf a es') = some l' := by
    obtain ⟨l', hl'⟩ := hlife a
    rw [callbacksOf_append, Life.after, List.foldlM_append] at hl'
    obtain ⟨l, hl, hl'⟩ := Option.bind_eq_some_iff.mp hl'
    obtain ⟨ts₀, hown⟩ := h.own a s hd hp
    exact ⟨l, l', hl, hown ▸ fits_entryOf hl, hl'⟩
  have hnone {t4 : Tuple4} (hno : ¬ ∃ a s, t.deref a = some s ∧ s.addr = t4) :
      http.table t4 = none ∧ eventsAt t4 es' = [] := by
    refine ⟨?_, eventsAt_eq_nil hes fun a s hd he => hno ⟨a, s, hd, he⟩⟩
    by_contra hsome
    exact hno (h.only t4 (Option.isSome_iff_ne_none.mpr hsome)).2
  have hfits (t4 : Tuple4) (hp : t4.dest = 80) :
      ∃ l l', Fits (http.table t4) l ∧ l.after (eventsAt t4 es') = some l' := by
    by_cases hex : ∃ a s, t.deref a = some s ∧ s.addr = t4
    · obtain ⟨a, s, hd, rfl⟩ := hex
      obtain ⟨l, l', -, hx, hl'⟩ := hgo hd hp
      exact ⟨l, l', hx, by rwa [eventsAt_eq_callbacksOf hi hes hd]⟩
    · obtain ⟨ht, he⟩ := hnone hex
      exact ⟨.silent, .silent, by simp [ht, Fits], by rw [he]; rfl⟩
  obtain ⟨http', rs, hrun, htab⟩ := run_onEvent g ts hfits
  refine ⟨http', rs, hrun, fun a s hd hp => ?_, fun t4 ht4 => ?_⟩
  · obtain ⟨ts₀, hown⟩ := h.own a s hd hp
    obtain ⟨l, l', hl, -, hl'⟩ := hgo hd hp
    rw [htab, if_pos hp, eventsAt_eq_callbacksOf hi hes hd, hown, callbacksOf_append]
    by_cases hs : l = .silent
    · -- Nothing has been said of the stream so far.
      subst hs
      have hnil := nil_of_silent hl
      exact ⟨ts, by rw [hnil, List.nil_append]; rfl⟩
    · refine ⟨ts₀, ?_⟩
      rw [foldl_advance_congr hs hl', entryOf, entryOf, List.foldl_append]
  · rw [htab t4] at ht4
    by_cases hex : ∃ a s, t.deref a = some s ∧ s.addr = t4
    · split at ht4
      · rename_i hp
        exact ⟨hp, hex⟩
      · exact h.only t4 ht4
    · obtain ⟨ht, he⟩ := hnone hex
      rw [he, List.foldl_nil, ite_self, ht] at ht4
      cases ht4

/-- Streams may go once their entries have gone. -/
theorem Agrees.without (h : Agrees g t es http) {D : List StreamPtr}
    (hD : ∀ a ∈ D, ∀ s, t.deref a = some s → s.addr.dest = 80 →
      ∃ l, Life.silent.after (callbacksOf a es) = some l ∧ l ≠ .opened) :
    Agrees g (t.without D) es http := by
  refine ⟨fun a s hd hp => h.own a s (deref_of_without hd) hp, fun t4 ht4 => ?_⟩
  obtain ⟨hp, a, s, hd, rfl⟩ := h.only t4 ht4
  refine ⟨hp, a, s, ?_, rfl⟩
  rw [deref_without, if_neg, hd]
  intro ha
  obtain ⟨l, hl, hne⟩ := hD a ha s hd hp
  obtain ⟨ts, hown⟩ := h.own a s hd hp
  rw [hown] at ht4
  exact hne ((fits_entryOf hl).mp ht4)

/-- A new stream has no entry. -/
theorem Agrees.create (h : Agrees g t es http) (hi : t.Inv hash)
    (hnew : callbacksOf t.next es = [])
    (hno : ∀ n ∈ t.tcphashmap, ¬ SamePair n.stream.addr (tupleOf p.ip)) :
    Agrees g (t.create hash junk p) es http := by
  refine ⟨fun a s hd hp => ?_, fun t4 ht4 => ?_⟩
  · rw [hi.deref_create] at hd
    split at hd
    · rename_i ha
      cases hd
      refine ⟨0, ?_⟩
      rw [ha, hnew]
      by_contra hsome
      obtain ⟨-, b, s, hs, haddr⟩ := h.only _ (Option.isSome_iff_ne_none.mpr hsome)
      obtain ⟨n, hn, -, rfl⟩ := exists_of_deref hs
      exact hno n hn (.inl haddr)
    · exact h.own a s hd hp
  · obtain ⟨hp, a, s, hd, rfl⟩ := h.only t4 ht4
    refine ⟨hp, a, s, ?_, rfl⟩
    rw [hi.deref_create, if_neg (Nat.ne_of_lt (hi.lt_of_deref hd)), hd]

/-- A stream keeps its entry. -/
theorem Agrees.conclude (h : Agrees g t es http) (hd : t.deref a = some s) {w : Work}
    (hw : w.stream.addr = s.addr) : Agrees g (t.conclude a w).1 es http := by
  refine ⟨fun b s' hd' hp => ?_, fun t4 ht4 => ?_⟩
  · rw [deref_conclude hd] at hd'
    split at hd'
    · rename_i hb
      subst hb
      cases hd'
      rw [hw] at hp ⊢
      exact h.own b s hd hp
    · exact h.own b s' hd' hp
  · obtain ⟨hp, b, s', hd', rfl⟩ := h.only t4 ht4
    by_cases hb : b = a
    · subst hb
      rw [hd] at hd'
      cases hd'
      exact ⟨hp, b, w.stream, by rw [deref_conclude hd, if_pos rfl], hw⟩
    · exact ⟨hp, b, s', by rw [deref_conclude hd, if_neg hb, hd'], rfl⟩

theorem about_conclude (hd : t.deref a = some s) {w : Work} (hw : w.stream.addr = s.addr) :
    About t (t.conclude a w).2 := by
  intro e he
  obtain ⟨cb, -, rfl⟩ := List.mem_map.mp he
  exact ⟨s, hd, hw.symm⟩

theorem about_ended {D : List (StreamPtr × Callback)} (h : t.Ended D t' es) : About t es := by
  intro e he
  rw [h.events] at he
  obtain ⟨x, -, he⟩ := List.mem_flatMap.mp he
  rw [ending] at he
  split at he
  · rename_i s hd
    rw [notifyEnd] at he
    split at he
    · rw [List.mem_singleton.mp he]
      exact ⟨s, hd, rfl⟩
    · cases he
  · cases he

theorem Agrees.ended (h : Agrees g t es http) (hi : t.Inv hash)
    (htold : ∀ a, ∃ l, Told t es a l) {D : List (StreamPtr × Callback)} (he : t.Ended D t' es')
    (ts : Int) :
    ∃ http' rs, run (Http.onEvent g ts) http es' = some (http', rs) ∧
      Agrees g t' (es ++ es') http' ∧ ∀ a, ∃ l, Told t' (es ++ es') a l := by
  have htold' (a : StreamPtr) := (htold a).elim fun l hl => hl.ended he
  obtain ⟨http', rs, hrun, h'⟩ := h.events hi (about_ended he)
    (fun a => (htold' a).imp fun l hl => hl.1.after) ts
  refine ⟨http', rs, hrun, he.eq ▸ h'.without fun a ha s hd _ => ?_,
    fun a => (htold' a).imp fun l hl => hl.1⟩
  obtain ⟨l, hl, hne⟩ := htold' a
  exact ⟨l, hl.after, hne ha (by rw [hd]; simp)⟩

/-- The packet finds the stream `s` of a connection to port 80, and frees it
without a callback: for a new SYN, or because its buffer overflows. -/
def DropsStream (p : Packet) (fc : Bool) (s : TcpStream) (w : Work) : Prop :=
  s.addr.dest = 80 ∧ (isFirst p.ip ∧ s.isconnnection ∨
    isFirst p.ip = false ∧ w.Overflows p fc ∧ (takeAck p fc w).stream.isconnnection)

/-- What a packet does keeps the tables in agreement. -/
theorem Agrees.step (h : Agrees g t es http) (hi : t.Inv hash) (htold : ∀ a, ∃ l, Told t es a l)
    (hacc : t.Accounted) (hp : p.Sized) (hs : Step hash junk t p t' es')
    (hdrop : ∀ a fc s, wellFormed p.ip → t.findStream hash p.ip = some (a, fc) →
      t.deref a = some s → ¬ DropsStream p fc s (t.work s)) :
    ∃ http' rs, run (Http.onEvent g p.timeStamp) http es' = some (http', rs) ∧
      Agrees g t' (es ++ es') http' := by
  have hnew {t : TcpFragment} {es : List Event} (htold : ∀ a, ∃ l, Told t es a l) :
      callbacksOf t.next es = [] := by
    obtain ⟨l, hl⟩ := htold t.next
    exact nil_of_silent (hl.new (Nat.le_refl _) ▸ hl.after)
  have htold' (a : StreamPtr) : ∃ l, Life.silent.after (callbacksOf a (es ++ es')) = some l :=
    (htold a).elim fun l hl => (hl.step hi hs).imp fun l' hl' => hl'.after
  cases hs with
  | ignored => exact ⟨http, [], rfl, by rwa [List.append_nil]⟩
  | created _ hf _ hlt =>
    refine ⟨http, [], rfl, ?_⟩
    rw [List.append_nil]
    exact h.create hi (hnew htold) fun n hn => hi.not_samePair hf hn
  | cleared _ hf _ hle =>
    have he := hi.clearAllStream
    obtain ⟨http', rs, hrun, h', htold''⟩ := h.ended hi htold he p.timeStamp
    refine ⟨http', rs, hrun, h'.create (he.eq ▸ hi.without _) (hnew htold'') fun n hn => ?_⟩
    rw [he.eq] at hn
    exact hi.not_samePair hf (mem_without.mp hn).1
  | @replaced a fc hwf hf hfirst =>
    refine ⟨http, [], rfl, ?_⟩
    rw [List.append_nil]
    obtain ⟨n, hn, rfl, haddr⟩ := exists_of_findStream hf
    have hd := hi.deref hn
    -- At port 80, the stream that gives way is not connected.
    have hgone : Agrees g (t.without [n.ptr]) es http := by
      refine h.without fun a ha s hs hport => ?_
      rw [List.mem_singleton.mp ha, hd] at hs
      cases hs
      obtain ⟨l, hl⟩ := htold n.ptr
      refine ⟨l, by rw [List.mem_singleton.mp ha, hl.after], fun ho => ?_⟩
      rw [(hl.live _ hd).1, TcpStream.life] at ho
      refine hdrop n.ptr fc n.stream hwf hf hd ⟨hport, .inl ⟨hfirst, ?_⟩⟩
      by_contra hi
      rw [if_neg hi] at ho
      cases ho
    refine hgone.create (hi.without _) (hnew (t := t) htold) fun m hm hpair => ?_
    obtain ⟨hm, hne⟩ := mem_without.mp hm
    have hn' : SamePair (tupleOf p.ip) n.stream.addr := by
      rw [haddr]
      split
      · exact .inl rfl
      · exact .inr rfl
    exact hne (List.mem_singleton.mpr (congrArg Node.ptr (hi.eq_of_samePair hm hn (hpair.trans hn'))))
  | @kept a fc s w _ hf hd hw =>
    have haddr : w.stream.addr = s.addr := hw.frames.addr
    obtain ⟨http', rs, hrun, h'⟩ := h.events hi (about_conclude hd haddr) htold' p.timeStamp
    exact ⟨http', rs, hrun, h'.conclude hd haddr⟩
  | @freed a fc s w hwf hf hd hw =>
    have haddr : w.stream.addr = s.addr := hw.frames.addr
    obtain ⟨http', rs, hrun, h'⟩ := h.events hi (about_conclude hd haddr) htold' p.timeStamp
    refine ⟨http', rs, hrun, h'.without fun b hb s' hs' hport => ?_⟩
    obtain rfl := List.mem_singleton.mp hb
    rw [hd] at hs'
    cases hs'
    obtain ⟨l, hl⟩ := htold b
    obtain ⟨l', hl', hlim⟩ := hw.life (hl.lives hd)
    refine ⟨l', ?_, fun ho => ?_⟩
    · rw [callbacksOf_append, callbacksOf_conclude, if_pos rfl, Life.after_append hl.after, hl']
    · obtain ⟨haccd, hconn, hlt⟩ := hlim ho
      refine hdrop b fc s hwf hf hd ⟨hport, .inr ⟨?_, ?_, hconn⟩⟩
      · rw [isFirst, haccd.syn]
        rfl
      · exact overflow_outOfOrder (hacc b s hd) hp haccd hlt

/-! ## Runs -/

/-- What a lookup finds once timers have been checked, it finds before. -/
theorem findStream_of_without (hi : t.Inv hash) {D : List StreamPtr} {d : List Byte} {fc : Bool}
    (h : (t.without D).findStream hash d = some (a, fc)) : t.findStream hash d = some (a, fc) := by
  have hfind {n : Node} (hn : n ∈ t.tcphashmap) :
      t.findStreamAux hash n.stream.addr = some n.ptr := by
    cases hf : t.findStreamAux hash n.stream.addr with
    | none => exact absurd rfl (hi.not_mem_of_findStreamAux hf hn)
    | some b =>
      obtain ⟨m, hm, rfl, haddr⟩ := exists_of_findStreamAux hf
      rw [hi.eq_of_samePair hm hn (.inl haddr)]
  obtain ⟨n, hn, rfl, haddr⟩ := exists_of_findStream h
  have hn' := (mem_without.mp hn).1
  cases fc with
  | true => rw [findStream, show tupleOf d = n.stream.addr from haddr.symm, hfind hn']
  | false =>
    have hrev : n.stream.addr = (tupleOf d).reversed := haddr
    cases hf : t.findStreamAux hash (tupleOf d) with
    | none => rw [findStream, hf, ← hrev, hfind hn']
    | some b =>
      -- It would be the same stream, and found from the client's side.
      obtain ⟨m, hm, rfl, hm'⟩ := exists_of_findStreamAux hf
      obtain rfl := hi.eq_of_samePair hm hn' (.inr (by rw [hrev, hm', Tuple4.reversed_reversed]))
      cases hfw : (t.without D).findStreamAux hash (tupleOf d) with
      | none => exact absurd hm' ((hi.without D).not_mem_of_findStreamAux hfw hn)
      | some b =>
        rw [findStream, hfw] at h
        cases h

/-- The packet frees a connected stream to port 80, whose timers have not
expired, without a callback. -/
def Drops (hash : Hash) (t : TcpFragment) (p : Packet) : Prop :=
  ∃ a fc s, wellFormed p.ip ∧ t.findStream hash p.ip = some (a, fc) ∧ t.deref a = some s ∧
    (∀ k, ∀ e ∈ t.timeoutSet k, e.aTcp = a → p.timeStamp < e.time) ∧
    DropsStream p fc s (t.work s)

theorem takeAck_stream (p : Packet) (fc : Bool) {w w' : Work} (h : w'.stream = w.stream) :
    (takeAck p fc w').stream = (takeAck p fc w).stream := by
  obtain ⟨s, tcp, fin, cbs⟩ := w
  obtain ⟨s', tcp', fin', cbs'⟩ := w'
  obtain rfl : s' = s := h
  simp only [takeAck, acknowledge, establish]
  repeat' split
  all_goals rfl

theorem DropsStream.congr {fc : Bool} {w w' : Work} (hd : DropsStream p fc s w)
    (h : w'.stream = w.stream) : DropsStream p fc s w' := by
  obtain ⟨hport, hf | ⟨hfirst, ⟨hacc, hdata, hout, hlim⟩, hconn⟩⟩ := hd
  · exact ⟨hport, .inl hf⟩
  · refine ⟨hport, .inr ⟨hfirst, ⟨⟨hacc.syn, h ▸ hacc.window, hacc.rst, ?_⟩, hdata, ?_, h ▸ hlim⟩, ?_⟩⟩
    · rw [takeAck_stream p fc h]
      exact hacc.stillOpen
    · rw [Work.flow, h]
      exact hout
    · rwa [takeAck_stream p fc h]

/-- One packet more. -/
theorem processTcp_agrees {ps : List Packet} (hr : runTcp hash junk ps = some (t, es))
    (h : Agrees g t es http) (hps : ∀ p ∈ ps, p.Sized) (hp : p.Sized) (hno : ¬ Drops hash t p) :
    ∃ t' es' http' rs, t.processTcp hash junk p = some (t', es') ∧
      processTcp g hash junk (t, http) p = some ((t', http'), rs) ∧
      Agrees g t' (es ++ es') http' := by
  have hi := runTcp_inv hr
  obtain ⟨D, t₁, es₁, t', es', hproc, -, hc, hi₁, hstep⟩ := hi.processTcp junk p
  have ht₁ : t₁ = t.without (D.map Prod.fst) := hc.eq
  obtain ⟨http₁, rs₁, hrun₁, h₁, htold₁⟩ := h.ended hi (runTcp_told hr) hc.toEnded p.timeStamp
  have hacc : t₁.Accounted := ht₁ ▸ (runTcp_accounted hps hr).without _
  obtain ⟨http', rs, hrun, h'⟩ := h₁.step hi₁ htold₁ hacc hp hstep fun a fc s hwf hf hd hdrop => by
    refine hno ⟨a, fc, s, hwf, findStream_of_without hi (ht₁ ▸ hf), deref_of_without (ht₁ ▸ hd),
      fun k e he ha => ?_, hdrop.congr rfl⟩
    refine hc.running k e ?_
    rw [ht₁, deref_without] at hd
    rw [ht₁]
    refine mem_timeoutSet_without.mpr ⟨he, fun hm => ?_⟩
    rw [if_pos (ha ▸ hm)] at hd
    cases hd
  refine ⟨t', es₁ ++ es', http', rs₁ ++ rs, hproc, ?_, by rwa [← List.append_assoc]⟩
  rw [processTcp, hproc]
  simp only [Option.bind_eq_bind, Option.bind_some]
  rw [run_append.mpr ⟨http₁, rs₁, http', rs, hrun₁, hrun, rfl⟩]
  rfl

/-- As long as no packet frees a connected stream to port 80 without a
callback, the table of HTTP connections holds exactly the connected streams to
port 80, each with what its own callbacks have made of it; no assertion fails. -/
theorem httpTable_agrees (g : Grammar σ) (hash : Hash) (junk : StreamPtr → TcpStream)
    (ps : List Packet) (hps : ∀ p ∈ ps, p.Sized)
    (h : ∀ i p t, Meets hash junk ps i p t → ¬ Drops hash t p) :
    ∃ t es http rs, runTcp hash junk ps = some (t, es) ∧
      runHttp g hash junk ps = some ((t, http), rs) ∧
      (∀ t4, (http.table t4).isSome ↔
        t4.dest = 80 ∧ ∃ n ∈ t.tcphashmap, n.stream.addr = t4 ∧ n.stream.isconnnection) ∧
      ∀ n ∈ t.tcphashmap, n.stream.addr.dest = 80 →
        ∃ ts, http.table n.stream.addr = entryOf g ts n.stream.addr (callbacksOf n.ptr es) := by
  have hrun : ∃ t es http rs, runTcp hash junk ps = some (t, es) ∧
      runHttp g hash junk ps = some ((t, http), rs) ∧ Agrees g t es http := by
    induction ps using List.reverseRecOn with
    | nil =>
      refine ⟨.empty, [], .empty, [], rfl, rfl, fun a s hd => ?_, fun t4 ht4 => ?_⟩
      · cases hd
      · cases ht4
    | append_singleton ps p ih =>
      have hps' : ∀ q ∈ ps, q.Sized := fun q hq => hps q (List.mem_append_left _ hq)
      obtain ⟨t₀, es₀, hr₀, -⟩ := runTcp_total hash junk ps
      obtain ⟨t, es, http, rs, hr, hr', hag⟩ := ih hps' fun i q t hm =>
        h i q t ((meets_concat hr₀).mpr (.inl hm))
      obtain ⟨t', es', http', rs', hp, hp', hag'⟩ := processTcp_agrees hr hag hps'
        (hps p (List.mem_append_right _ (List.mem_singleton_self p)))
        (h ps.length p t ((meets_concat hr).mpr (.inr ⟨rfl, rfl, rfl⟩)))
      exact ⟨t', es ++ es', http', rs ++ rs', run_concat.mpr ⟨t, es, t', es', hr, hp, rfl⟩,
        run_concat.mpr ⟨(t, http), rs, (t', http'), rs', hr', hp', rfl⟩, hag'⟩
  obtain ⟨t, es, http, rs, hr, hr', hag⟩ := hrun
  have hi := runTcp_inv hr
  refine ⟨t, es, http, rs, hr, hr', fun t4 => ?_, fun n hn => hag.own n.ptr n.stream (hi.deref hn)⟩
  -- The entry of a stream is there while it is connected.
  have hfits (n : Node) (hn : n ∈ t.tcphashmap) (hp : n.stream.addr.dest = 80) :
      (http.table n.stream.addr).isSome ↔ n.stream.isconnnection := by
    have hd := hi.deref hn
    obtain ⟨ts, hown⟩ := hag.own n.ptr n.stream hd hp
    obtain ⟨l, hl⟩ := runTcp_told hr n.ptr
    have hx : Fits (http.table n.stream.addr) l := hown ▸ fits_entryOf hl.after
    refine Iff.trans hx ?_
    rw [(hl.live _ hd).1, TcpStream.life]
    split <;> simp [*]
  constructor
  · intro ht4
    obtain ⟨hp, a, s, hd, rfl⟩ := hag.only t4 ht4
    obtain ⟨n, hn, rfl, rfl⟩ := exists_of_deref hd
    exact ⟨hp, n, hn, rfl, (hfits n hn hp).mp ht4⟩
  · rintro ⟨hp, n, hn, rfl, hconn⟩
    exact (hfits n hn hp).mpr hconn

/-- A packet of the connection from port 1 to port 80. -/
def handshakePacket (fromClient : Bool) (seq ack flags : Byte) : Packet :=
  let d := headersOnly fromClient 1 seq ack flags
  ⟨d, BitVec.ofNat 32 (skblenOf false d), 0⟩

/-- The three packets of a handshake. -/
def handshake : List Packet :=
  [handshakePacket true 1 0 TH_SYN, handshakePacket false 7 2 (TH_SYN ||| TH_ACK),
    handshakePacket true 2 8 TH_ACK]

/-- The grammar of a parser that reports nothing. -/
def Grammar.mute : Grammar Unit :=
  ⟨fun _ => (), fun _ _ => ([], ()), fun _ => none, fun _ => true, fun _ => [], fun _ => 0⟩

theorem httpTable_agrees_handshake : ∃ t es http rs,
    runTcp .plain (fun _ => emptyStream) handshake = some (t, es) ∧
      runHttp .mute .plain (fun _ => emptyStream) handshake = some ((t, http), rs) ∧
      (∀ t4, (http.table t4).isSome ↔
        t4.dest = 80 ∧ ∃ n ∈ t.tcphashmap, n.stream.addr = t4 ∧ n.stream.isconnnection) ∧
      ∀ n ∈ t.tcphashmap, n.stream.addr.dest = 80 →
        ∃ ts, http.table n.stream.addr =
          entryOf .mute ts n.stream.addr (callbacksOf n.ptr es) := by
  refine httpTable_agrees .mute .plain _ handshake (by decide) fun i p t ⟨hp, es, hr⟩ => ?_
  have hp' : p ∈ handshake := List.mem_of_getElem? hp
  rintro ⟨a, fc, s, -, hf, -, -, -, ⟨hfirst, -⟩ | ⟨-, hover, -⟩⟩
  · -- The only packet with a bare SYN comes when the map is empty.
    have hzero : ∀ k < 3, ∀ q, handshake[k]? = some q → isFirst q.ip → k = 0 := by decide
    obtain rfl := hzero i (List.getElem?_eq_some_iff.mp hp).1 p hp hfirst
    cases hr
    cases hf
  · have hno : ∀ q ∈ handshake, ¬ 0 < datalen q.ip + (hasFlag q.ip TH_FIN).toNat := by decide
    exact hno p hp' hover.data

/-- A second SYN frees the connected stream and leaves its entry; when the new
connection is announced, the assertion fails. -/
theorem httpTable_stale :
    ((runHttp .mute .plain (fun _ => emptyStream)
        (handshake ++ [handshakePacket true 1 0 TH_SYN])).any fun r =>
      (r.1.2.table ⟨1, 80, 0x0100000a, 0x0200000a⟩).isSome &&
        r.1.1.tcphashmap.all fun n => !n.stream.isconnnection) = true ∧
      runHttp .mute .plain (fun _ => emptyStream) (handshake ++ handshake) = none := by
  refine ⟨by decide +kernel, ?_⟩
  have h : (runHttp .mute .plain (fun _ => emptyStream) (handshake ++ handshake)).isNone = true := by
    decide +kernel
  exact Option.isNone_iff_eq_none.mp h

end Noff.Http
