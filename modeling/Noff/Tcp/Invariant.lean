import Noff.Lib.Run
import Noff.Tcp.Frame

/-!
# The stream tables

`TcpFragment.Inv`: the timers belong to streams in the map, a stream is stored under
the key of its tuple, no two streams have the same pair of endpoints, and the
map is within its bound. From a state with the invariant `processTcp` never
reads a freed stream, and what it does is one of a few `Step`s
(`processTcp_steps`); each keeps the invariant, so it holds in every state
reached (`processTcp_inv`).
-/

namespace Noff.Tcp

variable {hash : Hash} {junk : StreamPtr → TcpStream}

/-- The two tuples have the same endpoints. -/
def SamePair (a b : Tuple4) : Prop := a = b ∨ a = b.reversed

theorem SamePair.symm {a b : Tuple4} (h : SamePair a b) : SamePair b a := by
  rcases h with rfl | rfl
  · exact .inl rfl
  · exact .inr rfl

theorem SamePair.trans {a b c : Tuple4} (h : SamePair a b) (h' : SamePair b c) : SamePair a c := by
  rcases h with rfl | rfl <;> rcases h' with rfl | rfl
  · exact .inl rfl
  · exact .inr rfl
  · exact .inr rfl
  · exact .inl rfl

namespace TcpFragment

structure Inv (hash : Hash) (t : TcpFragment) : Prop where
  nodup : (t.tcphashmap.map (·.ptr)).Nodup
  lt_next : ∀ n ∈ t.tcphashmap, n.ptr < t.next
  key : ∀ n ∈ t.tcphashmap, n.key = n.stream.hashIndex ∧ n.key = getKey hash n.stream.addr
  timers : ∀ k, ∀ e ∈ t.timeoutSet k, ∃ n ∈ t.tcphashmap, n.ptr = e.aTcp
  pairs : t.tcphashmap.Pairwise fun m n => ¬ SamePair m.stream.addr n.stream.addr
  length : t.tcphashmap.length ≤ tcpStreamTableSize

theorem inv_empty : Inv hash empty :=
  ⟨List.Pairwise.nil, by simp [empty], by simp [empty], by rintro (_ | _) e he <;> simp [empty, timeoutSet] at he,
    List.Pairwise.nil, Nat.zero_le _⟩

variable {t t' : TcpFragment} {a : StreamPtr} {s : TcpStream} {p : Packet}

/-! ## Reading the map -/

theorem Inv.eq_of_ptr (hi : t.Inv hash) {m n : Node} (hm : m ∈ t.tcphashmap)
    (hn : n ∈ t.tcphashmap) (h : m.ptr = n.ptr) : m = n :=
  List.inj_on_of_nodup_map hi.nodup hm hn h

theorem exists_of_deref (h : t.deref a = some s) :
    ∃ n ∈ t.tcphashmap, n.ptr = a ∧ n.stream = s := by
  obtain ⟨n, hn, rfl⟩ := Option.map_eq_some_iff.mp h
  exact ⟨n, List.mem_of_find?_eq_some hn, by simpa using List.find?_some hn, rfl⟩

theorem Inv.deref (hi : t.Inv hash) {n : Node} (hn : n ∈ t.tcphashmap) :
    t.deref n.ptr = some n.stream := by
  obtain ⟨m, hm⟩ := Option.isSome_iff_exists.mp
    (List.find?_isSome.mpr ⟨n, hn, by simp⟩ : (t.tcphashmap.find? (·.ptr = n.ptr)).isSome)
  have he := hi.eq_of_ptr (List.mem_of_find?_eq_some hm) hn (by simpa using List.find?_some hm)
  rw [TcpFragment.deref, hm, he, Option.map_some]

theorem Inv.lt_of_deref (hi : t.Inv hash) (h : t.deref a = some s) : a < t.next := by
  obtain ⟨n, hn, rfl, -⟩ := exists_of_deref h
  exact hi.lt_next n hn

theorem Inv.deref_next (hi : t.Inv hash) : t.deref t.next = none := by
  cases h : t.deref t.next with
  | none => rfl
  | some s => exact absurd (hi.lt_of_deref h) (Nat.lt_irrefl _)

/-- Two streams of the map never have the same endpoints. -/
theorem Inv.eq_of_samePair (hi : t.Inv hash) {m n : Node} (hm : m ∈ t.tcphashmap)
    (hn : n ∈ t.tcphashmap) (h : SamePair m.stream.addr n.stream.addr) : m = n := by
  by_contra hne
  have : Std.Symm fun m n : Node => ¬ SamePair m.stream.addr n.stream.addr :=
    ⟨fun _ _ h h' => h h'.symm⟩
  exact hi.pairs.forall hm hn hne h

/-! ## Removing streams -/

/-- The tables without the streams `D` and their timers. -/
def without (t : TcpFragment) (D : List StreamPtr) : TcpFragment :=
  { t with
    tcphashmap := t.tcphashmap.filter (·.ptr ∉ D)
    tcpTimeoutSet := t.tcpTimeoutSet.filter (·.aTcp ∉ D)
    finTimeoutSet := t.finTimeoutSet.filter (·.aTcp ∉ D) }

theorem mem_without {D : List StreamPtr} {n : Node} :
    n ∈ (t.without D).tcphashmap ↔ n ∈ t.tcphashmap ∧ n.ptr ∉ D := by
  simp [without]

theorem mem_timeoutSet_without {D : List StreamPtr} {k : Timer} {e : Timeout} :
    e ∈ (t.without D).timeoutSet k ↔ e ∈ t.timeoutSet k ∧ e.aTcp ∉ D := by
  cases k <;> simp [without, timeoutSet]

theorem without_nil (t : TcpFragment) : t.without [] = t := by
  simp [without, OrderedSet.filter]

theorem without_append (t : TcpFragment) (D D' : List StreamPtr) :
    t.without (D ++ D') = (t.without D).without D' := by
  simp only [without, List.filter_filter, OrderedSet.filter, TcpFragment.mk.injEq,
    OrderedSet.mk.injEq, and_true]
  refine ⟨?_, ?_, ?_⟩ <;> refine List.filter_congr fun x _ => ?_ <;>
    simp only [List.mem_append, not_or, Bool.decide_and] <;> exact Bool.and_comm ..

theorem Inv.without (hi : t.Inv hash) (D : List StreamPtr) : (t.without D).Inv hash where
  nodup := hi.nodup.sublist (List.filter_sublist.map _)
  lt_next := fun n hn => hi.lt_next n (mem_without.mp hn).1
  key := fun n hn => hi.key n (mem_without.mp hn).1
  timers := fun k e he => by
    obtain ⟨he, hD⟩ := mem_timeoutSet_without.mp he
    obtain ⟨n, hn, ha⟩ := hi.timers k e he
    exact ⟨n, mem_without.mpr ⟨hn, ha ▸ hD⟩, ha⟩
  pairs := hi.pairs.sublist List.filter_sublist
  length := (List.length_filter_le _ _).trans hi.length

/-- `freeTcpstream` removes the stream and its timers. -/
theorem Inv.freeTcpstream (hi : t.Inv hash) (h : t.deref a = some s) :
    t.freeTcpstream a = some (t.without [a]) := by
  obtain ⟨m, hm, rfl, rfl⟩ := exists_of_deref h
  simp only [TcpFragment.freeTcpstream, h, Option.map_some, TcpFragment.without, delTimeout, List.mem_singleton,
    Option.some.injEq, TcpFragment.mk.injEq, and_true, ne_eq]
  refine List.filter_congr fun n hn => decide_eq_decide.mpr ?_
  rw [not_and', not_iff_not.symm, Classical.not_imp, not_not, not_not, and_iff_left_iff_imp]
  intro he
  rw [hi.eq_of_ptr hn hm he]
  exact (hi.key m hm).1

/-- The callback that announces the end of a stream. -/
def ending (t : TcpFragment) (x : StreamPtr × Callback) : List Event :=
  match t.deref x.1 with
  | some s => notifyEnd x.1 s x.2
  | none => []

theorem deref_without {D : List StreamPtr} (b : StreamPtr) :
    (t.without D).deref b = if b ∈ D then none else t.deref b := by
  simp only [TcpFragment.deref, without, List.find?_filter]
  split
  · rename_i h
    rw [List.find?_eq_none.mpr, Option.map_none]
    intro n _
    simp only [decide_eq_true_eq, not_and]
    rintro hn rfl
    exact hn h
  · rename_i h
    congr 2
    funext n
    by_cases hn : n.ptr = b <;> simp [hn, h]

theorem deref_of_without {D : List StreamPtr} (h : (t.without D).deref a = some s) :
    t.deref a = some s := by
  rw [deref_without] at h
  split at h
  · cases h
  · exact h

theorem ending_without {D : List StreamPtr} {x : StreamPtr × Callback} (h : x.1 ∉ D) :
    (t.without D).ending x = t.ending x := by
  rw [ending, deref_without, if_neg h]
  rfl

/-- `t'` is `t` without some streams, whose ends have been announced by the events `es`. -/
structure Ended (t : TcpFragment) (D : List (StreamPtr × Callback)) (t' : TcpFragment)
    (es : List Event) : Prop where
  eq : t' = t.without (D.map Prod.fst)
  events : es = D.flatMap t.ending
  nodup : (D.map Prod.fst).Nodup
  terminal : ∀ x ∈ D, x.2 = .timeout ∨ x.2 = .close

theorem Ended.nil (t : TcpFragment) : t.Ended [] t [] :=
  ⟨(without_nil t).symm, rfl, List.Pairwise.nil, by simp⟩

theorem Ended.append {t₁ t₂ : TcpFragment} {D D' : List (StreamPtr × Callback)}
    {es es' : List Event} (h : t.Ended D t₁ es) (h' : t₁.Ended D' t₂ es')
    (hd : ∀ x ∈ D', x.1 ∉ D.map Prod.fst) : t.Ended (D ++ D') t₂ (es ++ es') where
  eq := by rw [h'.eq, h.eq, List.map_append, without_append]
  events := by
    rw [h'.events, h.events, List.flatMap_append, h.eq]
    congr 1
    exact List.flatMap_congr fun x hx => ending_without (hd x hx)
  nodup := by
    rw [List.map_append, List.nodup_append']
    refine ⟨h.nodup, h'.nodup, fun a ha ha' => ?_⟩
    obtain ⟨x, hx, rfl⟩ := List.mem_map.mp ha'
    exact hd x hx ha
  terminal := fun x hx => (List.mem_append.mp hx).elim (h.terminal x) (h'.terminal x)

/-! ## `tcpChecktimeouts` -/

/-- One of the two loops frees the streams whose timers have expired. -/
theorem Inv.expire (hi : t.Inv hash) (k : Timer) (ts : Int) (es : List Event) :
    ∃ D t' es', expire k ts t es = some (t', es ++ es') ∧ t.Ended D t' es' ∧
      (∀ x ∈ D, ∃ e ∈ t.timeoutSet k, e.aTcp = x.1 ∧ e.time ≤ ts) ∧
      ∀ e ∈ t'.timeoutSet k, ts < e.time := by
  induction hn : (t.timeoutSet k).elems.length using Nat.strong_induction_on generalizing t es with
  | _ n ih =>
    rw [TcpFragment.expire]
    split
    · rename_i he
      refine ⟨[], t, [], by rw [List.append_nil], .nil t, by simp, fun e h => ?_⟩
      rw [← OrderedSet.mem_elems, he] at h
      cases h
    · rename_i it rest he
      have hit : it ∈ t.timeoutSet k := by
        rw [← OrderedSet.mem_elems, he]
        exact List.mem_cons_self ..
      split
      · rename_i hlt
        exact ⟨[], t, [], by rw [List.append_nil], .nil t, by simp, fun e h =>
          lt_of_lt_of_le hlt (OrderedSet.le_of_mem he h)⟩
      · rename_i hle
        -- The stream of the first timer is in the map: it is freed, and the loop goes on.
        obtain ⟨m, hm, hma⟩ := hi.timers k it hit
        have hd : t.deref it.aTcp = some m.stream := hma ▸ hi.deref hm
        have hf := hi.freeTcpstream hd
        have hend : t.Ended [(it.aTcp, k.callback)] (t.without [it.aTcp])
            (notifyEnd it.aTcp m.stream k.callback) := by
          refine ⟨rfl, by simp [ending, hd], List.nodup_singleton _, ?_⟩
          cases k <;> simp [Timer.callback]
        have hlt : ((t.without [it.aTcp]).timeoutSet k).elems.length < n := by
          rw [timeoutSet_freeTcpstream hf, delTimeout, OrderedSet.elems_filter, ← hn, he,
            List.filter_cons_of_neg (by simp), List.length_cons]
          exact Nat.lt_succ_of_le (List.length_filter_le ..)
        obtain ⟨D, t', es', h₁, h₂, h₃, h₄⟩ := ih _ hlt (hi.without [it.aTcp])
          (es ++ notifyEnd it.aTcp m.stream k.callback) rfl
        refine ⟨(it.aTcp, k.callback) :: D, t', notifyEnd it.aTcp m.stream k.callback ++ es', ?_,
          hend.append h₂ fun x hx => ?_, fun x hx => ?_, h₄⟩
        · split
          · rename_i s t₁ hs ht
            rw [hd] at hs
            rw [hf] at ht
            cases hs
            cases ht
            rw [h₁, List.append_assoc]
          · rename_i hno
            exact absurd hf (hno _ _ hd)
        · obtain ⟨e, he', hx', -⟩ := h₃ x hx
          exact hx' ▸ (mem_timeoutSet_without.mp he').2
        · rcases List.mem_cons.mp hx with rfl | hx
          · exact ⟨it, hit, rfl, not_lt.mp hle⟩
          · obtain ⟨e, he', h⟩ := h₃ x hx
            exact ⟨e, (mem_timeoutSet_without.mp he').1, h⟩

/-- `tcpChecktimeouts` frees exactly the streams of which a timer has expired. -/
structure Checked (t : TcpFragment) (ts : Int) (D : List (StreamPtr × Callback)) (t' : TcpFragment)
    (es : List Event) : Prop extends Ended t D t' es where
  expired : ∀ x ∈ D, ∃ k, ∃ e ∈ t.timeoutSet k, e.aTcp = x.1 ∧ e.time ≤ ts
  running : ∀ k, ∀ e ∈ t'.timeoutSet k, ts < e.time

theorem Inv.tcpChecktimeouts (hi : t.Inv hash) (ts : Int) :
    ∃ D t' es, t.tcpChecktimeouts ts = some (t', es) ∧ t.Checked ts D t' es := by
  obtain ⟨D₁, t₁, es₁, h₁, he₁, hx₁, hr₁⟩ := hi.expire .tcp ts []
  obtain ⟨D₂, t₂, es₂, h₂, he₂, hx₂, hr₂⟩ := (he₁.eq ▸ hi.without _ : t₁.Inv hash).expire .fin ts es₁
  have hmem {k : Timer} {e : Timeout} (h : e ∈ t₁.timeoutSet k) : e ∈ t.timeoutSet k := by
    rw [he₁.eq] at h
    exact (mem_timeoutSet_without.mp h).1
  refine ⟨D₁ ++ D₂, t₂, es₁ ++ es₂, ?_, he₁.append he₂ fun x hx => ?_, fun x hx => ?_, fun k e he => ?_⟩
  · rw [TcpFragment.tcpChecktimeouts, h₁]
    exact h₂
  · obtain ⟨e, he, hx', -⟩ := hx₂ x hx
    rw [he₁.eq] at he
    exact hx' ▸ (mem_timeoutSet_without.mp he).2
  · rcases List.mem_append.mp hx with hx | hx
    · exact ⟨.tcp, hx₁ x hx⟩
    · obtain ⟨e, he, h⟩ := hx₂ x hx
      exact ⟨.fin, e, hmem he, h⟩
  · cases k with
    | tcp =>
      rw [he₂.eq] at he
      exact hr₁ e (mem_timeoutSet_without.mp he).1
    | fin => exact hr₂ e he

/-! ## Finding a stream -/

theorem exists_of_findStreamAux {addr : Tuple4} (h : t.findStreamAux hash addr = some a) :
    ∃ n ∈ t.tcphashmap, n.ptr = a ∧ n.stream.addr = addr := by
  obtain ⟨n, hn, rfl⟩ := Option.map_eq_some_iff.mp h
  have hm := List.mem_of_getLast? hn
  simp only [List.mem_filter, decide_eq_true_eq] at hm
  exact ⟨n, hm.1, rfl, hm.2.2⟩

theorem Inv.not_mem_of_findStreamAux (hi : t.Inv hash) {addr : Tuple4}
    (h : t.findStreamAux hash addr = none) {n : Node} (hn : n ∈ t.tcphashmap) :
    n.stream.addr ≠ addr := by
  rintro rfl
  rw [findStreamAux, Option.map_eq_none_iff, List.getLast?_eq_none_iff,
    List.filter_eq_nil_iff] at h
  exact h n hn (by simp [(hi.key n hn).2])

/-- What `findStream` finds is in the map, and is the stream of the packet's
tuple or of the reversed one. -/
theorem exists_of_findStream {d : List Byte} {fc : Bool} (h : t.findStream hash d = some (a, fc)) :
    ∃ n ∈ t.tcphashmap, n.ptr = a ∧
      n.stream.addr = if fc then tupleOf d else (tupleOf d).reversed := by
  rw [findStream] at h
  split at h
  · rename_i hf
    cases h
    exact exists_of_findStreamAux hf
  · split at h
    · rename_i hf
      cases h
      exact exists_of_findStreamAux hf
    · cases h

theorem Inv.not_samePair (hi : t.Inv hash) {d : List Byte} (h : t.findStream hash d = none)
    {n : Node} (hn : n ∈ t.tcphashmap) : ¬ SamePair n.stream.addr (tupleOf d) := by
  rw [findStream] at h
  split at h
  · cases h
  · rename_i hf
    split at h
    · cases h
    · rename_i hf'
      exact not_or.mpr ⟨hi.not_mem_of_findStreamAux hf hn, hi.not_mem_of_findStreamAux hf' hn⟩

/-! ## Adding a stream -/

/-- The tables with the stream of a first packet, and its timer. -/
def create (hash : Hash) (junk : StreamPtr → TcpStream) (t : TcpFragment) (p : Packet) :
    TcpFragment :=
  { t.insert (newStream hash (junk t.next) p.ip p.timeStamp) with
    tcpTimeoutSet := addTcptimeout t.tcpTimeoutSet t.next p.timeStamp }

/-- The lookup that follows the insertion finds the new stream. -/
theorem findStreamAux_insert (t : TcpFragment) (d : List Byte) (ts : Int) :
    (t.insert (newStream hash (junk t.next) d ts)).findStreamAux hash (tupleOf d) = some t.next := by
  have : (newStream hash (junk t.next) d ts).addr = tupleOf d ∧
      (newStream hash (junk t.next) d ts).hashIndex = getKey hash (tupleOf d) := ⟨rfl, rfl⟩
  rw [findStreamAux, TcpFragment.insert, List.filter_append,
    List.filter_cons_of_pos (by simp [this]), List.filter_nil, List.getLast?_concat]
  rfl

theorem addNewtcp_of_lt (h : t.tcphashmap.length < tcpStreamTableSize) :
    t.addNewtcp hash junk p.ip p.timeStamp = (t.create hash junk p, []) := by
  rw [addNewtcp, if_neg (Nat.not_le.mpr h)]
  dsimp only
  rw [findStreamAux_insert]
  rfl

/-- All streams, as `clearAllStream` ends them. -/
def everyStream (t : TcpFragment) : List (StreamPtr × Callback) :=
  t.tcphashmap.map fun n => (n.ptr, .timeout)

theorem tcphashmap_tcpExit (t : TcpFragment) : t.tcpExit.tcphashmap = [] := by
  rw [tcpExit]
  split
  · assumption
  · rfl

theorem Inv.clearAllStream (hi : t.Inv hash) :
    t.Ended t.everyStream t.clearAllStream.1 t.clearAllStream.2 := by
  have hptr : t.everyStream.map Prod.fst = t.tcphashmap.map (·.ptr) := by
    simp [everyStream, Function.comp_def]
  have hev : t.everyStream.flatMap t.ending =
      t.tcphashmap.flatMap fun n => notifyEnd n.ptr n.stream .timeout := by
    rw [everyStream, List.flatMap_map]
    exact List.flatMap_congr fun n hn => by rw [ending, hi.deref hn]
  refine ⟨?_, by rw [hev]; rfl, hptr ▸ hi.nodup, by simp [everyStream]⟩
  rw [TcpFragment.clearAllStream, tcpExit]
  split
  · -- An empty map is left as it is; it has no timers.
    rename_i he
    rw [everyStream, he]
    exact (without_nil t).symm
  · have hset (k : Timer) : (t.timeoutSet k).filter (·.aTcp ∉ t.everyStream.map Prod.fst) = ∅ := by
      refine OrderedSet.ext_mem fun e => ?_
      simp only [OrderedSet.mem_filter, decide_eq_true_eq, OrderedSet.not_mem_empty, iff_false,
        not_and, not_not, hptr]
      intro he
      obtain ⟨n, hn, ha⟩ := hi.timers k e he
      exact ha ▸ List.mem_map_of_mem hn
    have hmap : t.tcphashmap.filter (·.ptr ∉ t.everyStream.map Prod.fst) = [] := by
      rw [List.filter_eq_nil_iff, hptr]
      intro n hn
      simpa using List.mem_map_of_mem hn
    have h₁ := hset .tcp
    have h₂ := hset .fin
    simp only [timeoutSet] at h₁ h₂
    rw [TcpFragment.without, h₁, h₂, hmap]

theorem addNewtcp_of_le (h : tcpStreamTableSize ≤ t.tcphashmap.length) :
    t.addNewtcp hash junk p.ip p.timeStamp =
      (t.clearAllStream.1.create hash junk p, t.clearAllStream.2) := by
  rw [addNewtcp, if_pos h]
  dsimp only
  rw [findStreamAux_insert]
  rfl

theorem Inv.create (hi : t.Inv hash) (hlt : t.tcphashmap.length < tcpStreamTableSize)
    (hno : ∀ n ∈ t.tcphashmap, ¬ SamePair n.stream.addr (tupleOf p.ip)) :
    (t.create hash junk p).Inv hash where
  nodup := by
    simp only [TcpFragment.create, insert, List.map_append, List.map_cons, List.map_nil]
    refine List.nodup_append'.mpr ⟨hi.nodup, List.nodup_singleton _, fun a ha ha' => ?_⟩
    obtain ⟨n, hn, rfl⟩ := List.mem_map.mp ha
    exact absurd (List.mem_singleton.mp ha') (Nat.ne_of_lt (hi.lt_next n hn))
  lt_next := fun n hn => by
    rcases List.mem_append.mp hn with hn | hn
    · exact Nat.lt_succ_of_lt (hi.lt_next n hn)
    · rw [List.mem_singleton.mp hn]
      exact Nat.lt_succ_self _
  key := fun n hn => by
    rcases List.mem_append.mp hn with hn | hn
    · exact hi.key n hn
    · rw [List.mem_singleton.mp hn]
      exact ⟨rfl, rfl⟩
  timers := fun k e he => by
    have hold : e ∈ t.timeoutSet k → ∃ n ∈ (t.create hash junk p).tcphashmap, n.ptr = e.aTcp := by
      intro he
      obtain ⟨n, hn, ha⟩ := hi.timers k e he
      exact ⟨n, List.mem_append_left _ hn, ha⟩
    cases k with
    | tcp =>
      rcases OrderedSet.mem_of_mem_insert he with he | rfl
      · exact hold he
      · exact ⟨_, List.mem_append_right _ (List.mem_singleton_self _), rfl⟩
    | fin => exact hold he
  pairs := by
    refine List.pairwise_append.mpr ⟨hi.pairs, List.pairwise_singleton _ _, fun m hm n hn => ?_⟩
    rw [List.mem_singleton.mp hn]
    exact hno m hm
  length := by
    rw [TcpFragment.create, insert, List.length_append]
    exact hlt

theorem Inv.deref_create (hi : t.Inv hash) (b : StreamPtr) :
    (t.create hash junk p).deref b =
      if b = t.next then some (newStream hash (junk t.next) p.ip p.timeStamp) else t.deref b := by
  simp only [TcpFragment.deref, TcpFragment.create, insert, List.find?_append]
  split
  · rename_i h
    rw [List.find?_eq_none.mpr, Option.none_or, h, List.find?_cons_of_pos (by simp)]
    · rfl
    · intro n hn
      simpa [h] using Nat.ne_of_lt (hi.lt_next n hn)
  · rename_i h
    rw [List.find?_cons_of_neg (by simpa using Ne.symm h), List.find?_nil, Option.or_none]

/-! ## Changing a stream -/

section

variable {w : Work}

theorem deref_conclude (hd : t.deref a = some s) (b : StreamPtr) :
    (t.conclude a w).1.deref b = if b = a then some w.stream else t.deref b := by
  have hp : (fun n : Node => decide (n.ptr = b)) ∘
      (fun n => if n.ptr = a then { n with stream := w.stream } else n) =
      fun n : Node => decide (n.ptr = b) := by
    funext n
    simp only [Function.comp_apply]
    split <;> rfl
  simp only [TcpFragment.deref, conclude, modify, List.find?_map, hp, Option.map_map]
  split
  · rename_i h
    subst h
    obtain ⟨n, hn, -⟩ := Option.map_eq_some_iff.mp hd
    have hb : n.ptr = b := by simpa using List.find?_some hn
    rw [hn]
    simp [hb]
  · rename_i h
    cases hn : t.tcphashmap.find? (·.ptr = b) with
    | none => rfl
    | some n =>
      have hb : n.ptr = b := by simpa using List.find?_some hn
      simp [hb, h]

theorem mem_conclude {n : Node} :
    n ∈ (t.conclude a w).1.tcphashmap ↔
      ∃ m ∈ t.tcphashmap, n = if m.ptr = a then { m with stream := w.stream } else m := by
  simp only [conclude, modify, List.mem_map, eq_comm]

theorem map_ptr_conclude : (t.conclude a w).1.tcphashmap.map (·.ptr) = t.tcphashmap.map (·.ptr) := by
  simp only [conclude, modify, List.map_map]
  refine List.map_congr_left fun n _ => ?_
  simp only [Function.comp_apply]
  split <;> rfl

/-- A stream stays where it is; the tuples are all the same after. -/
theorem Inv.conclude (hi : t.Inv hash) {ts : Int} (hd : t.deref a = some s)
    (hw : (t.work s).Frames a ts w) : (t.conclude a w).1.Inv hash := by
  obtain ⟨m, hm, rfl, rfl⟩ := exists_of_deref hd
  have haddr : ∀ n ∈ t.tcphashmap,
      (if n.ptr = m.ptr then { n with stream := w.stream } else n : Node).stream.addr =
        n.stream.addr := by
    intro n hn
    split
    · rename_i he
      rw [hi.eq_of_ptr hn hm he]
      exact hw.addr
    · rfl
  refine ⟨by rw [map_ptr_conclude]; exact hi.nodup, fun x hx => ?_, fun x hx => ?_, fun k e he => ?_,
    ?_, ?_⟩
  · obtain ⟨n, hn, rfl⟩ := mem_conclude.mp hx
    split <;> exact hi.lt_next n hn
  · obtain ⟨n, hn, rfl⟩ := mem_conclude.mp hx
    rw [haddr n hn]
    split
    · rename_i he
      obtain rfl := hi.eq_of_ptr hn hm he
      exact ⟨(hi.key n hn).1.trans hw.hashIndex.symm, (hi.key n hn).2⟩
    · exact hi.key n hn
  · have hold : (∃ n ∈ t.tcphashmap, n.ptr = e.aTcp) →
        ∃ n ∈ (t.conclude m.ptr w).1.tcphashmap, n.ptr = e.aTcp := by
      rintro ⟨n, hn, ha⟩
      exact ⟨_, mem_conclude.mpr ⟨n, hn, rfl⟩, by split <;> exact ha⟩
    by_cases ha : e.aTcp = m.ptr
    · exact hold ⟨m, hm, ha.symm⟩
    · -- A timer of another stream was there before.
      refine hold (hi.timers k e ?_)
      cases k with
      | tcp => exact (mem_delTimeout.mp (hw.delTcp ▸ mem_delTimeout.mpr ⟨he, ha⟩)).1
      | fin => exact (mem_delTimeout.mp (hw.delFin ▸ mem_delTimeout.mpr ⟨he, ha⟩)).1
  · refine List.pairwise_map.mpr (hi.pairs.imp_of_mem fun {x y} hx hy h => ?_)
    rw [haddr x hx, haddr y hy]
    exact h
  · rw [TcpFragment.conclude, modify, List.length_map]
    exact hi.length

/-- A stream that is freed after its work goes with all that the work has changed. -/
theorem Inv.conclude_free (hi : t.Inv hash) {ts : Int} (hd : t.deref a = some s)
    (hw : (t.work s).Frames a ts w) :
    (t.conclude a w).1.freeTcpstream a = some (t.without [a]) := by
  have hi' := hi.conclude hd hw
  obtain ⟨m, hm, rfl, rfl⟩ := exists_of_deref hd
  have hd' := hi'.deref (mem_conclude.mpr ⟨m, hm, rfl⟩)
  rw [if_pos rfl] at hd'
  have hnode : (t.tcphashmap.map fun n => if n.ptr = m.ptr then { n with stream := w.stream } else n :
      List Node).filter (·.ptr ∉ [m.ptr]) = t.tcphashmap.filter (·.ptr ∉ [m.ptr]) := by
    rw [List.filter_map]
    have hp : ((fun n : Node => decide (n.ptr ∉ [m.ptr])) ∘
        fun n => if n.ptr = m.ptr then { n with stream := w.stream } else n) =
        fun n : Node => decide (n.ptr ∉ [m.ptr]) := by
      funext n
      simp only [Function.comp_apply]
      split <;> rfl
    rw [hp, List.map_congr_left (g := id), List.map_id]
    intro n hn
    simp only [List.mem_filter, List.mem_singleton, decide_eq_true_eq] at hn
    exact if_neg hn.2
  have htcp := hw.delTcp
  have hfin := hw.delFin
  rw [hi'.freeTcpstream hd', TcpFragment.without, TcpFragment.without, TcpFragment.conclude, modify]
  simp only [delTimeout, work, ne_eq, List.mem_singleton] at htcp hfin hnode ⊢
  rw [hnode, htcp, hfin]

end

/-! ## What a packet does -/

/-- What `processPacket` can do to the tables, and the callbacks it invokes. -/
inductive Step (hash : Hash) (junk : StreamPtr → TcpStream) (t : TcpFragment) (p : Packet) :
    TcpFragment → List Event → Prop where
  | ignored (h : wellFormed p.ip = false ∨ t.findStream hash p.ip = none) : Step hash junk t p t []
  | created (hwf : wellFormed p.ip) (hf : t.findStream hash p.ip = none) (h : isFirst p.ip)
    (hlt : t.tcphashmap.length < tcpStreamTableSize) :
    Step hash junk t p (t.create hash junk p) []
  /-- A full table is cleared first. -/
  | cleared (hwf : wellFormed p.ip) (hf : t.findStream hash p.ip = none) (h : isFirst p.ip)
    (hle : tcpStreamTableSize ≤ t.tcphashmap.length) :
    Step hash junk t p (t.clearAllStream.1.create hash junk p) t.clearAllStream.2
  /-- The stream gives way to a new one, without a callback. -/
  | replaced {a : StreamPtr} {fc : Bool} (hwf : wellFormed p.ip)
    (hf : t.findStream hash p.ip = some (a, fc)) (h : isFirst p.ip) : Step hash junk t p ((t.without [a]).create hash junk p) []
  | kept {a : StreamPtr} {fc : Bool} {s : TcpStream} {w : Work} (hwf : wellFormed p.ip)
    (hf : t.findStream hash p.ip = some (a, fc)) (hd : t.deref a = some s)
    (hw : Stages a p fc (t.work s) (.keep w)) :
    Step hash junk t p (t.conclude a w).1 (t.conclude a w).2
  | freed {a : StreamPtr} {fc : Bool} {s : TcpStream} {w : Work} (hwf : wellFormed p.ip)
    (hf : t.findStream hash p.ip = some (a, fc)) (hd : t.deref a = some s)
    (hw : Stages a p fc (t.work s) (.free w)) :
    Step hash junk t p (t.without [a]) (t.conclude a w).2

theorem length_without_lt {n : Node} (hn : n ∈ t.tcphashmap) :
    (t.without [n.ptr]).tcphashmap.length < t.tcphashmap.length :=
  List.length_filter_lt_length_iff_exists.mpr ⟨n, hn, by simp⟩

variable (junk) in
theorem Inv.processPacket (hi : t.Inv hash) (p : Packet) :
    ∃ t' es, t.processPacket hash junk p = some (t', es) ∧ Step hash junk t p t' es := by
  rw [TcpFragment.processPacket]
  split
  · rename_i h
    exact ⟨t, [], rfl, .ignored (.inl (by simpa using h))⟩
  · rename_i hwf
    have hwf : wellFormed p.ip := by simpa using hwf
    split
    · rename_i hf
      split
      · rename_i h
        by_cases hlt : t.tcphashmap.length < tcpStreamTableSize
        · exact ⟨_, _, congrArg some (addNewtcp_of_lt hlt), .created hwf hf h hlt⟩
        · have hle := Nat.not_lt.mp hlt
          exact ⟨_, _, congrArg some (addNewtcp_of_le hle), .cleared hwf hf h hle⟩
      · exact ⟨t, [], rfl, .ignored (.inr hf)⟩
    · rename_i a fc hf
      obtain ⟨n, hn, rfl, haddr⟩ := exists_of_findStream hf
      have hd := hi.deref hn
      split
      · rename_i h
        have hlt := (length_without_lt hn).trans_le hi.length
        refine ⟨_, _, ?_, .replaced hwf hf h⟩
        rw [hi.freeTcpstream hd]
        exact congrArg some (addNewtcp_of_lt hlt)
      · rename_i h
        have hst := processStream_stages (a := n.ptr) (p := p) (Bool.not_eq_true _ ▸ h) fc (t.work n.stream)
        rw [hd]
        simp only [Option.bind_eq_bind, Option.bind_some]
        split
        · rename_i w hw
          exact ⟨_, _, rfl, .kept hwf hf hd (hw ▸ hst)⟩
        · rename_i w hw
          have hfree : (t.conclude n.ptr w).1.freeTcpstream n.ptr = some (t.without [n.ptr]) :=
            hi.conclude_free hd (hw ▸ hst : Stages _ _ _ _ (.free w)).frames
          exact ⟨_, _, by rw [hfree]; rfl, .freed hwf hf hd (hw ▸ hst)⟩
        · rename_i w hw
          rw [hw] at hst
          cases hst

theorem Inv.step (hi : t.Inv hash) {es : List Event} (h : Step hash junk t p t' es) :
    t'.Inv hash := by
  cases h with
  | ignored => exact hi
  | created _ hf _ hlt => exact hi.create hlt fun n hn => hi.not_samePair hf hn
  | cleared _ hf _ hle =>
    have he := hi.clearAllStream.eq
    refine (he ▸ hi.without _ : t.clearAllStream.1.Inv hash).create ?_ fun n hn => ?_
    · rw [TcpFragment.clearAllStream, tcphashmap_tcpExit]
      exact Nat.zero_lt_of_lt (by decide : 0 < tcpStreamTableSize)
    · rw [he] at hn
      exact hi.not_samePair hf (mem_without.mp hn).1
  | @replaced a fc _ hf _ =>
    obtain ⟨n, hn, rfl, haddr⟩ := exists_of_findStream hf
    refine (hi.without _).create ((length_without_lt hn).trans_le hi.length) fun m hm => ?_
    obtain ⟨hm, hne⟩ := mem_without.mp hm
    -- The stream found was the only one with these endpoints.
    intro h
    have hn' : SamePair (tupleOf p.ip) n.stream.addr := by
      rw [haddr]
      split
      · exact .inl rfl
      · exact .inr rfl
    rw [hi.eq_of_samePair hm hn (h.trans hn')] at hne
    exact hne (List.mem_singleton_self _)
  | kept _ _ hd hw => exact hi.conclude hd hw.frames
  | freed => exact hi.without _

variable (junk) in
/-- `processTcp`: the timers first, then the packet. -/
theorem Inv.processTcp (hi : t.Inv hash) (p : Packet) :
    ∃ D t₁ es₁ t' es, t.processTcp hash junk p = some (t', es₁ ++ es) ∧
      t.tcpChecktimeouts p.timeStamp = some (t₁, es₁) ∧ t.Checked p.timeStamp D t₁ es₁ ∧
      t₁.Inv hash ∧ Step hash junk t₁ p t' es := by
  obtain ⟨D, t₁, es₁, h₁, hc⟩ := hi.tcpChecktimeouts p.timeStamp
  have hi₁ : t₁.Inv hash := hc.eq ▸ hi.without _
  obtain ⟨t', es, h₂, hs⟩ := hi₁.processPacket junk p
  refine ⟨D, t₁, es₁, t', es, ?_, h₁, hc, hi₁, hs⟩
  rw [TcpFragment.processTcp, h₁]
  simp only [Option.bind_eq_bind, Option.bind_some, h₂, Option.pure_def]

/-- A stream that is there after the packet was there before, or is new. -/
theorem Step.old_or_new (hi : t.Inv hash) {es : List Event} (hs : Step hash junk t p t' es)
    (hd : t'.deref a = some s) : t.deref a ≠ none ∨ a = t.next := by
  have hcreate {u : TcpFragment} {D : List StreamPtr} (hu : u = t.without D)
      (hd : (u.create hash junk p).deref a = some s) : t.deref a ≠ none ∨ a = t.next := by
    subst hu
    rw [(hi.without D).deref_create] at hd
    split at hd
    · rename_i ha
      exact .inr ha
    · exact .inl (by rw [deref_of_without hd]; simp)
  cases hs with
  | ignored => exact .inl (by rw [hd]; simp)
  | created => exact hcreate (without_nil t).symm hd
  | cleared => exact hcreate hi.clearAllStream.eq hd
  | replaced => exact hcreate rfl hd
  | kept _ _ hd₀ =>
    rw [deref_conclude hd₀] at hd
    split at hd
    · rename_i ha
      exact .inl (by rw [ha, hd₀]; simp)
    · exact .inl (by rw [hd]; simp)
  | freed => exact .inl (by rw [deref_of_without hd]; simp)

end TcpFragment

/-- The state and the callbacks after the packets `ps`. -/
def runTcp (hash : Hash) (junk : StreamPtr → TcpStream) (ps : List Packet) :
    Option (TcpFragment × List Event) :=
  run (TcpFragment.processTcp hash junk) TcpFragment.empty ps

/-- Every packet is processed, whatever came before it. -/
theorem runTcp_total (hash : Hash) (junk : StreamPtr → TcpStream) (ps : List Packet) :
    ∃ t es, runTcp hash junk ps = some (t, es) ∧ t.Inv hash := by
  refine run_total TcpFragment.inv_empty (fun t p hi => ?_) ps
  obtain ⟨D, t₁, es₁, t', es, h, -, -, hi₁, hs⟩ := hi.processTcp junk p
  exact ⟨t', es₁ ++ es, h, hi₁.step hs⟩

theorem runTcp_inv {ps : List Packet} {t : TcpFragment} {es : List Event}
    (h : runTcp hash junk ps = some (t, es)) : t.Inv hash := by
  obtain ⟨t', es', h', hi⟩ := runTcp_total hash junk ps
  rw [h] at h'
  cases h'
  exact hi

/-- Packet `i` of the run is `p`, and the tables are `t` when it comes. -/
def Meets (hash : Hash) (junk : StreamPtr → TcpStream) (ps : List Packet) (i : Nat) (p : Packet)
    (t : TcpFragment) : Prop := ps[i]? = some p ∧ ∃ es, runTcp hash junk (ps.take i) = some (t, es)

theorem Meets.lt {ps : List Packet} {i : Nat} {p : Packet} {t : TcpFragment}
    (h : Meets hash junk ps i p t) : i < ps.length := (List.getElem?_eq_some_iff.mp h.1).1

/-- One packet more meets the tables that the run has led to. -/
theorem meets_concat {ps : List Packet} {p q : Packet} {i : Nat} {t t' : TcpFragment}
    {es : List Event} (hr : runTcp hash junk ps = some (t, es)) :
    Meets hash junk (ps ++ [p]) i q t' ↔
      Meets hash junk ps i q t' ∨ i = ps.length ∧ q = p ∧ t' = t := by
  constructor
  · rintro ⟨hq, es', hr'⟩
    rcases Nat.lt_trichotomy i ps.length with hlt | rfl | hgt
    · rw [List.getElem?_append_left hlt] at hq
      rw [List.take_append_of_le_length hlt.le] at hr'
      exact .inl ⟨hq, es', hr'⟩
    · rw [List.getElem?_concat_length] at hq
      rw [List.take_left, hr] at hr'
      cases hq
      cases hr'
      exact .inr ⟨rfl, rfl, rfl⟩
    · rw [List.getElem?_eq_none (by rw [List.length_append]; exact hgt)] at hq
      cases hq
  · rintro (h | ⟨rfl, rfl, rfl⟩)
    · have hlt := h.lt
      obtain ⟨hq, es', hr'⟩ := h
      refine ⟨by rw [List.getElem?_append_left hlt, hq], es', ?_⟩
      rw [List.take_append_of_le_length hlt.le, hr']
    · exact ⟨List.getElem?_concat_length, es, by rw [List.take_left, hr]⟩

/-- In every state that packets can lead to, the tables are consistent, and
checking the timers at any time reads no freed stream and ends. -/
theorem streamTables_consistent (hash : Hash) (junk : StreamPtr → TcpStream) (ps : List Packet) :
    ∃ t es, runTcp hash junk ps = some (t, es) ∧
      (∀ e, e ∈ t.tcpTimeoutSet ∨ e ∈ t.finTimeoutSet → ∃ n ∈ t.tcphashmap, n.ptr = e.aTcp) ∧
      (∀ n ∈ t.tcphashmap, n.key = getKey hash n.stream.addr ∧ n.stream.hashIndex = n.key) ∧
      t.tcphashmap.Pairwise (fun m n => ¬ SamePair m.stream.addr n.stream.addr) ∧
      (∀ addr a b, t.findStreamAux hash addr = some a →
        t.findStreamAux hash addr.reversed = some b → a = b) ∧
      t.tcphashmap.length ≤ tcpStreamTableSize ∧
      ∀ ts, (t.tcpChecktimeouts ts).isSome := by
  obtain ⟨t, es, h, hi⟩ := runTcp_total hash junk ps
  refine ⟨t, es, h, fun e he => ?_, fun n hn => ⟨(hi.key n hn).2, (hi.key n hn).1.symm⟩, hi.pairs,
    fun addr a b ha hb => ?_, hi.length, fun ts => ?_⟩
  · rcases he with he | he
    · exact hi.timers .tcp e he
    · exact hi.timers .fin e he
  · obtain ⟨m, hm, rfl, hma⟩ := TcpFragment.exists_of_findStreamAux ha
    obtain ⟨n, hn, rfl, hna⟩ := TcpFragment.exists_of_findStreamAux hb
    rw [hi.eq_of_samePair hm hn (.inr (by rw [hma, hna, Tuple4.reversed_reversed]))]
  · obtain ⟨D, t', es', h', -⟩ := hi.tcpChecktimeouts ts
    rw [h']
    rfl

end Noff.Tcp
