import Noff.App.Sessions

/-!
# What sessions report

Every session that is made is reported once, or is still in the map; and what is
reported has counted the packets of its connection from the one on that made it, each of
them once (`sessions_reported`). A counter is a 32-bit number, which for fewer than
`2^31` packets is how many there are (`Counters.exact_of`). A packet too short to be looked at may come
first, and a negative timestamp after it (`not_reported_negative`).
-/

namespace Noff

/-! ## What the counters say -/

/-- The counters for some packets in one direction, as 32-bit numbers. -/
def Counters.of (ps : List TcpData) : Counters where
  flowSize := BitVec.ofInt 32 (ps.map (·.size)).sum
  packetNum := BitVec.ofNat 32 ps.length
  syn := BitVec.ofNat 32 (ps.countP (·.flag &&& TH_SYN != 0))
  fin := BitVec.ofNat 32 (ps.countP (·.flag &&& TH_FIN != 0))
  psh := BitVec.ofNat 32 (ps.countP (·.flag &&& TH_PUSH != 0))
  rst := BitVec.ofNat 32 (ps.countP (·.flag &&& TH_RST != 0))
  smallPacketNum := BitVec.ofNat 32 (ps.countP (·.size ≤ 64))

/-- A packet of the session of `t4`, in the direction of its first packet. -/
def TcpData.isUp (t4 : Tuple4) (p : TcpData) : Bool := p.accepted && p.t4 = t4

/-- A packet in the other direction. -/
def TcpData.isDown (t4 : Tuple4) (p : TcpData) : Bool :=
  p.accepted && p.t4 ≠ t4 && p.t4 = t4.reversed

theorem Counters.of_concat (ps : List TcpData) (p : TcpData) :
    Counters.of (ps ++ [p]) = (Counters.of ps).add p.size p.flag := by
  have hcount (f : TcpData → Bool) : BitVec.ofNat 32 ((ps ++ [p]).countP f) =
      if f p then BitVec.ofNat 32 (ps.countP f) + 1 else BitVec.ofNat 32 (ps.countP f) := by
    rw [List.countP_append, List.countP_singleton]
    split
    · rw [BitVec.ofNat_add]
      rfl
    · rw [Nat.add_zero]
  rw [Counters.of, Counters.add]
  simp only [hcount, List.map_append, List.sum_append, List.length_append, BitVec.ofInt_add,
    BitVec.ofNat_add, List.map_singleton, List.sum_singleton]
  congr 1
  by_cases hsmall : p.size ≤ 64
  · rw [decide_eq_true hsmall, if_pos rfl, if_pos hsmall]
    rfl
  · rw [decide_eq_false hsmall, if_neg (by decide), if_neg hsmall, add_zero]
    rfl

/-- The counters are the numbers themselves. -/
structure Counters.Exact (c : Counters) (ps : List TcpData) : Prop where
  flowSize : -2 ^ 31 ≤ (ps.map (·.size)).sum → (ps.map (·.size)).sum < 2 ^ 31 →
    c.flowSize.toInt = (ps.map (·.size)).sum
  packetNum : c.packetNum.toInt = ps.length
  syn : c.syn.toInt = ps.countP (·.flag &&& TH_SYN != 0)
  fin : c.fin.toInt = ps.countP (·.flag &&& TH_FIN != 0)
  psh : c.psh.toInt = ps.countP (·.flag &&& TH_PUSH != 0)
  rst : c.rst.toInt = ps.countP (·.flag &&& TH_RST != 0)
  smallPacketNum : c.smallPacketNum.toInt = ps.countP (·.size ≤ 64)

theorem Counters.exact_of {ps : List TcpData} (h : ps.length < 2 ^ 31) :
    (Counters.of ps).Exact ps := by
  have hcount (f : TcpData → Bool) : (BitVec.ofNat 32 (ps.countP f)).toInt = ps.countP f :=
    toInt_ofNat_of_lt (Nat.lt_of_le_of_lt List.countP_le_length h)
  refine ⟨fun hlo hhi => ?_, toInt_ofNat_of_lt h, hcount _, hcount _, hcount _, hcount _, hcount _⟩
  rw [Counters.of, BitVec.toInt_ofInt, Int.bmod_def]
  omega

/-- The counters of a session are those of the packets `ps`, by their directions. -/
structure SessionData.Counts (data : SessionData) (ps : List TcpData) : Prop where
  up : data.up = .of (ps.filter (·.isUp data.t4))
  down : data.down = .of (ps.filter (·.isDown data.t4))

/-- They are so as numbers, for fewer than `2^31` packets. -/
structure SessionData.Exact (data : SessionData) (ps : List TcpData) : Prop where
  up : (ps.filter (·.isUp data.t4)).length < 2 ^ 31 →
    data.up.Exact (ps.filter (·.isUp data.t4))
  down : (ps.filter (·.isDown data.t4)).length < 2 ^ 31 →
    data.down.Exact (ps.filter (·.isDown data.t4))

theorem SessionData.Counts.exact {data : SessionData} {ps : List TcpData} (h : data.Counts ps) :
    data.Exact ps :=
  ⟨fun hl => h.up ▸ Counters.exact_of hl, fun hl => h.down ▸ Counters.exact_of hl⟩

namespace SessionData.Counts

variable {data data' : SessionData} {ps : List TcpData} {p : TcpData}

theorem create (t4 : Tuple4) (timeStamp : Timeval) : (SessionData.create t4 timeStamp).Counts [] :=
  ⟨rfl, rfl⟩

theorem of_eq (h : data.Counts ps) (ht : data'.t4 = data.t4) (hu : data'.up = data.up)
    (hd : data'.down = data.down) : data'.Counts ps :=
  ⟨by rw [hu, ht, h.up], by rw [hd, ht, h.down]⟩

/-- A packet of the session is counted in its direction. -/
theorem update (h : data.Counts ps) (hp : p.accepted) (hk : p.t4.SameFlow data.t4) :
    (data.update p.t4 p.size p.flag).Counts (ps ++ [p]) := by
  rw [SessionData.update]
  split
  · rename_i ht
    have hu : p.isUp data.t4 = true := by rw [TcpData.isUp, hp, decide_eq_true ht]; rfl
    have hd : p.isDown data.t4 = false := by simp [TcpData.isDown, ht]
    refine ⟨?_, ?_⟩
    · show data.up.add p.size p.flag = .of ((ps ++ [p]).filter (·.isUp data.t4))
      rw [List.filter_append, List.filter_cons_of_pos hu, List.filter_nil, Counters.of_concat, h.up]
    · show data.down = .of ((ps ++ [p]).filter (·.isDown data.t4))
      rw [List.filter_append, List.filter_cons_of_neg (by simp [hd]), List.filter_nil,
        List.append_nil, h.down]
  · rename_i ht
    have hu : p.isUp data.t4 = false := by simp [TcpData.isUp, ht]
    have hd : p.isDown data.t4 = true := by
      rw [TcpData.isDown, hp, decide_eq_true ht, decide_eq_true (hk.resolve_left ht)]
      rfl
    refine ⟨?_, ?_⟩
    · show data.up = .of ((ps ++ [p]).filter (·.isUp data.t4))
      rw [List.filter_append, List.filter_cons_of_neg (by simp [hu]), List.filter_nil,
        List.append_nil, h.up]
    · show data.down.add p.size p.flag = .of ((ps ++ [p]).filter (·.isDown data.t4))
      rw [List.filter_append, List.filter_cons_of_pos hd, List.filter_nil, Counters.of_concat, h.down]

/-- Any other packet is not. -/
theorem skip (h : data.Counts ps) (hp : p.accepted → ¬ p.t4.SameFlow data.t4) :
    data.Counts (ps ++ [p]) := by
  have hu : p.isUp data.t4 = false := by
    rw [TcpData.isUp, Bool.and_eq_false_iff, decide_eq_false_iff_not]
    by_cases ha : p.accepted
    · exact .inr fun ht => hp ha (.inl ht)
    · exact .inl (Bool.not_eq_true _ ▸ ha)
  have hd : p.isDown data.t4 = false := by
    rw [TcpData.isDown, Bool.and_assoc, Bool.and_eq_false_iff]
    by_cases ha : p.accepted
    · rw [decide_eq_false fun ht => hp ha (.inr ht), Bool.and_false]
      exact .inr rfl
    · exact .inl (Bool.not_eq_true _ ▸ ha)
  refine ⟨?_, ?_⟩
  · rw [List.filter_append, List.filter_cons_of_neg (by simp [hu]), List.filter_nil,
      List.append_nil, h.up]
  · rw [List.filter_append, List.filter_cons_of_neg (by simp [hd]), List.filter_nil,
      List.append_nil, h.down]

end SessionData.Counts

/-! ## One packet -/

namespace TcpSession

open Tuple4

variable {n : Nat} {s s' : TcpSession n} {p : TcpData} {rs : List Report}

/-- A packet that is not accepted does nothing; any other one is handled after the check of the
timer. -/
theorem onTcpData_cases (hi : s.Inv) (hn : 0 < n) (h : s.onTcpData p = some (s', rs)) :
    p.accepted = false ∧ s' = s ∧ rs = [] ∨
    p.accepted ∧ ∃ s₁ rs₁ rs₂, s.checkTimeout p.timeStamp = (s₁, rs₁) ∧
      Checked s p.timeStamp s₁ rs₁ ∧ Handled s₁ p s' rs₂ ∧ rs = rs₁ ++ rs₂ := by
  rw [onTcpData] at h
  split at h
  · rename_i hp
    cases h
    exact .inl ⟨by simpa using hp, rfl, rfl⟩
  · rename_i hp
    have hck := hi.checkTimeout hn p.timeStamp
    generalize hc : s.checkTimeout p.timeStamp = r at h hck
    obtain ⟨s₁, rs₁⟩ := r
    obtain ⟨⟨s₂, rs₂⟩, h₂, he⟩ := Option.bind_eq_some_iff.mp h
    cases he
    exact .inr ⟨by simpa using hp, s₁, rs₁, rs₂, rfl, hck, handled_of_handle hck.inv h₂, rfl⟩

theorem Inv.onTcpData (hi : s.Inv) (hn : 0 < n) (h : s.onTcpData p = some (s', rs)) : s'.Inv := by
  rcases onTcpData_cases hi hn h with ⟨-, rfl, -⟩ | ⟨-, s₁, rs₁, rs₂, -, hck, hh, -⟩
  · exact hi
  · exact hh.inv hck.inv

theorem perm_onTcpData (hi : s.Inv) (hn : 0 < n) (h : s.onTcpData p = some (s', rs))
    {l : List SessionPtr}
    (hl : (l ++ s.sessionDataMap.map (·.ptr)).Perm (List.range s.nextSession)) :
    (l ++ rs.map (·.ptr) ++ s'.sessionDataMap.map (·.ptr)).Perm (List.range s'.nextSession) := by
  rcases onTcpData_cases hi hn h with ⟨-, rfl, rfl⟩ | ⟨-, s₁, rs₁, rs₂, -, hck, hh, rfl⟩
  · rwa [List.map_nil, List.append_nil]
  · rw [List.map_append, ← List.append_assoc]
    refine hh.perm hck.inv ?_
    rw [List.append_assoc, hck.nextSession]
    exact (hck.perm.append_left l).trans hl

/-- The session that `ptr` names now, or named when it was reported, goes on from the element
`m` of the map. -/
structure From (m : SessionNode) (ptr : SessionPtr) (data : SessionData) : Prop where
  ptr : ptr = m.ptr
  t4 : data.t4 = m.data.t4
  startTime : data.startTime = m.data.startTime

/-- A session in the map after a packet was there before, and has counted the packet if it
is its own; or the packet has made it. -/
theorem mem_onTcpData (hi : s.Inv) (hn : 0 < n) (h : s.onTcpData p = some (s', rs))
    {m' : SessionNode} (hm' : m' ∈ s'.sessionDataMap) :
    (∃ m ∈ s.sessionDataMap, From m m'.ptr m'.data ∧
      ∀ ps, m.data.Counts ps → m'.data.Counts (ps ++ [p])) ∨
    m'.ptr = s.nextSession ∧ p.accepted ∧ p.flag &&& TH_SYN != 0 ∧ m'.data.t4 = p.t4 ∧
      m'.data.startTime = p.timeStamp ∧ m'.data.Counts [p] := by
  rcases onTcpData_cases hi hn h with ⟨hp, rfl, -⟩ | ⟨hp, s₁, rs₁, rs₂, -, hck, hh, -⟩
  · exact .inl ⟨m', hm', ⟨rfl, rfl, rfl⟩, fun ps hc => hc.skip fun ha => by simp [hp] at ha⟩
  · -- A session of another connection does not count the packet.
    have hskip {m} (hm : m ∈ s₁.sessionDataMap) (hk : ¬ p.t4.SameFlow m.key) :
        ∃ m₀ ∈ s.sessionDataMap, From m₀ m.ptr m.data ∧
          ∀ ps, m₀.data.Counts ps → m.data.Counts (ps ++ [p]) :=
      ⟨m, hck.mem m hm, ⟨rfl, rfl, rfl⟩, fun ps hc => hc.skip fun _ => hck.inv.key m hm ▸ hk⟩
    cases hh with
    | ignored hno hsyn => exact .inl (hskip hm' (hno m' hm'))
    | created hno hsyn hw =>
      rcases List.mem_append.mp hm' with hm | hm
      · exact .inl (hskip hm (hno m' hm))
      · obtain rfl := List.mem_singleton.mp hm
        refine .inr ⟨hck.nextSession, hp, hsyn, t4_update .., startTime_update .., ?_⟩
        have hc : { SessionData.create p.t4 p.timeStamp with context := some s₁.nextEntry }.Counts [] :=
          (SessionData.Counts.create p.t4 p.timeStamp).of_eq rfl rfl rfl
        exact hc.update hp (.refl _)
    | @closed m hm hk hend =>
      obtain ⟨hm₁, hne⟩ := List.mem_filter.mp hm'
      refine .inl (hskip hm₁ fun hk' => ?_)
      rw [decide_eq_true_eq] at hne
      exact hne (congrArg _ (hck.inv.eq_of_sameFlow hm₁ hm (hk'.symm.trans hk)))
    | @message m e w hm hk he hown hc hw =>
      obtain ⟨m₁, hm₁, -, hptr, hdata⟩ := mem_modify hm'
      by_cases hp' : m₁.ptr = m.ptr
      · obtain rfl := hck.inv.eq_of_ptr hm₁ hm hp'
        rw [if_pos rfl] at hdata
        refine .inl ⟨m₁, hck.mem m₁ hm, ⟨hptr, ?_, ?_⟩, fun ps hc => ?_⟩
        · rw [hdata, t4_update]
        · rw [hdata, startTime_update]
        · rw [hdata]
          exact hc.update hp (hck.inv.key m₁ hm ▸ hk)
      · rw [if_neg hp'] at hdata
        obtain ⟨m₀, hm₀, hfrom, hcount⟩ := hskip hm₁ fun hk' =>
          hp' (congrArg _ (hck.inv.eq_of_sameFlow hm₁ hm (hk'.symm.trans hk)))
        exact .inl ⟨m₀, hm₀, ⟨hptr.trans hfrom.ptr, hdata ▸ hfrom.t4, hdata ▸ hfrom.startTime⟩,
          hdata ▸ hcount⟩

/-- How a session ends with a packet: the packet closes it and is counted, or it finds it idle. -/
structure Ends (p : TcpData) (r : Report) : Prop where
  closed : r.data.normallyClosed → p.accepted ∧ p.t4.SameFlow r.data.t4 ∧
    (p.flag &&& TH_FIN != 0 || p.flag &&& TH_RST != 0) ∧ r.data.endTime = some p.timeStamp
  timedOut : r.data.normallyClosed = false → r.data.endTime = some ⟨p.timeStamp.sec, 0⟩

/-- A session that is reported was in the map, and has counted the packet if it closes it. -/
theorem report_onTcpData (hi : s.Inv) (hn : 0 < n) (h : s.onTcpData p = some (s', rs)) {r : Report}
    (hr : r ∈ rs) : ∃ m ∈ s.sessionDataMap, From m r.ptr r.data ∧ Ends p r ∧
      ∀ ps, m.data.Counts ps →
        r.data.Counts (ps ++ if r.data.normallyClosed then [p] else []) := by
  rcases onTcpData_cases hi hn h with ⟨-, -, rfl⟩ | ⟨hp, s₁, rs₁, rs₂, -, hck, hh, rfl⟩
  · cases hr
  · rcases List.mem_append.mp hr with hr | hr
    · obtain ⟨m, hm, rfl⟩ := hck.reports r hr
      refine ⟨m, hm, ⟨rfl, rfl, rfl⟩, ⟨nofun, fun _ => ?_⟩, fun ps hc => ?_⟩
      · show some (⟨p.timeStamp.sec + 1 - 1, 0⟩ : Timeval) = _
        rw [add_sub_cancel_right]
      · show SessionData.Counts _ (ps ++ [])
        rw [List.append_nil]
        exact hc.of_eq rfl rfl rfl
    · cases hh with
      | ignored => cases hr
      | created => cases hr
      | @closed m hm hk hend =>
        obtain rfl := List.mem_singleton.mp hr
        have hopen := (hck.inv.live m hm).1
        have hkey := hck.inv.key m hm
        refine ⟨m, hck.mem m hm, ⟨rfl, t4_update .., startTime_update ..⟩, ⟨fun _ => ?_, ?_⟩, ?_⟩
        · exact ⟨hp, by rw [t4_update]; exact hkey ▸ hk, hend, endTime_update ..⟩
        · intro hno
          rw [normallyClosed_update] at hno
          exact absurd (hopen.symm.trans hno) (by decide)
        · intro ps hc
          rw [normallyClosed_update, if_pos hopen]
          have hc' : { m.data with endTime := some p.timeStamp }.Counts ps := hc.of_eq rfl rfl rfl
          exact hc'.update hp (hkey ▸ hk)
      | message => cases hr

/-! ## Results -/

theorem handle_total (hi : s.Inv) (hne : s.sessionBuckets.buckets ≠ []) (p : TcpData) :
    ∃ s' rs, s.handle p.t4 p.timeStamp p.size p.flag = some (s', rs) := by
  rw [handle]
  split
  · split
    · obtain ⟨w, hw⟩ := Wheel.exists_insert hne ⟨s.nextEntry, s.nextSession⟩
      exact ⟨_, _, by rw [firstConnection_eq hi hw]; rfl⟩
    · exact ⟨_, _, rfl⟩
  · rename_i m hf
    obtain ⟨e, -, -, -, hget⟩ := hi.getEntryPtr (of_find_eq_some hf).1
    obtain ⟨w, hw⟩ := Wheel.exists_insert hne e
    simp only [hget, Option.bind_eq_bind, Option.bind_some, hw, Option.pure_def]
    split
    · exact ⟨_, _, rfl⟩
    · exact ⟨_, _, rfl⟩

/-- A packet leaves the wheel with a bucket if there was one. -/
theorem Handled.buckets_ne_nil (h : Handled s p s' rs) (hne : s.sessionBuckets.buckets ≠ []) :
    s'.sessionBuckets.buckets ≠ [] := by
  cases h with
  | ignored => exact hne
  | created hno hsyn hw => exact Wheel.insert_ne_nil hw
  | closed => exact hne
  | message hm hk he hown hc hw => exact Wheel.insert_ne_nil hw

theorem checkTimeout_ne_nil (hi : s.Inv) (hn : 0 < n) {ts : Timeval}
    (h : s.sessionBuckets.buckets ≠ [] ∨ s.timer.time ≤ ts.sec) :
    (s.checkTimeout ts).1.sessionBuckets.buckets ≠ [] := by
  rcases Int.lt_or_le ts.sec s.timer.time with hlt | hle
  · rw [checkTimeout_of_lt hlt]
    exact h.resolve_right (by omega)
  · obtain ⟨rs, he, -⟩ := checkTimeout_of_le hi hle
    rw [he]
    exact Wheel.push_ne_nil hn

/-- An accepted packet has a result if there is a bucket, or the timer fires. -/
theorem onTcpData_total (hi : s.Inv) (hn : 0 < n)
    (h : p.accepted → s.sessionBuckets.buckets ≠ [] ∨ s.timer.time ≤ p.timeStamp.sec) :
    ∃ s' rs, s.onTcpData p = some (s', rs) ∧
      (p.accepted ∨ s.sessionBuckets.buckets ≠ [] → s'.sessionBuckets.buckets ≠ []) ∧
      (p.accepted = false → s' = s) := by
  rw [onTcpData]
  by_cases hp : p.accepted
  · have hne := checkTimeout_ne_nil hi hn (h hp)
    have hi' := (hi.checkTimeout hn p.timeStamp).inv
    obtain ⟨s', rs, hs'⟩ := handle_total hi' hne p
    refine ⟨s', (s.checkTimeout p.timeStamp).2 ++ rs, ?_, fun _ => ?_, fun ha => ?_⟩
    · rw [hp, if_neg (by decide)]
      simp only [hs', Option.bind_eq_bind, Option.bind_some, Option.pure_def]
    · exact (handled_of_handle hi' hs').buckets_ne_nil hne
    · exact absurd (hp.symm.trans ha) (by decide)
  · rw [Bool.not_eq_true] at hp
    rw [hp]
    exact ⟨s, [], rfl, fun h => h.resolve_left (by decide), fun _ => rfl⟩

/-- A run has a result if the first timestamp that is looked at is not negative. -/
theorem runSession_total (hn : 0 < n) (sharding : Sharding) (ps : List TcpData)
    (hfirst : ∀ p, ps.find? (·.accepted) = some p → 0 ≤ p.timeStamp.sec) :
    ∃ s es, runSession n sharding ps = some (s, es) ∧ s.Inv ∧
      ((∀ p ∈ ps, p.accepted = false) ∧ s = create n sharding ∨ s.sessionBuckets.buckets ≠ []) := by
  induction ps using List.reverseRecOn with
  | nil => exact ⟨_, [], rfl, inv_create n sharding, .inl ⟨nofun, rfl⟩⟩
  | append_singleton ps p ih =>
    have hbefore : ∀ q, ps.find? (·.accepted) = some q → 0 ≤ q.timeStamp.sec := fun q hq =>
      hfirst q (by rw [List.find?_append, hq]; rfl)
    obtain ⟨s, es, hr, hi, hs⟩ := ih hbefore
    obtain ⟨s', rs, hs', hne, hsame⟩ := onTcpData_total hi hn (p := p) fun hp => by
      refine hs.symm.imp_right fun ⟨hno, he⟩ => ?_
      have hnone : ps.find? (·.accepted) = none := List.find?_eq_none.mpr fun q hq => by
        simp [hno q hq]
      rw [he]
      exact hfirst p (by rw [List.find?_append, hnone]; simp [hp])
    refine ⟨s', es ++ rs, run_concat.mpr ⟨_, _, _, _, hr, hs', rfl⟩, hi.onTcpData hn hs', ?_⟩
    by_cases hp : p.accepted
    · exact .inr (hne (.inl hp))
    · rw [Bool.not_eq_true] at hp
      rcases hs with ⟨hno, he⟩ | hb
      · refine .inl ⟨fun q hq => ?_, (hsame hp).trans he⟩
        rcases List.mem_append.mp hq with hq | hq
        · exact hno q hq
        · rwa [List.mem_singleton.mp hq]
      · exact .inr (hne (.inr hb))

/-- The packets `ps₁` leave a state in which `syn` makes the session with the number `ptr`. -/
structure Origin (n : Nat) (sharding : Sharding) (ps₁ : List TcpData) (syn : TcpData)
    (ptr : SessionPtr) (data : SessionData) : Prop where
  state : ∃ s es, runSession n sharding ps₁ = some (s, es) ∧ s.nextSession = ptr
  accepted : syn.accepted
  isSyn : syn.flag &&& TH_SYN != 0
  t4 : data.t4 = syn.t4
  startTime : data.startTime = syn.timeStamp

/-- A session in the map has counted its packets from the one on that made it. -/
def Opened (n : Nat) (sharding : Sharding) (ps : List TcpData) (m : SessionNode) : Prop :=
  ∃ ps₁ syn ps₂, ps = ps₁ ++ syn :: ps₂ ∧ Origin n sharding ps₁ syn m.ptr m.data ∧
    m.data.Counts (syn :: ps₂)

/-- A session that is reported has counted its packets from the one on that made it, `syn`, up
to the one it is reported with, `p`; and that one if it closes the session. -/
def Accounted (n : Nat) (sharding : Sharding) (ps : List TcpData) (r : Report) : Prop :=
  ∃ ps₁ syn ps₂ p ps₃, ps = ps₁ ++ syn :: ps₂ ++ p :: ps₃ ∧
    Origin n sharding ps₁ syn r.ptr r.data ∧
    (∃ s es s' rs, runSession n sharding (ps₁ ++ syn :: ps₂) = some (s, es) ∧
      s.onTcpData p = some (s', rs) ∧ r ∈ rs) ∧
    Ends p r ∧ r.data.Counts (syn :: ps₂ ++ if r.data.normallyClosed then [p] else []) ∧
    r.data.Exact (syn :: ps₂ ++ if r.data.normallyClosed then [p] else [])

/-- Sessions, entries and reports correspond one to one, after the packets `ps`. -/
def OneToOne (n : Nat) (sharding : Sharding) (ps : List TcpData) : Prop :=
  ∃ s es, runSession n sharding ps = some (s, es) ∧
    (∀ m ∈ s.sessionDataMap,
      ∃ e ∈ s.sessionBuckets, e.weak = m.ptr ∧ m.data.context = some e.ptr) ∧
    (∀ e ∈ s.sessionBuckets, ∀ m, s.lockSession e.weak = some m →
      m ∈ s.sessionDataMap ∧ m.data.context = some e.ptr) ∧
    (∀ ts t4 m, (s.checkTimeout ts).1.find t4 = some m →
      ∃ e, (s.checkTimeout ts).1.getEntryPtr m.data = some (some e)) ∧
    (es.map (·.ptr) ++ s.sessionDataMap.map (·.ptr)).Perm (List.range s.nextSession) ∧
    ∀ r ∈ es, Accounted n sharding ps r

/-- What a run leaves. -/
structure Reported (n : Nat) (sharding : Sharding) (ps : List TcpData) (s : TcpSession n)
    (es : List Report) : Prop where
  inv : s.Inv
  /-- The sessions reported and those in the map are the sessions made, each of them once. -/
  perm : (es.map (·.ptr) ++ s.sessionDataMap.map (·.ptr)).Perm (List.range s.nextSession)
  opened : ∀ m ∈ s.sessionDataMap, Opened n sharding ps m
  accounted : ∀ r ∈ es, Accounted n sharding ps r

theorem runSession_reported (hn : 0 < n) {sharding : Sharding} {ps : List TcpData} {es : List Report}
    (h : runSession n sharding ps = some (s, es)) : Reported n sharding ps s es := by
  refine run_induction (I := Reported n sharding) ?_ ?_ h
  · exact ⟨inv_create n sharding, .refl _, by simp [create], fun r hr => absurd hr List.not_mem_nil⟩
  · intro ps s es p s' rs hr ih hs
    refine ⟨ih.inv.onTcpData hn hs, ?_, fun m' hm' => ?_, fun r hr' => ?_⟩
    · rw [List.map_append]
      exact perm_onTcpData ih.inv hn hs ih.perm
    · rcases mem_onTcpData ih.inv hn hs hm' with ⟨m, hm, hfrom, hcount⟩ | ⟨hptr, ha, hsyn, ht, hst, hc⟩
      · obtain ⟨ps₁, syn, ps₂, hsplit, ho, hc⟩ := ih.opened m hm
        refine ⟨ps₁, syn, ps₂ ++ [p], by rw [hsplit, List.append_assoc]; rfl, ?_, hcount _ hc⟩
        exact ⟨hfrom.ptr ▸ ho.state, ho.accepted, ho.isSyn, hfrom.t4.trans ho.t4,
          hfrom.startTime.trans ho.startTime⟩
      · exact ⟨ps, p, [], rfl, ⟨⟨s, es, hr, hptr.symm⟩, ha, hsyn, ht, hst⟩, hc⟩
    · rcases List.mem_append.mp hr' with hr' | hr'
      · obtain ⟨ps₁, syn, ps₂, q, ps₃, hsplit, h⟩ := ih.accounted r hr'
        exact ⟨ps₁, syn, ps₂, q, ps₃ ++ [p], by rw [hsplit, List.append_assoc]; rfl, h⟩
      · obtain ⟨m, hm, hfrom, hends, hcount⟩ := report_onTcpData ih.inv hn hs hr'
        obtain ⟨ps₁, syn, ps₂, hsplit, ho, hc⟩ := ih.opened m hm
        refine ⟨ps₁, syn, ps₂, p, [], by rw [hsplit], ?_, ⟨s, es, s', rs, ?_, hs, hr'⟩, hends,
          hcount _ hc, (hcount _ hc).exact⟩
        · exact ⟨hfrom.ptr ▸ ho.state, ho.accepted, ho.isSyn, hfrom.t4.trans ho.t4,
            hfrom.startTime.trans ho.startTime⟩
        · rwa [← hsplit]

/-- Sessions, entries and reports correspond to each other, after any packets of which the first
that is looked at has a timestamp that is not negative. -/
theorem sessions_reported (hn : 0 < n) (sharding : Sharding) (ps : List TcpData)
    (hfirst : ∀ p, ps.find? (·.accepted) = some p → 0 ≤ p.timeStamp.sec) :
    OneToOne n sharding ps := by
  obtain ⟨s, es, hr, hi, -⟩ := runSession_total hn sharding ps hfirst
  have hrep := runSession_reported hn hr
  refine ⟨s, es, hr, fun m hm => (hi.live m hm).2, fun e he m hl => ?_, fun ts t4 m hf => ?_,
    hrep.perm, hrep.accounted⟩
  · obtain ⟨hm, hptr⟩ := of_lockSession_some hl
    exact ⟨hm, hi.own e he m hm hptr.symm⟩
  · obtain ⟨e, -, -, -, hget⟩ :=
      (hi.checkTimeout hn ts).inv.getEntryPtr (of_find_eq_some hf).1
    exact ⟨e, hget⟩

/-- A hash that leaves the bytes as they are, for the examples of the development. -/
def plainSharding : Sharding := .create (.replicate 6 0) (.replicate 6 0)

/-- A packet from port `port` to port 80, with `len` as its length. -/
def shortPacket (port flags : Byte) (len sec : Int) : TcpData :=
  ⟨[0x45, 0, 0, 40, 0, 0, 0, 0, 64, 6, 0, 0, 10, 0, 0, 1, 10, 0, 0, 2, 0, port, 0, 80,
    0, 0, 0, 0, 0, 0, 0, 0, 0x50, flags, 0, 0, 0, 0, 0, 0], len, ⟨sec, 0⟩⟩

theorem sessions_reported_close :
    OneToOne 60 plainSharding [shortPacket 1 TH_SYN 40 7, shortPacket 1 TH_FIN 40 8] := by
  refine sessions_reported (by decide) plainSharding _ fun p hp => ?_
  obtain rfl : shortPacket 1 TH_SYN 40 7 = p := by
    rw [List.find?_cons_of_pos (by decide)] at hp
    exact Option.some.inj hp
  decide

/-- The first timestamp is not negative, but the packet is too short for it to be looked at. And
a wheel without room for a bucket stays empty. -/
theorem not_reported_negative :
    (0 ≤ (shortPacket 1 0 39 0).timeStamp.sec ∧
      ¬ OneToOne 60 plainSharding [shortPacket 1 0 39 0, shortPacket 1 TH_SYN 40 (-1)]) ∧
    ¬ OneToOne 0 plainSharding [shortPacket 1 TH_SYN 40 0] := by
  have hnone :
    runSession 60 plainSharding [shortPacket 1 0 39 0, shortPacket 1 TH_SYN 40 (-1)] = none := rfl
  have hnone' : runSession 0 plainSharding [shortPacket 1 TH_SYN 40 0] = none := rfl
  refine ⟨⟨by decide, ?_⟩, ?_⟩
  · rintro ⟨s, es, hr, -⟩
    cases hr.symm.trans hnone
  · rintro ⟨s, es, hr, -⟩
    cases hr.symm.trans hnone'

end TcpSession

end Noff
