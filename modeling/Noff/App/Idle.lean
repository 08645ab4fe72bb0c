import Noff.App.Reports
import Mathlib

/-!
# When sessions time out

The wheel gets a bucket with a packet of a new second, and one only however many seconds
have passed without a packet. So the age of a session's entry is the number of seconds
with packets since the session's last (`Idle.concat`), and the first packet that comes `n` seconds
after it or later times the session out exactly if there was a packet in every second in between
(`timesOut_iff`). After a quiet period the session stays (`not_timesOut_quiet`).
-/

namespace Noff.TcpSession

open Tuple4

variable {n : Nat} {sharding : Sharding} {s s' : TcpSession n} {p q : TcpData} {ps qs : List TcpData}
  {rs es : List Report} {m : SessionNode} {e : Entry} {k : Nat}

/-! ## The timer -/

theorem Handled.timer (h : Handled s p s' rs) : s'.timer = s.timer := by
  cases h <;> rfl

/-- The timer is ahead of all packets, by a second if there is a bucket. -/
structure Clock (ps : List TcpData) (s : TcpSession n) : Prop where
  ahead : ∀ p ∈ ps, p.accepted → p.timeStamp.sec < s.timer.time
  second : s.sessionBuckets.buckets ≠ [] →
    ∃ p ∈ ps, p.accepted ∧ s.timer.time = p.timeStamp.sec + 1

theorem Handled.buckets_eq_nil (h : Handled s p s' rs) (hne : s'.sessionBuckets.buckets ≠ []) :
    s.sessionBuckets.buckets ≠ [] := by
  have hins {e : Entry} {w : Wheel Entry n} (hw : s.sessionBuckets.insert e = some w) :
      s.sessionBuckets.buckets ≠ [] := by
    obtain ⟨b, bs, hb, -⟩ := Wheel.exists_of_insert hw
    rw [hb]
    exact List.cons_ne_nil _ _
  cases h with
  | ignored => exact hne
  | created hno hsyn hw => exact hins hw
  | closed => exact hne
  | message hm hk he hown hc hw => exact hins hw

theorem Clock.onTcpData (h : Clock ps s) (hi : s.Inv) (hn : 0 < n)
    (hs : s.onTcpData p = some (s', rs)) : Clock (ps ++ [p]) s' := by
  have hmem {q} (hq : q ∈ ps ++ [p]) : q ∈ ps ∨ q = p := by
    rwa [List.mem_append, List.mem_singleton] at hq
  rcases onTcpData_cases hi hn hs with ⟨hp, rfl, -⟩ | ⟨hp, s₁, rs₁, rs₂, hc, hck, hh, -⟩
  · refine ⟨fun q hq ha => ?_, fun hne => ?_⟩
    · rcases hmem hq with hq | rfl
      · exact h.ahead q hq ha
      · exact absurd (hp.symm.trans ha) (by decide)
    · obtain ⟨q, hq, hrest⟩ := h.second hne
      exact ⟨q, List.mem_append_left _ hq, hrest⟩
  · rcases Int.lt_or_le p.timeStamp.sec s.timer.time with hlt | hle
    · rw [checkTimeout_of_lt hlt] at hc
      cases hc
      refine ⟨fun q hq ha => ?_, fun hne => ?_⟩
      · rw [hh.timer]
        rcases hmem hq with hq | rfl
        · exact h.ahead q hq ha
        · exact hlt
      · obtain ⟨q, hq, hrest⟩ := h.second (hh.buckets_eq_nil hne)
        exact ⟨q, List.mem_append_left _ hq, hh.timer ▸ hrest⟩
    · obtain ⟨rs', he, -⟩ := checkTimeout_of_le hi hle
      rw [he] at hc
      cases hc
      have htime : s'.timer.time = p.timeStamp.sec + 1 := congrArg Timer.time hh.timer
      refine ⟨fun q hq ha => ?_, fun _ => ⟨p, by simp, hp, htime⟩⟩
      rcases hmem hq with hq | rfl
      · have := h.ahead q hq ha
        omega
      · omega

theorem runSession_clock (hn : 0 < n) (h : runSession n sharding ps = some (s, es)) :
    Clock ps s := by
  refine run_induction (I := fun ps s _ => Clock ps s) ⟨nofun, fun h => absurd rfl h⟩ ?_ h
  intro ps s es p s' rs hr ih hs
  exact ih.onTcpData (runSession_reported hn hr).inv hn hs

/-! ## The age of an entry -/

/-- The entry of the session `m` in the map has age `k`. -/
structure Aged (s : TcpSession n) (m : SessionNode) (e : Entry) (k : Nat) : Prop where
  mem : ∃ m' ∈ s.sessionDataMap, m'.ptr = m.ptr ∧ m'.key = m.key ∧ m'.data.context = some e.ptr
  entry : e ∈ s.sessionBuckets
  weak : e.weak = m.ptr
  age : s.sessionBuckets.age e = k

/-- A packet of a session leaves its entry in the newest bucket. -/
theorem Handled.aged (h : Handled s p s' rs) (hi : s.Inv) (hm : m ∈ s'.sessionDataMap)
    (hk : p.t4.SameFlow m.key) : ∃ e, Aged s' m e 0 := by
  have hi' := h.inv hi
  cases h with
  | ignored hno hsyn => exact absurd hk (hno m hm)
  | created hno hsyn hw =>
    rcases List.mem_append.mp hm with hm' | hm'
    · exact absurd hk (hno m hm')
    · obtain rfl := List.mem_singleton.mp hm'
      exact ⟨⟨s.nextEntry, s.nextSession⟩, ⟨_, hm, rfl, rfl, context_update ..⟩,
        (Wheel.mem_insert hw).mpr (.inr rfl), rfl, Wheel.age_insert_self hw⟩
  | @closed m₀ hm₀ hk₀ hend =>
    obtain ⟨hm', hne⟩ := List.mem_filter.mp hm
    rw [decide_eq_true_eq] at hne
    exact absurd (congrArg _ (hi.eq_of_sameFlow hm' hm₀ (hk.symm.trans hk₀))) hne
  | @message m₀ e w hm₀ hk₀ he hown hc hw =>
    obtain ⟨m₁, hm₁, hkey, hptr, hdata⟩ := mem_modify hm
    obtain rfl := hi.eq_of_sameFlow hm₁ hm₀ ((hkey ▸ hk.symm).trans hk₀)
    have hctx : m.data.context = some e.ptr := by
      rw [hdata, if_pos rfl, context_update, hc]
    obtain ⟨-, e', he', hw', hc'⟩ := hi'.live m hm
    have hmem : e ∈ w := (Wheel.mem_insert hw).mpr (.inr rfl)
    obtain rfl := hi'.entries e' he' e hmem (Option.some.inj (hc'.symm.trans hctx))
    exact ⟨e', ⟨m, hm, rfl, rfl, hctx⟩, hmem, hw', Wheel.age_insert_self hw⟩

/-- A packet of another connection leaves it where it is. -/
theorem Handled.aged_of_not (h : Handled s p s' rs) (hi : s.Inv) (ha : Aged s m e k)
    (hk : ¬ p.t4.SameFlow m.key) : Aged s' m e k := by
  obtain ⟨m', hm', hptr, hkey, hctx⟩ := ha.mem
  cases h with
  | ignored hno hsyn => exact ha
  | created hno hsyn hw =>
    refine ⟨⟨m', List.mem_append_left _ hm', hptr, hkey, hctx⟩,
      (Wheel.mem_insert hw).mpr (.inl ha.entry), ha.weak, ?_⟩
    rw [← ha.age]
    refine Wheel.age_insert_of_ne hw ?_
    rintro rfl
    exact absurd (hi.freshEntry _ ha.entry).1 (Nat.lt_irrefl _)
  | @closed m₀ hm₀ hk₀ hend =>
    refine ⟨⟨m', List.mem_filter.mpr ⟨hm', ?_⟩, hptr, hkey, hctx⟩, ha.entry, ha.weak, ha.age⟩
    rw [decide_eq_true_eq]
    intro hp
    rw [hi.eq_of_ptr hm' hm₀ hp] at hkey
    exact hk (hkey ▸ hk₀)
  | @message m₀ e₀ w hm₀ hk₀ he hown hc hw =>
    have hne : m'.ptr ≠ m₀.ptr := fun hp => by
      rw [hi.eq_of_ptr hm' hm₀ hp] at hkey
      exact hk (hkey ▸ hk₀)
    refine ⟨⟨m', List.mem_map.mpr ⟨m', hm', if_neg hne⟩, hptr, hkey, hctx⟩,
      (Wheel.mem_insert hw).mpr (.inl ha.entry), ha.weak, ?_⟩
    rw [← ha.age]
    refine Wheel.age_insert_of_ne hw ?_
    -- The entry of the other session is another.
    rintro rfl
    exact hne (hptr.trans (ha.weak.symm.trans hown))

/-- The check of the timer, where it fires: the entry gets older, or its session goes. -/
theorem Aged.ticked (ha : Aged s m e k) (hi : s.Inv) (hn : 0 < n) (sec : Int) (hk : k + 1 < n) :
    Aged (s.ticked sec) m e (k + 1) := by
  obtain ⟨m', hm', hptr, hkey, hctx⟩ := ha.mem
  have hpush : e ∈ s.sessionBuckets.push := (Wheel.mem_push hn).mpr ⟨ha.entry, ha.age.symm ▸ hk⟩
  refine ⟨⟨m', mem_ticked.mpr ⟨hm', fun e' he' hw' => ?_⟩, hptr, hkey, hctx⟩, hpush, ha.weak, ?_⟩
  · have he := ((Wheel.mem_dropped hn).mp he').1
    have hc := hi.own e' he m' hm' hw'
    obtain rfl := hi.entries e ha.entry e' he (Option.some.inj (hctx.symm.trans hc))
    exact Wheel.not_mem_push_of_dropped hn he' hpush
  · exact (Wheel.age_push hn hpush).trans (congrArg (· + 1) ha.age)

/-- The seconds after `sec` in which there was a packet. -/
def secondsAfter (sec : Int) (qs : List TcpData) : Finset Int :=
  ((qs.filter (·.accepted)).map (·.timeStamp.sec)).toFinset.filter (sec < ·)

theorem mem_secondsAfter {sec k : Int} : k ∈ secondsAfter sec qs ↔
    sec < k ∧ ∃ q ∈ qs, q.accepted ∧ q.timeStamp.sec = k := by
  rw [secondsAfter, Finset.mem_filter, List.mem_toFinset, List.mem_map, and_comm]
  simp only [List.mem_filter, and_assoc]

theorem secondsAfter_concat {sec : Int} : secondsAfter sec (qs ++ [p]) =
    if p.accepted ∧ sec < p.timeStamp.sec then insert p.timeStamp.sec (secondsAfter sec qs)
    else secondsAfter sec qs := by
  ext k
  have hmem : k ∈ secondsAfter sec (qs ++ [p]) ↔
      k ∈ secondsAfter sec qs ∨ sec < k ∧ p.accepted ∧ p.timeStamp.sec = k := by
    simp only [mem_secondsAfter, List.mem_append, List.mem_singleton, or_and_right, exists_or,
      exists_eq_left, and_or_left]
  rw [hmem]
  split
  · rename_i h
    rw [Finset.mem_insert, or_comm (a := k = p.timeStamp.sec)]
    refine or_congr_right ⟨fun h => h.2.2.symm, ?_⟩
    rintro rfl
    exact ⟨h.2, h.1, rfl⟩
  · rename_i h
    refine or_iff_left ?_
    rintro ⟨hlt, ha, rfl⟩
    exact h ⟨ha, hlt⟩

/-- While packets of other connections come, the entry's age is the number of their seconds. -/
structure Idle (sec : Int) (qs : List TcpData) (m : SessionNode) (e : Entry) (s : TcpSession n) :
    Prop where
  inv : s.Inv
  aged : Aged s m e (secondsAfter sec qs).card
  ahead : ∀ k ∈ secondsAfter sec qs, k < s.timer.time
  last : s.timer.time = sec + 1 ∨ s.timer.time - 1 ∈ secondsAfter sec qs

/-- All of these seconds are less than `n` after the first. -/
theorem card_secondsAfter {sec : Int} (h : ∀ q ∈ qs, q.accepted → q.timeStamp.sec < sec + n) :
    secondsAfter sec qs ⊆ Finset.Ioo sec (sec + n) ∧ (Finset.Ioo sec (sec + n)).card = n - 1 := by
  refine ⟨fun k hk => ?_, ?_⟩
  · obtain ⟨hlt, q, hq, ha, rfl⟩ := mem_secondsAfter.mp hk
    exact Finset.mem_Ioo.mpr ⟨hlt, h q hq ha⟩
  · rw [Int.card_Ioo]
    omega

theorem Idle.concat {sec : Int} (h : Idle sec qs m e s) (hn : 0 < n)
    (hsorted : ∀ q ∈ qs, q.timeStamp.sec ≤ p.timeStamp.sec) (hle : sec ≤ p.timeStamp.sec)
    (hlt : ∀ q ∈ qs ++ [p], q.accepted → q.timeStamp.sec < sec + n)
    (hk : p.accepted → ¬ p.t4.SameFlow m.key) :
    ∃ s' rs, s.onTcpData p = some (s', rs) ∧ Idle sec (qs ++ [p]) m e s' := by
  have hne : s.sessionBuckets.buckets ≠ [] := by
    obtain ⟨b, hb, -⟩ := h.aged.entry
    exact List.ne_nil_of_mem hb
  obtain ⟨s', rs, hs, -⟩ := onTcpData_total h.inv hn (p := p) fun _ => .inl hne
  refine ⟨s', rs, hs, ?_⟩
  have hi' := h.inv.onTcpData hn hs
  rcases onTcpData_cases h.inv hn hs with ⟨hp, rfl, -⟩ | ⟨hp, s₁, rs₁, rs₂, hc, hck, hh, -⟩
  · have hsame : secondsAfter sec (qs ++ [p]) = secondsAfter sec qs := by
      rw [secondsAfter_concat, if_neg (by simp [hp])]
    exact ⟨hi', hsame ▸ h.aged, hsame ▸ h.ahead, hsame ▸ h.last⟩
  · rcases Int.lt_or_le p.timeStamp.sec s.timer.time with hearly | hlate
    · -- The second of the packet has been seen.
      rw [checkTimeout_of_lt hearly] at hc
      cases hc
      have hsame : secondsAfter sec (qs ++ [p]) = secondsAfter sec qs := by
        rw [secondsAfter_concat]
        split
        · rename_i hnew
          refine Finset.insert_eq_of_mem ?_
          have hmem := h.last.resolve_left (by omega)
          obtain ⟨-, q, hq, -, hqs⟩ := mem_secondsAfter.mp hmem
          have := hsorted q hq
          rwa [show p.timeStamp.sec = s.timer.time - 1 by omega]
        · rfl
      exact ⟨hi', hsame ▸ hh.aged_of_not h.inv h.aged (hk hp), hsame ▸ hh.timer ▸ h.ahead,
        hsame ▸ hh.timer ▸ h.last⟩
    · obtain ⟨rs', he, -⟩ := checkTimeout_of_le h.inv hlate
      rw [he] at hc
      cases hc
      have hafter : sec < p.timeStamp.sec := by
        rcases h.last with hl | hl
        · omega
        · have := (mem_secondsAfter.mp hl).1
          omega
      have hnew : p.timeStamp.sec ∉ secondsAfter sec qs := fun hmem =>
        absurd (h.ahead _ hmem) (Int.not_lt.mpr hlate)
      have hseconds : secondsAfter sec (qs ++ [p]) = insert p.timeStamp.sec (secondsAfter sec qs) := by
        rw [secondsAfter_concat, if_pos ⟨hp, hafter⟩]
      have hcard : (secondsAfter sec (qs ++ [p])).card = (secondsAfter sec qs).card + 1 := by
        rw [hseconds, Finset.card_insert_of_notMem hnew]
      obtain ⟨hsub, hn'⟩ := card_secondsAfter hlt
      have hle' := Finset.card_le_card hsub
      have haged := h.aged.ticked h.inv hn p.timeStamp.sec (by omega)
      have htime : s'.timer.time = p.timeStamp.sec + 1 := congrArg Timer.time hh.timer
      refine ⟨hi', hcard ▸ hh.aged_of_not hck.inv haged (hk hp), fun k hmem => ?_, .inr ?_⟩
      · rw [hseconds, Finset.mem_insert] at hmem
        rcases hmem with rfl | hmem
        · omega
        · have := h.ahead k hmem
          omega
      · rw [htime, hseconds, add_sub_cancel_right]
        exact Finset.mem_insert_self ..

/-- A session is as old as its last packet, `p`. -/
theorem idle_nil (hn : 0 < n) (hr : runSession n sharding (ps ++ [p]) = some (s, es))
    (hsorted : ∀ q ∈ ps, q.timeStamp.sec ≤ p.timeStamp.sec) (hp : p.accepted)
    (hm : m ∈ s.sessionDataMap) (hk : p.t4.SameFlow m.key) :
    ∃ e, Idle p.timeStamp.sec [] m e s := by
  have hclock := runSession_clock hn hr
  obtain ⟨s₀, es₀, s₁, es₁, hr₀, hs, he⟩ := run_concat.mp hr
  cases he
  have hi₀ := (runSession_reported hn hr₀).inv
  rcases onTcpData_cases hi₀ hn hs with ⟨hno, -⟩ | ⟨-, s₂, rs₁, rs₂, -, hck, hh, -⟩
  · exact absurd (hno.symm.trans hp) (by decide)
  · obtain ⟨e, ha⟩ := hh.aged hck.inv hm hk
    refine ⟨e, hh.inv hck.inv, ha, by simp [secondsAfter], .inl ?_⟩
    have hne : s.sessionBuckets.buckets ≠ [] := by
      obtain ⟨b, hb, -⟩ := ha.entry
      exact List.ne_nil_of_mem hb
    obtain ⟨q, hq, -, htime⟩ := hclock.second hne
    have hlt := hclock.ahead p (by simp) hp
    rcases List.mem_append.mp hq with hq | hq
    · have := hsorted q hq
      omega
    · rw [htime, List.mem_singleton.mp hq]

/-- A run of packets of other connections, all less than `n` seconds after `sec`. -/
theorem Idle.run {sec : Int} (h : Idle sec [] m e s) (hn : 0 < n)
    (hsorted : qs.Pairwise (·.timeStamp.sec ≤ ·.timeStamp.sec))
    (hle : ∀ q ∈ qs, sec ≤ q.timeStamp.sec)
    (hlt : ∀ q ∈ qs, q.accepted → q.timeStamp.sec < sec + n)
    (hk : ∀ q ∈ qs, q.accepted → ¬ q.t4.SameFlow m.key) :
    ∃ s' es, Noff.run onTcpData s qs = some (s', es) ∧ Idle sec qs m e s' := by
  induction qs using List.reverseRecOn with
  | nil => exact ⟨s, [], rfl, h⟩
  | append_singleton qs q ih =>
    obtain ⟨hsorted', -, hlast⟩ := List.pairwise_append.mp hsorted
    obtain ⟨s₁, es₁, hr, h₁⟩ := ih hsorted' (fun q hq => hle q (List.mem_append_left _ hq))
      (fun q hq => hlt q (List.mem_append_left _ hq)) fun q hq => hk q (List.mem_append_left _ hq)
    obtain ⟨s₂, rs, hs, h₂⟩ := h₁.concat hn (fun q' hq' => hlast q' hq' q (List.mem_singleton_self q))
      (hle q (by simp)) hlt (hk q (by simp))
    exact ⟨s₂, es₁ ++ rs, run_concat.mpr ⟨_, _, _, _, hr, hs, rfl⟩, h₂⟩

/-! ## Results -/

/-- The session `ptr` has not been reported after `ps`, and times out in the second of `p`,
before `p` is handled. -/
def TimesOut (n : Nat) (sharding : Sharding) (ptr : SessionPtr) (ps : List TcpData) (p : TcpData) :
    Prop :=
  ∃ s es, runSession n sharding ps = some (s, es) ∧ ptr ∉ es.map (·.ptr) ∧
    ∃ r ∈ (s.checkTimeout p.timeStamp).2, r.ptr = ptr ∧ r.data.normallyClosed = false ∧
      r.data.endTime = some ⟨p.timeStamp.sec, 0⟩

/-- Where the timer fires, the session goes whose entry is the oldest. -/
theorem Aged.report_iff (ha : Aged s m e k) (hi : s.Inv) (hn : 0 < n) {ts : Timeval}
    (hle : s.timer.time ≤ ts.sec) :
    (∃ r ∈ (s.checkTimeout ts).2, r.ptr = m.ptr ∧ r.data.normallyClosed = false ∧
      r.data.endTime = some ⟨ts.sec, 0⟩) ↔ k + 1 = n := by
  obtain ⟨m', hm', hptr, -, hctx⟩ := ha.mem
  obtain ⟨rs, he, hperm, hrs⟩ := checkTimeout_of_le hi hle
  rw [he]
  have hdrop : k + 1 = n ↔ e ∈ s.sessionBuckets.dropped := by
    rw [Wheel.mem_dropped hn, and_iff_right ha.entry, ha.age]
  have hgone : e ∈ s.sessionBuckets.dropped ↔ m' ∉ (s.ticked ts.sec).sessionDataMap := by
    rw [mem_ticked, not_and_or, or_iff_right (not_not.mpr hm')]
    constructor
    · intro hd hno
      exact hno e hd (ha.weak.trans hptr.symm)
    · intro hno
      obtain ⟨e', he', hw'⟩ := by simpa using hno
      have hmem := ((Wheel.mem_dropped hn).mp he').1
      have hc := hi.own e' hmem m' hm' hw'
      rwa [hi.entries e ha.entry e' hmem (Option.some.inj (hctx.symm.trans hc))]
  rw [hdrop, hgone]
  have hnodup : (rs.map (·.ptr) ++ (s.ticked ts.sec).sessionDataMap.map (·.ptr)).Nodup := by
    rw [hperm.nodup_iff, List.nodup_map_iff_inj_on (hi.distinct.imp fun h he => h.1 (congrArg _ he))]
    exact fun x hx y hy h => hi.eq_of_ptr hx hy h
  constructor
  · rintro ⟨r, hr, hp, -⟩ hmem
    exact (List.nodup_append.mp hnodup).2.2 r.ptr (List.mem_map_of_mem hr) m'.ptr
      (List.mem_map_of_mem hmem) (hp.trans hptr.symm)
  · intro hno
    have hin := hperm.mem_iff.mpr (List.mem_map_of_mem (f := (·.ptr)) hm')
    rcases List.mem_append.mp hin with hin | hin
    · obtain ⟨r, hr, hp⟩ := List.mem_map.mp hin
      obtain ⟨x, hx, rfl⟩ := hrs r hr
      refine ⟨_, hr, hp.trans hptr, rfl, ?_⟩
      show some (⟨ts.sec + 1 - 1, 0⟩ : Timeval) = _
      rw [add_sub_cancel_right]
    · obtain ⟨x, hx, hp⟩ := List.mem_map.mp hin
      have hx' := (mem_ticked.mp hx).1
      exact absurd (hi.eq_of_ptr hx' hm' hp ▸ hx) hno

/-- No packet less than `n` seconds after the last of a session times it out. -/
theorem not_reported_early (hn : 0 < n) {p₀ : TcpData}
    (hr : runSession n sharding (ps ++ [p₀]) = some (s, es)) (hp₀ : p₀.accepted)
    (hm : m ∈ s.sessionDataMap) (hk : p₀.t4.SameFlow m.key)
    (hsorted : (ps ++ [p₀] ++ qs).Pairwise (·.timeStamp.sec ≤ ·.timeStamp.sec))
    (hother : ∀ q ∈ qs, q.accepted → ¬ q.t4.SameFlow m.key)
    (hfirst : ∀ q ∈ qs, q.accepted → q.timeStamp.sec < p₀.timeStamp.sec + n) :
    ∃ s' es' e, runSession n sharding (ps ++ [p₀] ++ qs) = some (s', es') ∧
      Idle p₀.timeStamp.sec qs m e s' ∧ m.ptr ∉ es'.map (·.ptr) := by
  obtain ⟨hbefore, hqs, hcross⟩ := List.pairwise_append.mp hsorted
  obtain ⟨e, hidle⟩ := idle_nil hn hr
    (fun q hq => (List.pairwise_append.mp hbefore).2.2 q hq p₀ (List.mem_singleton_self _)) hp₀ hm hk
  obtain ⟨s', es', hr', hidle'⟩ :=
    hidle.run hn hqs (fun q hq => hcross p₀ (by simp) q hq) hfirst hother
  have hrun : runSession n sharding (ps ++ [p₀] ++ qs) = some (s', es ++ es') :=
    run_append.mpr ⟨_, _, _, _, hr, hr', rfl⟩
  refine ⟨s', es ++ es', e, hrun, hidle', fun hmem => ?_⟩
  obtain ⟨m', hm', hptr, -⟩ := hidle'.aged.mem
  have hnodup := (runSession_reported hn hrun).perm.nodup_iff.mpr List.nodup_range
  exact (List.nodup_append.mp hnodup).2.2 _ hmem _ (List.mem_map_of_mem hm') hptr.symm

/-- A session whose last packet is `p₀` times out with the first packet that comes `n` seconds
later or more, `p`, exactly if there was a packet in every second between. -/
theorem timesOut_iff (hn : 0 < n) {p₀ : TcpData}
    (hr : runSession n sharding (ps ++ [p₀]) = some (s, es)) (hp₀ : p₀.accepted)
    (hm : m ∈ s.sessionDataMap) (hk : p₀.t4.SameFlow m.key)
    (hsorted : (ps ++ [p₀] ++ qs ++ [p]).Pairwise (·.timeStamp.sec ≤ ·.timeStamp.sec))
    (hother : ∀ q ∈ qs, q.accepted → ¬ q.t4.SameFlow m.key)
    (hfirst : ∀ q ∈ qs, q.accepted → q.timeStamp.sec < p₀.timeStamp.sec + n) (hp : p.accepted)
    (hlate : p₀.timeStamp.sec + n ≤ p.timeStamp.sec) :
    TimesOut n sharding m.ptr (ps ++ [p₀] ++ qs) p ↔
      ∀ k, p₀.timeStamp.sec < k → k < p₀.timeStamp.sec + n →
        ∃ q ∈ qs, q.accepted ∧ q.timeStamp.sec = k := by
  obtain ⟨hsorted', -, -⟩ := List.pairwise_append.mp hsorted
  obtain ⟨s', es', e, hrun, hidle', hnot⟩ := not_reported_early hn hr hp₀ hm hk hsorted' hother hfirst
  have htime : s'.timer.time ≤ p.timeStamp.sec := by
    rcases hidle'.last with hl | hl
    · omega
    · obtain ⟨-, q, hq, ha, hqs⟩ := mem_secondsAfter.mp hl
      have := hfirst q hq ha
      omega
  have hall : TimesOut n sharding m.ptr (ps ++ [p₀] ++ qs) p ↔
      (secondsAfter p₀.timeStamp.sec qs).card + 1 = n := by
    rw [← hidle'.aged.report_iff hidle'.inv hn htime]
    constructor
    · rintro ⟨s₁, es₁, hr₁, -, h⟩
      cases hrun.symm.trans hr₁
      exact h
    · exact fun h => ⟨s', es', hrun, hnot, h⟩
  rw [hall]
  obtain ⟨hsub, hcard⟩ := card_secondsAfter hfirst
  constructor
  · intro hc k hlo hhi
    have heq := Finset.eq_of_subset_of_card_le hsub (by omega)
    exact (mem_secondsAfter.mp (heq ▸ Finset.mem_Ioo.mpr ⟨hlo, hhi⟩)).2
  · intro h
    have heq : secondsAfter p₀.timeStamp.sec qs = Finset.Ioo p₀.timeStamp.sec (p₀.timeStamp.sec + n) := by
      refine Finset.Subset.antisymm hsub fun k hk => ?_
      obtain ⟨hlo, hhi⟩ := Finset.mem_Ioo.mp hk
      exact mem_secondsAfter.mpr ⟨hlo, h k hlo hhi⟩
    rw [heq]
    omega

theorem timesOut_iff_two :
    TimesOut 2 plainSharding 0 ([] ++ [shortPacket 1 TH_SYN 40 0] ++ [shortPacket 2 TH_SYN 40 1])
      (shortPacket 2 TH_SYN 40 2) ↔
      ∀ k, 0 < k → k < 0 + 2 →
        ∃ q ∈ [shortPacket 2 TH_SYN 40 1], q.accepted ∧ q.timeStamp.sec = k := by
  have hr : ∃ s es, runSession 2 plainSharding ([] ++ [shortPacket 1 TH_SYN 40 0]) = some (s, es) ∧
      ∃ m ∈ s.sessionDataMap, m.ptr = 0 ∧ m.key = (shortPacket 1 TH_SYN 40 0).t4 :=
    ⟨_, _, rfl, _, .head _, rfl, rfl⟩
  obtain ⟨s, es, hr, m, hm, hptr, hkey⟩ := hr
  rw [← hptr]
  refine timesOut_iff (by decide) hr (by decide) hm (hkey ▸ .refl _) (by decide) ?_ (by decide)
    (by decide) (by decide)
  rw [hkey]
  decide

/-- A packet ten seconds after the last of a session leaves it there, though the time is two
seconds: there was none in between. -/
theorem not_timesOut_quiet :
    ¬ TimesOut 2 plainSharding 0 [shortPacket 1 TH_SYN 40 0] (shortPacket 2 TH_SYN 40 10) := by
  rintro ⟨s, es, hr, -, r, hmem, -⟩
  have hnone : (runSession 2 plainSharding [shortPacket 1 TH_SYN 40 0]).all
      (fun r => (r.1.checkTimeout ⟨10, 0⟩).2.isEmpty) = true := rfl
  rw [hr] at hnone
  have hnil : (s.checkTimeout (shortPacket 2 TH_SYN 40 10).timeStamp).2 = [] :=
    List.isEmpty_iff.mp hnone
  rw [hnil] at hmem
  cases hmem

end Noff.TcpSession
