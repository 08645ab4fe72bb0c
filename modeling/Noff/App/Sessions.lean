import Noff.App.TcpSession
import Mathlib.Data.List.Perm.Basic

/-!
# Sessions and their entries

Between the calls of `onTcpData` every session in the map has an entry in a
bucket of the wheel, and an entry whose session is in the map is the one of that session
(`TcpSession.Inv`). The check of the timer and the handling of a packet keep that
(`Inv.checkTimeout`, `Handled.inv`); a session that is no longer in the map has been reported
(`Checked.perm`, `Handled.perm`).
-/

namespace Noff

/-! ## Tuples of one connection -/

/-- The two tuples are equal, or one is the other's reverse. -/
def Tuple4.SameFlow (t u : Tuple4) : Prop := t = u ∨ t = u.reversed

namespace Tuple4

variable {t u v : Tuple4}

instance : Decidable (t.SameFlow u) := inferInstanceAs (Decidable (t = u ∨ t = u.reversed))

theorem SameFlow.refl (t : Tuple4) : t.SameFlow t := .inl rfl

theorem SameFlow.symm (h : t.SameFlow u) : u.SameFlow t := by
  rcases h with rfl | rfl
  · exact .inl rfl
  · exact .inr rfl

theorem SameFlow.trans (h : t.SameFlow u) (h' : u.SameFlow v) : t.SameFlow v := by
  rcases h with rfl | rfl
  · exact h'
  · rcases h' with rfl | rfl
    · exact .inr rfl
    · exact .inl rfl

theorem tuple4HashEqual_iff : tuple4HashEqual t u ↔ t.SameFlow u := by
  rw [tuple4HashEqual, SameFlow]
  split
  · rename_i h
    exact iff_of_true rfl (.inl h)
  · rename_i h
    rw [or_iff_right h]
    obtain ⟨a, b, c, d⟩ := t
    simp only [Bool.and_eq_true, decide_eq_true_eq, reversed, mk.injEq]
    tauto

end Tuple4

namespace TcpSession

open Tuple4

variable {n : Nat} {s s' : TcpSession n} {t4 : Tuple4} {m : SessionNode} {e : Entry}

/-- The hash of the map is the same for both directions, so only the keys count. -/
theorem isKey_iff : s.isKey t4 m ↔ t4.SameFlow m.key := by
  rw [isKey, Bool.and_eq_true, decide_eq_true_eq, tuple4HashEqual_iff, and_iff_right_iff_imp]
  rintro (rfl | rfl)
  · rfl
  · exact s.sharding.ofTuple_reversed _

/-! ## Lookups -/

theorem find?_eq_some_of_unique {α : Type} {l : List α} {f : α → Bool} {x : α} (hx : x ∈ l)
    (hf : f x) (h : ∀ y ∈ l, f y → y = x) : l.find? f = some x := by
  cases hl : l.find? f with
  | none => exact absurd hf (List.find?_eq_none.mp hl x hx)
  | some y => rw [h y (List.mem_of_find?_eq_some hl) (List.find?_some hl)]

/-- Two elements of the map are of different sessions and connections. -/
def Apart (m m' : SessionNode) : Prop := m.ptr ≠ m'.ptr ∧ ¬ m.key.SameFlow m'.key

instance : Std.Symm Apart := ⟨fun _ _ h => ⟨h.1.symm, fun hk => h.2 hk.symm⟩⟩

/-- What holds between the calls. -/
structure Inv (s : TcpSession n) : Prop where
  key : ∀ m ∈ s.sessionDataMap, m.key = m.data.t4
  distinct : s.sessionDataMap.Pairwise Apart
  /-- A session in the map is yet to be closed, and its entry is in a bucket. -/
  live : ∀ m ∈ s.sessionDataMap, m.data.normallyClosed ∧
    ∃ e ∈ s.sessionBuckets, e.weak = m.ptr ∧ m.data.context = some e.ptr
  /-- An entry of a session in the map is the entry of that session. -/
  own : ∀ e ∈ s.sessionBuckets, ∀ m ∈ s.sessionDataMap, e.weak = m.ptr →
    m.data.context = some e.ptr
  entries : ∀ e ∈ s.sessionBuckets, ∀ e' ∈ s.sessionBuckets, e.ptr = e'.ptr → e = e'
  freshSession : ∀ m ∈ s.sessionDataMap, m.ptr < s.nextSession
  freshEntry : ∀ e ∈ s.sessionBuckets, e.ptr < s.nextEntry ∧ e.weak < s.nextSession

theorem inv_create (n : Nat) (sharding : Sharding) : (create n sharding).Inv where
  key := by simp [create]
  distinct := .nil
  live := by simp [create]
  own := by simp [create]
  entries := by simp [create]
  freshSession := by simp [create]
  freshEntry := by simp [create]

section

variable (hi : s.Inv)
include hi

theorem Inv.eq_of_ptr {m m' : SessionNode} (hm : m ∈ s.sessionDataMap)
    (hm' : m' ∈ s.sessionDataMap) (h : m.ptr = m'.ptr) : m = m' := by
  by_contra hne
  exact (hi.distinct.forall hm hm' hne).1 h

theorem Inv.eq_of_sameFlow {m m' : SessionNode} (hm : m ∈ s.sessionDataMap)
    (hm' : m' ∈ s.sessionDataMap) (h : m.key.SameFlow m'.key) : m = m' := by
  by_contra hne
  exact (hi.distinct.forall hm hm' hne).2 h

theorem Inv.lockEntry (he : e ∈ s.sessionBuckets) : s.lockEntry e.ptr = some e := by
  have hmem {e : Entry} : e ∈ s.sessionBuckets.buckets.flatten ↔ e ∈ s.sessionBuckets := by
    rw [List.mem_flatten, Wheel.mem_def]
  exact find?_eq_some_of_unique (hmem.mpr he) (decide_eq_true rfl) fun e' he' h =>
    hi.entries e' (hmem.mp he') e he (of_decide_eq_true h)

/-- The branch for a dead connection is not taken. -/
theorem Inv.getEntryPtr (hm : m ∈ s.sessionDataMap) : ∃ e ∈ s.sessionBuckets, e.weak = m.ptr ∧
    m.data.context = some e.ptr ∧ s.getEntryPtr m.data = some (some e) := by
  obtain ⟨-, e, he, hw, hc⟩ := hi.live m hm
  refine ⟨e, he, hw, hc, ?_⟩
  rw [TcpSession.getEntryPtr, hc, Option.map_some, hi.lockEntry he]

end

/-- Where the elements have keys of different connections, that of a tuple is erased alone. -/
theorem eraseP_eq_filter {l : List SessionNode} (hl : l.Pairwise Apart) (hm : m ∈ l) (hk : t4.SameFlow m.key) :
    l.eraseP (s.isKey t4) = l.filter (·.ptr ≠ m.ptr) := by
  induction hl with
  | nil => cases hm
  | @cons x l hx _ ih =>
    rcases List.mem_cons.mp hm with rfl | hm
    · rw [List.eraseP_cons_of_pos (isKey_iff.mpr hk), List.filter_cons_of_neg (by simp),
        List.filter_eq_self.mpr]
      intro y hy
      exact decide_eq_true (hx y hy).1.symm
    · have hne := hx m hm
      rw [List.eraseP_cons_of_neg fun h => hne.2 ((isKey_iff.mp h).symm.trans hk), ih hm,
        List.filter_cons_of_pos (by simpa using hne.1)]

theorem Inv.erase (hi : s.Inv) (hm : m ∈ s.sessionDataMap) (hk : t4.SameFlow m.key) :
    s.erase t4 = { s with sessionDataMap := s.sessionDataMap.filter (·.ptr ≠ m.ptr) } := by
  rw [TcpSession.erase, eraseP_eq_filter hi.distinct hm hk]

/-! ## The timer -/

/-- The report of a session that times out. -/
def timedOut (timer : Timer) (m : SessionNode) : Report :=
  ⟨m.ptr, { m.data with normallyClosed := false, endTime := some ⟨timer.lastCheckTime, 0⟩ }⟩

/-- The elements of the map without those of some entries. -/
def without (s : TcpSession n) (es : List Entry) : TcpSession n :=
  { s with sessionDataMap := s.sessionDataMap.filter fun m => ∀ e ∈ es, e.weak ≠ m.ptr }

/-- The map without one of its elements. -/
theorem perm_filter {l : List SessionNode} (hd : l.Pairwise Apart) (hm : m ∈ l) :
    (m :: l.filter (·.ptr ≠ m.ptr)).Perm l := by
  have hnodup : l.Nodup := hd.imp fun h he => h.1 (congrArg _ he)
  have herase : l.filter (·.ptr ≠ m.ptr) = l.erase m := by
    rw [hnodup.erase_eq_filter]
    refine List.filter_congr fun x hx => ?_
    rw [Bool.eq_iff_iff, decide_eq_true_eq, bne_iff_ne]
    exact ⟨fun h he => h (congrArg _ he), fun hne => (hd.forall hx hm hne).1⟩
  rw [herase]
  exact (List.perm_cons_erase hm).symm

theorem without_singleton (e : Entry) :
    s.without [e] = { s with sessionDataMap := s.sessionDataMap.filter (·.ptr ≠ e.weak) } := by
  simp only [without, List.forall_mem_singleton, ne_comm]

theorem of_lockSession_none {ptr : SessionPtr} (h : s.lockSession ptr = none) :
    s.sessionDataMap.filter (·.ptr ≠ ptr) = s.sessionDataMap := by
  rw [List.filter_eq_self]
  simpa [lockSession] using h

theorem of_lockSession_some {ptr : SessionPtr} (h : s.lockSession ptr = some m) :
    m ∈ s.sessionDataMap ∧ m.ptr = ptr := by
  rw [lockSession] at h
  exact ⟨List.mem_of_find?_eq_some h, by simpa using List.find?_some h⟩

section

variable (hd : s.sessionDataMap.Pairwise Apart) (hk : ∀ m ∈ s.sessionDataMap, m.key = m.data.t4)
include hd

theorem perm_destroy (e : Entry) : (((s.lockSession e.weak).toList.map (·.ptr)) ++
    (s.without [e]).sessionDataMap.map (·.ptr)).Perm (s.sessionDataMap.map (·.ptr)) := by
  rw [without_singleton]
  cases hl : s.lockSession e.weak with
  | none =>
    rw [of_lockSession_none hl]
    exact .refl _
  | some m =>
    obtain ⟨hm, hptr⟩ := of_lockSession_some hl
    rw [← hptr]
    exact (perm_filter hd hm).map _

include hk

/-- With an entry its session goes, if it is there. -/
theorem destroy_eq (e : Entry) :
    s.destroy e = (s.without [e], (s.lockSession e.weak).toList.map (timedOut s.timer)) := by
  rw [destroy, without_singleton]
  cases hl : s.lockSession e.weak with
  | none =>
    rw [of_lockSession_none hl]
    rfl
  | some m =>
    obtain ⟨hm, hptr⟩ := of_lockSession_some hl
    rw [← hptr]
    refine Prod.ext ?_ rfl
    show s.erase m.data.t4 = _
    rw [TcpSession.erase, eraseP_eq_filter hd hm (hk m hm ▸ .refl _)]

/-- What the destruction of some entries does. -/
theorem trace_destroy (es : List Entry) : ∃ rs, trace destroy s es = (s.without es, rs) ∧
    (rs.map (·.ptr) ++ (s.without es).sessionDataMap.map (·.ptr)).Perm
      (s.sessionDataMap.map (·.ptr)) ∧
    ∀ r ∈ rs, ∃ m ∈ s.sessionDataMap, r = timedOut s.timer m := by
  induction es generalizing s with
  | nil =>
    have hs : s.without [] = s := by
      simp only [without, List.not_mem_nil, false_imp_iff, implies_true, decide_true, List.filter_true]
    exact ⟨[], by rw [hs]; rfl, by rw [hs]; exact .refl _, fun r hr => absurd hr List.not_mem_nil⟩
  | cons e es ih =>
    have hsub : ∀ m ∈ (s.without [e]).sessionDataMap, m ∈ s.sessionDataMap :=
      fun m hm => List.mem_of_mem_filter hm
    have hs : (s.without [e]).without es = s.without (e :: es) := by
      simp only [without, List.filter_filter]
      congr 1
      exact List.filter_congr fun m _ => by simp [Bool.and_comm]
    obtain ⟨rs, htr, hperm, hrs⟩ := ih (s := s.without [e]) (hd.filter _) fun m hm => hk m (hsub m hm)
    refine ⟨(s.lockSession e.weak).toList.map (timedOut s.timer) ++ rs, ?_, ?_, fun r hr => ?_⟩
    · rw [trace_cons, destroy_eq hd hk, htr, hs]
    · rw [List.map_append, List.map_map, List.append_assoc, ← hs]
      exact (hperm.append_left _).trans (perm_destroy hd e)
    · rcases List.mem_append.mp hr with hr | hr
      · obtain ⟨m, hm, rfl⟩ := List.mem_map.mp hr
        exact ⟨m, (of_lockSession_some (Option.mem_toList.mp hm)).1, rfl⟩
      · obtain ⟨m, hm, rfl⟩ := hrs r hr
        exact ⟨m, hsub m hm, rfl⟩

end

/-- The state after the timer has fired in second `sec`. -/
def ticked (s : TcpSession n) (sec : Int) : TcpSession n :=
  { s with timer := ⟨sec + 1⟩, sessionBuckets := s.sessionBuckets.push }.without
    s.sessionBuckets.dropped

theorem mem_ticked {sec : Int} : m ∈ (s.ticked sec).sessionDataMap ↔
    m ∈ s.sessionDataMap ∧ ∀ e ∈ s.sessionBuckets.dropped, e.weak ≠ m.ptr := by
  rw [ticked, without, List.mem_filter, decide_eq_true_eq]

theorem Inv.ticked (hi : s.Inv) (hn : 0 < n) (sec : Int) : (s.ticked sec).Inv := by
  have hheld : ∀ e ∈ (s.ticked sec).sessionBuckets, e ∈ s.sessionBuckets :=
    fun e he => ((Wheel.mem_push hn).mp he).1
  have hmem : ∀ m ∈ (s.ticked sec).sessionDataMap, m ∈ s.sessionDataMap :=
    fun m hm => (mem_ticked.mp hm).1
  refine ⟨fun m hm => hi.key m (hmem m hm), hi.distinct.filter _, fun m hm => ?_,
    fun e he m hm => hi.own e (hheld e he) m (hmem m hm),
    fun e he e' he' => hi.entries e (hheld e he) e' (hheld e' he'),
    fun m hm => hi.freshSession m (hmem m hm), fun e he => hi.freshEntry e (hheld e he)⟩
  -- The entry of a session that stays is not dropped.
  obtain ⟨hopen, e, he, hw, hc⟩ := hi.live m (hmem m hm)
  refine ⟨hopen, e, ?_, hw, hc⟩
  rcases Wheel.mem_push_or_dropped hn he with hp | hd
  · exact hp
  · exact absurd hw ((mem_ticked.mp hm).2 e hd)

theorem checkTimeout_of_lt {ts : Timeval} (h : ts.sec < s.timer.time) :
    s.checkTimeout ts = (s, []) := by
  rw [checkTimeout, Timer.checkTime, if_neg (by omega)]
  rfl

/-- The sessions that are reported and those that stay are those there were. -/
theorem checkTimeout_of_le {ts : Timeval} (hi : s.Inv) (h : s.timer.time ≤ ts.sec) :
    ∃ rs, s.checkTimeout ts = (s.ticked ts.sec, rs) ∧
      (rs.map (·.ptr) ++ (s.ticked ts.sec).sessionDataMap.map (·.ptr)).Perm
        (s.sessionDataMap.map (·.ptr)) ∧
      ∀ r ∈ rs, ∃ m ∈ s.sessionDataMap, r = timedOut ⟨ts.sec + 1⟩ m := by
  obtain ⟨rs, htr, hperm, hrs⟩ := trace_destroy
    (s := { s with timer := ⟨ts.sec + 1⟩, sessionBuckets := s.sessionBuckets.push })
    hi.distinct hi.key s.sessionBuckets.dropped
  refine ⟨rs, ?_, hperm, hrs⟩
  rw [checkTimeout, Timer.checkTime, if_pos h]
  exact htr

/-- What the check of the timer does, whether it fires or not. -/
structure Checked (s : TcpSession n) (ts : Timeval) (s' : TcpSession n) (rs : List Report) : Prop where
  inv : s'.Inv
  nextSession : s'.nextSession = s.nextSession
  mem : ∀ m ∈ s'.sessionDataMap, m ∈ s.sessionDataMap
  perm : (rs.map (·.ptr) ++ s'.sessionDataMap.map (·.ptr)).Perm (s.sessionDataMap.map (·.ptr))
  reports : ∀ r ∈ rs, ∃ m ∈ s.sessionDataMap, r = timedOut ⟨ts.sec + 1⟩ m

theorem Inv.checkTimeout (hi : s.Inv) (hn : 0 < n) (ts : Timeval) :
    Checked s ts (s.checkTimeout ts).1 (s.checkTimeout ts).2 := by
  rcases Int.lt_or_le ts.sec s.timer.time with h | h
  · rw [checkTimeout_of_lt h]
    exact ⟨hi, rfl, fun m hm => hm, .refl _, fun r hr => absurd hr List.not_mem_nil⟩
  · obtain ⟨rs, he, hperm, hrs⟩ := checkTimeout_of_le hi h
    rw [he]
    exact ⟨hi.ticked hn _, rfl, fun m hm => (mem_ticked.mp hm).1, hperm, hrs⟩

/-! ## The packet -/

/-- The element of the map that the first packet of a connection makes. -/
def newNode (s : TcpSession n) (p : TcpData) : SessionNode :=
  ⟨p.t4, s.nextSession, { SessionData.create p.t4 p.timeStamp with
    context := some s.nextEntry }.update p.t4 p.size p.flag⟩

/-- What is done with a packet after the check of the timer: it belongs to no session, or makes
one, or ends one, or is one of its messages. -/
inductive Handled (s : TcpSession n) (p : TcpData) : TcpSession n → List Report → Prop where
  | ignored (hno : ∀ m ∈ s.sessionDataMap, ¬ p.t4.SameFlow m.key)
      (hsyn : (p.flag &&& TH_SYN != 0) = false) : Handled s p s []
  | created (hno : ∀ m ∈ s.sessionDataMap, ¬ p.t4.SameFlow m.key) (hsyn : p.flag &&& TH_SYN != 0)
      {w : Wheel Entry n} (hw : s.sessionBuckets.insert ⟨s.nextEntry, s.nextSession⟩ = some w) :
      Handled s p
        { s with
          sessionDataMap := s.sessionDataMap ++ [s.newNode p], sessionBuckets := w
          nextSession := s.nextSession + 1, nextEntry := s.nextEntry + 1 } []
  | closed {m : SessionNode} (hm : m ∈ s.sessionDataMap) (hk : p.t4.SameFlow m.key)
      (hend : p.flag &&& TH_FIN != 0 || p.flag &&& TH_RST != 0) :
      Handled s p { s with sessionDataMap := s.sessionDataMap.filter (·.ptr ≠ m.ptr) }
        [⟨m.ptr, { m.data with endTime := some p.timeStamp }.update p.t4 p.size p.flag⟩]
  | message {m : SessionNode} {e : Entry} {w : Wheel Entry n} (hm : m ∈ s.sessionDataMap)
      (hk : p.t4.SameFlow m.key) (he : e ∈ s.sessionBuckets) (hown : e.weak = m.ptr)
      (hc : m.data.context = some e.ptr) (hw : s.sessionBuckets.insert e = some w) :
      Handled s p ({ s with sessionBuckets := w }.modify m.ptr (·.update p.t4 p.size p.flag)) []

theorem map_last {l : List SessionNode} {ptr : SessionPtr} (hm : m.ptr = ptr)
    (h : ∀ x ∈ l, x.ptr ≠ ptr) (f : SessionData → SessionData) :
    ((l ++ [m]).map fun x => if x.ptr = ptr then { x with data := f x.data } else x) =
      l ++ [{ m with data := f m.data }] := by
  rw [List.map_append, List.map_singleton, if_pos hm]
  congr 1
  exact (List.map_congr_left fun x hx => if_neg (h x hx)).trans (List.map_id l)

theorem find_eq_none : s.find t4 = none ↔ ∀ m ∈ s.sessionDataMap, ¬ t4.SameFlow m.key := by
  rw [find, List.find?_eq_none]
  simp only [isKey_iff]

theorem of_find_eq_some (h : s.find t4 = some m) : m ∈ s.sessionDataMap ∧ t4.SameFlow m.key := by
  rw [find] at h
  exact ⟨List.mem_of_find?_eq_some h, isKey_iff.mp (List.find?_some h)⟩

variable {p : TcpData}

theorem firstConnection_eq (hi : s.Inv) {w : Wheel Entry n}
    (hw : s.sessionBuckets.insert ⟨s.nextEntry, s.nextSession⟩ = some w) :
    s.firstConnection p.t4 p.timeStamp p.size p.flag = some { s with
      sessionDataMap := s.sessionDataMap ++ [s.newNode p], sessionBuckets := w
      nextSession := s.nextSession + 1, nextEntry := s.nextEntry + 1 } := by
  have hfresh : ∀ x ∈ s.sessionDataMap, x.ptr ≠ s.nextSession := fun x hx =>
    Nat.ne_of_lt (hi.freshSession x hx)
  simp only [firstConnection, onConnection, modify, hw, Option.bind_eq_bind, Option.bind_some,
    Option.pure_def]
  have hlast (m : SessionNode) (hm : m.ptr = s.nextSession) (f : SessionData → SessionData) :=
    map_last hm hfresh f
  rw [hlast _ rfl fun data => { data with context := some s.nextEntry },
    hlast _ rfl (·.update p.t4 p.size p.flag)]
  rfl

theorem handled_of_handle (hi : s.Inv) {rs : List Report}
    (h : s.handle p.t4 p.timeStamp p.size p.flag = some (s', rs)) : Handled s p s' rs := by
  rw [handle] at h
  split at h
  · rename_i hf
    have hno := find_eq_none.mp hf
    split at h
    · rename_i hsyn
      obtain ⟨s₁, h₁, he⟩ := Option.map_eq_some_iff.mp h
      cases he
      cases hw : s.sessionBuckets.insert ⟨s.nextEntry, s.nextSession⟩ with
      | none => simp [firstConnection, onConnection, modify, hw] at h₁
      | some w =>
        rw [firstConnection_eq hi hw] at h₁
        cases h₁
        exact .created hno hsyn hw
    · rename_i hsyn
      cases h
      exact .ignored hno (Bool.not_eq_true _ ▸ hsyn)
  · rename_i m hf
    obtain ⟨hm, hk⟩ := of_find_eq_some hf
    obtain ⟨e, he, hown, hc, hget⟩ := hi.getEntryPtr hm
    simp only [hget, Option.bind_eq_bind, Option.bind_some] at h
    split at h
    · rename_i hend
      rw [hi.erase hm hk] at h
      cases h
      exact .closed hm hk hend
    · obtain ⟨w, hw, he'⟩ := Option.bind_eq_some_iff.mp h
      cases he'
      exact .message hm hk he hown hc hw

section

variable (data : SessionData) (t4 : Tuple4) (len : Int) (flag : Byte)

@[simp] theorem t4_update : (data.update t4 len flag).t4 = data.t4 := by
  rw [SessionData.update]
  split <;> rfl

@[simp] theorem startTime_update : (data.update t4 len flag).startTime = data.startTime := by
  rw [SessionData.update]
  split <;> rfl

@[simp] theorem endTime_update : (data.update t4 len flag).endTime = data.endTime := by
  rw [SessionData.update]
  split <;> rfl

@[simp] theorem normallyClosed_update :
    (data.update t4 len flag).normallyClosed = data.normallyClosed := by
  rw [SessionData.update]
  split <;> rfl

@[simp] theorem context_update : (data.update t4 len flag).context = data.context := by
  rw [SessionData.update]
  split <;> rfl

end

theorem mem_modify {ptr : SessionPtr} {f : SessionData → SessionData}
    (h : m ∈ (s.modify ptr f).sessionDataMap) : ∃ m₀ ∈ s.sessionDataMap, m.key = m₀.key ∧
      m.ptr = m₀.ptr ∧ m.data = if m₀.ptr = ptr then f m₀.data else m₀.data := by
  obtain ⟨m₀, hm₀, rfl⟩ := List.mem_map.mp h
  refine ⟨m₀, hm₀, ?_⟩
  split <;> exact ⟨rfl, rfl, rfl⟩

/-- Counting a packet of a session keeps the invariant. -/
theorem Inv.modify (hi : s.Inv) (ptr : SessionPtr) (t4 : Tuple4) (len : Int) (flag : Byte) :
    (s.modify ptr (·.update t4 len flag)).Inv := by
  have hmem {m} (h : m ∈ (s.modify ptr (·.update t4 len flag)).sessionDataMap) :
      ∃ m₀ ∈ s.sessionDataMap, m.key = m₀.key ∧ m.ptr = m₀.ptr ∧ m.data.t4 = m₀.data.t4 ∧
        m.data.normallyClosed = m₀.data.normallyClosed ∧ m.data.context = m₀.data.context := by
    obtain ⟨m₀, hm₀, hkey, hptr, hdata⟩ := mem_modify h
    refine ⟨m₀, hm₀, hkey, hptr, ?_⟩
    rw [hdata]
    split <;> simp
  refine ⟨fun m hm => ?_, ?_, fun m hm => ?_, fun e he m hm hw => ?_, hi.entries, fun m hm => ?_,
    hi.freshEntry⟩
  · obtain ⟨m₀, hm₀, hkey, -, ht4, -⟩ := hmem hm
    rw [hkey, hi.key m₀ hm₀, ht4]
  · rw [TcpSession.modify, List.pairwise_map]
    refine hi.distinct.imp fun h => ?_
    split <;> split <;> exact h
  · obtain ⟨m₀, hm₀, -, hptr, -, hopen, hctx⟩ := hmem hm
    rw [hopen, hptr, hctx]
    exact hi.live m₀ hm₀
  · obtain ⟨m₀, hm₀, -, hptr, -, -, hctx⟩ := hmem hm
    rw [hctx]
    exact hi.own e he m₀ hm₀ (hw.trans hptr)
  · obtain ⟨m₀, hm₀, -, hptr, -⟩ := hmem hm
    rw [hptr]
    exact hi.freshSession m₀ hm₀

/-- An entry that is in the wheel may be inserted again. -/
theorem Inv.insert (hi : s.Inv) (he : e ∈ s.sessionBuckets) {w : Wheel Entry n}
    (hw : s.sessionBuckets.insert e = some w) : { s with sessionBuckets := w }.Inv := by
  have hmem {e'} : e' ∈ w ↔ e' ∈ s.sessionBuckets := by
    rw [Wheel.mem_insert hw, or_iff_left_iff_imp]
    rintro rfl
    exact he
  refine ⟨hi.key, hi.distinct, fun m hm => ?_, fun e' he' => hi.own e' (hmem.mp he'),
    fun e' he' e'' he'' => hi.entries e' (hmem.mp he') e'' (hmem.mp he''), hi.freshSession,
    fun e' he' => hi.freshEntry e' (hmem.mp he')⟩
  obtain ⟨hopen, e', he', h⟩ := hi.live m hm
  exact ⟨hopen, e', hmem.mpr he', h⟩

theorem Handled.inv {rs : List Report} (h : Handled s p s' rs) (hi : s.Inv) : s'.Inv := by
  cases h with
  | ignored hno hsyn => exact hi
  | created hno hsyn hw =>
    have hmem {m} (hm : m ∈ s.sessionDataMap ++ [s.newNode p]) :
        m ∈ s.sessionDataMap ∨ m = s.newNode p := by
      rwa [List.mem_append, List.mem_singleton] at hm
    have hnew : (s.newNode p).data.context = some s.nextEntry ∧
        (s.newNode p).data.t4 = p.t4 ∧ (s.newNode p).data.normallyClosed = true :=
      ⟨context_update .., t4_update .., normallyClosed_update ..⟩
    refine ⟨fun m hm => ?_, ?_, fun m hm => ?_, fun e he m hm h => ?_, fun e he e' he' h => ?_,
      fun m hm => ?_, fun e he => ?_⟩
    · rcases hmem hm with hm | rfl
      · exact hi.key m hm
      · exact hnew.2.1.symm
    · refine List.pairwise_append.mpr ⟨hi.distinct, List.pairwise_singleton .., ?_⟩
      intro x hx y hy
      obtain rfl := List.mem_singleton.mp hy
      exact ⟨Nat.ne_of_lt (hi.freshSession x hx), fun hk => hno x hx hk.symm⟩
    · rcases hmem hm with hm | rfl
      · obtain ⟨hopen, e, he, hrest⟩ := hi.live m hm
        exact ⟨hopen, e, (Wheel.mem_insert hw).mpr (.inl he), hrest⟩
      · exact ⟨hnew.2.2, _, (Wheel.mem_insert hw).mpr (.inr rfl), rfl, hnew.1⟩
    · -- No older entry is of the new session, nor the new one of an older.
      rcases (Wheel.mem_insert hw).mp he with he | rfl <;> rcases hmem hm with hm | rfl
      · exact hi.own e he m hm h
      · exact absurd h (Nat.ne_of_lt (hi.freshEntry e he).2)
      · exact absurd h (Nat.ne_of_gt (hi.freshSession m hm))
      · exact hnew.1
    · rcases (Wheel.mem_insert hw).mp he with he | rfl <;>
        rcases (Wheel.mem_insert hw).mp he' with he' | rfl
      · exact hi.entries e he e' he' h
      · exact absurd h (Nat.ne_of_lt (hi.freshEntry e he).1)
      · exact absurd h (Nat.ne_of_gt (hi.freshEntry e' he').1)
      · rfl
    · rcases hmem hm with hm | rfl
      · exact Nat.lt_succ_of_lt (hi.freshSession m hm)
      · exact Nat.lt_succ_self _
    · rcases (Wheel.mem_insert hw).mp he with he | rfl
      · have h := hi.freshEntry e he
        exact ⟨Nat.lt_succ_of_lt h.1, Nat.lt_succ_of_lt h.2⟩
      · exact ⟨Nat.lt_succ_self _, Nat.lt_succ_self _⟩
  | @closed m₀ hm hk hend =>
    have hmem {m} (h : m ∈ s.sessionDataMap.filter (·.ptr ≠ m₀.ptr)) : m ∈ s.sessionDataMap :=
      List.mem_of_mem_filter h
    exact ⟨fun m h => hi.key m (hmem h), hi.distinct.filter _, fun m h => hi.live m (hmem h),
      fun e he m h => hi.own e he m (hmem h), hi.entries, fun m h => hi.freshSession m (hmem h),
      hi.freshEntry⟩
  | message hm hk he hown hc hw => exact (hi.insert he hw).modify ..

/-- The sessions reported and those in the map are the sessions created, each of them once. -/
theorem Handled.perm {rs : List Report} (h : Handled s p s' rs) (hi : s.Inv) {l : List SessionPtr}
    (hl : (l ++ s.sessionDataMap.map (·.ptr)).Perm (List.range s.nextSession)) :
    (l ++ rs.map (·.ptr) ++ s'.sessionDataMap.map (·.ptr)).Perm (List.range s'.nextSession) := by
  cases h with
  | ignored hno hsyn => rwa [List.map_nil, List.append_nil]
  | created hno hsyn hw =>
    show (_ ++ _ ++ List.map _ (s.sessionDataMap ++ [s.newNode p])).Perm _
    rw [List.map_nil, List.append_nil, List.map_append, ← List.append_assoc, List.range_succ]
    exact hl.append_right _
  | closed hm hk hend =>
    rw [List.map_singleton, List.append_assoc]
    exact (((perm_filter hi.distinct hm).map (·.ptr)).append_left l).trans hl
  | message hm hk he hown hc hw =>
    have hptr (s : TcpSession n) (ptr f) :
        (s.modify ptr f).sessionDataMap.map (·.ptr) = s.sessionDataMap.map (·.ptr) := by
      rw [TcpSession.modify, List.map_map]
      refine List.map_congr_left fun m _ => ?_
      show (if _ then _ else _ : SessionNode).ptr = _
      split <;> rfl
    rwa [List.map_nil, List.append_nil, hptr]

end TcpSession

end Noff
