import Noff.Ip.Table

/-!
# The calls of the defragmenter

What the loop over the timers does (`Expires`), what `ipDefrag` does with a whole packet (`Whole`) and with
a fragment (`Taken`), and from these what a call does (`Called`). Every call has a result and keeps
the invariant (`Inv.startIpfragProc`, `runIp_total`).
-/

namespace Noff

namespace IpFragment

variable {s s' s₁ s₂ : IpFragment} {h : HostPtr} {hf : HostFrags} {q : QueuePtr} {qp : Ipq}
  {l l₁ l₂ qs : List QueuePtr} {clock : Nat → Int} {iph : List Byte} {es : List IpEvent} {data : List Byte}

/-! ## The loop over the timers -/

/-- What the loop does: queues whose timers have run out are freed, from the front, until there is
one that has not. -/
inductive Expires (clock : Nat → Int) : IpFragment → List IpEvent → IpFragment → Prop
  | empty {s : IpFragment} (hh : s.timers.head = none) : Expires clock s [] s
  | fresh {s : IpFragment} {q : QueuePtr} {qp : Ipq} (hh : s.timers.head = some q)
      (hq : s.queues q = some qp) (hle : ¬ qp.expires.slt (s.jiffies clock).timenow) :
      Expires clock s [] (s.jiffies clock)
  | stale {s s₁ s₂ : IpFragment} {q : QueuePtr} {qp : Ipq} {es : List IpEvent}
      (hh : s.timers.head = some q) (hq : s.queues q = some qp)
      (hlt : qp.expires.slt (s.jiffies clock).timenow)
      (hf : Freed { s.jiffies clock with thisHost := some qp.hf } q qp s₁)
      (he : Expires clock s₁ es s₂) :
      Expires clock s (.expired q ((s.jiffies clock).instant clock) :: es) s₂

theorem Table.jiffies (hi : s.Table) (clock : Nat → Int) (o : Option HostPtr) :
    ({ s.jiffies clock with thisHost := o } : IpFragment).Table :=
  hi.congr (jiffies_hashSize ..) (jiffies_fragtable ..) (jiffies_hosts ..) (jiffies_queues ..)
    (jiffies_next ..)

theorem Timed.congr (ht : s.Timed l) (htimers : s'.timers = s.timers)
    (hqueues : s'.queues = s.queues) : s'.Timed l :=
  ⟨htimers ▸ ht.links, hqueues ▸ ht.mem⟩

theorem Inv.congr (hi : s.Inv l) (hsize : s'.hashSize = s.hashSize)
    (htable : s'.fragtable = s.fragtable) (hhosts : s'.hosts = s.hosts)
    (hqueues : s'.queues = s.queues) (htimers : s'.timers = s.timers)
    (hnext : s'.next = s.next) : s'.Inv l :=
  ⟨hi.table.congr hsize htable hhosts hqueues hnext, hi.timed.congr htimers hqueues,
    fun h ⟨hf, hh, hl⟩ => hi.not_bare h ⟨hf, hhosts ▸ hh, hl⟩⟩

theorem Inv.jiffies (hi : s.Inv l) (clock : Nat → Int) (o : Option HostPtr) :
    ({ s.jiffies clock with thisHost := o } : IpFragment).Inv l :=
  hi.congr (jiffies_hashSize ..) (jiffies_fragtable ..) (jiffies_hosts ..) (jiffies_queues ..)
    (jiffies_timers ..) (jiffies_next ..)

theorem Inv.freed (hi : s.Inv (l₁ ++ q :: l₂)) (hq : s.queues q = some qp) (hf : Freed s q qp s') :
    s'.Inv (l₁ ++ l₂) :=
  ⟨hi.table.freed hq hf, hi.timed.freed hf, fun h hb => hi.not_bare h (hf.not_bare hb)⟩

/-- There are fewer queues than objects. -/
theorem Inv.length_le (hi : s.Inv l) : l.length ≤ s.next := by
  have hsub : l.Subperm (List.range s.next) := hi.timed.nodup.subperm fun q hq => by
    obtain ⟨qp, hqp⟩ := Option.ne_none_iff_exists'.mp ((hi.timed.mem q).mp hq)
    exact List.mem_range.mpr (hi.table.queue_lt q qp hqp)
  simpa using hsub.length_le

/-- The loop ends, after no more rounds than there are queues. -/
theorem Inv.exists_expireLoop (hi : s.Inv l) (clock : Nat → Int) {k : Nat} (hk : l.length ≤ k) :
    ∃ s' es, expireLoop clock (k + 1) s = some (s', es) ∧ Expires clock s es s' := by
  induction k generalizing s l with
  | zero =>
    obtain rfl := List.length_eq_zero_iff.mp (Nat.le_zero.mp hk)
    have hh : s.timers.head = none := hi.timed.links.head
    exact ⟨s, [], by rw [expireLoop, hh], .empty hh⟩
  | succ k ih =>
    cases l with
    | nil =>
      have hh : s.timers.head = none := hi.timed.links.head
      exact ⟨s, [], by rw [expireLoop, hh], .empty hh⟩
    | cons q l =>
      have hh : s.timers.head = some q := hi.timed.links.head
      obtain ⟨qp, hq⟩ := Option.ne_none_iff_exists'.mp
        ((hi.timed.mem q).mp (List.mem_cons_self ..))
      by_cases hlt : qp.expires.slt (s.jiffies clock).timenow
      · have hi' := hi.jiffies clock (some qp.hf)
        have hq' : ({ s.jiffies clock with thisHost := some qp.hf } : IpFragment).queues q = some qp :=
          (congrFun (jiffies_queues ..) q).trans hq
        obtain ⟨s₁, hfree, hf⟩ := hi'.table.exists_ipFree hq' rfl
        have hi₁ : s₁.Inv ([] ++ l) := Inv.freed hi' hq' hf
        obtain ⟨s', es, he, hex⟩ := ih hi₁ (by simpa using hk)
        refine ⟨s', _, ?_, .stale hh hq hlt hf hex⟩
        rw [expireLoop, hh]
        simp only [hq, Option.bind_eq_bind, Option.bind_some, if_pos hlt, hfree, he, Option.pure_def]
      · refine ⟨s.jiffies clock, [], ?_, .fresh hh hq hlt⟩
        rw [expireLoop, hh]
        simp only [hq, Option.bind_eq_bind, Option.bind_some, if_neg hlt, Option.pure_def]

namespace Expires

theorem next (h : Expires clock s es s') : s'.next = s.next := by
  induction h with
  | empty => rfl
  | fresh => exact jiffies_next ..
  | stale hh hq hlt hf he ih => exact ih.trans (hf.next.trans (jiffies_next ..))

theorem hashSize (h : Expires clock s es s') : s'.hashSize = s.hashSize := by
  induction h with
  | empty => rfl
  | fresh => exact jiffies_hashSize ..
  | stale hh hq hlt hf he ih => exact ih.trans (hf.hashSize.trans (jiffies_hashSize ..))

theorem bounded {b : Int} (h : Expires clock s es s') (hb : s.Bounded b) : s'.Bounded b := by
  have hj {s : IpFragment} (hb : s.Bounded b) (o : Option HostPtr) :
      ({ s.jiffies clock with thisHost := o } : IpFragment).Bounded b := fun h hf hh =>
    hb h hf ((congrFun (jiffies_hosts ..) h).symm.trans hh)
  induction h with
  | empty => exact hb
  | @fresh s q qp hh hq hle => exact hj hb (s.jiffies clock).thisHost
  | stale hh hq hlt hf he ih => exact ih (hf.bounded (hj hb _))

/-- The queues that expire are the first ones of the list. -/
theorem inv (h : Expires clock s es s') (hi : s.Inv l) : ∃ qs l', l = qs ++ l' ∧ s'.Inv l' ∧
    (∀ x, s'.queues x = if x ∈ qs then none else s.queues x) ∧
    ∀ q, q ∈ qs ↔ ∃ now, .expired q now ∈ es := by
  induction h generalizing l with
  | empty hh => exact ⟨[], l, rfl, hi, fun x => rfl, by simp⟩
  | @fresh s q qp hh hq hle =>
    refine ⟨[], l, rfl, ?_, fun x => by rw [jiffies_queues]; rfl, by simp⟩
    exact hi.congr (jiffies_hashSize ..) (jiffies_fragtable ..) (jiffies_hosts ..)
      (jiffies_queues ..) (jiffies_timers ..) (jiffies_next ..)
  | @stale s s₁ s₂ q qp es hh hq hlt hf he ih =>
    obtain ⟨l, rfl⟩ : ∃ l', l = q :: l' := by
      rw [hi.timed.links.head] at hh
      exact ⟨l.tail, (List.cons_head?_tail hh).symm⟩
    have hq' : ({ s.jiffies clock with thisHost := some qp.hf } : IpFragment).queues q = some qp :=
      (congrFun (jiffies_queues ..) q).trans hq
    have hi₁ : s₁.Inv ([] ++ l) := Inv.freed (hi.jiffies clock (some qp.hf)) hq' hf
    obtain ⟨qs, l', rfl, hi', hqueues, hmem⟩ := ih hi₁
    refine ⟨q :: qs, l', rfl, hi', fun x => ?_, fun x => ?_⟩
    · rw [hqueues, hf.queues]
      by_cases hx : x = q
      · simp [hx]
      · simp [hx]
    · rw [List.mem_cons, hmem]
      constructor
      · rintro (rfl | ⟨now, hnow⟩)
        · exact ⟨_, List.mem_cons_self ..⟩
        · exact ⟨now, List.mem_cons_of_mem _ hnow⟩
      · rintro ⟨now, hnow⟩
        rcases List.mem_cons.mp hnow with he | hnow
        · exact .inl (IpEvent.expired.inj he).1
        · exact .inr ⟨now, hnow⟩

end Expires

/-! ## The current host -/

/-- The current host is the one of this address, if there is one. -/
structure Found (s : IpFragment) (ip : BitVec 32) : Prop where
  none : s.thisHost = none → ∀ h hf, s.hosts h = some hf → hf.ip ≠ ip
  some : ∀ h, s.thisHost = some h → ∃ hf, s.hosts h = some hf ∧ hf.ip = ip

theorem Found.current {ip : BitVec 32} (hf : s.Found ip) : s.Current := fun h ht he => by
  obtain ⟨hf, hh, -⟩ := hf.some h ht
  rw [he] at hh
  cases hh

theorem Table.found (hi : s.Table) (iph : List Byte) : (s.hostfragFind iph).Found (ipDst iph) := by
  constructor
  · intro ht h hf hh hip
    have hmem : h ∈ s.fragtable (s.fragIndex (ipDst iph)) :=
      (hi.mem_fragtable _ h).mpr ⟨hf, hh, by rw [hi.index h hf hh, hip]⟩
    have hno := List.find?_eq_none.mp ht h hmem
    rw [show s.hosts h = some hf from hh] at hno
    simp [hip] at hno
  · intro h ht
    have hsome := List.find?_some ht
    obtain ⟨hf, hh, hip⟩ := (Option.any_eq_true ..).mp hsome
    exact ⟨hf, hh, by simpa using hip⟩

/-- A new host has a number that no host has, and an address that none has. -/
theorem Table.hostfragCreate (hi : s.Table) (hf : s.Found (ipDst iph)) (hn : s.thisHost = none) :
    (s.hostfragCreate iph).Table := by
  have hnew : s.hosts s.next = none := Option.eq_none_iff_forall_ne_some.mpr fun hf hh =>
    absurd (hi.host_lt _ hf hh) (Nat.lt_irrefl _)
  have hnone : ∀ q qp, s.queues q = some qp → qp.hf ≠ s.next := fun q qp hq he => by
    obtain ⟨hf, hh, -⟩ := hi.host q qp hq
    rw [he, hnew] at hh
    cases hh
  refine
    { nodup := fun i => ?_, mem_fragtable := fun i h => ?_, index := fun h hf hh => ?_,
      ip := fun h₁ hf₁ h₂ hf₂ hh₁ hh₂ hip => ?_, ipqueue := fun h hf hh => ?_,
      mem_ipqueue := fun h hf hh q => ?_, host := fun q qp hq => ?_, key := hi.key,
      mem := fun h hf hh => ?_, chain := hi.chain, host_lt := fun h hf hh => ?_,
      queue_lt := fun q qp hq => Nat.lt_succ_of_lt (hi.queue_lt q qp hq) }
  all_goals simp only [IpFragment.hostfragCreate, update_eq_some, Option.some.injEq] at *
  · rw [Function.update_apply]
    split
    · refine List.nodup_cons.mpr ⟨fun hmem => ?_, hi.nodup _⟩
      obtain ⟨hf, hh, -⟩ := (hi.mem_fragtable _ _).mp hmem
      rw [hnew] at hh
      cases hh
    · exact hi.nodup i
  · rw [Function.update_apply]
    split
    · rw [List.mem_cons, hi.mem_fragtable]
      grind
    · rw [hi.mem_fragtable]
      grind
  · rcases hh with ⟨-, rfl⟩ | ⟨-, hh⟩
    · rfl
    · exact hi.index h hf hh
  · rcases hh₁ with ⟨rfl, rfl⟩ | ⟨-, hh₁⟩ <;> rcases hh₂ with ⟨rfl, rfl⟩ | ⟨-, hh₂⟩
    · rfl
    · exact absurd hip.symm (hf.none hn h₂ hf₂ hh₂)
    · exact absurd hip (hf.none hn h₁ hf₁ hh₁)
    · exact hi.ip h₁ hf₁ h₂ hf₂ hh₁ hh₂ hip
  · rcases hh with ⟨-, rfl⟩ | ⟨-, hh⟩
    · exact .nil
    · exact hi.ipqueue h hf hh
  · rcases hh with ⟨rfl, rfl⟩ | ⟨-, hh⟩
    · simpa using hnone q
    · exact hi.mem_ipqueue h hf hh q
  · obtain ⟨hf, hh, hip⟩ := hi.host q qp hq
    exact ⟨hf, .inr ⟨hnone q qp hq, hh⟩, hip⟩
  · rcases hh with ⟨-, rfl⟩ | ⟨-, hh⟩
    · rfl
    · exact hi.mem h hf hh
  · rcases hh with ⟨rfl, -⟩ | ⟨-, hh⟩
    · exact Nat.lt_succ_self _
    · exact Nat.lt_succ_of_lt (hi.host_lt h hf hh)

theorem found_hostfragCreate (s : IpFragment) (iph : List Byte) :
    (s.hostfragCreate iph).Found (ipDst iph) := by
  refine ⟨nofun, fun h ht => ⟨⟨[], 0, ipDst iph, s.fragIndex (ipDst iph)⟩, ?_, rfl⟩⟩
  obtain rfl : s.next = h := Option.some.inj ht
  exact Function.update_self ..

/-- The only host without queues is the current one. -/
def BareOnly (s : IpFragment) : Prop := ∀ h, s.Bare h → s.thisHost = some h

theorem bareOnly_hostfragCreate (hb : ∀ h, ¬ s.Bare h) : (s.hostfragCreate iph).BareOnly := by
  rintro h ⟨hf, hh, hl⟩
  rcases update_eq_some.mp hh with ⟨rfl, -⟩ | ⟨-, hh⟩
  · rfl
  · exact absurd ⟨hf, hh, hl⟩ (hb h)

theorem Evicted.host {qs : List QueuePtr} (h : Evicted s qs s') {x : HostPtr} {hf' : HostFrags}
    (hh : s'.hosts x = some hf') : ∃ hf, s.hosts x = some hf ∧ hf.ip = hf'.ip := by
  induction h with
  | nil => exact ⟨hf', hh, rfl⟩
  | cons hq ht hf he ih =>
    obtain ⟨hf₁, hh₁, hip⟩ := ih hh
    cases hf with
    | last hh' hl => exact ⟨hf₁, (update_none_eq_some.mp hh₁).2, hip⟩
    | other hh' hl =>
      rcases update_eq_some.mp hh₁ with ⟨rfl, he⟩ | ⟨-, hh₁⟩
      · cases he
        exact ⟨_, hh', hip⟩
      · exact ⟨hf₁, hh₁, hip⟩

/-- The current host stays, or is gone. -/
theorem Evicted.thisHost {qs : List QueuePtr} (h : Evicted s qs s') :
    s'.thisHost = s.thisHost ∨
      s'.thisHost = none ∧ ∀ x, s.thisHost = some x → s'.hosts x = none := by
  induction h with
  | nil => exact .inl rfl
  | @cons s s₁ s₂ q qp qs hq ht hf he ih =>
    cases hf with
    | last hh hl =>
      refine .inr ⟨ih.elim id And.left, fun x hx => ?_⟩
      obtain rfl := Option.some.inj (ht.symm.trans hx)
      refine Option.eq_none_iff_forall_ne_some.mpr fun hf' hh' => ?_
      obtain ⟨hf₁, hh₁, -⟩ := he.host hh'
      exact (update_none_eq_some.mp hh₁).1 rfl
    | other hh hl => exact ih

theorem Evicted.found {qs : List QueuePtr} {ip : BitVec 32} (h : Evicted s qs s') (hi : s.Table)
    (hc : s'.Current) (hf : s.Found ip) : s'.Found ip := by
  constructor
  · intro hn x hf' hh' hip
    obtain ⟨hf₁, hh₁, hip₁⟩ := h.host hh'
    rcases h.thisHost with ht | ⟨-, hgone⟩
    · exact hf.none (ht ▸ hn) x hf₁ hh₁ (hip₁.trans hip)
    · cases ht : s.thisHost with
      | none => exact hf.none ht x hf₁ hh₁ (hip₁.trans hip)
      | some y =>
        obtain ⟨hf₂, hh₂, hip₂⟩ := hf.some y ht
        obtain rfl := hi.ip x hf₁ y hf₂ hh₁ hh₂ (hip₁.trans (hip.trans hip₂.symm))
        rw [hgone x ht] at hh'
        cases hh'
  · intro x ht
    obtain ⟨hf', hh'⟩ := Option.ne_none_iff_exists'.mp (hc x ht)
    obtain ⟨hf₁, hh₁, hip₁⟩ := h.host hh'
    have hx : s.thisHost = some x := by
      rcases h.thisHost with he | ⟨hn, -⟩
      · exact he ▸ ht
      · rw [hn] at ht
        cases ht
    obtain ⟨hf₂, hh₂, hip₂⟩ := hf.some x hx
    obtain rfl := Option.some.inj (hh₁.symm.trans hh₂)
    exact ⟨hf', hh', hip₁.symm.trans hip₂⟩

theorem Evicted.bareOnly {qs : List QueuePtr} (h : Evicted s qs s') (hb : s.BareOnly) :
    s'.BareOnly := by
  rintro x ⟨hf, hh, hl⟩
  have hx := hb x (h.not_bare ⟨hf, hh, hl⟩)
  rcases h.thisHost with he | ⟨-, hgone⟩
  · exact he.trans hx
  · rw [hgone x hx] at hh
    cases hh

/-! ## Looking for the queue -/

/-- The queue that is found is the one of the key, if there is one. -/
theorem Table.findQueue (hi : s.Table) (hf : s.Found (ipDst iph)) :
    s.findQueue iph = some (s, none) ∧
      (∀ q qp, s.queues q = some qp → ipKey qp.iph ≠ ipKey iph) ∨
    ∃ q qp, s.findQueue iph = some (s.delTimer q, some q) ∧ s.queues q = some qp ∧
      s.thisHost = some qp.hf ∧ ipKey qp.iph = ipKey iph := by
  have hdst {q qp} (hq : s.queues q = some qp) (hk : ipKey qp.iph = ipKey iph) :
      ∃ hf', s.hosts qp.hf = some hf' ∧ hf'.ip = ipDst iph := by
    obtain ⟨hf', hh', hip⟩ := hi.host q qp hq
    exact ⟨hf', hh', hip.symm.trans (congrArg IpKey.dst hk)⟩
  cases ht : s.thisHost with
  | none =>
    refine .inl ⟨by rw [IpFragment.findQueue, ht], fun q qp hq hk => ?_⟩
    obtain ⟨hf', hh', hip⟩ := hdst hq hk
    exact hf.none ht _ hf' hh' hip
  | some h =>
    obtain ⟨hf', hh', hip⟩ := hf.some h ht
    have hfind : s.findQueue iph =
        (hf'.ipqueue.find? fun q => (s.queues q).any (ipKey ·.iph = ipKey iph)).elim
          (some (s, none)) fun q => some (s.delTimer q, some q) := by
      rw [IpFragment.findQueue, ht]
      dsimp only
      rw [ipFind, ht]
      simp only [hh', Option.bind_eq_bind, Option.bind_some, Option.pure_def]
      cases hf'.ipqueue.find? fun q => (s.queues q).any (ipKey ·.iph = ipKey iph) with
      | none => rfl
      | some q => rfl
    cases hq : hf'.ipqueue.find? fun q => (s.queues q).any (ipKey ·.iph = ipKey iph) with
    | none =>
      rw [hq] at hfind
      refine .inl ⟨hfind, fun q qp hqp hk => ?_⟩
      obtain ⟨hf₁, hh₁, hip₁⟩ := hdst hqp hk
      have hown := hi.ip _ _ _ _ hh₁ hh' (hip₁.trans hip.symm)
      have hmem := (hi.mem_ipqueue h hf' hh' q).mpr ⟨qp, hqp, hown⟩
      have hno := List.find?_eq_none.mp hq q hmem
      simp [hqp, hk] at hno
    | some q =>
      rw [hq] at hfind
      have hsome : (s.queues q).any (ipKey ·.iph = ipKey iph) := List.find?_some (a := q) hq
      obtain ⟨qp, hqp, hk⟩ := (Option.any_eq_true ..).mp hsome
      obtain ⟨qp', hqp', hown⟩ := (hi.mem_ipqueue h hf' hh' q).mp (List.mem_of_find?_eq_some hq)
      obtain rfl := Option.some.inj (hqp.symm.trans hqp')
      exact .inr ⟨q, qp, hfind, hqp, by rw [hown], by simpa using hk⟩

/-! ## The queue that a fragment goes to -/

theorem byteAt_bytesAt (d : List Byte) (i : Nat) {n k : Nat} (hk : k < n) :
    byteAt (bytesAt d i n) k = byteAt d (i + k) := by
  rw [byteAt, List.getD_eq_getElem?_getD, getElem?_bytesAt d i hk, Option.getD_some]

/-- The first bytes of a packet, if they are at least those of a header, have its key. -/
theorem ipKey_bytesAt (iph : List Byte) {n : Nat} (hn : 20 ≤ n) :
    ipKey (bytesAt iph 0 n) = ipKey iph := by
  have hb (k : Nat) (hk : k < 20) : byteAt (bytesAt iph 0 n) k = byteAt iph k := by
    rw [byteAt_bytesAt iph 0 (hk.trans_le hn), Nat.zero_add]
  simp [ipKey, ipId, ipSrc, ipDst, ipP, le32, le16, hb]

theorem ipKey_create (iph : List Byte) (expires : BitVec 32) (h : HostPtr) (hhl : 5 ≤ ipHl iph) :
    ipKey (Ipq.create iph expires h).iph = ipKey iph :=
  ipKey_bytesAt iph (by omega)

theorem ipKey_remember (hhl : 5 ≤ ipHl iph) (hk : ipKey qp.iph = ipKey iph) :
    ipKey (qp.remember iph).iph = ipKey iph := by
  rw [Ipq.remember]
  split
  · exact ipKey_bytesAt iph (by omega)
  · exact hk

@[simp] theorem fragments_remember (qp : Ipq) (iph : List Byte) :
    (qp.remember iph).fragments = qp.fragments := by
  rw [Ipq.remember]; split <;> rfl

@[simp] theorem hf_remember (qp : Ipq) (iph : List Byte) : (qp.remember iph).hf = qp.hf := by
  rw [Ipq.remember]; split <;> rfl

@[simp] theorem len_remember (qp : Ipq) (iph : List Byte) : (qp.remember iph).len = qp.len := by
  rw [Ipq.remember]; split <;> rfl

/-- The state in which a fragment is added to its queue, which is the last of the list. -/
structure Ready (s : IpFragment) (l : List QueuePtr) (q : QueuePtr) (qp : Ipq) : Prop where
  inv : s.Inv (l ++ [q])
  queue : s.queues q = some qp
  thisHost : s.thisHost = some qp.hf

theorem timed_pushBack (ht : s.Timed l) (hq : q ∉ l) {v : Ipq}
    (htimers : s'.timers = s.timers.pushBack q)
    (hqueues : s'.queues = Function.update s.queues q (some v)) : s'.Timed (l ++ [q]) := by
  refine ⟨htimers ▸ ht.links.pushBack hq, fun x => ?_⟩
  rw [hqueues, List.mem_append, List.mem_singleton]
  by_cases hx : x = q
  · simp [hx]
  · rw [Function.update_of_ne hx, ← ht.mem]
    simp [hx]

/-- The queue in its new state. -/
def refreshed (s : IpFragment) (clock : Nat → Int) (qp : Ipq) (iph : List Byte) : Ipq :=
  { qp.remember iph with expires := (s.jiffies clock).timenow + IP_FRAG_TIME }

theorem ipRefresh_eq (hq : s.queues q = some qp)
    (hr : (s.timers.remove q).remove q = s.timers.remove q) :
    (s.delTimer q).ipRefresh clock q iph = some { s.jiffies clock with
      queues := Function.update s.queues q (some (s.refreshed clock qp iph))
      timers := (s.timers.remove q).pushBack q } := by
  have hq' : (s.delTimer q).queues q = some qp := hq
  have hj : ((s.delTimer q).delTimer q).jiffies clock =
      { s.jiffies clock with timers := s.timers.remove q } := by
    rw [jiffies, jiffies, delTimer, delTimer]
    dsimp only
    rw [hr]
    split <;> rfl
  rw [ipRefresh, hq']
  simp only [Option.bind_eq_bind, Option.bind_some, hj, setQueue, addTimer, Option.pure_def,
    refreshed, jiffies_queues]

@[simp] theorem hf_refreshed (s : IpFragment) (clock : Nat → Int) (qp : Ipq) (iph : List Byte) :
    (s.refreshed clock qp iph).hf = qp.hf := by
  rw [refreshed]
  exact hf_remember qp iph

@[simp] theorem fragments_refreshed (s : IpFragment) (clock : Nat → Int) (qp : Ipq)
    (iph : List Byte) : (s.refreshed clock qp iph).fragments = qp.fragments := by
  rw [refreshed]
  exact fragments_remember qp iph

@[simp] theorem iph_refreshed (s : IpFragment) (clock : Nat → Int) (qp : Ipq) (iph : List Byte) :
    (s.refreshed clock qp iph).iph = (qp.remember iph).iph := by
  rw [refreshed]

theorem ipKey_refreshed (hhl : 5 ≤ ipHl iph) (hk : ipKey qp.iph = ipKey iph) :
    ipKey (s.refreshed clock qp iph).iph = ipKey iph := by
  rw [iph_refreshed, ipKey_remember hhl hk]

theorem charge_refreshed (s : IpFragment) (clock : Nat → Int) (qp : Ipq) (iph : List Byte) :
    (s.refreshed clock qp iph).charge = qp.charge := by
  rw [Ipq.charge, fragments_refreshed, Ipq.charge]

/-- The queue that is found is refreshed. -/
theorem exists_ipRefresh (clock : Nat → Int) (hi : s.Table) (ht : s.Timed l) (hb : s.BareOnly)
    (hq : s.queues q = some qp) (hc : s.thisHost = some qp.hf) (hhl : 5 ≤ ipHl iph)
    (hk : ipKey qp.iph = ipKey iph) : ∃ s', (s.delTimer q).ipRefresh clock q iph = some s' ∧
      Ready s' (l.filter (· ≠ q)) q (s.refreshed clock qp iph) ∧
      s'.queues = Function.update s.queues q (some (s.refreshed clock qp iph)) ∧
      s'.timenow = (s.jiffies clock).timenow ∧ s'.reads = (s.jiffies clock).reads ∧
      s'.next = s.next ∧ ∀ b c, s.AtMost b c → s'.AtMost b c := by
  have hmem : q ∈ l := (ht.mem q).mpr (by simp [hq])
  refine ⟨_, ipRefresh_eq hq (ht.remove_remove hmem), ⟨⟨?_, ?_, ?_⟩, ?_, ?_⟩, rfl, rfl, rfl,
    jiffies_next .., fun b c hm h hf hh => ?_⟩
  · obtain ⟨hf, hh, -⟩ := hi.host q qp hq
    refine hi.modify hq hh (jiffies_hashSize ..) (jiffies_fragtable ..) ?_ rfl (jiffies_next ..)
      (hf_refreshed ..) ((ipKey_refreshed hhl hk).trans hk.symm) ?_
    · show (s.jiffies clock).hosts = _
      rw [jiffies_hosts, charge_refreshed, sub_add_cancel, ← hh, Function.update_eq_self]
    · rw [fragments_refreshed]
      exact hi.chain q qp hq
  · obtain ⟨l₁, l₂, rfl⟩ := List.append_of_mem hmem
    have hno := (List.nodup_cons.mp (List.perm_middle.nodup_iff.mp ht.nodup)).1
    have hfilter : (l₁ ++ q :: l₂).filter (· ≠ q) = l₁ ++ l₂ := by
      rw [List.mem_append, not_or] at hno
      rw [List.filter_append, List.filter_cons_of_neg (by simp)]
      congr 1
      · exact List.filter_eq_self.mpr fun x hx => by simpa using fun he : x = q => hno.1 (he ▸ hx)
      · exact List.filter_eq_self.mpr fun x hx => by simpa using fun he : x = q => hno.2 (he ▸ hx)
    rw [hfilter]
    refine ⟨ht.links.remove.links.pushBack hno, fun x => ?_⟩
    show x ∈ l₁ ++ l₂ ++ [q] ↔ Function.update s.queues q (some (s.refreshed clock qp iph)) x ≠ none
    by_cases hx : x = q
    · simp [hx]
    · rw [Function.update_of_ne hx, ← ht.mem]
      simp [hx]
  · rintro h ⟨hf, hh, hl⟩
    have hh : (s.jiffies clock).hosts h = some hf := hh
    rw [jiffies_hosts] at hh
    obtain rfl := Option.some.inj (hc.symm.trans (hb h ⟨hf, hh, hl⟩))
    have hin := (hi.mem_ipqueue _ hf hh q).mpr ⟨qp, hq, rfl⟩
    rw [hl] at hin
    cases hin
  · exact Function.update_self ..
  · rw [hf_refreshed]
    exact (jiffies_thisHost ..).trans hc
  · show hf.ipFragMem ≤ if (s.jiffies clock).thisHost = some h then c else b
    rw [jiffies_thisHost]
    exact hm h hf ((congrFun (jiffies_hosts ..) h).symm.trans hh)

/-- The state with a new queue for the current host. -/
def withQueue (s : IpFragment) (clock : Nat → Int) (iph : List Byte) (h : HostPtr)
    (hf : HostFrags) : IpFragment :=
  { s.jiffies clock with
    hosts := Function.update s.hosts h (some { hf with
      ipqueue := s.next :: hf.ipqueue, ipFragMem := hf.ipFragMem + sizeofIpq + sizeofIph })
    queues := Function.update s.queues s.next
      (some (.create iph ((s.jiffies clock).timenow + IP_FRAG_TIME) h))
    timers := s.timers.pushBack s.next
    next := s.next + 1 }

theorem ipCreate_eq (hc : s.thisHost = some h) (hh : s.hosts h = some hf) :
    s.ipCreate clock iph = some (s.withQueue clock iph h hf, s.next) := by
  have hj (hf₁ : HostFrags) : (s.setHost h hf₁).jiffies clock = (s.jiffies clock).setHost h hf₁ := by
    by_cases ht : s.timenow ≠ 0
    · rw [jiffies, jiffies, if_pos ht]
      exact if_pos ht
    · rw [jiffies, jiffies, if_neg ht]
      exact if_neg ht
  have hc' (hf₁ : HostFrags) : (s.setHost h hf₁).thisHost = some h := hc
  have hs : s.ipCreate clock iph = (s.setHost h hf).ipCreate clock iph := by rw [setHost_self hh]
  rw [hs, ipCreate, atomicAdd_setHost hc, Option.bind_eq_bind, Option.bind_some,
    atomicAdd_setHost hc]
  simp only [Option.bind_eq_bind, Option.bind_some, hc', hj]
  simp only [setHost, setQueue, addTimer, Function.update_self, Option.bind_some, Option.pure_def,
    jiffies_next, jiffies_hosts, jiffies_queues, jiffies_timers, Function.update_idem, withQueue]

/-- The new queue is the only one of its key. -/
theorem exists_ipCreate (clock : Nat → Int) (hi : s.Table) (ht : s.Timed l) (hb : s.BareOnly)
    (hf : s.Found (ipDst iph)) (hc : s.thisHost = some h) (hhl : 5 ≤ ipHl iph)
    (hk : ∀ q qp, s.queues q = some qp → ipKey qp.iph ≠ ipKey iph) :
    ∃ s' qp, s.ipCreate clock iph = some (s', s.next) ∧
      qp = .create iph ((s.jiffies clock).timenow + IP_FRAG_TIME) h ∧ Ready s' l s.next qp ∧
      s'.queues = Function.update s.queues s.next (some qp) ∧
      s'.timenow = (s.jiffies clock).timenow ∧ s'.reads = (s.jiffies clock).reads ∧
      s'.next = s.next + 1 ∧
      ∀ b c, s.AtMost b c → s'.AtMost b (c + sizeofIpq + sizeofIph) := by
  obtain ⟨hf', hh, hip⟩ := hf.some h hc
  have hnew : s.queues s.next = none := Option.eq_none_iff_forall_ne_some.mpr fun qp hq =>
    absurd (hi.queue_lt _ qp hq) (Nat.lt_irrefl _)
  have hno : s.next ∉ hf'.ipqueue := fun hmem => by
    obtain ⟨qp, hq, -⟩ := (hi.mem_ipqueue h hf' hh s.next).mp hmem
    rw [hnew] at hq
    cases hq
  refine ⟨_, _, ipCreate_eq hc hh, rfl, ⟨⟨?_, ?_, ?_⟩, Function.update_self .., ?_⟩, rfl, rfl, rfl,
    rfl, fun b c hm x hf₁ hh₁ => ?_⟩
  · refine hi.set (q := s.next) hh (fun qp hq => ?_) (jiffies_hashSize ..) (jiffies_fragtable ..) rfl rfl
      (Nat.le_succ _) rfl rfl (List.nodup_cons.mpr ⟨hno, hi.ipqueue h hf' hh⟩) (fun q' => ?_)
      (fun qp hv => ?_) ?_
    · rw [hnew] at hq
      cases hq
    · rw [List.mem_cons]
      by_cases he : q' = s.next
      · simp [he]
      · simp [he]
    · obtain rfl := Option.some.inj hv
      have hkey := ipKey_create iph ((s.jiffies clock).timenow + IP_FRAG_TIME) h hhl
      refine ⟨rfl, by rw [hkey, hip]; rfl, IpFrag.chain_nil, Nat.lt_succ_self _, fun q₁ qp₁ hq₁ hk₁ => ?_⟩
      exact absurd (hk₁.trans hkey) (hk q₁ qp₁ hq₁)
    · rw [List.map_cons, List.sum_cons, sum_chargeOf_update hno rfl, ← hi.mem h hf' hh]
      have hcharge : (s.withQueue clock iph h hf').chargeOf s.next = sizeofIpq + sizeofIph := by
        rw [chargeOf, withQueue]
        dsimp only
        rw [Function.update_self]
        rfl
      rw [hcharge]
      show hf'.ipFragMem + sizeofIpq + sizeofIph = _
      omega
  · exact timed_pushBack ht (fun hmem => (ht.mem _).mp hmem hnew) rfl rfl
  · rintro x ⟨hf₁, hh₁, hl₁⟩
    rcases update_eq_some.mp hh₁ with ⟨-, he⟩ | ⟨hne, hh₁⟩
    · cases he
      cases hl₁
    · exact hne (Option.some.inj (hc.symm.trans (hb x ⟨hf₁, hh₁, hl₁⟩))).symm
  · exact (jiffies_thisHost ..).trans hc
  · show hf₁.ipFragMem ≤ if (s.jiffies clock).thisHost = some x then c + sizeofIpq + sizeofIph else b
    rw [jiffies_thisHost]
    rcases update_eq_some.mp hh₁ with ⟨rfl, he⟩ | ⟨hne, hh₁⟩
    · obtain rfl := Option.some.inj he
      have := hm x hf' hh
      rw [if_pos hc] at this ⊢
      show hf'.ipFragMem + sizeofIpq + sizeofIph ≤ _
      omega
    · have := hm x hf₁ hh₁
      have hx : s.thisHost ≠ some x := fun he => hne (Option.some.inj (hc.symm.trans he)).symm
      rwa [if_neg hx] at this ⊢

/-! ## Adding the fragment -/

/-- What becomes of a queue with a fragment: it stays, or it is gone; and the buffer that is returned. -/
def outcome (qp : Ipq) (iph : List Byte) (skb : SkBuff) : Option Ipq × Option Glued :=
  if ipLen iph + fragOffset iph > 65535 then (some qp, none)
  else if (qp.add iph skb).1.done then (none, (qp.add iph skb).1.glue)
  else (some (qp.add iph skb).1, none)

/-- How `Ipq.add` divides the fragments of a queue. -/
theorem placed_add (hc : IpFrag.Chain qp.fragments) (iph : List Byte) (skb : SkBuff) :
    ∃ prevs left i, IpFrag.Placed qp.fragments (fragOffset iph)
      (fragOffset iph + ipLen iph - (ipHl iph * 4 : Nat)) skb (ipHl iph * 4 : Nat)
      (qp.add iph skb).1.fragments (qp.add iph skb).2 prevs left i :=
  hc.placed _ _ skb _

theorem chain_add (hc : IpFrag.Chain qp.fragments) (iph : List Byte) (skb : SkBuff) :
    IpFrag.Chain (qp.add iph skb).1.fragments := by
  obtain ⟨prevs, left, i, hp⟩ := placed_add hc iph skb
  exact hp.chain hc (Int.natCast_nonneg _)

theorem charge_add (hc : IpFrag.Chain qp.fragments) (iph : List Byte) (skb : SkBuff) :
    (qp.add iph skb).1.charge = qp.charge - ((qp.add iph skb).2.map IpFrag.charge).sum +
      IpFrag.sizeofIpFrag + skb.truesize := by
  obtain ⟨prevs, left, i, hp⟩ := placed_add hc iph skb
  have hsum := hp.sum_charge
  rw [Ipq.charge, Ipq.charge]
  omega

/-- The fragment is in its place, and charged for. -/
theorem Ready.add (hr : Ready s l q qp) (iph : List Byte) (skb : SkBuff) : ∃ s₁ s₂ s₃,
    s.releaseAll (qp.add iph skb).2 = some s₁ ∧ s₁.atomicAdd IpFrag.sizeofIpFrag = some s₂ ∧
    s₂.atomicAdd skb.truesize = some s₃ ∧
    Ready (s₃.setQueue q (qp.add iph skb).1) l q (qp.add iph skb).1 ∧
    s₃.queues = s.queues ∧ s₃.timenow = s.timenow ∧ s₃.reads = s.reads ∧ s₃.next = s.next ∧
    ∀ b c, s.AtMost b c → s₃.AtMost b (c + IpFrag.sizeofIpFrag + skb.truesize) := by
  have hi := hr.inv.table
  have hchain := hi.chain q qp hr.queue
  obtain ⟨hf, hh, -⟩ := hi.host q qp hr.queue
  have hcharge := charge_add hchain iph skb
  have hm : hf.ipFragMem - ((qp.add iph skb).2.map IpFrag.charge).sum + IpFrag.sizeofIpFrag +
      skb.truesize = hf.ipFragMem - qp.charge + (qp.add iph skb).1.charge := by omega
  have hrelease : s.releaseAll (qp.add iph skb).2 = some (s.setHost qp.hf { hf with
      ipFragMem := hf.ipFragMem - ((qp.add iph skb).2.map IpFrag.charge).sum }) := by
    rw [← releaseAll_setHost hr.thisHost, setHost_self hh]
  refine ⟨_, _, s.setHost qp.hf
    { hf with ipFragMem := hf.ipFragMem - qp.charge + (qp.add iph skb).1.charge }, hrelease,
    atomicAdd_setHost hr.thisHost _, ?_, ⟨⟨?_, ?_, ?_⟩, Function.update_self .., hr.thisHost⟩,
    rfl, rfl, rfl, rfl, fun b c hb x hf₁ hh₁ => ?_⟩
  · rw [atomicAdd_setHost hr.thisHost, hm]
  · exact hi.modify hr.queue hh rfl rfl rfl rfl rfl rfl rfl (chain_add hchain iph skb)
  · refine ⟨hr.inv.timed.links, fun x => ?_⟩
    show _ ↔ Function.update s.queues q (some (qp.add iph skb).1) x ≠ none
    rw [hr.inv.timed.mem]
    by_cases hx : x = q
    · simp [hx, hr.queue]
    · rw [Function.update_of_ne hx]
  · rintro x ⟨hf₁, hh₁, hl₁⟩
    rcases update_eq_some.mp hh₁ with ⟨rfl, he⟩ | ⟨-, hh₁⟩
    · obtain rfl := Option.some.inj he
      exact hr.inv.not_bare _ ⟨hf, hh, hl₁⟩
    · exact hr.inv.not_bare x ⟨hf₁, hh₁, hl₁⟩
  · show hf₁.ipFragMem ≤ if s.thisHost = some x then c + IpFrag.sizeofIpFrag + skb.truesize else b
    rcases update_eq_some.mp hh₁ with ⟨rfl, he⟩ | ⟨hne, hh₁⟩
    · obtain rfl := Option.some.inj he
      have hle := hb qp.hf hf hh
      have hpos := sum_charge_nonneg (qp.add iph skb).2
      rw [if_pos hr.thisHost] at hle ⊢
      show hf.ipFragMem - qp.charge + (qp.add iph skb).1.charge ≤ _
      omega
    · have hle := hb x hf₁ hh₁
      have hx : s.thisHost ≠ some x := fun he =>
        hne (Option.some.inj (hr.thisHost.symm.trans he)).symm
      rwa [if_neg hx] at hle ⊢

theorem exists_addFragment (hr : Ready s l q qp) (iph : List Byte) (skb : SkBuff) :
    ∃ s', s.addFragment q iph skb = some (s', (outcome qp iph skb).2) ∧
      s'.queues = Function.update s.queues q (outcome qp iph skb).1 ∧
      s'.Inv (if (outcome qp iph skb).1 = none then l else l ++ [q]) ∧
      s'.timenow = s.timenow ∧ s'.reads = s.reads ∧ s'.next = s.next ∧
      ∀ b c, s.AtMost b c → c + IpFrag.sizeofIpFrag + skb.truesize ≤ b → s'.Bounded b := by
  rw [addFragment, outcome]
  split
  · refine ⟨s, rfl, ?_, by simpa using hr.inv, rfl, rfl, rfl, fun b c hm hle => hm.bounded ?_⟩
    · rw [← hr.queue, Function.update_eq_self]
    · rw [IpFrag.sizeofIpFrag] at hle
      omega
  · obtain ⟨s₁, s₂, s₃, h₁, h₂, h₃, hr₃, hqueues, htimenow, hreads, hnext, hmost⟩ := hr.add iph skb
    have hbounded {b c} (hm : s.AtMost b c) (hle : c + IpFrag.sizeofIpFrag + skb.truesize ≤ b) :
        (s₃.setQueue q (qp.add iph skb).1).Bounded b := (hmost b c hm).bounded hle
    rw [hr.queue]
    simp only [Option.bind_eq_bind, Option.bind_some, h₁, h₂, h₃]
    by_cases hd : (qp.add iph skb).1.done
    · rw [if_pos hd, if_pos hd]
      obtain ⟨s', hfree, hf⟩ := hr₃.inv.table.exists_ipFree hr₃.queue hr₃.thisHost
      refine ⟨s', ?_, ?_, ?_, hf.timenow.trans htimenow, hf.reads.trans hreads,
        hf.next.trans hnext, fun b c hm hle => hf.bounded (hbounded hm hle)⟩
      · rw [ipGlue, hr₃.queue]
        simp only [Option.bind_eq_bind, Option.bind_some, hfree, Option.pure_def]
      · rw [hf.queues, setQueue]
        dsimp only
        rw [Function.update_idem, hqueues]
      · rw [if_pos rfl, ← List.append_nil l]
        exact hr₃.inv.freed hr₃.queue hf
    · rw [if_neg hd, if_neg hd]
      refine ⟨_, rfl, ?_, by simpa using hr₃.inv, htimenow, hreads, hnext,
        fun b c hm hle => hbounded hm hle⟩
      rw [setQueue, hqueues]

/-! ## `ipDefrag` -/

theorem jiffies_congr (clock : Nat → Int) (ht : s'.timenow = s.timenow) (hr : s'.reads = s.reads) :
    (s'.jiffies clock).timenow = (s.jiffies clock).timenow ∧
      (s'.jiffies clock).reads = (s.jiffies clock).reads := by
  rw [jiffies, jiffies, ht, hr]
  split
  · exact ⟨ht, hr⟩
  · exact ⟨rfl, rfl⟩

/-- The state in which `ipDefrag` has the host for a packet, and has freed the queues `qs`. -/
structure Prepared (s s' : IpFragment) (l : List QueuePtr) (ip : BitVec 32)
    (qs : List QueuePtr) : Prop where
  table : s'.Table
  timed : s'.Timed (l.filter (· ∉ qs))
  bareOnly : s'.BareOnly
  found : s'.Found ip
  queues : ∀ x, s'.queues x = if x ∈ qs then none else s.queues x
  timenow : s'.timenow = s.timenow
  reads : s'.reads = s.reads
  next : s.next ≤ s'.next
  bounded : ∀ b ≥ 0, s.Bounded b → s'.Bounded b
  /-- Queues are freed where their host is charged for too much. -/
  evicted : qs = [] ∨ ∃ h hf, s.hosts h = some hf ∧ hf.ip = ip ∧
    IPFRAG_HIGH_THRESH < hf.ipFragMem
  host : ∀ x ∈ qs, ∃ qp, s.queues x = some qp ∧ (ipKey qp.iph).dst = ip

theorem bounded_hostfragCreate {b : Int} (hb : 0 ≤ b) (hs : s.Bounded b) :
    (s.hostfragCreate iph).Bounded b := by
  intro h hf hh
  rcases update_eq_some.mp hh with ⟨-, he⟩ | ⟨-, hh⟩
  · obtain rfl := Option.some.inj he
    exact hb
  · exact hs h hf hh

/-- A new host comes with nothing. -/
theorem Inv.prepared_create (hi : s.Inv l) (hf : s.Found (ipDst iph)) (hn : s.thisHost = none) :
    Prepared s (s.hostfragCreate iph) l (ipDst iph) [] := by
  have ht : (s.hostfragCreate iph).Timed l := hi.timed.congr rfl rfl
  exact ⟨hi.table.hostfragCreate hf hn, by simpa using ht, bareOnly_hostfragCreate hi.not_bare,
    found_hostfragCreate s iph, fun x => rfl, rfl, rfl, Nat.le_succ _,
    fun b hb hs => bounded_hostfragCreate hb hs, .inl rfl, nofun⟩

theorem Inv.prepared (hi : s.Inv l) (hf : s.Found (ipDst iph)) :
    Prepared s s l (ipDst iph) [] :=
  ⟨hi.table, by simpa using hi.timed, fun h hb => absurd hb (hi.not_bare h), hf, fun x => rfl, rfl,
    rfl, le_rfl, fun b _ hs => hs, .inl rfl, nofun⟩

theorem Prepared.exists_evict {ip : BitVec 32} (hp : Prepared s s₁ l ip [])
    (hhosts : ∀ h hf, s₁.hosts h = some hf → IPFRAG_HIGH_THRESH < hf.ipFragMem →
      s.hosts h = some hf) :
    ∃ s' qs, s₁.evict = some s' ∧ Prepared s s' l ip qs ∧ (∀ h, s'.Bare h → s₁.Bare h) ∧
      ∀ h hf, s'.thisHost = some h → s'.hosts h = some hf → hf.ipFragMem ≤ IPFRAG_HIGH_THRESH := by
  have hqueues : s₁.queues = s.queues := funext fun x => by simpa using hp.queues x
  have htimed : s₁.Timed l := by simpa using hp.timed
  obtain ⟨s', qs, he, hev, hc, hhigh, hle⟩ := hp.table.exists_evict hp.found.current
  refine ⟨s', qs, he, ⟨hev.table hp.table, hev.timed htimed, hev.bareOnly hp.bareOnly,
    hev.found hp.table hc hp.found, fun x => by rw [hev.queues, hqueues], hev.timenow.trans hp.timenow,
    hev.reads.trans hp.reads, hp.next.trans hev.next.ge,
    fun b hb hs => hev.bounded (hp.bounded b hb hs), ?_, fun x hx => ?_⟩,
    fun h hb => hev.not_bare hb, hle⟩
  · refine hhigh.imp_right fun ⟨h, hf, ht, hh, hgt⟩ => ?_
    obtain ⟨hf₁, hh₁, hip⟩ := hp.found.some h ht
    obtain rfl := Option.some.inj (hh.symm.trans hh₁)
    exact ⟨h, hf, hhosts h hf hh hgt, hip, hgt⟩
  · obtain ⟨qp, hq, ht⟩ := hev.mem hp.table hx
    obtain ⟨hf₁, hh₁, hip⟩ := hp.found.some _ ht
    obtain ⟨hf, hh, hdst⟩ := hp.table.host x qp hq
    obtain rfl := Option.some.inj (hh.symm.trans hh₁)
    exact ⟨qp, hqueues ▸ hq, hdst.trans hip⟩

/-- The host of a packet is found, or made for a fragment. -/
theorem Inv.exists_evict (hi : s.Inv l) (iph : List Byte) (b : Bool) : ∃ s' qs,
    (if (s.hostfragFind iph).thisHost = none ∧ b then (s.hostfragFind iph).hostfragCreate iph
      else s.hostfragFind iph).evict = some s' ∧
    Prepared s s' l (ipDst iph) qs ∧ (b = false → ∀ h, ¬ s'.Bare h) ∧
    ∀ h hf, s'.thisHost = some h → s'.hosts h = some hf → hf.ipFragMem ≤ IPFRAG_HIGH_THRESH := by
  have hi' : (s.hostfragFind iph).Inv l := hi.congr rfl rfl rfl rfl rfl rfl
  have hf := hi.table.found iph
  -- What `hostfragFind` changes is not spoken of.
  have hback {s' : IpFragment} {qs : List QueuePtr}
      (hp : Prepared (s.hostfragFind iph) s' l (ipDst iph) qs) : Prepared s s' l (ipDst iph) qs :=
    ⟨hp.table, hp.timed, hp.bareOnly, hp.found, hp.queues, hp.timenow, hp.reads, hp.next,
      hp.bounded, hp.evicted, hp.host⟩
  split
  · rename_i hn
    obtain ⟨s', qs, he, hp, -, hle⟩ :=
      (hback (hi'.prepared_create hf hn.1)).exists_evict fun h hf₁ hh hgt => by
        rcases update_eq_some.mp hh with ⟨-, he⟩ | ⟨-, hh⟩
        · obtain rfl := Option.some.inj he
          exact absurd hgt (show ¬ IPFRAG_HIGH_THRESH < 0 by decide)
        · exact hh
    exact ⟨s', qs, he, hp, fun hb => by simp [hb] at hn, hle⟩
  · obtain ⟨s', qs, he, hp, hb, hle⟩ :=
      (hback (hi'.prepared hf)).exists_evict fun h hf₁ hh hgt => hh
    exact ⟨s', qs, he, hp, fun _ h hbare => hi'.not_bare h (hb h hbare), hle⟩

/-- What `ipDefrag` does with a whole packet: a queue of its key is freed. -/
structure Whole (s s' : IpFragment) (iph : List Byte) (l l' qs : List QueuePtr) : Prop where
  inv : s'.Inv l'
  sublist : l'.Sublist l
  queues : ∀ x, s'.queues x =
    if x ∈ qs ∨ ∃ qp, s.queues x = some qp ∧ ipKey qp.iph = ipKey iph then none else s.queues x
  timenow : s'.timenow = s.timenow
  reads : s'.reads = s.reads
  next : s.next ≤ s'.next
  bounded : ∀ b ≥ 0, s.Bounded b → s'.Bounded b
  evicted : qs = [] ∨ ∃ h hf, s.hosts h = some hf ∧ hf.ip = ipDst iph ∧
    IPFRAG_HIGH_THRESH < hf.ipFragMem
  host : ∀ x ∈ qs, ∃ qp, s.queues x = some qp ∧ (ipKey qp.iph).dst = ipDst iph

theorem Inv.ipDefrag_whole (hi : s.Inv l) (clock : Nat → Int) (hw : isWhole iph) :
    ∃ s' l' qs, s.ipDefrag clock iph none = some (s', []) ∧ Whole s s' iph l l' qs := by
  obtain ⟨s₁, qs, he, hp, hbare, -⟩ := hi.exists_evict iph false
  rw [ipDefrag]
  simp only [Option.isSome_none, Option.bind_eq_bind, he, Option.bind_some]
  rcases hp.table.findQueue hp.found with ⟨hfind, hno⟩ | ⟨q, qp, hfind, hq, ht, hk⟩
  · simp only [hfind, Option.bind_some, hw, if_true, Option.pure_def]
    refine ⟨_, _, qs, rfl, ⟨hp.table, hp.timed, hbare rfl⟩, List.filter_sublist, fun x => ?_,
      hp.timenow, hp.reads, hp.next, hp.bounded, hp.evicted, hp.host⟩
    rw [hp.queues]
    by_cases hx : x ∈ qs
    · simp [hx]
    · have hnone : ¬ ∃ qp, s.queues x = some qp ∧ ipKey qp.iph = ipKey iph := fun ⟨qp, hq, hk⟩ =>
        hno x qp (by rw [hp.queues, if_neg hx, hq]) hk
      simp only [hx, hnone, or_self, if_false]
  · have hmem := (hp.timed.mem q).mpr (by simp [hq])
    have hqx : q ∉ qs := fun hx => by
      rw [hp.queues, if_pos hx] at hq
      cases hq
    have hi₁ : (s₁.delTimer q).Table := hp.table.congr rfl rfl rfl rfl rfl
    obtain ⟨s', hfree, hf⟩ := hi₁.exists_ipFree hq ht
    simp only [hfind, Option.bind_some, hw, if_true, Option.pure_def, hfree]
    have hf' := hf.of_delTimer hp.timed hmem
    obtain ⟨l₁, l₂, hl⟩ := List.append_of_mem hmem
    refine ⟨s', l₁ ++ l₂, qs, rfl, ?_, ?_, fun x => ?_, hf.timenow.trans hp.timenow,
      hf.reads.trans hp.reads, hp.next.trans hf.next.ge,
      fun b hb hs => hf'.bounded (hp.bounded b hb hs), hp.evicted, hp.host⟩
    · exact ⟨hp.table.freed hq hf', (hl ▸ hp.timed).freed hf',
        fun h hb => hbare rfl h (hf'.not_bare hb)⟩
    · refine List.Sublist.trans ?_ (hl ▸ List.filter_sublist)
      exact List.Sublist.append_left (List.sublist_cons_self q l₂) l₁
    · rw [hf'.queues]
      by_cases hx : x = q
      · rw [hp.queues, if_neg hqx] at hq
        rw [hx, Function.update_self, if_pos (.inr ⟨qp, hq, hk⟩)]
      · rw [Function.update_of_ne hx, hp.queues]
        have hiff : (∃ qp₁, s.queues x = some qp₁ ∧ ipKey qp₁.iph = ipKey iph) → x ∈ qs := by
          rintro ⟨qp₁, hq₁, hk₁⟩
          by_contra hxs
          have hq₁' : s₁.queues x = some qp₁ := by rw [hp.queues, if_neg hxs, hq₁]
          exact hx (hp.table.key x qp₁ q qp hq₁' hq (hk₁.trans hk.symm))
        by_cases hxs : x ∈ qs
        · simp [hxs]
        · rw [if_neg hxs, if_neg (not_or.mpr ⟨hxs, mt hiff hxs⟩)]

/-- The queue `q` to which `ipDefrag` adds a fragment, as it is then, with its timer set to `expires`:
the one of its key, or a new one. -/
inductive Target (s : IpFragment) (iph : List Byte) (qs : List QueuePtr) (expires : BitVec 32) :
    QueuePtr → Ipq → Prop
  | found {q : QueuePtr} {qp : Ipq} (hq : s.queues q = some qp) (hqs : q ∉ qs)
      (hk : ipKey qp.iph = ipKey iph) :
      Target s iph qs expires q { qp.remember iph with expires := expires }
  | created {q : QueuePtr} {h : HostPtr}
      (hno : ∀ x qp, s.queues x = some qp → x ∉ qs → ipKey qp.iph ≠ ipKey iph) (hq : s.next ≤ q) :
      Target s iph qs expires q (.create iph expires h)

/-- The queue that `ipDefrag` finds for a fragment, once it has freed others. -/
def foundQueue (s : IpFragment) (iph : List Byte) : Option Ipq := do
  let s := s.hostfragFind iph
  let s := if s.thisHost = none then s.hostfragCreate iph else s
  let s ← s.evict
  let (s, q) ← s.findQueue iph
  s.queues (← q)

/-- What `ipDefrag` does with a fragment. -/
structure Taken (clock : Nat → Int) (s s' : IpFragment) (iph : List Byte) (skb : SkBuff)
    (es : List IpEvent) (l qs : List QueuePtr) (q : QueuePtr) (qp : Ipq) : Prop where
  target : Target s iph qs (s'.timenow + IP_FRAG_TIME) q qp
  inv : s'.Inv (if (outcome qp iph skb).1 = none then l.filter fun x => x ∉ qs ∧ x ≠ q
    else (l.filter fun x => x ∉ qs ∧ x ≠ q) ++ [q])
  queues : ∀ x, s'.queues x = if x = q then (outcome qp iph skb).1
    else if x ∈ qs then none else s.queues x
  events : es = [.fragment q iph (s'.instant clock), (outcome qp iph skb).2.elim .isf (.new q)]
  timenow : s'.timenow = (s.jiffies clock).timenow
  reads : s'.reads = (s.jiffies clock).reads
  next : s.next ≤ s'.next
  lt_next : q < s'.next
  bounded : ∀ b, IPFRAG_HIGH_THRESH + sizeofIpq + sizeofIph + IpFrag.sizeofIpFrag + skb.truesize ≤ b →
    s.Bounded b → s'.Bounded b
  evicted : qs = [] ∨ ∃ h hf, s.hosts h = some hf ∧ hf.ip = ipDst iph ∧
    IPFRAG_HIGH_THRESH < hf.ipFragMem
  host : ∀ x ∈ qs, ∃ qp, s.queues x = some qp ∧ (ipKey qp.iph).dst = ipDst iph
  start : match s.foundQueue iph with
    | some qp₀ => qp = { qp₀.remember iph with expires := s'.timenow + IP_FRAG_TIME }
    | none => ∃ h, qp = .create iph (s'.timenow + IP_FRAG_TIME) h

/-- The host for the new queue, made if `ipEvictor` has removed it. -/
theorem Prepared.host_again (hp : Prepared s s₁ l (ipDst iph) qs)
    (hno : ∀ q qp, s₁.queues q = some qp → ipKey qp.iph ≠ ipKey iph)
    (hle : ∀ h hf, s₁.thisHost = some h → s₁.hosts h = some hf →
      hf.ipFragMem ≤ IPFRAG_HIGH_THRESH) : ∃ h s₂,
    (if s₁.thisHost = none then s₁.hostfragCreate iph else s₁) = s₂ ∧ s₂.thisHost = some h ∧
    Prepared s s₂ l (ipDst iph) qs ∧ (∀ q qp, s₂.queues q = some qp → ipKey qp.iph ≠ ipKey iph) ∧
    ∀ hf, s₂.hosts h = some hf → hf.ipFragMem ≤ IPFRAG_HIGH_THRESH := by
  cases ht : s₁.thisHost with
  | none =>
    have hbare : ∀ h, ¬ s₁.Bare h := fun h hb => by
      have := hp.bareOnly h hb
      rw [ht] at this
      cases this
    refine ⟨s₁.next, s₁.hostfragCreate iph, if_pos rfl, rfl, ?_, hno, fun hf hh => ?_⟩
    · exact ⟨hp.table.hostfragCreate hp.found ht, hp.timed.congr rfl rfl,
        bareOnly_hostfragCreate hbare, found_hostfragCreate s₁ iph, hp.queues, hp.timenow, hp.reads,
        hp.next.trans (Nat.le_succ _), fun b hb hs => bounded_hostfragCreate hb (hp.bounded b hb hs),
        hp.evicted, hp.host⟩
    · obtain ⟨-, he⟩ := (update_eq_some.mp hh).resolve_right fun hne => hne.1 rfl
      obtain rfl := Option.some.inj he
      show (0 : Int) ≤ IPFRAG_HIGH_THRESH
      decide
  | some h => exact ⟨h, s₁, if_neg nofun, ht, hp, hno, fun hf hh => hle h hf ht hh⟩

/-- What the current host is charged for is known to be no more than `IPFRAG_HIGH_THRESH`. -/
theorem Bounded.atMost {b c : Int} (hb : s.Bounded b) (hc : s.thisHost = some h)
    (hle : ∀ hf, s.hosts h = some hf → hf.ipFragMem ≤ c) : s.AtMost b c := by
  intro x hf hh
  split
  · rename_i hx
    obtain rfl := Option.some.inj (hc.symm.trans hx)
    exact hle hf hh
  · exact hb x hf hh

theorem Inv.ipDefrag_fragment (hi : s.Inv l) (clock : Nat → Int) (hw : isWhole iph = false)
    (hhl : 5 ≤ ipHl iph) (skb : SkBuff) : ∃ s' es qs q qp,
    s.ipDefrag clock iph (some skb) = some (s', es) ∧ Taken clock s s' iph skb es l qs q qp := by
  obtain ⟨s₁, qs, he, hp, -, hle⟩ := hi.exists_evict iph true
  have hpos {b : Int} (hb : IPFRAG_HIGH_THRESH + sizeofIpq + sizeofIph + IpFrag.sizeofIpFrag +
      skb.truesize ≤ b) : 0 ≤ b := by
    rw [IPFRAG_HIGH_THRESH, sizeofIpq, sizeofIph, IpFrag.sizeofIpFrag] at hb
    omega
  have he' : (if (s.hostfragFind iph).thisHost = none ∧ (some skb).isSome then
      (s.hostfragFind iph).hostfragCreate iph else s.hostfragFind iph).evict = some s₁ := he
  have hfound : s.foundQueue iph = (s₁.findQueue iph).bind fun r => r.2.bind r.1.queues := by
    simp only [Option.isSome_some, and_true] at he'
    rw [foundQueue]
    simp only [he', Option.bind_eq_bind, Option.bind_some]
  rw [ipDefrag]
  simp only [Option.bind_eq_bind, he', Option.bind_some]
  rcases hp.table.findQueue hp.found with ⟨hfind, hno⟩ | ⟨q, qp, hfind, hq, ht, hk⟩
  · simp only [hfind, Option.bind_some, hw, Bool.false_eq_true, if_false]
    obtain ⟨h, s₂, hs₂, ht, hp₂, hno₂, hle₂⟩ := hp.host_again hno hle
    obtain ⟨s₃, qp, hcreate, hqp, hr, hqueues, htn, hrd, hnx, hmost⟩ :=
      exists_ipCreate clock hp₂.table hp₂.timed hp₂.bareOnly hp₂.found ht hhl hno₂
    obtain ⟨s', hadd, hqueues', hinv, htn', hrd', hnx', hbound⟩ := exists_addFragment hr iph skb
    obtain ⟨hjt, hjr⟩ := jiffies_congr clock hp₂.timenow hp₂.reads
    have htime : s'.timenow = (s.jiffies clock).timenow := htn'.trans (htn.trans hjt)
    have hreads : s'.reads = (s.jiffies clock).reads := hrd'.trans (hrd.trans hjr)
    have hfilter : (l.filter fun x => x ∉ qs ∧ x ≠ s₂.next) = l.filter (· ∉ qs) :=
      List.filter_congr fun x hx => by
        obtain ⟨qp₁, hq₁⟩ := Option.ne_none_iff_exists'.mp ((hi.timed.mem x).mp hx)
        have hlt := (hi.table.queue_lt x qp₁ hq₁).trans_le hp₂.next
        simp [Nat.ne_of_lt hlt]
    simp only [hs₂, hcreate, Option.bind_some, hadd, Option.pure_def]
    refine ⟨s', _, qs, s₂.next, qp, rfl, ?_, ?_, fun x => ?_, ?_, htime, hreads, ?_, ?_,
      fun b hb hs => hbound b _ (hmost b _ ((hp₂.bounded b (hpos hb) hs).atMost ht hle₂)) hb,
      hp.evicted, hp.host, ?_⟩
    · rw [hqp, htn', htn]
      exact .created (fun x qp₁ hq₁ hx => hno₂ x qp₁ (by rw [hp₂.queues, if_neg hx, hq₁])) hp₂.next
    · rw [hfilter]
      exact hinv
    · rw [hqueues', hqueues, Function.update_idem, Function.update_apply, hp₂.queues]
    · rw [instant, instant, hrd']
    · exact hp₂.next.trans (by omega)
    · rw [hnx', hnx]
      exact Nat.lt_succ_self _
    · rw [hfound, hfind]
      exact ⟨h, by rw [hqp, htn', htn]⟩
  · simp only [hfind, Option.bind_some, hw, Bool.false_eq_true, if_false]
    have hc : (s₁.delTimer q).thisHost = some qp.hf := ht
    obtain ⟨s₃, hrefresh, hr, hqueues, htn, hrd, hnx, hmost⟩ :=
      exists_ipRefresh clock hp.table hp.timed hp.bareOnly hq ht hhl hk
    obtain ⟨s', hadd, hqueues', hinv, htn', hrd', hnx', hbound⟩ := exists_addFragment hr iph skb
    obtain ⟨hjt, hjr⟩ := jiffies_congr clock hp.timenow hp.reads
    have htime : s'.timenow = (s.jiffies clock).timenow := htn'.trans (htn.trans hjt)
    have hreads : s'.reads = (s.jiffies clock).reads := hrd'.trans (hrd.trans hjr)
    have hexp : s₁.refreshed clock qp iph =
        { qp.remember iph with expires := s'.timenow + IP_FRAG_TIME } := by
      rw [refreshed, htn', htn]
    have hqs : q ∉ qs := fun hx => by
      rw [hp.queues, if_pos hx] at hq
      cases hq
    simp only [hc, reduceCtorEq, if_false, hrefresh, Option.map_some, Option.bind_some, hadd, Option.pure_def]
    refine ⟨s', _, qs, q, s₁.refreshed clock qp iph, rfl, ?_, ?_, fun x => ?_, ?_, htime, hreads,
      ?_, ?_, fun b hb hs => ?_, hp.evicted, hp.host, ?_⟩
    · rw [hexp]
      rw [hp.queues, if_neg hqs] at hq
      exact .found hq hqs hk
    · have hfilter : (l.filter (· ∉ qs)).filter (· ≠ q) = l.filter fun x => x ∉ qs ∧ x ≠ q := by
        rw [List.filter_filter]
        exact List.filter_congr fun x _ => by simp [and_comm]
      rw [← hfilter]
      exact hinv
    · rw [hqueues', hqueues, Function.update_idem, Function.update_apply, hp.queues]
    · rw [instant, instant, hrd']
    · exact hp.next.trans (by omega)
    · rw [hnx', hnx]
      exact hp.table.queue_lt q qp hq
    · have hb₁ := (hp.bounded b (hpos hb) hs).atMost ht fun hf hh => hle _ hf ht hh
      refine hbound b _ (hmost b _ hb₁) ?_
      rw [sizeofIpq, sizeofIph] at hb
      omega
    · have hq₀ : s.foundQueue iph = some qp := by
        rw [hfound, hfind]
        exact hq
      rw [hq₀]
      exact hexp

/-! ## A packet -/

/-- What a call does with an accepted packet: first queues expire, then it is a whole packet, or a
fragment. -/
inductive Called (clock : Nat → Int) (s : IpFragment) (data : List Byte) (l : List QueuePtr) :
    IpFragment → List IpEvent → Prop
  | whole {s₁ s₂ : IpFragment} {es : List IpEvent} {l₁ l₂ qs : List QueuePtr}
      (hx : Expires clock { s with timenow := 0 } es s₁) (hi : s₁.Inv l₁) (hl : l₁ <:+ l)
      (hw : isWhole data) (hd : Whole s₁ s₂ data l₁ l₂ qs) (he : s.expire clock = some (s₁, es)) :
      Called clock s data l s₂ (es ++ [.notf])
  | fragment {s₁ s₂ : IpFragment} {es es' : List IpEvent} {l₁ qs : List QueuePtr} {q : QueuePtr}
      {qp : Ipq} (hx : Expires clock { s with timenow := 0 } es s₁) (hi : s₁.Inv l₁)
      (hl : l₁ <:+ l) (hw : isWhole data = false)
      (ht : Taken clock s₁ s₂ (SkBuff.create data).data (.create data) es' l₁ qs q qp)
      (he : s.expire clock = some (s₁, es)) : Called clock s data l s₂ (es ++ es')

theorem Called.inv (h : Called clock s data l s' es) : ∃ l', s'.Inv l' := by
  cases h with
  | whole hx hi hl hw hd => exact ⟨_, hd.inv⟩
  | fragment hx hi hl hw ht => exact ⟨_, ht.inv⟩

/-- The loop over the timers, at the start of a call. -/
theorem Inv.exists_expire (hi : s.Inv l) (clock : Nat → Int) : ∃ s₁ es l₁,
    s.expire clock = some (s₁, es) ∧ Expires clock { s with timenow := 0 } es s₁ ∧
    s₁.Inv l₁ ∧ l₁ <:+ l := by
  have hi' : ({ s with timenow := 0 } : IpFragment).Inv l := hi.congr rfl rfl rfl rfl rfl rfl
  obtain ⟨s₁, es, he, hx⟩ := hi'.exists_expireLoop clock hi.length_le
  obtain ⟨qs, l₁, hl, hi₁, -⟩ := hx.inv hi'
  exact ⟨s₁, es, l₁, he, hx, hi₁, qs, hl.symm⟩

theorem of_accepted (ha : accepted data) : 20 ≤ data.length ∧ 5 ≤ ipHl data ∧ ipV data = 4 ∧
    ipLen data ≤ data.length ∧ 4 * ipHl data ≤ ipLen data := by
  simpa [accepted, and_assoc] using ha

/-- The header of a packet is that of its copy. -/
theorem byteAt_skb (ha : accepted data) {k : Nat} (hk : k < 20) :
    byteAt (SkBuff.create data).data k = byteAt data k := by
  obtain ⟨-, hhl, -, -, hlen⟩ := of_accepted ha
  rw [SkBuff.create, byteAt_bytesAt data 0 (by omega), Nat.zero_add]

theorem ipHl_skb (ha : accepted data) : ipHl (SkBuff.create data).data = ipHl data := by
  rw [ipHl, byteAt_skb ha (by omega), ipHl]

theorem ipLen_skb (ha : accepted data) : ipLen (SkBuff.create data).data = ipLen data := by
  rw [ipLen, be16, byteAt_skb ha (by omega), byteAt_skb ha (by omega), ipLen, be16]

theorem ipOff_skb (ha : accepted data) : ipOff (SkBuff.create data).data = ipOff data := by
  rw [ipOff, be16, byteAt_skb ha (by omega), byteAt_skb ha (by omega), ipOff, be16]

theorem fragOffset_skb (ha : accepted data) :
    fragOffset (SkBuff.create data).data = fragOffset data := by
  rw [fragOffset, ipOff_skb ha, fragOffset]

theorem moreFragments_skb (ha : accepted data) :
    moreFragments (SkBuff.create data).data = moreFragments data := by
  rw [moreFragments, ipOff_skb ha, moreFragments]

theorem ipKey_skb (ha : accepted data) : ipKey (SkBuff.create data).data = ipKey data := by
  obtain ⟨-, hhl, -, -, hlen⟩ := of_accepted ha
  exact ipKey_bytesAt data (by omega)

theorem isWhole_skb (ha : accepted data) :
    isWhole (SkBuff.create data).data = isWhole data := by
  rw [isWhole, moreFragments_skb ha, fragOffset_skb ha, isWhole]

theorem Inv.ipDefragStub (hi : s.Inv l) (clock : Nat → Int) (ha : accepted data) :
    ∃ s' es, s.ipDefragStub clock data = some (s', es) ∧ Called clock s data l s' es := by
  obtain ⟨s₁, es, l₁, he, hx, hi₁, hl⟩ := hi.exists_expire clock
  rw [IpFragment.ipDefragStub, he, Option.bind_eq_bind, Option.bind_some]
  by_cases hw : isWhole data
  · obtain ⟨s₂, l₂, qs, hd, hwhole⟩ := hi₁.ipDefrag_whole clock hw
    simp only [hw, if_true, hd, Option.bind_some, List.append_nil, Option.pure_def]
    exact ⟨s₂, _, rfl, .whole hx hi₁ hl hw hwhole he⟩
  · rw [Bool.not_eq_true] at hw
    obtain ⟨s₂, es', qs, q, qp, hd, htaken⟩ := hi₁.ipDefrag_fragment clock
      ((isWhole_skb ha).trans hw) (by rw [ipHl_skb ha]; exact (of_accepted ha).2.1) (.create data)
    simp only [hw, Bool.false_eq_true, if_false, hd, Option.bind_some, Option.pure_def]
    exact ⟨s₂, _, rfl, .fragment hx hi₁ hl hw htaken he⟩

/-! ## Runs -/

/-- The state and the events after the packets `ds`, with a table of `n` buckets. -/
abbrev runIp (clock : Nat → Int) (n : ℕ+) (ds : List (List Byte)) :
    Option (IpFragment × List IpEvent) :=
  run (fun s data => s.startIpfragProc clock data) (create n) ds

theorem Inv.startIpfragProc (hi : s.Inv l) (clock : Nat → Int) (data : List Byte) :
    ∃ s' es, s.startIpfragProc clock data = some (s', es) ∧
      (accepted data = false ∧ s' = s ∧ es = [] ∨ accepted data ∧ Called clock s data l s' es) := by
  rw [IpFragment.startIpfragProc]
  by_cases ha : accepted data
  · obtain ⟨s', es, he, hc⟩ := hi.ipDefragStub clock ha
    exact ⟨s', es, by rw [if_pos ha, he], .inr ⟨ha, hc⟩⟩
  · exact ⟨s, [], if_neg ha, .inl ⟨by simpa using ha, rfl, rfl⟩⟩

/-- A step of a run is one of these. -/
theorem Inv.called (hi : s.Inv l) (h : s.startIpfragProc clock data = some (s', es)) :
    accepted data = false ∧ s' = s ∧ es = [] ∨ accepted data ∧ Called clock s data l s' es := by
  obtain ⟨s₁, es₁, he, hc⟩ := hi.startIpfragProc clock data
  obtain ⟨rfl, rfl⟩ := Prod.mk.injEq .. ▸ Option.some.inj (he.symm.trans h)
  exact hc

/-- Every run has a result, and keeps the invariant. -/
theorem runIp_total (clock : Nat → Int) (n : ℕ+) (ds : List (List Byte)) :
    ∃ s es, runIp clock n ds = some (s, es) ∧ ∃ l, s.Inv l := by
  refine run_total (I := fun s : IpFragment => ∃ l, s.Inv l) ⟨[], inv_create n⟩ (fun s data ⟨l, hi⟩ => ?_) ds
  obtain ⟨s', es, he, hc⟩ := hi.startIpfragProc clock data
  refine ⟨s', es, he, ?_⟩
  rcases hc with ⟨-, rfl, -⟩ | ⟨-, hc⟩
  · exact ⟨l, hi⟩
  · exact hc.inv

theorem runIp_inv {n : ℕ+} {ds : List (List Byte)} (h : runIp clock n ds = some (s, es)) :
    ∃ l, s.Inv l := by
  obtain ⟨s', es', he, hi⟩ := runIp_total clock n ds
  obtain ⟨rfl, rfl⟩ := Prod.mk.injEq .. ▸ Option.some.inj (he.symm.trans h)
  exact hi

end IpFragment

end Noff
