import Mathlib.Data.Int.ConditionallyCompleteOrder
import Noff.Ip.Stored

/-!
# The timers of the queues

The list of the timers has each queue once, in the order of the instants at which they run out (`Stamped`). A call
frees exactly the queues whose instants have passed, if and only if each comparison that it makes
of an instant with the clock comes out the same for the values of 32 bits that the code
has (`timers_expire`). Once `int` overflows, it need not (`expire_too_early`).
-/

namespace Noff.IpFragment

variable {s s' s₁ s₂ : IpFragment} {l qs : List QueuePtr} {q : QueuePtr} {qp : Ipq}
  {clock : Nat → Int} {es es' : List IpEvent} {data iph : List Byte} {k : Nat}

/-- The reading of the clock at the last fragment for the queue `q`. -/
def lastFragment (es : List IpEvent) (q : QueuePtr) : Option Int :=
  (es.filterMap fun
    | .fragment q' _ now => if q' = q then some now else none
    | _ => none).getLast?

/-- As values of an `int`, the two instants are in the order in which they are. -/
def InOrder (x y : Int) : Prop := x.bmod (2 ^ 32) < y.bmod (2 ^ 32) ↔ x < y

/-- The comparisons that the loop over the timers makes: the queue at the head of the list, and what the
clock reads. -/
def comparisons (clock : Nat → Int) : Nat → IpFragment → List (QueuePtr × Int)
  | 0, _ => []
  | fuel + 1, s =>
    match s.timers.head with
    | none => []
    | some q =>
      match s.queues q with
      | none => []
      | some qp =>
        let s := s.jiffies clock
        (q, s.instant clock) ::
          if qp.expires.slt s.timenow then
            match { s with thisHost := some qp.hf }.ipFree q with
            | none => []
            | some s => comparisons clock fuel s
          else []

/-- The loop of a call in the state `s` after the events `es` has freed what has not had a fragment for
more than 30 seconds, and nothing else. -/
structure ExpiresRight (clock : Nat → Int) (s : IpFragment) (es : List IpEvent) (s₁ : IpFragment)
    (es₁ : List IpEvent) : Prop where
  old : ∀ q t, s₁.queues q ≠ none → lastFragment es q = some t → ¬ t + 30000 < s₁.instant clock
  young : ∀ q now t, .expired q now ∈ es₁ → lastFragment es q = some t → ¬ now < t + 30000
  freed : ∀ q, s.queues q ≠ none → s₁.queues q = none → ∃ now, .expired q now ∈ es₁

/-! ## The order of the list -/

theorem lastFragment_append (es es' : List IpEvent) (q : QueuePtr) :
    lastFragment (es ++ es') q = (lastFragment es' q).or (lastFragment es q) := by
  rw [lastFragment, List.filterMap_append, List.getLast?_append]
  rfl

/-- Each queue has the instant of its last fragment, and they are in the order of these. -/
structure Stamped (clock : Nat → Int) (s : IpFragment) (es : List IpEvent)
    (l : List QueuePtr) : Prop where
  stamp : ∀ q qp, s.queues q = some qp → ∃ i < s.reads, lastFragment es q = some (clock i) ∧
    qp.expires = BitVec.ofInt 32 (clock i + 30000)
  sorted : l.Pairwise fun q q' => ∀ t t', lastFragment es q = some t →
    lastFragment es q' = some t' → t ≤ t'
  fresh : ∀ q, s.next ≤ q → lastFragment es q = none

theorem Stamped.congr (h : Stamped clock s es l) {l' : List QueuePtr} (hl : l'.Sublist l)
    (hqueues : ∀ q qp, s'.queues q = some qp → s.queues q = some qp) (hreads : s.reads ≤ s'.reads)
    (hnext : s.next ≤ s'.next) (hes : ∀ q, lastFragment es' q = none) :
    Stamped clock s' (es ++ es') l' := by
  have hlast (q : QueuePtr) : lastFragment (es ++ es') q = lastFragment es q := by
    rw [lastFragment_append, hes]
    rfl
  refine ⟨fun q qp hq => ?_, ?_, fun q hq => ?_⟩
  · obtain ⟨i, hi, hstamp⟩ := h.stamp q qp (hqueues q qp hq)
    rw [hlast]
    exact ⟨i, hi.trans_le hreads, hstamp⟩
  · simp only [hlast]
    exact h.sorted.sublist hl
  · rw [hlast]
    exact h.fresh q (hnext.trans hq)

/-- `timenow` is 0, or is what the clock has read last. -/
def Reads (clock : Nat → Int) (s : IpFragment) : Prop :=
  s.timenow = 0 ∨ 0 < s.reads ∧ s.timenow = BitVec.ofInt 32 (s.instant clock)

theorem jiffies_reads (h : Reads clock s) : s.reads ≤ (s.jiffies clock).reads ∧
    0 < (s.jiffies clock).reads ∧
    (s.jiffies clock).timenow = BitVec.ofInt 32 ((s.jiffies clock).instant clock) := by
  rw [jiffies]
  split
  · rename_i hne
    obtain ⟨hpos, htime⟩ := h.resolve_left hne
    exact ⟨le_rfl, hpos, htime⟩
  · exact ⟨Nat.le_succ _, Nat.succ_pos _, rfl⟩

theorem Expires.reads (h : Expires clock s es s') (hr : Reads clock s) :
    s.reads ≤ s'.reads ∧ Reads clock s' := by
  induction h with
  | empty => exact ⟨le_rfl, hr⟩
  | fresh hh hq hle =>
    obtain ⟨hle, hpos⟩ := jiffies_reads hr
    exact ⟨hle, .inr hpos⟩
  | @stale s s₁ s₂ q qp es hh hq hlt hf he ih =>
    obtain ⟨hle, hpos, htime⟩ := jiffies_reads hr
    have hr₁ : Reads clock s₁ := by
      have hreads := hf.reads
      have htimenow := hf.timenow
      refine .inr ⟨hreads ▸ hpos, ?_⟩
      rw [htimenow, instant, hreads]
      exact htime
    obtain ⟨hle', hr'⟩ := ih hr₁
    exact ⟨hle.trans (hf.reads ▸ hle'), hr'⟩

theorem Expires.lastFragment_eq (h : Expires clock s es s') (q : QueuePtr) :
    lastFragment es q = none := by
  induction h with
  | empty => rfl
  | fresh => rfl
  | stale hh hq hlt hf he ih => exact ih

/-- The loop over the timers keeps the order. -/
theorem Expires.stamped (h : Expires clock { s with timenow := 0 } es s') (hi : s.Inv l)
    (hs : Stamped clock s es' l) : ∃ l', s'.Inv l' ∧ Stamped clock s' (es' ++ es) l' := by
  have hi' : ({ s with timenow := 0 } : IpFragment).Inv l := hi.congr rfl rfl rfl rfl rfl rfl
  obtain ⟨qs, l', rfl, hi₁, hqueues, -⟩ := h.inv hi'
  refine ⟨l', hi₁, hs.congr (List.sublist_append_right ..) (fun q qp hq => ?_) (h.reads (.inl rfl)).1
    h.next.ge h.lastFragment_eq⟩
  rw [hqueues] at hq
  split at hq
  · cases hq
  · exact hq

theorem Target.expires_eq {expires : BitVec 32} (h : Target s iph qs expires q qp) :
    qp.expires = expires := by
  cases h <;> rfl

theorem expires_outcome {skb : SkBuff} {qp' : Ipq} (h : (outcome qp iph skb).1 = some qp') :
    qp'.expires = qp.expires := by
  rw [outcome] at h
  split at h
  · rw [← Option.some.inj h]
  · split at h
    · cases h
    · rw [← Option.some.inj h]
      rfl

/-- The queue of a fragment goes to the end of the list. -/
theorem Taken.stamped {skb : SkBuff} (hc : Monotone clock)
    (ht : Taken clock s s' iph skb es l qs q qp) (hi : s.Inv l) (hr : Reads clock s)
    (hs : Stamped clock s es' l) : ∃ l', s'.Inv l' ∧ Stamped clock s' (es' ++ es) l' := by
  obtain ⟨hle, hpos, htime⟩ := jiffies_reads hr
  rw [instant, ← ht.reads, ← ht.timenow] at htime
  rw [← ht.reads] at hle hpos
  have hself : lastFragment (es' ++ es) q = some (s'.instant clock) := by
    rw [lastFragment_append, ht.events]
    cases (outcome qp iph skb).2 <;> simp [lastFragment]
  have hother (x : QueuePtr) (hne : x ≠ q) : lastFragment (es' ++ es) x = lastFragment es' x := by
    rw [lastFragment_append, ht.events]
    cases (outcome qp iph skb).2 <;> simp [lastFragment, hne.symm]
  have hexpires : qp.expires = BitVec.ofInt 32 (s'.instant clock + 30000) := by
    rw [ht.target.expires_eq, htime, BitVec.ofInt_add]
    rfl
  have hsorted : (l.filter fun x => x ∉ qs ∧ x ≠ q).Pairwise fun x x' => ∀ t t',
      lastFragment (es' ++ es) x = some t → lastFragment (es' ++ es) x' = some t' → t ≤ t' := by
    refine List.Pairwise.imp_of_mem (fun {x x'} hx hx' h => ?_) (hs.sorted.sublist List.filter_sublist)
    have hxq : x ≠ q := (of_decide_eq_true (List.mem_filter.mp hx).2).2
    have hxq' : x' ≠ q := (of_decide_eq_true (List.mem_filter.mp hx').2).2
    rw [hother x hxq, hother x' hxq']
    exact h
  refine ⟨_, ht.inv, fun x qp' hq' => ?_, ?_, fun x hx => ?_⟩
  · rw [ht.queues] at hq'
    by_cases hx : x = q
    · rw [if_pos hx] at hq'
      rw [hx, hself, expires_outcome hq', hexpires]
      exact ⟨s'.reads - 1, by omega, rfl, rfl⟩
    · rw [if_neg hx] at hq'
      split at hq'
      · cases hq'
      · obtain ⟨i, hlt, hstamp⟩ := hs.stamp x qp' hq'
        rw [hother x hx]
        exact ⟨i, hlt.trans_le hle, hstamp⟩
  · split
    · exact hsorted
    · refine List.pairwise_append.mpr ⟨hsorted, List.pairwise_singleton _ _, fun x hx y hy t t' => ?_⟩
      obtain ⟨hxl, hxq⟩ := List.mem_filter.mp hx
      have hxq : x ≠ q := (of_decide_eq_true hxq).2
      obtain ⟨qp', hq'⟩ := Option.ne_none_iff_exists'.mp ((hi.timed.mem x).mp hxl)
      obtain ⟨i, hlt, hstamp, -⟩ := hs.stamp x qp' hq'
      rw [List.mem_singleton.mp hy, hself, hother x hxq, hstamp]
      intro ht₁ ht₂
      rw [← Option.some.inj ht₁, ← Option.some.inj ht₂, instant]
      exact hc (by omega)
  · have hne : x ≠ q := (ht.lt_next.trans_le hx).ne'
    rw [hother x hne]
    exact hs.fresh x (ht.next.trans hx)

theorem Called.stamped (hc : Monotone clock) (h : Called clock s data l s' es) (hi : s.Inv l)
    (hs : Stamped clock s es' l) : ∃ l', s'.Inv l' ∧ Stamped clock s' (es' ++ es) l' := by
  cases h with
  | @whole s₁ s₂ es l₁ l₂ _ hx hi₁ hl hw hd =>
    obtain ⟨l', hi', hs₁⟩ := hx.stamped hi hs
    obtain rfl := hi'.timed.links.unique hi₁.timed.links
    refine ⟨l₂, hd.inv, ?_⟩
    rw [← List.append_assoc]
    refine hs₁.congr hd.sublist (fun q qp hq => ?_) hd.reads.ge hd.next fun q => rfl
    rw [hd.queues] at hq
    split at hq
    · cases hq
    · exact hq
  | @fragment s₁ s₂ es es₃ l₁ _ _ _ hx hi₁ hl hw ht =>
    obtain ⟨l', hi', hs₁⟩ := hx.stamped hi hs
    obtain rfl := hi'.timed.links.unique hi₁.timed.links
    rw [← List.append_assoc]
    exact ht.stamped hc hi₁ (hx.reads (.inl rfl)).2 hs₁

theorem runIp_stamped (hc : Monotone clock) {n : ℕ+} {ds : List (List Byte)}
    (h : runIp clock n ds = some (s, es)) : ∃ l, s.Inv l ∧ Stamped clock s es l := by
  refine run_induction (I := fun _ s es => ∃ l, s.Inv l ∧ Stamped clock s es l)
    ⟨[], inv_create n, nofun, .nil, fun q _ => rfl⟩ ?_ h
  intro ds s es data s' es' hr ⟨l, hi, hs⟩ hcall
  rcases hi.called hcall with ⟨-, rfl, rfl⟩ | ⟨-, hcalled⟩
  · rw [List.append_nil]
    exact ⟨l, hi, hs⟩
  · exact hcalled.stamped hc hi hs

/-! ## The comparisons -/

theorem Freed.unique (h₁ : Freed s q qp s₁) (h₂ : Freed s q qp s₂) : s₁ = s₂ := by
  cases h₁ with
  | last hh hl =>
    cases h₂ with
    | last hh' hl' =>
      obtain rfl := Option.some.inj (hh.symm.trans hh')
      rfl
    | other hh' hl' =>
      obtain rfl := Option.some.inj (hh.symm.trans hh')
      exact absurd hl hl'
  | other hh hl =>
    cases h₂ with
    | last hh' hl' =>
      obtain rfl := Option.some.inj (hh.symm.trans hh')
      exact absurd hl' hl
    | other hh' hl' =>
      obtain rfl := Option.some.inj (hh.symm.trans hh')
      rfl

/-- The loop compares each queue that it frees, and the one at which it stops. -/
theorem Expires.mem_comparisons (h : Expires clock s es s') (hi : s.Inv l) (hk : l.length < k)
    (q : QueuePtr) (now : Int) : (q, now) ∈ comparisons clock k s ↔
      .expired q now ∈ es ∨ s'.timers.head = some q ∧ now = s'.instant clock := by
  obtain ⟨k, rfl⟩ : ∃ k', k = k' + 1 := ⟨k - 1, by omega⟩
  induction h generalizing k l with
  | empty hh => simp [comparisons, hh]
  | @fresh s x qp hh hq hle =>
    rw [comparisons]
    simp [hh, hq, hle, eq_comm]
  | @stale s s₁ s₂ x qp es hh hq hlt hf he ih =>
    obtain ⟨l, rfl⟩ : ∃ l', l = x :: l' := by
      rw [hi.timed.links.head] at hh
      exact ⟨l.tail, (List.cons_head?_tail hh).symm⟩
    have hi₀ := hi.jiffies clock (some qp.hf)
    have hq' : ({ s.jiffies clock with thisHost := some qp.hf } : IpFragment).queues x = some qp :=
      (congrFun (jiffies_queues ..) x).trans hq
    obtain ⟨s₃, hfree, hf'⟩ := hi₀.table.exists_ipFree hq' rfl
    obtain rfl := hf.unique hf'
    have hi₁ : s₁.Inv ([] ++ l) := Inv.freed hi₀ hq' hf
    obtain ⟨k, rfl⟩ : ∃ k', k = k' + 1 := ⟨k - 1, by simp at hk; omega⟩
    rw [comparisons]
    simp only [hh, hq, if_pos hlt, hfree, List.mem_cons, Prod.mk.injEq,
      ih hi₁ k (by simpa using hk), IpEvent.expired.injEq, or_assoc]

/-- How the comparisons come out. -/
theorem Expires.compared {last : QueuePtr → Option Int} (h : Expires clock s es s')
    (hr : Reads clock s) (hs : ∀ q qp, s.queues q = some qp →
      ∃ t, last q = some t ∧ qp.expires = BitVec.ofInt 32 (t + 30000)) :
    (∀ q now, .expired q now ∈ es → ∃ t, last q = some t ∧
      (t + 30000).bmod (2 ^ 32) < now.bmod (2 ^ 32)) ∧
    ∀ q, s'.timers.head = some q → ∃ t, last q = some t ∧
      ¬ (t + 30000).bmod (2 ^ 32) < (s'.instant clock).bmod (2 ^ 32) := by
  have hslt {s : IpFragment} {qp : Ipq} {t : Int} (hr : Reads clock s)
      (ht : qp.expires = BitVec.ofInt 32 (t + 30000)) : qp.expires.slt (s.jiffies clock).timenow ↔
        (t + 30000).bmod (2 ^ 32) < ((s.jiffies clock).instant clock).bmod (2 ^ 32) := by
    rw [ht, (jiffies_reads hr).2.2, BitVec.slt_iff_toInt_lt, BitVec.toInt_ofInt, BitVec.toInt_ofInt]
  induction h with
  | empty hh => exact ⟨nofun, fun q hq => by rw [hh] at hq; cases hq⟩
  | @fresh s x qp hh hq hle =>
    obtain ⟨t, hlast, ht⟩ := hs x qp hq
    refine ⟨nofun, fun q hq' => ?_⟩
    rw [jiffies_timers, hh] at hq'
    obtain rfl := Option.some.inj hq'
    exact ⟨t, hlast, fun hlt => hle ((hslt hr ht).mpr hlt)⟩
  | @stale s s₁ s₂ x qp es hh hq hlt hf he ih =>
    obtain ⟨t, hlast, ht⟩ := hs x qp hq
    obtain ⟨-, hpos, htime⟩ := jiffies_reads hr
    have hr₁ : Reads clock s₁ := by
      refine .inr ⟨hf.reads ▸ hpos, ?_⟩
      rw [hf.timenow, instant, hf.reads]
      exact htime
    obtain ⟨hex, hhead⟩ := ih hr₁ fun q qp hq => by
      rw [hf.queues] at hq
      obtain ⟨-, hq⟩ := update_none_eq_some.mp hq
      exact hs q qp ((congrFun (jiffies_queues ..) q).symm.trans hq)
    refine ⟨fun q now hmem => ?_, hhead⟩
    rcases List.mem_cons.mp hmem with he | hmem
    · obtain ⟨rfl, rfl⟩ := IpEvent.expired.inj he
      exact ⟨t, hlast, (hslt hr ht).mp hlt⟩
    · exact hex q now hmem

/-- With a clock that does not go back, the list of the timers is in order after any packets, and what
the next call frees is right if and only if its comparisons are. -/
theorem timers_expire (clock : Nat → Int) (hc : Monotone clock) (n : ℕ+) (ds : List (List Byte)) :
    ∃ s es l, runIp clock n ds = some (s, es) ∧ s.timers.Links l ∧
      (∀ q, q ∈ l ↔ s.queues q ≠ none) ∧
      (∀ q qp, s.queues q = some qp → ∃ t, lastFragment es q = some t ∧
        qp.expires = BitVec.ofInt 32 (t + 30000)) ∧
      (l.Pairwise fun q q' => ∀ t t', lastFragment es q = some t →
        lastFragment es q' = some t' → t + 30000 ≤ t' + 30000) ∧
      ∃ s₁ es₁, s.expire clock = some (s₁, es₁) ∧ (ExpiresRight clock s es s₁ es₁ ↔
        ∀ c ∈ comparisons clock (s.next + 1) { s with timenow := 0 }, ∀ t,
          lastFragment es c.1 = some t → InOrder (t + 30000) c.2) := by
  obtain ⟨s, es, hr, -⟩ := runIp_total clock n ds
  obtain ⟨l, hi, hs⟩ := runIp_stamped hc hr
  have hi' : ({ s with timenow := 0 } : IpFragment).Inv l := hi.congr rfl rfl rfl rfl rfl rfl
  obtain ⟨s₁, es₁, l₁, he, hx, hi₁, hl⟩ := hi.exists_expire clock
  have hstamp : ∀ q qp, s.queues q = some qp → ∃ t, lastFragment es q = some t ∧
      qp.expires = BitVec.ofInt 32 (t + 30000) := fun q qp hq => by
    obtain ⟨i, -, hlast, hexp⟩ := hs.stamp q qp hq
    exact ⟨_, hlast, hexp⟩
  refine ⟨s, es, l, hr, hi.timed.links, hi.timed.mem, hstamp, ?_, s₁, es₁, he, ?_⟩
  · exact hs.sorted.imp fun h t t' ht ht' => Int.add_le_add_right (h t t' ht ht') _
  obtain ⟨hex, hhead⟩ := hx.compared (.inl rfl) hstamp
  have hmem := hx.mem_comparisons hi' (Nat.lt_succ_of_le hi.length_le)
  obtain ⟨qs, l', rfl, hi₁', hqueues, hfreed⟩ := hx.inv hi'
  obtain rfl := hi₁.timed.links.unique hi₁'.timed.links
  constructor
  · rintro hright ⟨q, now⟩ hcomp t ht
    rcases (hmem q now).mp hcomp with hexp | ⟨hq, rfl⟩
    · obtain ⟨t', ht', hlt⟩ := hex q now hexp
      obtain rfl := Option.some.inj (ht.symm.trans ht')
      have hnot := hright.young q now t hexp ht
      have hne : t + 30000 ≠ now := fun heq => by
        rw [heq] at hlt
        exact lt_irrefl _ hlt
      exact ⟨fun _ => show t + 30000 < now by omega, fun _ => hlt⟩
    · obtain ⟨t', ht', hnlt⟩ := hhead q hq
      obtain rfl := Option.some.inj (ht.symm.trans ht')
      have hlive : q ∈ l₁ := List.mem_of_mem_head? (hi₁.timed.links.head ▸ hq)
      have hnot := hright.old q t ((hi₁.timed.mem q).mp hlive) ht
      exact ⟨fun hlt => absurd hlt hnlt, fun hlt => absurd hlt hnot⟩
  · intro horder
    refine ⟨fun q t hq ht => ?_, fun q now t hexp ht => ?_, fun q hq hnone => ?_⟩
    · have hmem₁ := (hi₁.timed.mem q).mpr hq
      obtain ⟨x, r, rfl⟩ := List.exists_cons_of_ne_nil (List.ne_nil_of_mem hmem₁)
      have hx₁ : s₁.timers.head = some x := hi₁.timed.links.head
      obtain ⟨t', ht', hnlt⟩ := hhead x hx₁
      have hin := horder (x, s₁.instant clock) ((hmem x _).mpr (.inr ⟨hx₁, rfl⟩)) t' ht'
      have hxt : ¬ t' + 30000 < s₁.instant clock := fun hlt => hnlt (hin.mpr hlt)
      rcases List.mem_cons.mp hmem₁ with rfl | hqr
      · rwa [Option.some.inj (ht.symm.trans ht')]
      · have hsorted := (List.pairwise_append.mp hs.sorted).2.1
        have hle := (List.pairwise_cons.mp hsorted).1 q hqr t' t ht' ht
        omega
    · obtain ⟨t', ht', hlt⟩ := hex q now hexp
      obtain rfl := Option.some.inj (ht.symm.trans ht')
      have hin := horder (q, now) ((hmem q now).mpr (.inl hexp)) t ht
      have hold : t + 30000 < now := hin.mp hlt
      omega
    · rw [hqueues] at hnone
      split at hnone
      · rename_i hqs
        exact (hfreed q).mp hqs
      · exact absurd hnone hq

/-- Readings of an `int` that does not overflow are in order. -/
theorem inOrder_of_bounds {x y b : Int} (hx : b * 2 ^ 32 - 2 ^ 31 ≤ x ∧ x < b * 2 ^ 32 + 2 ^ 31)
    (hy : b * 2 ^ 32 - 2 ^ 31 ≤ y ∧ y < b * 2 ^ 32 + 2 ^ 31) : InOrder x y := by
  have hmod {z : Int} (hz : b * 2 ^ 32 - 2 ^ 31 ≤ z ∧ z < b * 2 ^ 32 + 2 ^ 31) :
      z.bmod (2 ^ 32) = z - b * 2 ^ 32 := by
    have heq : z = z - b * 2 ^ 32 + b * (2 ^ 32 : Nat) := by push_cast; omega
    rw [heq, Int.add_mul_bmod_self_right, Int.bmod_eq_of_le] <;> push_cast <;> omega
  rw [InOrder, hmod hx, hmod hy]
  omega

/-- A clock that reads 0, 1000 and 2000, and then 31500. -/
def pausing (i : Nat) : Int := if i < 3 then 1000 * i else 31500

/-- The first fragments of three datagrams. -/
def threeFirst : List (List Byte) := [1, 2, 3].map fun i => (piece 0x20 0 8).set 5 i

/-- Of three queues, the next call frees the first two, as it is to. -/
theorem timers_expire_three : Monotone pausing ∧ ∃ s es l s₁ es₁,
    runIp pausing 1 threeFirst = some (s, es) ∧ s.timers.Links l ∧
      (∀ q, q ∈ l ↔ s.queues q ≠ none) ∧
      (l.Pairwise fun q q' => ∀ t t', lastFragment es q = some t →
        lastFragment es q' = some t' → t + 30000 ≤ t' + 30000) ∧
      s.expire pausing = some (s₁, es₁) ∧
      [1, 2, 3].map (fun q => ((s.queues q).isSome, (s₁.queues q).isSome)) =
        [(true, false), (true, false), (true, true)] ∧
      ExpiresRight pausing s es s₁ es₁ := by
  have hmono : Monotone pausing := fun i j hij => by
    rw [pausing, pausing]
    split <;> split <;> omega
  have hrun : (runIp pausing 1 threeFirst).all (fun r => (r.1.expire pausing).all fun r₁ =>
      decide ([1, 2, 3].map (fun q => ((r.1.queues q).isSome, (r₁.1.queues q).isSome)) =
          [(true, false), (true, false), (true, true)]) &&
        (comparisons pausing (r.1.next + 1) { r.1 with timenow := 0 }).all fun c =>
          decide (c.2 = 31500) && (lastFragment r.2 c.1).all fun t => decide (0 ≤ t ∧ t ≤ 2000)) := by
    decide
  obtain ⟨s, es, l, hr, hl, hmem, -, hsorted, s₁, es₁, he, hright⟩ :=
    timers_expire pausing hmono 1 threeFirst
  simp only [hr, he, Option.all_some, Bool.and_eq_true, List.all_eq_true, decide_eq_true_eq] at hrun
  obtain ⟨hqueues, hcomp⟩ := hrun
  refine ⟨hmono, s, es, l, s₁, es₁, hr, hl, hmem, hsorted, he, hqueues, hright.mpr ?_⟩
  intro c hc t ht
  obtain ⟨hnow, hlast⟩ := hcomp c hc
  rw [ht, Option.all_some, decide_eq_true_eq] at hlast
  rw [hnow]
  exact inOrder_of_bounds (b := 0) (by omega) (by omega)

/-- A queue whose fragment comes 20 seconds before an `int` of milliseconds overflows, is freed a
millisecond later. -/
theorem expire_too_early : ∃ clock, Monotone clock ∧ ∃ s es s₁ es₁,
    runIp clock 1 [piece 0x20 0 8] = some (s, es) ∧ s.expire clock = some (s₁, es₁) ∧
    ¬ ExpiresRight clock s es s₁ es₁ := by
  refine ⟨fun i => 2 ^ 31 - 20000 + i, fun i j hij => ?_, ?_⟩
  · show (2 ^ 31 - 20000 + i : Int) ≤ 2 ^ 31 - 20000 + j
    omega
  · have h : (runIp (fun i => 2 ^ 31 - 20000 + i) 1 [piece 0x20 0 8]).any (fun r =>
        (r.1.expire (fun i => 2 ^ 31 - 20000 + i)).any fun r₁ => r₁.2.any fun
          | .expired q now => (lastFragment r.2 q).any fun t => now < t + 30000
          | _ => false) := by decide
    obtain ⟨⟨s, es⟩, hr, h⟩ := (Option.any_eq_true ..).mp h
    obtain ⟨⟨s₁, es₁⟩, he, h⟩ := (Option.any_eq_true ..).mp h
    obtain ⟨e, hmem, h⟩ := List.any_eq_true.mp h
    refine ⟨s, es, s₁, es₁, hr, he, fun hright => ?_⟩
    cases e with
    | expired q now =>
      obtain ⟨t, ht, hlt⟩ := (Option.any_eq_true ..).mp h
      exact hright.young q now t hmem ht (of_decide_eq_true hlt)
    | _ => cases h

end Noff.IpFragment
