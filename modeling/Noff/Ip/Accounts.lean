import Noff.Ip.Calls

/-!
# What the defragmenter accounts for

After any packets, the table has the shape that its functions rely on, and each host is charged
for exactly what its queues hold (`table_accounted`). So `ipEvictor` always ends, and what is
charged always fits an `int` (`runIp_bounded`).
-/

namespace Noff

namespace IpFragment

variable {s s' : IpFragment} {h : HostPtr} {hf : HostFrags} {l : List QueuePtr}
  {clock : Nat → Int} {es : List IpEvent} {data : List Byte} {b : Int}

/-! ## Bounds -/

/-- The most that a host is ever charged for: a packet adds a queue and a fragment at most. -/
def mostCharged : Int := 328192

theorem le_mostCharged (data : List Byte) : IPFRAG_HIGH_THRESH + sizeofIpq + sizeofIph +
    IpFrag.sizeofIpFrag + (SkBuff.create data).truesize ≤ mostCharged := by
  have hlen := ipLen_lt data
  show 262144 + 88 + 72 + 48 + (((ipLen data + 16 - 1 + 15) / 16 * 16 + 168 : Nat) : Int) ≤ 328192
  omega

theorem Called.bounded (h : Called clock s data l s' es) (hs : s.Bounded mostCharged) :
    s'.Bounded mostCharged := by
  have hs' : ({ s with timenow := 0 } : IpFragment).Bounded mostCharged := hs
  cases h with
  | whole hx hi hl hw hd => exact hd.bounded _ (by decide) (hx.bounded hs')
  | fragment hx hi hl hw ht => exact ht.bounded _ (le_mostCharged data) (hx.bounded hs')

/-- After any packets, no host is charged for more than an `int` holds. -/
theorem runIp_bounded {n : ℕ+} {ds : List (List Byte)} (h : runIp clock n ds = some (s, es)) :
    s.Bounded mostCharged := by
  have hall : ∃ l, s.Inv l ∧ s.Bounded mostCharged := by
    refine run_induction (I := fun _ s _ => ∃ l, s.Inv l ∧ s.Bounded mostCharged)
      ⟨[], inv_create n, nofun⟩ ?_ h
    intro ds s es data s' es' hr ih hs
    obtain ⟨l, hi, hb⟩ := ih
    rcases hi.called hs with ⟨-, rfl, -⟩ | ⟨-, hc⟩
    · exact ⟨l, hi, hb⟩
    · obtain ⟨l', hi'⟩ := hc.inv
      exact ⟨l', hi', hc.bounded hb⟩
  obtain ⟨-, -, hb⟩ := hall
  exact hb

/-! ## The shape of the table -/

/-- What the functions of the defragmenter rely on between two calls. -/
structure WellFormed (s : IpFragment) : Prop where
  /-- Each address has at most one host. -/
  host : ∀ h hf h' hf', s.hosts h = some hf → s.hosts h' = some hf' → hf.ip = hf'.ip → h = h'
  /-- It is in the bucket that `fragIndex` gives, once, and in no other. -/
  bucket : ∀ i, (s.fragtable i).Nodup ∧ ∀ h, h ∈ s.fragtable i ↔
    ∃ hf, s.hosts h = some hf ∧ i = s.fragIndex hf.ip
  /-- It has a queue, and its queues point to it. -/
  queues : ∀ h hf, s.hosts h = some hf → hf.ipqueue ≠ [] ∧ hf.ipqueue.Nodup ∧
    ∀ q ∈ hf.ipqueue, ∃ qp, s.queues q = some qp ∧ qp.hf = h
  /-- The keys of its queues are distinct. -/
  keys : ∀ h hf, s.hosts h = some hf → ∀ q ∈ hf.ipqueue, ∀ q' ∈ hf.ipqueue, ∀ qp qp',
    s.queues q = some qp → s.queues q' = some qp' → ipKey qp.iph = ipKey qp'.iph → q = q'
  /-- It is charged for them. -/
  mem : ∀ h hf, s.hosts h = some hf → hf.ipFragMem = (hf.ipqueue.map s.chargeOf).sum

theorem Inv.wellFormed (hi : s.Inv l) : s.WellFormed where
  host := hi.table.ip
  bucket i := by
    refine ⟨hi.table.nodup i, fun h => (hi.table.mem_fragtable i h).trans ?_⟩
    constructor
    · rintro ⟨hf, hh, rfl⟩
      exact ⟨hf, hh, hi.table.index h hf hh⟩
    · rintro ⟨hf, hh, rfl⟩
      exact ⟨hf, hh, hi.table.index h hf hh⟩
  queues h hf hh := ⟨fun hl => hi.not_bare h ⟨hf, hh, hl⟩, hi.table.ipqueue h hf hh,
    fun q hq => (hi.table.mem_ipqueue h hf hh q).mp hq⟩
  keys _ _ _ q _ q' _ qp qp' hq hq' hk := hi.table.key q qp q' qp' hq hq' hk
  mem := hi.table.mem

/-- `ipEvictor` ends for every host as the current one, after no more rounds than it has queues, and
without a call of `exit`; and then the host is gone, or not charged for too much. -/
def Evicts (s : IpFragment) : Prop :=
  ∀ h hf, s.hosts h = some hf → ∀ k, hf.ipqueue.length ≤ k →
    ∃ s', ipEvictor (k + 1) { s with thisHost := some h } = some s' ∧
      (s'.hosts h = none ∨ ∃ hf', s'.hosts h = some hf' ∧ hf'.ipFragMem ≤ IPFRAG_LOW_THRESH)

theorem Inv.evicts (hi : s.Inv l) : s.Evicts := by
  intro h hf hh k hk
  have ht : ({ s with thisHost := some h } : IpFragment).Table := hi.table.congr rfl rfl rfl rfl rfl
  have hc : ({ s with thisHost := some h } : IpFragment).Current := by
    intro h' he
    obtain rfl := Option.some.inj he
    simp [hh]
  have hq : ({ s with thisHost := some h } : IpFragment).Queues k := by
    intro h' hf' he hh'
    obtain rfl := Option.some.inj he
    rwa [← Option.some.inj (hh.symm.trans hh')]
  obtain ⟨s', qs, he, hev, hc', hlow⟩ := ht.exists_ipEvictor hc hq
  refine ⟨s', he, ?_⟩
  rcases hev.thisHost with hs | ⟨-, hgone⟩
  · obtain ⟨hf', hh'⟩ := Option.ne_none_iff_exists'.mp (hc' h hs)
    exact .inr ⟨hf', hh', hlow h hf' hs hh'⟩
  · exact .inl (hgone h rfl)

/-- After any packets the table is well formed, and it is when `ipDefrag` is called for the next one;
so every call of `ipEvictor` ends. -/
theorem table_accounted (clock : Nat → Int) (n : ℕ+) (ds : List (List Byte)) :
    ∃ s es, runIp clock n ds = some (s, es) ∧ s.WellFormed ∧ s.Evicts ∧
      ∃ s₁ es₁, s.expire clock = some (s₁, es₁) ∧ s₁.WellFormed ∧ s₁.Evicts := by
  obtain ⟨s, es, hr, l, hi⟩ := runIp_total clock n ds
  obtain ⟨s₁, es₁, l₁, he, -, hi₁, -⟩ := hi.exists_expire clock
  exact ⟨s, es, hr, hi.wellFormed, hi.evicts, s₁, es₁, he, hi₁.wellFormed, hi₁.evicts⟩

end IpFragment

end Noff
