import Noff.Ip.IpFragment
import Noff.Lib.Run

/-!
# The table of the defragmenter

Hosts, queues and what is charged for them fit each other (`Table`), and every queue has one
node in the list of the timers (`Timed`). `ipFree` keeps both (`Table.freed`, `Timed.freed`), and `ipEvictor` ends
before its host has no queue left to free (`Table.exists_ipEvictor`).
-/

namespace Noff

namespace IpFragment

variable {s s' : IpFragment} {h h' : HostPtr} {hf hf' : HostFrags} {q : QueuePtr} {qp qp' : Ipq}
  {v : Option Ipq} {clock : Nat → Int} {iph : List Byte} {n : Int}

/-! ## The state after small steps -/

section

variable (s : IpFragment) (clock : Nat → Int)

@[simp] theorem jiffies_hashSize : (s.jiffies clock).hashSize = s.hashSize := by
  rw [jiffies]; split <;> rfl

@[simp] theorem jiffies_fragtable : (s.jiffies clock).fragtable = s.fragtable := by
  rw [jiffies]; split <;> rfl

@[simp] theorem jiffies_hosts : (s.jiffies clock).hosts = s.hosts := by
  rw [jiffies]; split <;> rfl

@[simp] theorem jiffies_queues : (s.jiffies clock).queues = s.queues := by
  rw [jiffies]; split <;> rfl

@[simp] theorem jiffies_thisHost : (s.jiffies clock).thisHost = s.thisHost := by
  rw [jiffies]; split <;> rfl

@[simp] theorem jiffies_timers : (s.jiffies clock).timers = s.timers := by
  rw [jiffies]; split <;> rfl

@[simp] theorem jiffies_next : (s.jiffies clock).next = s.next := by
  rw [jiffies]; split <;> rfl

end

theorem setHost_self (hh : s.hosts h = some hf) : s.setHost h hf = s := by
  rw [setHost, ← hh, Function.update_eq_self]

theorem atomicAdd_setHost (ht : s.thisHost = some h) (n : Int) : (s.setHost h hf).atomicAdd n =
    some (s.setHost h { hf with ipFragMem := hf.ipFragMem + n }) := by
  have ht' : (s.setHost h hf).thisHost = some h := ht
  rw [atomicAdd, ht']
  simp [setHost]

theorem atomicSub_setHost (ht : s.thisHost = some h) (n : Int) : (s.setHost h hf).atomicSub n =
    some (s.setHost h { hf with ipFragMem := hf.ipFragMem - n }) := by
  have ht' : (s.setHost h hf).thisHost = some h := ht
  rw [atomicSub, ht']
  simp [setHost]

theorem atomicSub_of_none (ht : s.thisHost = none) (n : Int) : s.atomicSub n = some s := by
  rw [atomicSub, ht]

theorem releaseAll_setHost (ht : s.thisHost = some h) (fragments : List IpFrag) :
    (s.setHost h hf).releaseAll fragments = some
      (s.setHost h { hf with ipFragMem := hf.ipFragMem - (fragments.map IpFrag.charge).sum }) := by
  induction fragments generalizing hf with
  | nil => simp [releaseAll]
  | cons fp rest ih =>
    rw [releaseAll, fragKfreeskb, atomicSub_setHost ht, Option.bind_eq_bind, Option.bind_some,
      atomicSub_setHost ht, Option.bind_some, ih]
    have hsum : ((fp :: rest).map IpFrag.charge).sum =
        IpFrag.sizeofIpFrag + fp.skb.truesize + (rest.map IpFrag.charge).sum := rfl
    rw [hsum, Int.sub_sub, Int.sub_sub, add_comm (fp.skb.truesize : Int)]

theorem releaseAll_of_none (ht : s.thisHost = none) (fragments : List IpFrag) :
    s.releaseAll fragments = some s := by
  induction fragments with
  | nil => rfl
  | cons fp rest ih =>
    rw [releaseAll, fragKfreeskb, atomicSub_of_none ht, Option.bind_eq_bind, Option.bind_some,
      atomicSub_of_none ht, Option.bind_some, ih]

theorem update_none_eq_some {α : Type} {f : Nat → Option α} {a b : Nat} {v : α} :
    Function.update f a none b = some v ↔ b ≠ a ∧ f b = some v := by
  rw [Function.update_apply]
  split <;> simp [*]

theorem update_eq_some {α : Type} {f : Nat → Option α} {a b : Nat} {w : Option α} {v : α} :
    Function.update f a w b = some v ↔ b = a ∧ w = some v ∨ b ≠ a ∧ f b = some v := by
  rw [Function.update_apply]
  split <;> simp [*]

/-! ## Freeing a queue -/

/-- What `ipFree` does: the queue is gone, and its host with it, if it was the last one of it; or it is no
longer charged for. -/
inductive Freed (s : IpFragment) (q : QueuePtr) (qp : Ipq) : IpFragment → Prop
  | last {hf : HostFrags} (hh : s.hosts qp.hf = some hf) (hl : hf.ipqueue.erase q = []) :
    Freed s q qp
      { s with
        fragtable := Function.update s.fragtable hf.hashIndex
          ((s.fragtable hf.hashIndex).erase qp.hf)
        hosts := Function.update s.hosts qp.hf none
        queues := Function.update s.queues q none
        thisHost := none
        timers := s.timers.remove q }
  | other {hf : HostFrags} (hh : s.hosts qp.hf = some hf) (hl : hf.ipqueue.erase q ≠ []) :
    Freed s q qp
      { s with
        hosts := Function.update s.hosts qp.hf (some { hf with
          ipqueue := hf.ipqueue.erase q, ipFragMem := hf.ipFragMem - qp.charge })
        queues := Function.update s.queues q none
        timers := s.timers.remove q }

theorem exists_ipFree (hq : s.queues q = some qp) (ht : s.thisHost = some qp.hf)
    (hh : s.hosts qp.hf = some hf) (hmem : q ∈ hf.ipqueue) :
    ∃ s', s.ipFree q = some s' ∧ Freed s q qp s' := by
  have hcond : ¬ (qp.hf ≠ qp.hf ∨ q ∉ hf.ipqueue) := by simp [hmem]
  have hh' : (s.delTimer q).hosts qp.hf = some hf := hh
  have ht' : (s.delTimer q).thisHost = some qp.hf := ht
  rw [ipFree, hq]
  simp only [Option.bind_eq_bind, Option.bind_some, unlink, ht', hh', if_neg hcond]
  by_cases hl : hf.ipqueue.erase q = []
  · refine ⟨_, ?_, .last hh hl⟩
    have hr : ((s.delTimer q).setHost qp.hf { hf with ipqueue := hf.ipqueue.erase q }).rmthisHost =
        some { s with
          fragtable := Function.update s.fragtable hf.hashIndex
            ((s.fragtable hf.hashIndex).erase qp.hf)
          hosts := Function.update s.hosts qp.hf none
          thisHost := none
          timers := s.timers.remove q } := by
      simp [rmthisHost, setHost, delTimer, ht]
    rw [if_pos hl, hr, Option.bind_some, releaseAll_of_none rfl, Option.bind_some,
      atomicSub_of_none rfl, Option.bind_some, atomicSub_of_none rfl, Option.bind_some]
    rfl
  · refine ⟨_, ?_, .other hh hl⟩
    have hm : hf.ipFragMem - (qp.fragments.map IpFrag.charge).sum - sizeofIph - sizeofIpq =
        hf.ipFragMem - qp.charge := by
      rw [Ipq.charge]
      omega
    rw [if_neg hl, Option.pure_def, Option.bind_some, releaseAll_setHost ht', Option.bind_some,
      atomicSub_setHost ht', Option.bind_some, atomicSub_setHost ht', Option.bind_some]
    dsimp only
    rw [hm]
    rfl

/-! ## The invariant -/

/-- What is charged for the queue with this number. -/
def chargeOf (s : IpFragment) (q : QueuePtr) : Int := (s.queues q).elim 0 Ipq.charge

/-- The table, the hosts and the queues fit each other. -/
structure Table (s : IpFragment) : Prop where
  nodup : ∀ i, (s.fragtable i).Nodup
  mem_fragtable : ∀ i h, h ∈ s.fragtable i ↔ ∃ hf, s.hosts h = some hf ∧ hf.hashIndex = i
  index : ∀ h hf, s.hosts h = some hf → hf.hashIndex = s.fragIndex hf.ip
  ip : ∀ h hf h' hf', s.hosts h = some hf → s.hosts h' = some hf' → hf.ip = hf'.ip → h = h'
  ipqueue : ∀ h hf, s.hosts h = some hf → hf.ipqueue.Nodup
  mem_ipqueue : ∀ h hf, s.hosts h = some hf →
    ∀ q, q ∈ hf.ipqueue ↔ ∃ qp, s.queues q = some qp ∧ qp.hf = h
  host : ∀ q qp, s.queues q = some qp →
    ∃ hf, s.hosts qp.hf = some hf ∧ (ipKey qp.iph).dst = hf.ip
  key : ∀ q qp q' qp', s.queues q = some qp → s.queues q' = some qp' →
    ipKey qp.iph = ipKey qp'.iph → q = q'
  mem : ∀ h hf, s.hosts h = some hf → hf.ipFragMem = (hf.ipqueue.map s.chargeOf).sum
  chain : ∀ q qp, s.queues q = some qp → IpFrag.Chain qp.fragments
  host_lt : ∀ h hf, s.hosts h = some hf → h < s.next
  queue_lt : ∀ q qp, s.queues q = some qp → q < s.next

theorem table_create (n : ℕ+) : (create n).Table :=
  ⟨fun _ => .nil, fun i h => by simp [create], nofun, nofun, nofun, nofun, nofun, nofun, nofun,
    nofun, nofun, nofun⟩

/-- The invariant says nothing about the other fields. -/
theorem Table.congr (hi : s.Table) (hsize : s'.hashSize = s.hashSize)
    (htable : s'.fragtable = s.fragtable) (hhosts : s'.hosts = s.hosts)
    (hqueues : s'.queues = s.queues) (hnext : s'.next = s.next) : s'.Table := by
  have hcharge : s'.chargeOf = s.chargeOf := by
    funext q
    rw [chargeOf, hqueues, chargeOf]
  refine ⟨?_, ?_, ?_, ?_, ?_, ?_, ?_, ?_, ?_, ?_, ?_, ?_⟩
  · exact htable ▸ hi.nodup
  · exact htable ▸ hhosts ▸ hi.mem_fragtable
  · intro h hf hh
    rw [fragIndex, hsize]
    exact hi.index h hf (hhosts ▸ hh)
  · exact hhosts ▸ hi.ip
  · exact hhosts ▸ hi.ipqueue
  · exact hhosts ▸ hqueues ▸ hi.mem_ipqueue
  · exact hhosts ▸ hqueues ▸ hi.host
  · exact hqueues ▸ hi.key
  · exact hcharge ▸ hhosts ▸ hi.mem
  · exact hqueues ▸ hi.chain
  · exact hnext ▸ hhosts ▸ hi.host_lt
  · exact hnext ▸ hqueues ▸ hi.queue_lt

theorem sum_chargeOf_update {l : List QueuePtr} (hq : q ∉ l)
    (hs : s'.queues = Function.update s.queues q v) :
    (l.map s'.chargeOf).sum = (l.map s.chargeOf).sum := by
  refine congrArg _ (List.map_congr_left fun x hx => ?_)
  have hne : x ≠ q := fun he => hq (he ▸ hx)
  rw [chargeOf, hs, Function.update_of_ne hne, chargeOf]

/-- A queue of the host `h` is changed, added or removed. -/
theorem Table.set (hi : s.Table) (hh : s.hosts h = some hf)
    (hown : ∀ qp, s.queues q = some qp → qp.hf = h) (hsize : s'.hashSize = s.hashSize)
    (htable : s'.fragtable = s.fragtable) (hhosts : s'.hosts = Function.update s.hosts h (some hf'))
    (hqueues : s'.queues = Function.update s.queues q v) (hnext : s.next ≤ s'.next)
    (hip : hf'.ip = hf.ip) (hindex : hf'.hashIndex = hf.hashIndex) (hnodup : hf'.ipqueue.Nodup)
    (hmem : ∀ q', q' ∈ hf'.ipqueue ↔ q' = q ∧ v ≠ none ∨ q' ≠ q ∧ q' ∈ hf.ipqueue)
    (hv : ∀ qp, v = some qp → qp.hf = h ∧ (ipKey qp.iph).dst = hf.ip ∧
      IpFrag.Chain qp.fragments ∧ q < s'.next ∧
      ∀ q₁ qp₁, s.queues q₁ = some qp₁ → ipKey qp₁.iph = ipKey qp.iph → q₁ = q)
    (hm : hf'.ipFragMem = (hf'.ipqueue.map s'.chargeOf).sum) : s'.Table := by
  have hsum {l : List QueuePtr} (hno : q ∉ l) := sum_chargeOf_update hno hqueues
  refine
    { nodup := fun i => ?_, mem_fragtable := fun i h₁ => ?_, index := fun h₁ hf₁ hh₁ => ?_,
      ip := fun h₁ hf₁ h₂ hf₂ hh₁ hh₂ => ?_, ipqueue := fun h₁ hf₁ hh₁ => ?_,
      mem_ipqueue := fun h₁ hf₁ hh₁ q₁ => ?_, host := fun q₁ qp₁ hq₁ => ?_,
      key := fun q₁ qp₁ q₂ qp₂ hq₁ hq₂ => ?_, mem := fun h₁ hf₁ hh₁ => ?_,
      chain := fun q₁ qp₁ hq₁ => ?_, host_lt := fun h₁ hf₁ hh₁ => ?_,
      queue_lt := fun q₁ qp₁ hq₁ => ?_ }
  all_goals simp only [htable, hhosts, hqueues, update_eq_some, Option.some.injEq] at *
  · exact hi.nodup i
  · rw [hi.mem_fragtable]
    grind
  · rw [fragIndex, hsize]
    rcases hh₁ with ⟨rfl, rfl⟩ | ⟨-, hh₁⟩
    · rw [hindex, hip]
      exact hi.index h₁ hf hh
    · exact hi.index h₁ hf₁ hh₁
  · grind [hi.ip]
  · rcases hh₁ with ⟨rfl, rfl⟩ | ⟨-, hh₁⟩
    · exact hnodup
    · exact hi.ipqueue h₁ hf₁ hh₁
  · rcases hh₁ with ⟨rfl, rfl⟩ | ⟨hne, hh₁⟩
    · rw [hmem, hi.mem_ipqueue h₁ hf hh]
      cases v <;> grind
    · rw [hi.mem_ipqueue h₁ hf₁ hh₁]
      grind
  · rcases hq₁ with ⟨rfl, he⟩ | ⟨-, hq₁⟩
    · grind
    · obtain ⟨hf₁, hh₁, hip₁⟩ := hi.host q₁ qp₁ hq₁
      grind
  · grind [hi.key]
  · rcases hh₁ with ⟨rfl, rfl⟩ | ⟨hne, hh₁⟩
    · exact hm
    · have hno : q ∉ hf₁.ipqueue := fun hmem₁ => by
        obtain ⟨qp₁, hq₁, he⟩ := (hi.mem_ipqueue h₁ hf₁ hh₁ q).mp hmem₁
        exact hne (he.symm.trans (hown qp₁ hq₁))
      rw [hsum hno]
      exact hi.mem h₁ hf₁ hh₁
  · rcases hq₁ with ⟨-, he⟩ | ⟨-, hq₁⟩
    · exact (hv qp₁ he).2.2.1
    · exact hi.chain q₁ qp₁ hq₁
  · rcases hh₁ with ⟨rfl, -⟩ | ⟨-, hh₁⟩
    · exact (hi.host_lt h₁ hf hh).trans_le hnext
    · exact (hi.host_lt h₁ hf₁ hh₁).trans_le hnext
  · rcases hq₁ with ⟨rfl, he⟩ | ⟨-, hq₁⟩
    · exact (hv qp₁ he).2.2.2.1
    · exact (hi.queue_lt q₁ qp₁ hq₁).trans_le hnext

/-- What is charged for the queues of a list, when one of them changes. -/
theorem sum_chargeOf_set {l : List QueuePtr} (hl : l.Nodup) (hmem : q ∈ l)
    (hq : s.queues q = some qp) (hs : s'.queues = Function.update s.queues q (some qp')) :
    (l.map s'.chargeOf).sum = (l.map s.chargeOf).sum - qp.charge + qp'.charge := by
  have hno : q ∉ l.erase q := fun he => (hl.mem_erase_iff.mp he).1 rfl
  have hsum := List.sum_map_erase s.chargeOf hmem
  have hsum' := List.sum_map_erase s'.chargeOf hmem
  have hcharge : s.chargeOf q = qp.charge := by rw [chargeOf, hq]; rfl
  have hcharge' : s'.chargeOf q = qp'.charge := by rw [chargeOf, hs, Function.update_self]; rfl
  rw [sum_chargeOf_update hno hs] at hsum'
  omega

/-- A queue of the host `h` is changed, and the host is charged for the difference. -/
theorem Table.modify (hi : s.Table) (hq : s.queues q = some qp) (hh : s.hosts qp.hf = some hf)
    (hsize : s'.hashSize = s.hashSize) (htable : s'.fragtable = s.fragtable)
    (hhosts : s'.hosts = Function.update s.hosts qp.hf
      (some { hf with ipFragMem := hf.ipFragMem - qp.charge + qp'.charge }))
    (hqueues : s'.queues = Function.update s.queues q (some qp')) (hnext : s'.next = s.next)
    (hown : qp'.hf = qp.hf) (hkey : ipKey qp'.iph = ipKey qp.iph)
    (hchain : IpFrag.Chain qp'.fragments) : s'.Table := by
  have hmem := (hi.mem_ipqueue _ hf hh q).mpr ⟨qp, hq, rfl⟩
  obtain ⟨hf₀, hh₀, hip⟩ := hi.host q qp hq
  obtain rfl := Option.some.inj (hh.symm.trans hh₀)
  refine hi.set hh (fun qp₁ hq₁ => ?_) hsize htable hhosts hqueues hnext.ge rfl rfl
    (hi.ipqueue _ hf hh) (fun q' => ?_) (fun qp₁ hv => ?_) ?_
  · rw [Option.some.inj (hq.symm.trans hq₁)]
  · by_cases he : q' = q
    · simp [he, hmem]
    · simp [he]
  · obtain rfl := Option.some.inj hv
    refine ⟨hown, by rw [hkey, hip], hchain, hnext ▸ hi.queue_lt q qp hq, fun q₁ qp₁ hq₁ hk => ?_⟩
    exact hi.key q₁ qp₁ q qp hq₁ hq (hk.trans hkey)
  · rw [sum_chargeOf_set (hi.ipqueue _ hf hh) hmem hq hqueues, ← hi.mem _ hf hh]

theorem Table.freed (hi : s.Table) (hq : s.queues q = some qp) (hf : Freed s q qp s') : s'.Table := by
  cases hf with
  | @last hf hh hl =>
    have hone : ∀ q' qp', s.queues q' = some qp' → qp'.hf = qp.hf → q' = q := fun q' qp' hq' he => by
      by_contra hne
      have hmem := (hi.mem_ipqueue _ _ hh q').mpr ⟨qp', hq', he⟩
      exact List.ne_nil_of_mem ((List.mem_erase_of_ne hne).mpr hmem) hl
    refine
      { nodup := fun i => ?_, mem_fragtable := fun i h => ?_, index := fun h hf hh => ?_,
        ip := fun h hf h' hf' hh hh' => ?_, ipqueue := fun h hf hh => ?_,
        mem_ipqueue := fun h hf hh q' => ?_, host := fun q' qp' hq' => ?_,
        key := fun q₁ qp₁ q₂ qp₂ h₁ h₂ => ?_, mem := fun h hf hh => ?_,
        chain := fun q' qp' hq' => ?_, host_lt := fun h hf hh => ?_,
        queue_lt := fun q' qp' hq' => ?_ }
    all_goals simp only [update_none_eq_some] at *
    · by_cases hii : i = hf.hashIndex
      · rw [hii, Function.update_self]
        exact (hi.nodup _).erase _
      · rw [Function.update_of_ne hii]
        exact hi.nodup i
    · by_cases hii : i = hf.hashIndex
      · rw [hii, Function.update_self, (hi.nodup _).mem_erase_iff, hi.mem_fragtable]
        grind
      · rw [Function.update_of_ne hii, hi.mem_fragtable]
        grind
    · exact hi.index h hf hh.2
    · exact hi.ip h hf h' hf' hh.2 hh'.2
    · exact hi.ipqueue h hf hh.2
    · rw [hi.mem_ipqueue h hf hh.2]
      grind
    · obtain ⟨hf', hh', hip⟩ := hi.host q' qp' hq'.2
      exact ⟨hf', ⟨fun he => hq'.1 (hone q' qp' hq'.2 he), hh'⟩, hip⟩
    · exact hi.key q₁ qp₁ q₂ qp₂ h₁.2 h₂.2
    · have hno : q ∉ hf.ipqueue := fun hmem => by
        obtain ⟨qp', hq', he⟩ := (hi.mem_ipqueue h hf hh.2 q).mp hmem
        grind
      rw [sum_chargeOf_update hno rfl]
      exact hi.mem h hf hh.2
    · exact hi.chain q' qp' hq'.2
    · exact hi.host_lt h hf hh.2
    · exact hi.queue_lt q' qp' hq'.2
  | @other hf hh hl =>
    have hnodup := hi.ipqueue _ _ hh
    have hmem := (hi.mem_ipqueue _ _ hh q).mpr ⟨qp, hq, rfl⟩
    refine hi.set (v := none) hh (fun qp' hq' => ?_) rfl rfl rfl rfl le_rfl rfl rfl
      (hnodup.erase q) (fun q' => ?_) nofun ?_
    · rw [Option.some.inj (hq.symm.trans hq')]
    · rw [hnodup.mem_erase_iff]
      simp
    · have hq' : q ∉ hf.ipqueue.erase q := fun hmem => (hnodup.mem_erase_iff.mp hmem).1 rfl
      have hsum := List.sum_map_erase s.chargeOf hmem
      have hq : s.chargeOf q = qp.charge := by rw [chargeOf, hq]; rfl
      rw [sum_chargeOf_update hq' rfl]
      show hf.ipFragMem - qp.charge = _
      rw [hi.mem _ _ hh]
      omega

/-! ## How much is charged -/

/-- No host is charged for more than `b`. -/
def Bounded (s : IpFragment) (b : Int) : Prop := ∀ h hf, s.hosts h = some hf → hf.ipFragMem ≤ b

/-- The current host is not charged for more than `c`, and the others not for more than `b`. -/
def AtMost (s : IpFragment) (b c : Int) : Prop :=
  ∀ h hf, s.hosts h = some hf → hf.ipFragMem ≤ if s.thisHost = some h then c else b

theorem sum_charge_nonneg (fragments : List IpFrag) : 0 ≤ (fragments.map IpFrag.charge).sum := by
  refine List.sum_nonneg fun n hn => ?_
  obtain ⟨fp, -, rfl⟩ := List.mem_map.mp hn
  rw [IpFrag.charge, IpFrag.sizeofIpFrag]
  omega

theorem charge_nonneg (qp : Ipq) : 0 ≤ qp.charge := by
  have := sum_charge_nonneg qp.fragments
  rw [Ipq.charge, sizeofIpq, sizeofIph]
  omega

theorem Freed.bounded {b : Int} (hf : Freed s q qp s') (hb : s.Bounded b) : s'.Bounded b := by
  intro h hf' hh'
  cases hf with
  | last hh hl => exact hb h hf' (update_none_eq_some.mp hh').2
  | other hh hl =>
    rcases update_eq_some.mp hh' with ⟨rfl, he⟩ | ⟨-, hh'⟩
    · obtain rfl := Option.some.inj he
      have := hb _ _ hh
      have := charge_nonneg qp
      show _ - qp.charge ≤ b
      omega
    · exact hb h hf' hh'

theorem AtMost.bounded {b c : Int} (h : s.AtMost b c) (hc : c ≤ b) : s.Bounded b := by
  intro x hf hh
  have := h x hf hh
  split at this
  · exact this.trans hc
  · exact this

/-! ## Timers -/

/-- The timers are those of the queues, each of them once, in the order `l`. -/
structure Timed (s : IpFragment) (l : List QueuePtr) : Prop where
  links : s.timers.Links l
  mem : ∀ q, q ∈ l ↔ s.queues q ≠ none

theorem timed_create (n : ℕ+) : (create n).Timed [] :=
  ⟨DoublyLinked.links_empty, fun q => by simp [create]⟩

variable {l l₁ l₂ : List QueuePtr}

theorem Freed.queues (h : Freed s q qp s') : s'.queues = Function.update s.queues q none := by
  cases h <;> rfl

theorem Freed.timers (h : Freed s q qp s') : s'.timers = s.timers.remove q := by
  cases h <;> rfl

theorem Freed.next (h : Freed s q qp s') : s'.next = s.next := by
  cases h <;> rfl

theorem Freed.hashSize (h : Freed s q qp s') : s'.hashSize = s.hashSize := by
  cases h <;> rfl

theorem Freed.timenow (h : Freed s q qp s') : s'.timenow = s.timenow := by
  cases h <;> rfl

theorem Freed.reads (h : Freed s q qp s') : s'.reads = s.reads := by
  cases h <;> rfl

theorem Timed.nodup (ht : s.Timed l) : l.Nodup := ht.links.nodup

theorem Timed.freed (ht : s.Timed (l₁ ++ q :: l₂)) (hf : Freed s q qp s') :
    s'.Timed (l₁ ++ l₂) := by
  refine ⟨hf.timers ▸ ht.links.remove.links, fun x => ?_⟩
  have hno := (List.nodup_cons.mp (List.perm_middle.nodup_iff.mp ht.nodup)).1
  have hmem := ht.mem x
  rw [hf.queues]
  by_cases hx : x = q
  · rw [hx, Function.update_self]
    simpa using hno
  · rw [Function.update_of_ne hx, ← hmem]
    simp [hx]

/-- A timer that has been stopped is stopped once more. -/
theorem Timed.remove_remove (ht : s.Timed l) (hq : q ∈ l) :
    (s.timers.remove q).remove q = s.timers.remove q := by
  obtain ⟨l₁, l₂, rfl⟩ := List.append_of_mem hq
  exact ht.links.remove.remove

/-- `ipFree` after `ipFind`. -/
theorem Freed.of_delTimer (h : Freed (s.delTimer q) q qp s') (ht : s.Timed l) (hq : q ∈ l) :
    Freed s q qp s' := by
  have hr := ht.remove_remove hq
  cases h with
  | last hh hl =>
    simp only [delTimer, hr]
    exact .last hh hl
  | other hh hl =>
    simp only [delTimer, hr]
    exact .other hh hl

/-! ## Hosts without queues -/

/-- The host has no queue. -/
def Bare (s : IpFragment) (h : HostPtr) : Prop := ∃ hf, s.hosts h = some hf ∧ hf.ipqueue = []

theorem Freed.not_bare (hf : Freed s q qp s') (hb : s'.Bare h) : s.Bare h := by
  obtain ⟨hf', hh', hl'⟩ := hb
  cases hf with
  | last hh hl => exact ⟨hf', (update_none_eq_some.mp hh').2, hl'⟩
  | other hh hl =>
    rcases update_eq_some.mp hh' with ⟨rfl, he⟩ | ⟨-, hh'⟩
    · cases he
      exact absurd hl' hl
    · exact ⟨hf', hh', hl'⟩

/-- What holds between two calls. -/
structure Inv (s : IpFragment) (l : List QueuePtr) : Prop where
  table : s.Table
  timed : s.Timed l
  not_bare : ∀ h, ¬ s.Bare h

theorem inv_create (n : ℕ+) : (create n).Inv [] :=
  ⟨table_create n, timed_create n, fun h ⟨hf, hh, _⟩ => by cases hh⟩

/-- A queue can be freed, when its host is the current one. -/
theorem Table.exists_ipFree (hi : s.Table) (hq : s.queues q = some qp)
    (ht : s.thisHost = some qp.hf) : ∃ s', s.ipFree q = some s' ∧ Freed s q qp s' := by
  obtain ⟨hf, hh, -⟩ := hi.host q qp hq
  exact IpFragment.exists_ipFree hq ht hh ((hi.mem_ipqueue _ _ hh q).mpr ⟨qp, hq, rfl⟩)

/-! ## `ipEvictor` -/

/-- The current host, if there is one, is there. -/
def Current (s : IpFragment) : Prop := ∀ h, s.thisHost = some h → s.hosts h ≠ none

/-- The queues `qs` are freed, one after the other. -/
inductive Evicted : IpFragment → List QueuePtr → IpFragment → Prop
  | nil {s : IpFragment} : Evicted s [] s
  | cons {s s₁ s₂ : IpFragment} {q : QueuePtr} {qp : Ipq} {qs : List QueuePtr}
      (hq : s.queues q = some qp) (ht : s.thisHost = some qp.hf) (hf : Freed s q qp s₁)
      (he : Evicted s₁ qs s₂) : Evicted s (q :: qs) s₂

theorem Freed.current (hf : Freed s q qp s') (ht : s.thisHost = some qp.hf) : s'.Current := by
  intro h hh
  cases hf with
  | last hh' hl => cases hh
  | other hh' hl =>
    obtain rfl : qp.hf = h := Option.some.inj (ht.symm.trans hh)
    simp

namespace Evicted

variable {qs : List QueuePtr}

theorem table (h : Evicted s qs s') (hi : s.Table) : s'.Table := by
  induction h with
  | nil => exact hi
  | cons hq ht hf he ih => exact ih (hi.freed hq hf)

theorem next (h : Evicted s qs s') : s'.next = s.next := by
  induction h with
  | nil => rfl
  | cons hq ht hf he ih => exact ih.trans hf.next

theorem hashSize (h : Evicted s qs s') : s'.hashSize = s.hashSize := by
  induction h with
  | nil => rfl
  | cons hq ht hf he ih => exact ih.trans hf.hashSize

theorem timenow (h : Evicted s qs s') : s'.timenow = s.timenow := by
  induction h with
  | nil => rfl
  | cons hq ht hf he ih => exact ih.trans hf.timenow

theorem reads (h : Evicted s qs s') : s'.reads = s.reads := by
  induction h with
  | nil => rfl
  | cons hq ht hf he ih => exact ih.trans hf.reads

theorem queues (h : Evicted s qs s') (x : QueuePtr) :
    s'.queues x = if x ∈ qs then none else s.queues x := by
  induction h with
  | nil => rfl
  | @cons s s₁ s₂ q qp qs hq ht hf he ih =>
    rw [ih, hf.queues]
    by_cases hx : x = q
    · simp [hx]
    · simp [hx]

theorem timed (h : Evicted s qs s') (ht : s.Timed l) : s'.Timed (l.filter (· ∉ qs)) := by
  induction h generalizing l with
  | nil => simpa using ht
  | @cons s s₁ s₂ q qp qs hq hc hf he ih =>
    obtain ⟨l₁, l₂, rfl⟩ := List.append_of_mem ((ht.mem q).mpr (by simp [hq]))
    have hnodup := ht.nodup
    have htimed := ih (ht.freed hf)
    have hno := (List.nodup_cons.mp (List.perm_middle.nodup_iff.mp ht.nodup)).1
    have hfilter {l : List QueuePtr} (hl : q ∉ l) :
        l.filter (· ∉ q :: qs) = l.filter (· ∉ qs) := List.filter_congr fun x hx => by
      have hne : x ≠ q := fun he => hl (he ▸ hx)
      simp [hne]
    rw [List.mem_append, not_or] at hno
    rw [List.filter_append, List.filter_cons_of_neg (by simp), hfilter hno.1, hfilter hno.2,
      ← List.filter_append]
    exact htimed

theorem not_bare (h : Evicted s qs s') (hb : s'.Bare h') : s.Bare h' := by
  induction h with
  | nil => exact hb
  | cons hq ht hf he ih => exact hf.not_bare (ih hb)

theorem bounded {b : Int} (h : Evicted s qs s') (hb : s.Bounded b) : s'.Bounded b := by
  induction h with
  | nil => exact hb
  | cons hq ht hf he ih => exact ih (hf.bounded hb)

/-- What is freed are queues of the current host. -/
theorem mem (h : Evicted s qs s') (hi : s.Table) (hq : q ∈ qs) :
    ∃ qp, s.queues q = some qp ∧ s.thisHost = some qp.hf := by
  induction h with
  | nil => cases hq
  | @cons s s₁ s₂ q' qp' qs hq' ht hf he ih =>
    rcases List.mem_cons.mp hq with rfl | hq
    · exact ⟨qp', hq', ht⟩
    · obtain ⟨qp, hqp, hc⟩ := ih (hi.freed hq' hf) hq
      have hs : s.queues q = some qp := by
        rw [hf.queues] at hqp
        exact (update_none_eq_some.mp hqp).2
      refine ⟨qp, hs, ?_⟩
      cases hf with
      | last => cases hc
      | other => exact hc

end Evicted

/-- A host without queues is charged for nothing. -/
theorem Table.eq_zero_of_nil (hi : s.Table) (hh : s.hosts h = some hf) (hl : hf.ipqueue = []) :
    hf.ipFragMem = 0 := by
  rw [hi.mem h hf hh, hl]
  rfl

/-- The current host, if there is one, is not charged for too much. -/
def Low (s : IpFragment) : Prop :=
  ∀ h hf, s.thisHost = some h → s.hosts h = some hf → hf.ipFragMem ≤ IPFRAG_LOW_THRESH

theorem ipEvictor_of_low (hc : s.Current) (hl : s.Low) (k : Nat) :
    ipEvictor (k + 1) s = some s := by
  rw [ipEvictor]
  cases ht : s.thisHost with
  | none => rfl
  | some h =>
    obtain ⟨hf, hh⟩ := Option.ne_none_iff_exists'.mp (hc h ht)
    have hle := hl h hf ht hh
    simp only [hh, Option.bind_eq_bind, Option.bind_some, if_neg (Int.not_lt.mpr hle), Option.pure_def]

/-- The current host, if there is one, has so many queues at most. -/
def Queues (s : IpFragment) (k : Nat) : Prop :=
  ∀ h hf, s.thisHost = some h → s.hosts h = some hf → hf.ipqueue.length ≤ k

/-- One round of `ipEvictor`. -/
theorem Table.evict_one (hi : s.Table) (hl : ¬ s.Low) : ∃ q qp s₁, s.queues q = some qp ∧
    s.thisHost = some qp.hf ∧ Freed s q qp s₁ ∧ (∀ k, ipEvictor (k + 1) s = ipEvictor k s₁) ∧
    ∀ k, s.Queues k → 0 < k ∧ s₁.Queues (k - 1) := by
  simp only [Low, not_forall] at hl
  obtain ⟨h, hf, ht, hh, hgt⟩ := hl
  cases hq : hf.ipqueue with
  | nil =>
    rw [hi.eq_zero_of_nil hh hq] at hgt
    exact absurd (by decide) hgt
  | cons q rest =>
    have hmem : q ∈ hf.ipqueue := by rw [hq]; exact List.mem_cons_self ..
    obtain ⟨qp, hqp, rfl⟩ := (hi.mem_ipqueue h hf hh q).mp hmem
    obtain ⟨s₁, hfree, hfreed⟩ := hi.exists_ipFree hqp ht
    refine ⟨q, qp, s₁, hqp, ht, hfreed, fun k => ?_, fun k hk => ⟨?_, fun h₁ hf₁ ht₁ hh₁ => ?_⟩⟩
    · rw [ipEvictor, ht]
      simp only [hh, Option.bind_eq_bind, Option.bind_some, if_pos (Int.not_le.mp hgt), hq, hfree]
    · exact (List.length_pos_of_mem hmem).trans_le (hk _ hf ht hh)
    · have hlen := hk _ hf ht hh
      cases hfreed with
      | last => cases ht₁
      | other hh' hl =>
        obtain rfl : qp.hf = h₁ := Option.some.inj (ht.symm.trans ht₁)
        obtain rfl := Option.some.inj (hh.symm.trans hh')
        obtain ⟨-, he⟩ := (update_eq_some.mp hh₁).resolve_right fun hne => hne.1 rfl
        obtain rfl := Option.some.inj he
        show (hf.ipqueue.erase q).length ≤ k - 1
        rw [List.length_erase_of_mem hmem]
        omega

/-- `ipEvictor` ends after no more rounds than the current host has queues, and does not exit. -/
theorem Table.exists_ipEvictor (hi : s.Table) (hc : s.Current) {k : Nat} (hk : s.Queues k) :
    ∃ s' qs, ipEvictor (k + 1) s = some s' ∧ Evicted s qs s' ∧ s'.Current ∧ s'.Low := by
  induction k generalizing s with
  | zero =>
    by_cases hl : s.Low
    · exact ⟨s, [], ipEvictor_of_low hc hl 0, .nil, hc, hl⟩
    · obtain ⟨q, qp, s₁, -, -, -, -, hless⟩ := hi.evict_one hl
      exact absurd (hless 0 hk).1 (Nat.lt_irrefl 0)
  | succ k ih =>
    by_cases hl : s.Low
    · exact ⟨s, [], ipEvictor_of_low hc hl _, .nil, hc, hl⟩
    · obtain ⟨q, qp, s₁, hq, ht, hf, hstep, hless⟩ := hi.evict_one hl
      obtain ⟨s', qs, he, hev, hc', hl'⟩ := ih (hi.freed hq hf) (hf.current ht) (hless _ hk).2
      exact ⟨s', q :: qs, (hstep _).trans he, .cons hq ht hf hev, hc', hl'⟩

/-- `ipDefrag` goes on with a host that is not charged for too much. -/
theorem Table.exists_evict (hi : s.Table) (hc : s.Current) : ∃ s' qs, s.evict = some s' ∧
    Evicted s qs s' ∧ s'.Current ∧ (qs = [] ∨ ∃ h hf, s.thisHost = some h ∧ s.hosts h = some hf ∧
      IPFRAG_HIGH_THRESH < hf.ipFragMem) ∧
    ∀ h hf, s'.thisHost = some h → s'.hosts h = some hf → hf.ipFragMem ≤ IPFRAG_HIGH_THRESH := by
  cases ht : s.thisHost with
  | none =>
    refine ⟨s, [], by rw [evict, ht], .nil, hc, .inl rfl, fun h hf ht' => ?_⟩
    rw [ht] at ht'
    cases ht'
  | some h =>
    obtain ⟨hf, hh⟩ := Option.ne_none_iff_exists'.mp (hc h ht)
    have hhost {h₁ hf₁} (ht₁ : s.thisHost = some h₁) (hh₁ : s.hosts h₁ = some hf₁) : hf₁ = hf := by
      obtain rfl := Option.some.inj (ht.symm.trans ht₁)
      exact Option.some.inj (hh₁.symm.trans hh)
    by_cases hgt : hf.ipFragMem > IPFRAG_HIGH_THRESH
    · have hk : s.Queues hf.ipqueue.length := fun h₁ hf₁ ht₁ hh₁ => by rw [hhost ht₁ hh₁]
      obtain ⟨s', qs, he, hev, hc', hlow⟩ := hi.exists_ipEvictor hc hk
      refine ⟨s', qs, ?_, hev, hc', .inr ⟨h, hf, rfl, hh, hgt⟩, fun h₁ hf₁ ht₁ hh₁ => ?_⟩
      · rw [evict, ht]
        simp only [hh, Option.bind_eq_bind, Option.bind_some, if_pos hgt, he]
      · exact (hlow h₁ hf₁ ht₁ hh₁).trans (by decide)
    · refine ⟨s, [], ?_, .nil, hc, .inl rfl, fun h₁ hf₁ ht₁ hh₁ => ?_⟩
      · rw [evict, ht]
        simp only [hh, Option.bind_eq_bind, Option.bind_some, if_neg hgt, Option.pure_def]
      · rw [hhost ht₁ hh₁]
        exact Int.not_lt.mp hgt

end IpFragment

end Noff
