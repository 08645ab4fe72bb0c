import Noff.Ip.Packets

/-!
# What a queue has received

Every queue of the table is what the packets that came for it make of it (`Ipq.Of`), after any packets; and
so is every queue that is glued (`runIp_received`).
-/

namespace Noff

/-- The queue, after the packets `hs` have come for it, of which `rs` have been added. -/
structure Ipq.Of (qp : Ipq) (hs rs : List (List Byte)) : Prop where
  sub : ∀ iph ∈ rs, iph ∈ hs
  saved : ∀ iph ∈ hs, Saved iph
  key : ∀ iph ∈ hs, ipKey iph = ipKey qp.iph
  mem : headerOf hs ∈ hs
  iph : qp.iph = bytesAt (headerOf hs) 0 (ipHl (headerOf hs) * 4 + 8)
  ihlen : qp.ihlen = ipHl (headerOf hs) * 4
  fragments : qp.fragments = fragmentsOf rs
  len : qp.len = lenOf rs

variable {fp : IpFrag} {iph : List Byte} {qp : Ipq} {hs rs : List (List Byte)} {skb : SkBuff}
  {expires : BitVec 32}

namespace Ipq.Of

theorem create (hiph : Saved iph) (h : HostPtr) : (Ipq.create iph expires h).Of [iph] [] := by
  have hkey := IpFragment.ipKey_create iph expires h hiph.header
  have hheader : headerOf [iph] = iph := by simp [headerOf]
  refine ⟨fun r hr => (by cases hr), ?_, ?_, ?_, ?_, ?_, rfl, rfl⟩
  · simpa using hiph
  · simpa using hkey.symm
  · rw [hheader]
    exact List.mem_singleton_self _
  · rw [hheader]
    rfl
  · rw [hheader]
    rfl

theorem restart (h : qp.Of hs rs) (expires : BitVec 32) :
    ({ qp with expires := expires } : Ipq).Of hs rs :=
  ⟨h.sub, h.saved, h.key, h.mem, h.iph, h.ihlen, h.fragments, h.len⟩

/-- The queue keeps the header of a packet at offset 0. -/
theorem remember (h : qp.Of hs rs) (hiph : Saved iph) (hk : ipKey qp.iph = ipKey iph) :
    (qp.remember iph).Of (hs ++ [iph]) rs := by
  have hsome : headerOf hs ≠ [] := (h.saved _ h.mem).ne_nil
  have hkey := IpFragment.ipKey_remember hiph.header hk
  have hsub : ∀ iph' ∈ rs, iph' ∈ hs ++ [iph] := fun iph' hmem =>
    List.mem_append_left _ (h.sub iph' hmem)
  have hsaved : ∀ iph' ∈ hs ++ [iph], Saved iph' := fun iph' hmem => by
    rcases List.mem_append.mp hmem with hmem | hmem
    · exact h.saved iph' hmem
    · rwa [List.mem_singleton.mp hmem]
  have hkeys : ∀ iph' ∈ hs ++ [iph], ipKey iph' = ipKey (qp.remember iph).iph := fun iph' hmem => by
    rcases List.mem_append.mp hmem with hmem | hmem
    · exact (h.key iph' hmem).trans (hk.trans hkey.symm)
    · rw [List.mem_singleton.mp hmem, hkey]
  rw [Ipq.remember] at hkeys ⊢
  by_cases h₀ : fragOffset iph = 0
  · have hheader : headerOf (hs ++ [iph]) = iph := by rw [headerOf_concat, if_pos (.inr h₀)]
    rw [if_pos h₀] at hkeys ⊢
    refine ⟨hsub, hsaved, hkeys, ?_, ?_, ?_, h.fragments, h.len⟩
    · rw [hheader]
      simp
    · rw [hheader]
    · rw [hheader]
  · have hheader : headerOf (hs ++ [iph]) = headerOf hs := by
      rw [headerOf_concat, if_neg (by simp [hsome, h₀])]
    rw [if_neg h₀] at hkeys ⊢
    refine ⟨hsub, hsaved, hkeys, ?_, ?_, ?_, h.fragments, h.len⟩
    · rw [hheader]
      exact List.mem_append_left _ h.mem
    · rw [hheader]
      exact h.iph
    · rw [hheader]
      exact h.ihlen

theorem sub_concat (h : qp.Of hs rs) (hmem : iph ∈ hs) : ∀ iph' ∈ rs ++ [iph], iph' ∈ hs :=
  fun iph' hiph' => by
    rcases List.mem_append.mp hiph' with hiph' | hiph'
    · exact h.sub iph' hiph'
    · rwa [List.mem_singleton.mp hiph']

/-- A packet that is dropped does not count. -/
theorem drop (h : qp.Of hs rs) (hmem : iph ∈ hs) (ho : oversized iph) : qp.Of hs (rs ++ [iph]) := by
  refine ⟨h.sub_concat hmem, h.saved, h.key, h.mem, h.iph, h.ihlen, ?_, ?_⟩
  · rw [fragmentsOf_concat, if_pos ho, h.fragments]
  · rw [lenOf_concat, if_pos (.inl ho), h.len]

theorem add (h : qp.Of hs rs) (hmem : iph ∈ hs) (ho : ¬ oversized iph) (hskb : skb = .create iph) :
    (qp.add iph skb).1.Of hs (rs ++ [iph]) := by
  have hlen : (qp.add iph skb).1.len = if moreFragments iph then qp.len else endOf iph := rfl
  refine ⟨h.sub_concat hmem, h.saved, h.key, h.mem, h.iph, h.ihlen, ?_, ?_⟩
  · rw [fragmentsOf_concat, if_neg ho, ← h.fragments, ← hskb]
    rfl
  · rw [hlen, lenOf_concat, h.len]
    simp only [ho, Bool.false_eq_true, false_or]

theorem chain (h : qp.Of hs rs) : IpFrag.Chain qp.fragments := by
  rw [h.fragments]
  exact chain_fragmentsOf rs

theorem exists_from (h : qp.Of hs rs) (hfp : fp ∈ qp.fragments) :
    ∃ iph ∈ rs, oversized iph = false ∧ fp.From iph := by
  rw [h.fragments] at hfp
  exact Noff.exists_from (fun iph hiph => h.saved iph (h.sub iph hiph)) hfp

theorem reached (h : qp.Of hs rs) (hne : qp.len ≠ 0) : ∃ fp ∈ qp.fragments, qp.len ≤ fp.endOff := by
  rw [h.len] at hne ⊢
  rw [h.fragments]
  exact exists_reached hne

end Ipq.Of

namespace IpFragment

variable {s s' s₁ s₂ : IpFragment} {l l₁ qs : List QueuePtr} {q : QueuePtr} {clock : Nat → Int}
  {es es' : List IpEvent} {data : List Byte}

/-! ## Runs -/

/-- The packets that have come for the queue `q`. -/
def received (es : List IpEvent) (q : QueuePtr) : List (List Byte) :=
  es.filterMap fun
    | .fragment q' iph _ => if q' = q then some iph else none
    | _ => none

@[simp] theorem received_append (es es' : List IpEvent) (q : QueuePtr) :
    received (es ++ es') q = received es q ++ received es' q := List.filterMap_append

theorem Expires.received_eq_nil (h : Expires clock s es s') (q : QueuePtr) :
    received es q = [] := by
  induction h with
  | empty => rfl
  | fresh => rfl
  | stale hh hq hlt hf he ih => exact ih

theorem Expires.new_not_mem (h : Expires clock s es s') (q : QueuePtr) (buf : Glued) :
    .new q buf ∉ es := by
  induction h with
  | empty => exact nofun
  | fresh => exact nofun
  | stale hh hq hlt hf he ih =>
    rw [List.mem_cons, not_or]
    exact ⟨nofun, ih⟩

/-- Every queue is what its packets make of it. -/
structure Holds (s : IpFragment) (es : List IpEvent) : Prop where
  queues : ∀ q qp, s.queues q = some qp → qp.Of (received es q) (received es q)
  fresh : ∀ q, s.next ≤ q → received es q = []

theorem Holds.congr (h : s.Holds es) (hqueues : ∀ q qp, s'.queues q = some qp → s.queues q = some qp)
    (hnext : s.next ≤ s'.next) (hes : ∀ q, received es' q = []) : s'.Holds (es ++ es') := by
  refine ⟨fun q qp hq => ?_, fun q hq => ?_⟩
  · rw [received_append, hes, List.append_nil]
    exact h.queues q qp (hqueues q qp hq)
  · rw [received_append, hes, List.append_nil]
    exact h.fresh q (hnext.trans hq)

/-- What is in the table after the loop over the timers, has been there. -/
theorem Expires.holds (h : Expires clock { s with timenow := 0 } es s') (hi : s.Inv l)
    (hs : s.Holds es') : s'.Holds (es' ++ es) := by
  have hi' : ({ s with timenow := 0 } : IpFragment).Inv l := hi.congr rfl rfl rfl rfl rfl rfl
  obtain ⟨qs, l', -, -, hqueues, -⟩ := h.inv hi'
  refine hs.congr (fun q qp hq => ?_) h.next.ge h.received_eq_nil
  rw [hqueues] at hq
  split at hq
  · cases hq
  · exact hq

/-- The queue to which a packet is added, has received it then. -/
theorem Target.of {iph : List Byte} {expires : BitVec 32} {qp : Ipq} (h : Target s iph qs expires q qp)
    (hs : s.Holds es) (hiph : Saved iph) :
    qp.Of (received es q ++ [iph]) (received es q) := by
  cases h with
  | found hq hqs hk => exact ((hs.queues q _ hq).remember hiph hk).restart _
  | created hno hq =>
    rw [hs.fresh q hq]
    exact Ipq.Of.create hiph _

/-- A queue that is glued has been given what its packets make of it. -/
def Glues (es : List IpEvent) (q : QueuePtr) (buf : Glued) : Prop :=
  ∃ qp : Ipq, qp.Of (received es q) (received es q) ∧ qp.done ∧ qp.glue = some buf

/-- What becomes of a queue that a packet has come for. -/
theorem of_outcome {iph : List Byte} {qp : Ipq} {hs : List (List Byte)} {skb : SkBuff}
    (h : qp.Of (hs ++ [iph]) hs) (hskb : skb = .create iph) :
    (∀ qp', (outcome qp iph skb).1 = some qp' → qp'.Of (hs ++ [iph]) (hs ++ [iph])) ∧
    ∀ buf, (outcome qp iph skb).2 = some buf →
      ∃ qp' : Ipq, qp'.Of (hs ++ [iph]) (hs ++ [iph]) ∧ qp'.done ∧ qp'.glue = some buf := by
  have hmem : iph ∈ hs ++ [iph] := by simp
  rw [outcome]
  by_cases ho : ipLen iph + fragOffset iph > 65535
  · rw [if_pos ho]
    refine ⟨fun qp' he => ?_, fun buf he => by cases he⟩
    obtain rfl := Option.some.inj he
    exact h.drop hmem (by simpa [oversized] using ho)
  · have hadd := h.add hmem (by simpa [oversized] using ho) hskb
    rw [if_neg ho]
    split
    · rename_i hd
      exact ⟨fun qp' he => (by cases he), fun buf hbuf => ⟨_, hadd, hd, hbuf⟩⟩
    · refine ⟨fun qp' he => ?_, fun buf he => by cases he⟩
      obtain rfl := Option.some.inj he
      exact hadd

theorem Taken.holds {iph : List Byte} {skb : SkBuff} {qp : Ipq}
    (h : Taken clock s s' iph skb es l qs q qp) (hs : s.Holds es') (hiph : Saved iph)
    (hskb : skb = .create iph) : s'.Holds (es' ++ es) ∧
    ∀ es₁ q' buf es₂, es = es₁ ++ .new q' buf :: es₂ → Glues (es' ++ es₁) q' buf := by
  have hof := h.target.of hs hiph
  obtain ⟨hqueue, hglue⟩ := of_outcome hof hskb
  have hself : received es q = [iph] := by
    rw [h.events]
    cases (outcome qp iph skb).2 <;> simp [received]
  have hother (q' : QueuePtr) (hne : q ≠ q') : received es q' = [] := by
    rw [h.events]
    cases (outcome qp iph skb).2 <;> simp [received, hne]
  refine ⟨⟨fun q' qp' hq' => ?_, fun q' hle => ?_⟩, fun es₁ q' buf es₂ he => ?_⟩
  · rw [h.queues] at hq'
    by_cases hq : q' = q
    · rw [if_pos hq] at hq'
      rw [hq, received_append, hself]
      exact hqueue qp' hq'
    · rw [if_neg hq] at hq'
      split at hq'
      · cases hq'
      · rw [received_append, hother q' (Ne.symm hq), List.append_nil]
        exact hs.queues q' qp' hq'
  · have hlt := h.lt_next.trans_le hle
    rw [received_append, hother q' (Nat.ne_of_lt hlt), hs.fresh q' (h.next.trans hle)]
    rfl
  · rw [h.events] at he
    have hnew : IpEvent.new q' buf = (outcome qp iph skb).2.elim IpEvent.isf (IpEvent.new q) ∧
        es₁ = [.fragment q iph (s'.instant clock)] := by
      cases es₁ with
      | nil => cases (List.cons.inj he).1
      | cons e es₁ =>
        obtain ⟨rfl, he'⟩ := List.cons.inj he
        cases es₁ with
        | nil => exact ⟨(List.cons.inj he').1.symm, rfl⟩
        | cons e es₁ => exact absurd (List.cons.inj he').2 (by simp)
    obtain ⟨hnew, rfl⟩ := hnew
    cases hout : (outcome qp iph skb).2 with
    | none =>
      rw [hout] at hnew
      cases hnew
    | some buf' =>
      rw [hout] at hnew
      obtain ⟨rfl, rfl⟩ := IpEvent.new.inj hnew
      obtain ⟨qp', hof', hd, hg⟩ := hglue _ hout
      refine ⟨qp', ?_, hd, hg⟩
      simpa [received] using hof'

/-- What a call does keeps it; and what is glued has been received. -/
theorem Called.holds (h : Called clock s data l s' es) (hi : s.Inv l) (hs : s.Holds es')
    (ha : accepted data) : s'.Holds (es' ++ es) ∧
    ∀ es₁ q buf es₂, es = es₁ ++ .new q buf :: es₂ → Glues (es' ++ es₁) q buf := by
  cases h with
  | @whole s₁ s₂ es _ _ _ hx hi₁ hl hw hd =>
    refine ⟨?_, fun es₁ q buf es₂ he => ?_⟩
    · rw [← List.append_assoc]
      refine (hx.holds hi hs).congr (fun q qp hq => ?_) hd.next fun q => rfl
      rw [hd.queues] at hq
      split at hq
      · cases hq
      · exact hq
    · have hmem : IpEvent.new q buf ∈ es ++ [.notf] := by
        rw [he]
        simp
      rcases List.mem_append.mp hmem with hmem | hmem
      · exact absurd hmem (hx.new_not_mem q buf)
      · cases List.mem_singleton.mp hmem
  | @fragment s₁ s₂ es es₃ _ _ _ _ hx hi₁ hl hw ht =>
    obtain ⟨hholds, hglue⟩ := ht.holds (hx.holds hi hs) (.of_accepted ha) (create_skb ha).symm
    refine ⟨by rwa [← List.append_assoc], fun es₁ q buf es₂ he => ?_⟩
    rcases of_append_eq_append_cons he with ⟨es₄, he', -⟩ | ⟨es₄, rfl, he'⟩
    · exact absurd (he' ▸ by simp) (hx.new_not_mem q buf)
    · rw [← List.append_assoc]
      exact hglue es₄ q buf es₂ he'

/-- After any packets, every queue is what its packets make of it; and so has been every queue that was
glued. -/
theorem runIp_received {n : ℕ+} {ds : List (List Byte)} (h : runIp clock n ds = some (s, es)) :
    s.Holds es ∧ ∀ es₁ q buf es₂, es = es₁ ++ .new q buf :: es₂ → Glues es₁ q buf := by
  have hall : ∃ l, s.Inv l ∧ s.Holds es ∧
      ∀ es₁ q buf es₂, es = es₁ ++ .new q buf :: es₂ → Glues es₁ q buf := by
    refine run_induction (I := fun _ s es => ∃ l, s.Inv l ∧ s.Holds es ∧
      ∀ es₁ q buf es₂, es = es₁ ++ .new q buf :: es₂ → Glues es₁ q buf)
      ⟨[], inv_create n, ⟨nofun, fun q _ => rfl⟩, fun es₁ q buf es₂ he => ?_⟩ ?_ h
    · exact absurd he.symm (by simp)
    · intro ds s es data s' es' hr ⟨l, hi, hholds, hglues⟩ hs
      rcases hi.called hs with ⟨-, rfl, rfl⟩ | ⟨ha, hc⟩
      · rw [List.append_nil]
        exact ⟨l, hi, hholds, hglues⟩
      · obtain ⟨l', hi'⟩ := hc.inv
        obtain ⟨hholds', hglues'⟩ := hc.holds hi hholds ha
        refine ⟨l', hi', hholds', fun es₁ q buf es₂ he => ?_⟩
        rcases of_append_eq_append_cons he with ⟨es₃, he', -⟩ | ⟨es₃, rfl, he'⟩
        · exact hglues es₁ q buf es₃ he'
        · exact hglues' es₃ q buf es₂ he'
  obtain ⟨-, -, h⟩ := hall
  exact h

theorem mem_received {iph : List Byte} : iph ∈ received es q ↔ ∃ now, .fragment q iph now ∈ es := by
  rw [received, List.mem_filterMap]
  constructor
  · rintro ⟨e, he, heq⟩
    cases e with
    | fragment q' iph' now =>
      dsimp only at heq
      by_cases hq : q' = q
      · rw [if_pos hq] at heq
        obtain rfl := Option.some.inj heq
        exact ⟨now, hq ▸ he⟩
      · rw [if_neg hq] at heq
        cases heq
    | _ => cases heq
  · rintro ⟨now, he⟩
    exact ⟨_, he, if_pos rfl⟩

/-- What a call does is done with its packet. -/
theorem Called.mem_received {iph : List Byte} (h : Called clock s data l s' es)
    (hiph : iph ∈ received es q) : iph = (SkBuff.create data).data := by
  cases h with
  | whole hx hi hl hw hd =>
    rw [received_append, hx.received_eq_nil] at hiph
    cases hiph
  | fragment hx hi hl hw ht =>
    rw [received_append, hx.received_eq_nil, List.nil_append, IpFragment.mem_received, ht.events] at hiph
    obtain ⟨now, hmem⟩ := hiph
    rcases List.mem_cons.mp hmem with he | hmem
    · exact (IpEvent.fragment.inj he).2.1
    · cases hout : (outcome _ (SkBuff.create data).data (.create data)).2 with
      | none =>
        rw [hout] at hmem
        cases List.mem_singleton.mp hmem
      | some buf =>
        rw [hout] at hmem
        cases List.mem_singleton.mp hmem

/-- What a queue has received are copies of packets that have come. -/
theorem runIp_mem_received {n : ℕ+} {ds : List (List Byte)} (h : runIp clock n ds = some (s, es)) :
    ∀ q, ∀ iph ∈ received es q, ∃ data ∈ ds, accepted data ∧ iph = (SkBuff.create data).data := by
  refine run_induction (I := fun ds _ es => ∀ q, ∀ iph ∈ received es q, ∃ data ∈ ds,
    accepted data ∧ iph = (SkBuff.create data).data) (fun q iph hiph => by cases hiph) ?_ h
  intro ds s es data s' es' hr ih hs q iph hiph
  obtain ⟨l, hi⟩ := runIp_inv hr
  rw [received_append, List.mem_append] at hiph
  rcases hiph with hiph | hiph
  · obtain ⟨data', hmem, hdata'⟩ := ih q iph hiph
    exact ⟨data', List.mem_append_left _ hmem, hdata'⟩
  · rcases hi.called hs with ⟨-, -, rfl⟩ | ⟨ha, hc⟩
    · cases hiph
    · exact ⟨data, by simp, ha, hc.mem_received hiph⟩

end IpFragment

end Noff
