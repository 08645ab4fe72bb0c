import Noff.Ip.Glue
import Noff.Ip.Pointers

/-!
# What is stored of a datagram

A packet that starts inside a fragment that is stored, and ends inside it too, is stored with its end in
front of its start (`contained_stored`). As long as no packet does so, every list of fragments is
in order, its fragments are apart, and their pointers and lengths are right; and then
what has come completely is always returned (`fragments_sound`).
-/

namespace Noff

/-- The packet starts behind the start of a fragment, and ends in front of its end. -/
def inside (fragments : List IpFrag) (iph : List Byte) : Bool :=
  fragments.any fun fp => fp.offset < fragOffset iph ∧ endOf iph < fp.endOff

/-- The fragments of the queue are in order and apart, and each has the bytes of its packet that it
says. -/
structure Ipq.Sound (qp : Ipq) : Prop where
  sorted : qp.fragments.Pairwise (·.offset ≤ ·.offset)
  disjoint : qp.fragments.Pairwise (·.endOff ≤ ·.offset)
  endOff : ∀ fp ∈ qp.fragments, fp.endOff = fp.offset + fp.len
  len : ∀ fp ∈ qp.fragments, 0 ≤ fp.len
  ptr : ∀ fp ∈ qp.fragments, (ipHl fp.skb.data * 4 : Nat) ≤ fp.ptr ∧
    fp.ptr + fp.len ≤ fp.skb.data.length

/-- The packets carry a whole datagram, and nothing behind its end. -/
structure Complete (rs : List (List Byte)) : Prop where
  pos : 0 < lenOf rs
  le : (ipHl (headerOf rs) * 4 : Nat) + lenOf rs ≤ 65535
  fits : ∀ iph ∈ rs, oversized iph = false ∧ endOf iph ≤ lenOf rs
  covered : ∀ p : Int, 0 ≤ p → p < lenOf rs → ∃ iph ∈ rs, fragOffset iph ≤ p ∧ p < endOf iph

variable {fragments left freed fragments' prevs : List IpFrag} {fp : IpFrag} {rs hs : List (List Byte)}
  {iph : List Byte} {offset endOff ptr i a b len count : Int} {skb : SkBuff} {qp : Ipq} {ihlen : Nat}

namespace IpFrag

theorem Trimmed.offset_le (h : Trimmed endOff fragments left freed)
    (hle : ∀ fp ∈ fragments, fp.offset ≤ fp.endOff) : ∀ fp ∈ left, fp.offset ≤ fp.endOff := by
  induction h with
  | behind h => exact hle
  | @cut tmp rest ho he h =>
    intro fp hfp
    rcases List.mem_cons.mp hfp with rfl | hfp
    · show tmp.offset + (endOff - tmp.offset) ≤ tmp.endOff
      omega
    · exact hle fp (List.mem_cons_of_mem _ hfp)
  | freed ho he h ih => exact ih fun fp hfp => hle fp (List.mem_cons_of_mem _ hfp)

/-- Every fragment ends behind its start, if the new one does. -/
theorem Placed.offset_le (h : Placed fragments offset endOff skb ptr fragments' freed prevs left i)
    (hle : ∀ fp ∈ fragments, fp.offset ≤ fp.endOff) (hnew : offset + i ≤ endOff) :
    ∀ fp ∈ fragments', fp.offset ≤ fp.endOff := by
  obtain ⟨nexts, hsplit, ht, -⟩ := h.trimmed
  rw [hsplit] at hle
  intro fp hfp
  rw [h.eq] at hfp
  rcases List.mem_append.mp hfp with hfp | hfp
  · exact hle fp (List.mem_append_left _ hfp)
  · rcases List.mem_cons.mp hfp with rfl | hfp
    · exact hnew
    · exact ht.offset_le (fun x hx => hle x (List.mem_append_right _ hx)) fp hfp

/-- A new fragment that does not lie inside another one ends behind its start. -/
theorem Placed.le_end (h : Placed fragments offset endOff skb ptr fragments' freed prevs left i)
    (hle : offset ≤ endOff) (hin : ∀ fp ∈ fragments, ¬ (fp.offset < offset ∧ endOff < fp.endOff)) :
    offset + i ≤ endOff := by
  obtain ⟨nexts, hsplit, -, -⟩ := h.trimmed
  have hi := h.overlap
  rw [IpFrag.overlap] at hi
  split at hi
  · omega
  · rename_i prev hprev
    have hmem := List.mem_of_getLast? hprev
    have hlt := (h.front prev hmem).1
    have hout := hin prev (hsplit ▸ List.mem_append_left _ hmem)
    split at hi <;> omega

/-- Fragments that have every position up to `b` connect. -/
theorem Chain.connected (h : Chain fragments) (hge : ∀ fp ∈ fragments, a ≤ fp.offset)
    (hle : ∀ fp ∈ fragments, fp.offset ≤ fp.endOff)
    (hb : ∀ fp ∈ fragments, fp.endOff ≤ b)
    (hc : ∀ p, a ≤ p → p < b → ∃ fp ∈ fragments, fp.offset ≤ p ∧ p < fp.endOff) :
    IpFrag.connected a fragments := by
  induction fragments generalizing a with
  | nil => rfl
  | cons fp rest ih =>
    have hsorted := (List.pairwise_cons.mp h.sorted).1
    have hfp := hle fp (List.mem_cons_self ..)
    have hend := hb fp (List.mem_cons_self ..)
    have hstart : ¬ fp.offset > a := fun hgt => by
      obtain ⟨fp', hfp', hlo, -⟩ := hc a le_rfl (by omega)
      rcases List.mem_cons.mp hfp' with rfl | hfp'
      · omega
      · have := (hsorted fp' hfp').1
        omega
    rw [IpFrag.connected, if_neg hstart]
    refine ih h.tail (fun x hx => (hsorted x hx).2) (fun x hx => hle x (List.mem_cons_of_mem _ hx))
      (fun x hx => hb x (List.mem_cons_of_mem _ hx)) fun p hp hpb => ?_
    have ha := hge fp (List.mem_cons_self ..)
    obtain ⟨fp', hfp', hlo, hhi⟩ := hc p (by omega) hpb
    rcases List.mem_cons.mp hfp' with rfl | hfp'
    · omega
    · exact ⟨fp', hfp', hlo, hhi⟩

end IpFrag

/-- A packet keeps the fragments upright, if it does not lie inside one. -/
theorem offset_le_fragmentsOf_concat (hle : ∀ fp ∈ fragmentsOf rs, fp.offset ≤ fp.endOff)
    (hiph : Saved iph) (hin : oversized iph = false → inside (fragmentsOf rs) iph = false) :
    ∀ fp ∈ fragmentsOf (rs ++ [iph]), fp.offset ≤ fp.endOff := by
  have hheader := hiph.header_le
  rw [fragmentsOf_concat]
  split
  · exact hle
  · rename_i ho
    obtain ⟨prevs, left, i, hp⟩ := (chain_fragmentsOf rs).placed (fragOffset iph) (endOf iph)
      (.create iph) (ipHl iph * 4 : Nat)
    have hend : (fragOffset iph : Int) ≤ endOf iph := by
      rw [endOf]
      omega
    refine hp.offset_le hle (hp.le_end hend fun fp hfp hfp' => ?_)
    have hno := hin (by simpa using ho)
    rw [inside, List.any_eq_false] at hno
    simpa [hfp'] using hno fp hfp

theorem Glued.exists_copy (hfit : ∀ fp ∈ fragments, 0 ≤ fp.len ∧ fp.offset + ihlen + fp.len ≤ len)
    (buf : Glued) (count : Int) : ∃ r, buf.copy ihlen len count fragments = some r := by
  induction fragments generalizing buf count with
  | nil => exact ⟨_, rfl⟩
  | cons fp rest ih =>
    have hfp := hfit fp (List.mem_cons_self ..)
    rw [copy, if_neg (by omega)]
    exact ih (fun x hx => hfit x (List.mem_cons_of_mem _ hx)) _ _

namespace Ipq.Of

theorem sound (h : qp.Of hs rs) (hle : ∀ fp ∈ qp.fragments, fp.offset ≤ fp.endOff) : qp.Sound := by
  have hlen := h.chain.len
  refine ⟨h.chain.sorted.imp And.left, h.chain.sorted.imp And.right, fun fp hfp => ?_,
    fun fp hfp => ?_, fun fp hfp => ?_⟩
  · have := hlen fp hfp
    omega
  · have := hlen fp hfp
    have := hle fp hfp
    omega
  · obtain ⟨iph, hiph, -, hfrom⟩ := h.exists_from hfp
    have hsaved := h.saved iph (h.sub iph hiph)
    have hoff := hfrom.offset
    have hend := hfrom.endOff
    have hptr := hfrom.ptr
    have hl := hlen fp hfp
    rw [endOf] at hend
    rw [hfrom.data, hsaved.length]
    omega

/-- The queue of a complete datagram is glued. -/
theorem glue_isSome (h : qp.Of rs rs) (hle : ∀ fp ∈ qp.fragments, fp.offset ≤ fp.endOff)
    (hc : Complete rs) : qp.done ∧ ∃ buf, qp.glue = some buf := by
  have hend : ∀ fp ∈ qp.fragments, fp.endOff ≤ qp.len := fun fp hfp => by
    obtain ⟨iph, hiph, -, hfrom⟩ := h.exists_from hfp
    rw [hfrom.endOff, h.len]
    exact (hc.fits iph hiph).2
  have hpos := hc.pos
  have hmax := hc.le
  rw [← h.len] at hpos hmax
  rw [← h.ihlen] at hmax
  constructor
  · rw [Ipq.done, if_neg (by omega)]
    refine h.chain.connected h.chain.nonneg hle hend fun p hp hpl => ?_
    rw [h.fragments, covered_fragmentsOf]
    obtain ⟨iph, hiph, hcov⟩ := hc.covered p hp (h.len ▸ hpl)
    exact ⟨iph, hiph, (hc.fits iph hiph).1, hcov⟩
  · have hfit : ∀ fp ∈ qp.fragments, 0 ≤ fp.len ∧
        fp.offset + qp.ihlen + fp.len ≤ qp.ihlen + qp.len := fun fp hfp => by
      have := h.chain.len fp hfp
      have := hle fp hfp
      have := hend fp hfp
      omega
    obtain ⟨⟨skb, count⟩, hcopy⟩ := Glued.exists_copy hfit
      (Glued.write (List.replicate (qp.ihlen + qp.len).toNat none) 0 (bytesAt qp.iph 0 qp.ihlen)) 0
    rw [glue]
    dsimp only
    rw [if_neg (by omega), Option.bind_eq_bind, hcopy]
    exact ⟨_, rfl⟩

end Ipq.Of

/-- The result is `IPF_NEW`. -/
def IpEvent.isNew : IpEvent → Bool
  | .new .. => true
  | _ => false

namespace IpFragment

variable {s s' : IpFragment} {l qs : List QueuePtr} {q : QueuePtr} {clock : Nat → Int}
  {es es' : List IpEvent} {data : List Byte}

/-- `ipDefrag` adds the packet to a queue that has a fragment in which it lies. -/
def contained (clock : Nat → Int) (s : IpFragment) (data : List Byte) : Bool :=
  let iph := (SkBuff.create data).data
  accepted data && !isWhole data && !oversized iph && (s.expire clock).any fun r =>
    (r.1.foundQueue iph).any fun qp => inside qp.fragments iph

/-- No fragment ends in front of its start. -/
def Upright (s : IpFragment) : Prop :=
  ∀ q qp, s.queues q = some qp → ∀ fp ∈ qp.fragments, fp.offset ≤ fp.endOff

/-- What is complete with a packet is returned with it. -/
def Returns (es es' : List IpEvent) : Prop :=
  ∀ es₁ q iph now es₂, es' = es₁ ++ .fragment q iph now :: es₂ →
    Complete (received (es ++ es₁) q ++ [iph]) → ∃ buf es₃, es₂ = .new q buf :: es₃

theorem Expires.upright (h : Expires clock { s with timenow := 0 } es s') (hi : s.Inv l)
    (hs : s.Upright) : s'.Upright := by
  have hi' : ({ s with timenow := 0 } : IpFragment).Inv l := hi.congr rfl rfl rfl rfl rfl rfl
  obtain ⟨qs, l', -, -, hqueues, -⟩ := h.inv hi'
  intro q qp hq
  rw [hqueues] at hq
  split at hq
  · cases hq
  · exact hs q qp hq

/-- The queue to which a packet is added has no fragment in which it lies. -/
theorem Taken.not_inside {skb : SkBuff} (ht : Taken clock s s' iph skb es l qs q qp)
    (hno : (s.foundQueue iph).any (fun qp => inside qp.fragments iph) = false) :
    inside qp.fragments iph = false := by
  have hstart := ht.start
  cases hq : s.foundQueue iph with
  | none =>
    rw [hq] at hstart
    obtain ⟨h, rfl⟩ := hstart
    rfl
  | some qp₀ =>
    rw [hq] at hstart hno
    simp only [hstart, fragments_remember]
    exact hno

theorem Taken.upright {skb : SkBuff} (ht : Taken clock s s' iph skb es l qs q qp)
    (hs : s.Holds es') (hiph : Saved iph) (hskb : skb = .create iph) (hup : s.Upright)
    (hno : oversized iph = false → inside qp.fragments iph = false) :
    s'.Upright ∧ Returns es' es := by
  have hof := ht.target.of hs hiph
  have hqp : ∀ fp ∈ qp.fragments, fp.offset ≤ fp.endOff := by
    cases ht.target with
    | found hq hqs hk =>
      simp only [fragments_remember]
      exact hup q _ hq
    | created hno hq => exact nofun
  rw [hof.fragments] at hqp hno
  have hnew := offset_le_fragmentsOf_concat hqp hiph hno
  obtain ⟨hqueue, -⟩ := of_outcome hof hskb
  refine ⟨fun q' qp' hq' => ?_, fun es₁ q' iph' now es₂ he hc => ?_⟩
  · rw [ht.queues] at hq'
    split at hq'
    · rw [(hqueue qp' hq').fragments]
      exact hnew
    · split at hq'
      · cases hq'
      · exact hup q' qp' hq'
  · rw [ht.events] at he
    cases es₁ with
    | cons e es₁ =>
      have hlen := congrArg List.length he
      simp only [List.cons_append, List.length_cons, List.length_append, List.length_nil] at hlen
      exact absurd (List.cons.inj he).2 fun he' => by
        cases es₁ with
        | nil =>
          cases hout : (outcome qp iph skb).2 <;> rw [hout] at he' <;> cases (List.cons.inj he').1
        | cons e es₁ =>
          simp only [List.length_cons] at hlen
          omega
    | nil =>
      obtain ⟨hfrag, he'⟩ := List.cons.inj he
      obtain ⟨rfl, rfl, -⟩ := IpEvent.fragment.inj hfrag
      obtain rfl : _ = es₂ := he'
      rw [List.append_nil] at hc
      obtain ⟨ho, -⟩ := hc.fits iph (by simp)
      have hadd := hof.add (by simp) (by simp [ho]) hskb
      obtain ⟨hd, buf, hg⟩ := hadd.glue_isSome (by rw [hadd.fragments]; exact hnew) hc
      have hsize : ¬ ipLen iph + fragOffset iph > 65535 := by simpa [oversized] using ho
      refine ⟨buf, [], ?_⟩
      rw [outcome, if_neg hsize, if_pos hd, hg]
      rfl

theorem Called.upright (h : Called clock s data l s' es) (hi : s.Inv l) (hs : s.Holds es')
    (ha : accepted data) (hup : s.Upright) (hno : contained clock s data = false) :
    s'.Upright ∧ Returns es' es := by
  cases h with
  | @whole s₁ s₂ es _ _ _ hx hi₁ hl hw hd he =>
    refine ⟨fun q qp hq => ?_, fun es₁ q iph now es₂ heq hc => ?_⟩
    · rw [hd.queues] at hq
      split at hq
      · cases hq
      · exact hx.upright hi hup q qp hq
    · have hmem : iph ∈ received (es ++ [.notf]) q := by
        rw [IpFragment.mem_received, heq]
        exact ⟨now, by simp⟩
      rw [received_append, hx.received_eq_nil] at hmem
      cases hmem
  | @fragment s₁ s₂ es es₃ _ _ _ _ hx hi₁ hl hw ht he =>
    have hno' : oversized (SkBuff.create data).data = false →
        inside _ (SkBuff.create data).data = false := fun ho => ht.not_inside <| by
      rw [contained, he] at hno
      simpa [ha, hw, ho] using hno
    obtain ⟨hup', hret⟩ := ht.upright (hx.holds hi hs) (.of_accepted ha) (create_skb ha).symm
      (hx.upright hi hup) hno'
    refine ⟨hup', fun es₁ q iph now es₂ heq hc => ?_⟩
    rcases of_append_eq_append_cons heq with ⟨es₄, he', -⟩ | ⟨es₄, rfl, he'⟩
    · have hmem : iph ∈ received es q := by
        rw [IpFragment.mem_received, he']
        exact ⟨now, by simp⟩
      rw [hx.received_eq_nil] at hmem
      cases hmem
    · rw [← List.append_assoc] at hc
      exact hret es₄ q iph now es₂ he' hc

/-- As long as no packet lies inside a fragment that is stored, the fragments of every queue and their
pointers are right, and every datagram that is complete is returned. -/
theorem fragments_sound {clock : Nat → Int} {n : ℕ+} {ds : List (List Byte)}
    (h : Along (fun s data => s.startIpfragProc clock data) (fun s data => ¬ contained clock s data)
      (create n) ds) :
    ∃ s es, runIp clock n ds = some (s, es) ∧
      (∀ q qp, s.queues q = some qp → qp.Sound ∧
        ∃ nodes xs, FragList.ofPackets (received es q) = some nodes ∧ nodes.Makes xs qp.fragments) ∧
      ∀ es₁ q iph now es₂, es = es₁ ++ .fragment q iph now :: es₂ →
        Complete (received es₁ q ++ [iph]) → ∃ buf es₃, es₂ = .new q buf :: es₃ := by
  obtain ⟨s, es, hr, -⟩ := runIp_total clock n ds
  have hup : s.Upright ∧ Returns [] es := by
    refine run_induction_along (I := fun _ s es => s.Upright ∧ Returns [] es)
      ⟨nofun, fun es₁ q iph now es₂ he => absurd he.symm (by simp)⟩ ?_ hr h
    intro ds s es data s' es' hr ⟨hup, hret⟩ hno hs
    obtain ⟨l, hi⟩ := runIp_inv hr
    rcases hi.called hs with ⟨-, rfl, rfl⟩ | ⟨ha, hc⟩
    · rw [List.append_nil]
      exact ⟨hup, hret⟩
    · obtain ⟨hup', hret'⟩ := hc.upright hi (runIp_received hr).1 ha hup (by simpa using hno)
      refine ⟨hup', fun es₁ q iph now es₂ he hcomplete => ?_⟩
      rcases of_append_eq_append_cons he with ⟨es₃, he', rfl⟩ | ⟨es₃, rfl, he'⟩
      · obtain ⟨buf, es₄, rfl⟩ := hret es₁ q iph now es₃ he' hcomplete
        exact ⟨buf, es₄ ++ es', rfl⟩
      · exact hret' es₃ q iph now es₂ he' hcomplete
  refine ⟨s, es, hr, fun q qp hq => ?_, hup.2⟩
  have hof := (runIp_received hr).1.queues q qp hq
  refine ⟨hof.sound (hup.1 q qp hq), ?_⟩
  rw [hof.fragments]
  exact FragList.exists_ofPackets _

/-- A packet with `n` bytes for position `8 * off` of a datagram. -/
def piece (flags off : Byte) (n : Nat) : List Byte :=
  [0x45, 0, 0, BitVec.ofNat 8 (20 + n), 0, 1, flags, off, 64, 17, 0, 0, 10, 0, 0, 1, 10, 0, 0, 2] ++
    List.replicate n 0

/-- The fragments that are stored where the last packet starts inside one, and ends behind it. -/
theorem fragments_sound_overlap :
    Along (fun s data => s.startIpfragProc (fun _ => 1000) data)
      (fun s data => ¬ contained (fun _ => 1000) s data) (create 1)
      [piece 0x20 0 24, piece 0x20 2 16] ∧
    ∃ s es, runIp (fun _ => 1000) 1 [piece 0x20 0 24, piece 0x20 2 16] = some (s, es) ∧
      (∀ q qp, s.queues q = some qp → qp.Sound ∧
        ∃ nodes xs, FragList.ofPackets (received es q) = some nodes ∧ nodes.Makes xs qp.fragments) ∧
      ∀ es₁ q iph now es₂, es = es₁ ++ .fragment q iph now :: es₂ →
        Complete (received es₁ q ++ [iph]) → ∃ buf es₃, es₂ = .new q buf :: es₃ :=
  have h : Along (fun s data => s.startIpfragProc (fun _ => 1000) data)
      (fun s data => ¬ contained (fun _ => 1000) s data) (create 1)
      [piece 0x20 0 24, piece 0x20 2 16] := by decide
  ⟨h, fragments_sound h⟩

/-- A packet that lies inside a fragment is stored with a negative length; and with it, a datagram
whose other two packets are complete is not returned. -/
theorem contained_stored :
    (∃ s es q qp, runIp (fun _ => 1000) 1 [piece 0x20 0 24, piece 0x20 1 8] = some (s, es) ∧
      s.queues q = some qp ∧ ¬ qp.Sound) ∧
    (∃ s es q buf, runIp (fun _ => 1000) 1 [piece 0x20 0 24, piece 0 2 8] = some (s, es) ∧
      .new q buf ∈ es) ∧
    ∃ s es, runIp (fun _ => 1000) 1 [piece 0x20 0 24, piece 0x20 1 8, piece 0 2 8] = some (s, es) ∧
      ∀ q buf, .new q buf ∉ es := by
  refine ⟨?_, ?_, ?_⟩
  · have h : (runIp (fun _ => 1000) 1 [piece 0x20 0 24, piece 0x20 1 8]).any (fun r =>
        (r.1.queues 1).any fun qp => qp.fragments.any fun fp => fp.len < 0) := by decide
    obtain ⟨⟨s, es⟩, hr, h⟩ := (Option.any_eq_true ..).mp h
    obtain ⟨qp, hq, h⟩ := (Option.any_eq_true ..).mp h
    obtain ⟨fp, hfp, hlen⟩ := List.any_eq_true.mp h
    refine ⟨s, es, 1, qp, hr, hq, fun hsound => ?_⟩
    have := hsound.len fp hfp
    simp at hlen
    omega
  · have h : (runIp (fun _ => 1000) 1 [piece 0x20 0 24, piece 0 2 8]).any (fun r =>
        r.2.any IpEvent.isNew) := by decide
    obtain ⟨⟨s, es⟩, hr, h⟩ := (Option.any_eq_true ..).mp h
    obtain ⟨e, he, h⟩ := List.any_eq_true.mp h
    cases e with
    | new q buf => exact ⟨s, es, q, buf, hr, he⟩
    | _ => cases h
  · have h : (runIp (fun _ => 1000) 1 [piece 0x20 0 24, piece 0x20 1 8, piece 0 2 8]).any (fun r =>
        !r.2.any IpEvent.isNew) := by decide
    obtain ⟨⟨s, es⟩, hr, h⟩ := (Option.any_eq_true ..).mp h
    refine ⟨s, es, hr, fun q buf hmem => ?_⟩
    have hno : es.any IpEvent.isNew = false := by simpa using h
    exact absurd (List.any_eq_false.mp hno _ hmem) (by simp [IpEvent.isNew])

end IpFragment

end Noff
