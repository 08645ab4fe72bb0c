import Noff.Ip.Stored

/-!
# Fragments are put together again

The fragments of a datagram come in any order, some of them more than once, and
between them packets of other datagrams. As long as one is missing, their queue is what those that
have come make of it; with the last one, the datagram is returned and the queue is gone
(`fragments_reassembled`).
-/

namespace Noff

/-- Every position between the two ends is in a fragment. -/
theorem IpFrag.Tiled.covered {a b : Int} {fragments : List IpFrag} (h : IpFrag.Tiled a b fragments)
    {p : Int} (ha : a ≤ p) (hb : p < b) : ∃ fp ∈ fragments, fp.offset ≤ p ∧ p < fp.endOff := by
  induction h with
  | nil => omega
  | @cons a b fp rest ho hlen he h ih =>
    by_cases hp : p < fp.endOff
    · exact ⟨fp, List.mem_cons_self .., by omega, hp⟩
    · obtain ⟨fp', hfp', hcov⟩ := ih (by omega) hb
      exact ⟨fp', List.mem_cons_of_mem _ hfp', hcov⟩

/-! ## The fragments of a datagram -/

namespace Datagram

variable {d : Datagram} {off n : Nat} {more : Bool} {f g : List Byte} {fs gs rs : List (List Byte)}

/-- What a queue for the datagram is found by. -/
def key (d : Datagram) : IpKey := ⟨d.id, d.src, d.dst, d.proto⟩

theorem Fragment.key (h : d.Fragment off n more f) : ipKey f = d.key := by
  rw [ipKey, h.src, h.dst, h.id, h.proto, Datagram.key]

theorem Fragment.accepted (h : d.Fragment off n more f) : IpFragment.accepted f := by
  have hheader := h.header
  have hcaptured := h.captured
  have hlen := h.len
  rw [thdr] at hlen
  simp only [IpFragment.accepted, Bool.and_eq_true, decide_eq_true_eq]
  exact ⟨⟨⟨⟨by omega, hheader⟩, h.version⟩, hcaptured⟩, by omega⟩

theorem Fragment.endOf (h : d.Fragment off n more f) : endOf f = off + n := by
  have hlen := h.len
  rw [thdr] at hlen
  rw [Noff.endOf, h.offset]
  omega

/-- The copy that is saved is a fragment as well. -/
theorem Fragment.skb (h : d.Fragment off n more f) :
    d.Fragment off n more (SkBuff.create f).data := by
  have ha := h.accepted
  have hkey := IpFragment.ipKey_skb ha
  have hhl := IpFragment.ipHl_skb ha
  have hlen := IpFragment.ipLen_skb ha
  have hcopy : (SkBuff.create f).data = f.take (ipLen f) := by
    rw [SkBuff.create, bytesAt_eq_take_drop (by rw [Nat.zero_add]; exact h.captured), List.drop_zero]
  refine ⟨(congrArg IpKey.src hkey).trans h.src, (congrArg IpKey.dst hkey).trans h.dst,
    (congrArg IpKey.id hkey).trans h.id, (congrArg IpKey.p hkey).trans h.proto, ?_, ?_, ?_, ?_,
    (IpFragment.fragOffset_skb ha).trans h.offset, (IpFragment.moreFragments_skb ha).trans h.more, ?_⟩
  · rw [ipV, IpFragment.byteAt_skb ha (by decide), ← ipV, h.version]
  · rw [hhl]
    exact h.header
  · rw [hlen, thdr, hhl, ← thdr, h.len]
  · rw [hlen, SkBuff.create, length_bytesAt]
  · rw [thdr, hhl, ← thdr, hcopy, h.len, List.drop_take, Nat.add_sub_cancel_left, List.take_take,
      Nat.min_self, h.data]

/-- A packet of a cut carries a part of the payload, and the last part if none follows. -/
theorem Cut.exists_part (h : d.Cut off fs) (hf : f ∈ fs) : ∃ n more,
    d.Fragment (fragOffset f) n more f ∧ 0 < n ∧ off ≤ fragOffset f ∧
      fragOffset f + n ≤ d.payload.length ∧ (more ↔ fragOffset f + n < d.payload.length) := by
  induction h with
  | @last off f' hoff hfrag =>
    obtain rfl := List.mem_singleton.mp hf
    have ho := hfrag.offset
    refine ⟨_, _, ho.symm ▸ hfrag, by omega, by omega, by omega, ?_⟩
    simp only [Bool.false_eq_true, false_iff]
    omega
  | @more off n f' fs hn h8 hfrag hfs ih =>
    rcases List.mem_cons.mp hf with rfl | hf
    · have ho := hfrag.offset
      have hlt := hfs.lt
      refine ⟨_, _, ho.symm ▸ hfrag, hn, by omega, by omega, ?_⟩
      simp only [true_iff]
      omega
    · obtain ⟨n', more, hpart, hn', hge, hrest⟩ := ih hf
      exact ⟨n', more, hpart, hn', by omega, hrest⟩

/-- Where a packet of a cut ends. -/
theorem Cut.lt_endOf (h : d.Cut off fs) (hf : f ∈ fs) : (fragOffset f : Int) < endOf f := by
  obtain ⟨n, more, hpart, hn, -⟩ := h.exists_part hf
  rw [hpart.endOf]
  omega

/-- No two packets of a cut have a position in common. -/
theorem Cut.disjoint (h : d.Cut off fs) (hf : f ∈ fs) (hg : g ∈ fs) {p : Int}
    (hfp : fragOffset f ≤ p ∧ p < endOf f) (hgp : fragOffset g ≤ p ∧ p < endOf g) : f = g := by
  induction h with
  | last hoff hfrag => rw [List.mem_singleton.mp hf, List.mem_singleton.mp hg]
  | @more off n f' fs hn h8 hfrag hfs ih =>
    have hend := hfrag.endOf
    have hbehind {x : List Byte} (hx : x ∈ fs) : off + n ≤ fragOffset x :=
      (hfs.exists_part hx).choose_spec.choose_spec.2.2.1
    rcases List.mem_cons.mp hf with rfl | hf' <;> rcases List.mem_cons.mp hg with rfl | hg'
    · rfl
    · have := hbehind hg'
      omega
    · have := hbehind hf'
      omega
    · exact ih hf' hg'

/-- Every position is in one of them. -/
theorem Cut.covered (h : d.Cut off fs) {p : Nat} (hp : off ≤ p) (hlt : p < d.payload.length) :
    ∃ f ∈ fs, fragOffset f ≤ p ∧ (p : Int) < endOf f := by
  induction h with
  | @last off f hoff hfrag =>
    have ho := hfrag.offset
    refine ⟨f, List.mem_singleton_self _, by omega, ?_⟩
    rw [hfrag.endOf]
    omega
  | @more off n f fs hn h8 hfrag hfs ih =>
    have ho := hfrag.offset
    by_cases hpn : p < off + n
    · refine ⟨f, List.mem_cons_self .., by omega, ?_⟩
      rw [hfrag.endOf]
      omega
    · obtain ⟨g, hg, hcov⟩ := ih (by omega)
      exact ⟨g, List.mem_cons_of_mem _ hg, hcov⟩

/-- The packets of a cut into more than one are fragments. -/
theorem Cut.not_whole (h : d.Cut 0 fs) (htwo : 2 ≤ fs.length) (hf : f ∈ fs) :
    IpFragment.isWhole f = false := by
  cases h with
  | last hoff hfrag => exact absurd htwo (by simp)
  | @more _ n f' fs hn h8 hfrag hfs =>
    rcases List.mem_cons.mp hf with rfl | hf
    · rw [IpFragment.isWhole, hfrag.more]
      rfl
    · obtain ⟨-, -, -, -, hge, -⟩ := hfs.exists_part hf
      rw [IpFragment.isWhole, Bool.and_eq_false_iff, decide_eq_false_iff_not]
      exact .inr (by omega)

/-- The fragments of a datagram, as they are saved; with the header of any of them it would be a
datagram of at most 65535 bytes. -/
structure Pieces (d : Datagram) (gs : List (List Byte)) : Prop where
  cut : d.Cut 0 gs
  saved : ∀ g ∈ gs, Saved g
  fits : ∀ g ∈ gs, thdr g + d.payload.length ≤ 65535

namespace Pieces

theorem not_oversized (h : d.Pieces gs) (hg : g ∈ gs) : oversized g = false := by
  obtain ⟨n, more, hpart, -, -, hle, -⟩ := h.cut.exists_part hg
  have hfits := h.fits g hg
  have hlen := hpart.len
  simp only [oversized, decide_eq_false_iff_not]
  omega

/-- A fragment is not stored inside another one. -/
theorem not_inside (h : d.Pieces gs) (hrs : ∀ r ∈ rs, r ∈ gs) (hg : g ∈ gs) :
    inside (fragmentsOf rs) g = false := by
  rw [inside, List.any_eq_false]
  intro fp hfp
  obtain ⟨r, hr, -, hfrom⟩ := exists_from (fun r hr => h.saved r (hrs r hr)) hfp
  have hlt := h.cut.lt_endOf hg
  have hoff := hfrom.offset
  have hend := hfrom.endOff
  rw [decide_eq_true_eq]
  rintro ⟨hstart, hstop⟩
  have hcommon : (fragOffset r : Int) ≤ fragOffset g ∧ (fragOffset g : Int) < endOf r := by omega
  rw [h.cut.disjoint (hrs r hr) hg hcommon ⟨le_rfl, hlt⟩] at hoff
  omega

theorem upright (h : d.Pieces gs) (hrs : ∀ r ∈ rs, r ∈ gs) :
    ∀ fp ∈ fragmentsOf rs, fp.offset ≤ fp.endOff := by
  induction rs using List.reverseRecOn with
  | nil => exact nofun
  | append_singleton rs r ih =>
    have hold : ∀ r ∈ rs, r ∈ gs := fun x hx => hrs x (List.mem_append_left _ hx)
    have hr : r ∈ gs := hrs r (by simp)
    exact offset_le_fragmentsOf_concat (ih hold) (h.saved r hr) fun _ => h.not_inside hold hr

/-- The length is known once the last fragment has come. -/
theorem lenOf_eq (h : d.Pieces gs) (hrs : ∀ r ∈ rs, r ∈ gs) :
    lenOf rs = if ∃ r ∈ rs, endOf r = d.payload.length then (d.payload.length : Int) else 0 := by
  induction rs using List.reverseRecOn with
  | nil => simp [lenOf]
  | append_singleton rs r ih =>
    have hr : r ∈ gs := hrs r (by simp)
    obtain ⟨n, more, hpart, -, -, hle, hmore⟩ := h.cut.exists_part hr
    have hend := hpart.endOf
    rw [lenOf_concat, ih fun x hx => hrs x (List.mem_append_left _ hx), h.not_oversized hr, hpart.more]
    simp only [Bool.false_eq_true, false_or, List.mem_append, List.mem_singleton, or_and_right,
      exists_or, exists_eq_left]
    by_cases hlast : endOf r = d.payload.length
    · have hno : ¬ more = true := by
        rw [hmore]
        omega
      rw [if_neg hno, if_pos (.inr hlast), hlast]
    · have hyes : more = true := hmore.mpr (by omega)
      simp only [hyes, if_true, hlast, or_false]

/-- The header that a queue has once all have come. -/
theorem header_mem (h : d.Pieces gs) (hrs : ∀ r ∈ rs, r ∈ gs) (hall : ∀ g ∈ gs, g ∈ rs) :
    headerOf rs ∈ rs ∧ fragOffset (headerOf rs) = 0 := by
  obtain ⟨g, hg, hstart, -⟩ := h.cut.covered (le_refl 0) h.cut.lt
  have hfirst : ∃ r ∈ rs, fragOffset r = 0 := ⟨g, hall g hg, Nat.le_zero.mp hstart⟩
  obtain ⟨rs₁, rs₂, heq, hoff, -⟩ := headerOf_last (fun r hr => (h.saved r (hrs r hr)).ne_nil) hfirst
  have hmem : headerOf rs ∈ rs₁ ++ headerOf rs :: rs₂ := by simp
  rw [← heq] at hmem
  exact ⟨hmem, hoff⟩

/-- Together they are the whole datagram. -/
theorem complete (h : d.Pieces gs) (hrs : ∀ r ∈ rs, r ∈ gs) (hall : ∀ g ∈ gs, g ∈ rs) :
    Complete rs ∧ lenOf rs = d.payload.length := by
  have hpos := h.cut.lt
  have hlen : lenOf rs = d.payload.length := by
    have hlast : d.payload.length - 1 < d.payload.length := by omega
    obtain ⟨g, hg, -, hend⟩ := h.cut.covered (Nat.zero_le _) hlast
    obtain ⟨n, more, hpart, -, -, hle, -⟩ := h.cut.exists_part hg
    have hend' := hpart.endOf
    rw [h.lenOf_eq hrs, if_pos ⟨g, hall g hg, by omega⟩]
  refine ⟨⟨by omega, ?_, fun r hr => ⟨h.not_oversized (hrs r hr), ?_⟩, fun p hp hlt => ?_⟩, hlen⟩
  · have hfits := h.fits _ (hrs _ (h.header_mem hrs hall).1)
    rw [thdr] at hfits
    omega
  · obtain ⟨n, more, hpart, -, -, hle, -⟩ := h.cut.exists_part (hrs r hr)
    rw [hpart.endOf, hlen]
    omega
  · obtain ⟨k, rfl⟩ := Int.eq_ofNat_of_zero_le hp
    obtain ⟨g, hg, hcov⟩ := h.cut.covered (Nat.zero_le k) (by omega)
    exact ⟨g, hall g hg, by omega, hcov.2⟩

/-- A queue is not done before all of them have come. -/
theorem all_of_done {qp : Ipq} (h : d.Pieces gs) (hrs : ∀ r ∈ rs, r ∈ gs) (hof : qp.Of rs rs)
    (hd : qp.done) : ∀ g ∈ gs, g ∈ rs := by
  have hchain := hof.chain
  rw [Ipq.done] at hd
  split at hd
  · cases hd
  · rename_i hne
    have hlen := h.lenOf_eq hrs
    rw [← hof.len] at hlen
    split at hlen
    · obtain ⟨b, ht⟩ := hchain.tiled (fun fp hfp => by
        have hup := h.upright hrs fp (hof.fragments ▸ hfp)
        have := hchain.len fp hfp
        omega) hchain.nonneg hd
      obtain ⟨fp, hfp, hreach⟩ := hof.reached hne
      have hb := ht.end_le hfp
      intro g hg
      obtain ⟨n, more, hpart, hn, -, hle, -⟩ := h.cut.exists_part hg
      have hlt := h.cut.lt_endOf hg
      have hend := hpart.endOf
      -- What has the first position of `g` is `g`.
      obtain ⟨fp', hfp', hcov⟩ := ht.covered (Int.natCast_nonneg (fragOffset g)) (by omega)
      rw [hof.fragments] at hfp'
      obtain ⟨r, hr, -, hcov'⟩ := (covered_fragmentsOf rs _).mp ⟨fp', hfp', hcov⟩
      rw [h.cut.disjoint hg (hrs r hr) ⟨le_rfl, hlt⟩ hcov']
      exact hr
    · exact absurd hlen hne

/-- What becomes of a queue with one more of them. -/
theorem outcome_eq {qp : Ipq} (h : d.Pieces gs) (hg : g ∈ gs) (hof : qp.Of (rs ++ [g]) rs) :
    (qp.add g (.create g)).1.Of (rs ++ [g]) (rs ++ [g]) ∧
      IpFragment.outcome qp g (.create g) = if (qp.add g (.create g)).1.done
        then (none, (qp.add g (.create g)).1.glue) else (some (qp.add g (.create g)).1, none) := by
  have hno := h.not_oversized hg
  have hsize : ¬ ipLen g + fragOffset g > 65535 := by simpa [oversized] using hno
  have hmem : g ∈ rs ++ [g] := by simp
  refine ⟨hof.add hmem (by rw [hno]; exact Bool.false_ne_true) rfl, ?_⟩
  rw [IpFragment.outcome, if_neg hsize]

/-- As long as one is missing, the queue stays. -/
theorem outcome_missing {qp : Ipq} (h : d.Pieces gs) (hrs : ∀ r ∈ rs ++ [g], r ∈ gs)
    (hof : qp.Of (rs ++ [g]) rs) (hmiss : ¬ ∀ x ∈ gs, x ∈ rs ++ [g]) :
    ∃ qp', IpFragment.outcome qp g (.create g) = (some qp', none) ∧
      qp'.Of (rs ++ [g]) (rs ++ [g]) := by
  obtain ⟨hadd, hout⟩ := h.outcome_eq (hrs g (by simp)) hof
  refine ⟨_, ?_, hadd⟩
  rw [hout, if_neg fun hd => hmiss (h.all_of_done hrs hadd hd)]

/-- With the last one, the queue is gone and the datagram is returned. -/
theorem outcome_complete {qp : Ipq} (h : d.Pieces gs) (hrs : ∀ r ∈ rs ++ [g], r ∈ gs)
    (hof : qp.Of (rs ++ [g]) rs) (hall : ∀ x ∈ gs, x ∈ rs ++ [g]) :
    ∃ buf, IpFragment.outcome qp g (.create g) = (none, some buf) ∧
      ∃ hdr ∈ gs, Reassembled (rs ++ [g]) hdr d.payload.length buf := by
  obtain ⟨hadd, hout⟩ := h.outcome_eq (hrs g (by simp)) hof
  obtain ⟨hcomplete, hlen⟩ := h.complete hrs hall
  obtain ⟨hd, buf, hglue⟩ := hadd.glue_isSome (hadd.fragments ▸ h.upright hrs) hcomplete
  obtain ⟨n, hn, hre⟩ := hadd.reassembled hd hglue
  obtain rfl : n = d.payload.length := by
    have := hadd.len
    omega
  refine ⟨buf, ?_, _, hrs _ (h.header_mem hrs hall).1, hre⟩
  rw [hout, if_pos hd, hglue]

end Pieces

/-- The fragments of a cut, as they are saved. -/
theorem Cut.skb (h : d.Cut off fs) : d.Cut off (fs.map fun f => (SkBuff.create f).data) := by
  induction h with
  | last hoff hf => exact .last hoff hf.skb
  | more hn h8 hf hfs ih => exact .more hn h8 hf.skb ih

theorem Cut.accepted (h : d.Cut off fs) (hf : f ∈ fs) : IpFragment.accepted f := by
  obtain ⟨n, more, hpart, -⟩ := h.exists_part hf
  exact hpart.accepted

theorem Cut.pieces (h : d.Cut 0 fs) (hfits : ∀ f ∈ fs, thdr f + d.payload.length ≤ 65535) :
    d.Pieces (fs.map fun f => (SkBuff.create f).data) := by
  refine ⟨h.skb, fun g hg => ?_, fun g hg => ?_⟩
  · obtain ⟨f, hf, rfl⟩ := List.mem_map.mp hg
    exact .of_accepted (h.accepted hf)
  · obtain ⟨f, hf, rfl⟩ := List.mem_map.mp hg
    rw [thdr, IpFragment.ipHl_skb (h.accepted hf)]
    exact hfits f hf

/-- Different fragments are saved as different ones. -/
theorem Cut.skb_injective (h : d.Cut off fs) (hf : f ∈ fs) (hg : g ∈ fs)
    (he : (SkBuff.create f).data = (SkBuff.create g).data) : f = g := by
  have hoff := congrArg fragOffset he
  rw [IpFragment.fragOffset_skb (h.accepted hf), IpFragment.fragOffset_skb (h.accepted hg)] at hoff
  exact h.disjoint hf hg ⟨le_rfl, h.lt_endOf hf⟩ ⟨hoff ▸ le_rfl, hoff ▸ h.lt_endOf hg⟩

/-- The packet `b` is the datagram, with the header of its fragment `f` at offset 0. -/
structure Restores (d : Datagram) (f b : List Byte) : Prop where
  first : fragOffset f = 0
  length : b.length = thdr f + d.payload.length
  header : ∀ k < thdr f, k ∉ [2, 3, 6, 7] → byteAt b k = byteAt f k
  ipLen : ipLen b = b.length
  ipOff : ipOff b = 0
  payload : b.drop (thdr f) = d.payload

theorem Restores.of_skb {b : List Byte} (h : d.Restores (SkBuff.create f).data b)
    (ha : IpFragment.accepted f) : d.Restores f b := by
  obtain ⟨-, -, -, -, hlen⟩ := IpFragment.of_accepted ha
  have hthdr : thdr (SkBuff.create f).data = thdr f := by rw [thdr, IpFragment.ipHl_skb ha, thdr]
  refine ⟨(IpFragment.fragOffset_skb ha).symm.trans h.first, hthdr ▸ h.length, fun k hk hne => ?_,
    h.ipLen, h.ipOff, hthdr ▸ h.payload⟩
  have hk' : k < Noff.ipLen f := hk.trans_le hlen
  rw [h.header k (hthdr.symm ▸ hk) hne, SkBuff.create, IpFragment.byteAt_bytesAt _ _ hk', Nat.zero_add]

/-- What is glued of the fragments is the datagram. -/
theorem Pieces.restores {buf : Glued} {hdr : List Byte} (h : d.Pieces gs) (hrs : ∀ r ∈ rs, r ∈ gs)
    (hre : Reassembled rs hdr d.payload.length buf) :
    buf = (buf.map (·.getD 0)).map some ∧ d.Restores hdr (buf.map (·.getD 0)) := by
  have hlength : (buf.map (·.getD 0)).length = thdr hdr + d.payload.length := by
    rw [List.length_map, hre.length, thdr]
  refine ⟨?_, hre.offset, hlength, fun k hk hne => Glued.byteAt_map (hre.header k hk hne), ?_,
    hre.ipOff, List.ext_getElem? fun p => ?_⟩
  · rw [List.map_map]
    refine (List.map_congr_left fun o ho => ?_).trans (List.map_id _) |>.symm
    cases o with
    | none => exact absurd ho hre.written
    | some b => rfl
  · rw [hre.ipLen, hlength, thdr]
  · rw [List.getElem?_drop, List.getElem?_map]
    by_cases hp : p < d.payload.length
    · obtain ⟨r, hr, hlo, hhi, hbyte⟩ := hre.payload p hp
      obtain ⟨n, more, hpart, -⟩ := h.cut.exists_part (hrs r hr)
      have hend := hpart.endOf
      have hin : p - fragOffset r < n := by omega
      have hget := hpart.byteAt_eq hin
      rw [thdr, Nat.add_sub_cancel' hlo] at hget
      rw [thdr, hbyte, hget, byteAt, List.getD_eq_getElem?_getD, List.getElem?_eq_getElem hp]
      rfl
    · rw [List.getElem?_eq_none (by rw [hre.length, thdr]; omega), List.getElem?_eq_none (by omega)]
      rfl

end Datagram

namespace IpFragment

variable {clock : Nat → Int} {s s' : IpFragment} {l l' qs : List QueuePtr} {q : QueuePtr} {qp : Ipq}
  {es : List IpEvent} {iph data : List Byte} {k : IpKey} {rs : List (List Byte)} {skb : SkBuff}
  {expires : BitVec 32}

/-! ## The queue of a datagram -/

/-- The packets `rs` have come for the queue of the key `k`, and wait in it. -/
inductive Pending (s : IpFragment) (k : IpKey) : List (List Byte) → Prop
  | fresh (h : ∀ q qp, s.queues q = some qp → ipKey qp.iph ≠ k) : Pending s k []
  | waits {rs : List (List Byte)} {q : QueuePtr} {qp : Ipq} (hq : s.queues q = some qp)
      (hk : ipKey qp.iph = k) (hof : qp.Of rs rs) : Pending s k rs

/-- Nobody is charged for too much at this address. -/
def Light (s : IpFragment) (ip : BitVec 32) : Prop :=
  ∀ h hf, s.hosts h = some hf → hf.ip = ip → hf.ipFragMem ≤ IPFRAG_HIGH_THRESH

theorem Pending.congr (hp : s.Pending k rs)
    (h : ∀ q qp, ipKey qp.iph = k → (s'.queues q = some qp ↔ s.queues q = some qp)) :
    s'.Pending k rs := by
  cases hp with
  | fresh hno => exact .fresh fun q qp hq hk => hno q qp ((h q qp hk).mp hq) hk
  | waits hq hk hof => exact .waits ((h _ _ hk).mpr hq) hk hof

/-- The queue that gets the next packet has those that have come before. -/
theorem Pending.target (hp : s.Pending (ipKey iph) rs) (hi : s.Table) (hiph : Saved iph)
    (ht : Target s iph [] expires q qp) : qp.Of (rs ++ [iph]) rs := by
  cases ht with
  | found hq hqs hk =>
    cases hp with
    | fresh hno => exact absurd hk (hno _ _ hq)
    | waits hq' hk' hof =>
      obtain rfl := hi.key _ _ _ _ hq hq' (hk.trans hk'.symm)
      obtain rfl := Option.some.inj (hq.symm.trans hq')
      exact (hof.remember hiph hk).restart _
  | created hno hle =>
    cases hp with
    | fresh => exact Ipq.Of.create hiph _
    | waits hq' hk' hof => exact absurd hk' (hno _ _ hq' List.not_mem_nil)

/-- A queue that is freed for a packet is not that of a datagram to a light host. -/
theorem not_evicted (hev : qs = [] ∨ ∃ h hf, s.hosts h = some hf ∧ hf.ip = ipDst iph ∧
      IPFRAG_HIGH_THRESH < hf.ipFragMem)
    (hhost : ∀ x ∈ qs, ∃ qp, s.queues x = some qp ∧ (ipKey qp.iph).dst = ipDst iph)
    (hl : s.Light k.dst) (hq : s.queues q = some qp) (hk : ipKey qp.iph = k) : q ∉ qs := by
  intro hmem
  obtain ⟨qp', hq', hdst⟩ := hhost q hmem
  obtain rfl := Option.some.inj (hq.symm.trans hq')
  rw [hk] at hdst
  rcases hev with rfl | ⟨h, hf, hh, hip, hgt⟩
  · exact absurd hmem List.not_mem_nil
  · exact absurd (hl h hf hh (hip.trans hdst.symm)) (Int.not_le.mpr hgt)

/-- A whole packet leaves the queues of other datagrams alone. -/
theorem Whole.pending (h : Whole s s' iph l l' qs) (hne : ipKey iph ≠ k) (hl : s.Light k.dst)
    (hp : s.Pending k rs) : s'.Pending k rs := by
  refine hp.congr fun q qp hk => ?_
  rw [h.queues]
  split
  · rename_i hgone
    refine ⟨nofun, fun hq => ?_⟩
    rcases hgone with hmem | ⟨qp', hq', hk'⟩
    · exact absurd hmem (not_evicted h.evicted h.host hl hq hk)
    · obtain rfl := Option.some.inj (hq.symm.trans hq')
      exact absurd (hk'.symm.trans hk) hne
  · rfl

/-- The key of the queue that a fragment is added to. -/
theorem Target.key (ht : Target s iph qs expires q qp) (hhl : 5 ≤ ipHl iph) :
    ipKey qp.iph = ipKey iph := by
  cases ht with
  | found hq hqs hk => exact ipKey_remember hhl hk
  | created hno hq => exact ipKey_create iph expires _ hhl

/-- A packet does not change the key of its queue. -/
theorem iph_outcome {qp' : Ipq} (h : (outcome qp iph skb).1 = some qp') : qp'.iph = qp.iph := by
  rw [outcome] at h
  split at h
  · rw [← Option.some.inj h]
  · split at h
    · cases h
    · rw [← Option.some.inj h]
      rfl

/-- A fragment leaves the queues of other datagrams alone. -/
theorem Taken.pending (h : Taken clock s s' iph skb es l qs q qp) (hi : s.Table)
    (hhl : 5 ≤ ipHl iph) (hne : ipKey iph ≠ k) (hl : s.Light k.dst) (hp : s.Pending k rs) :
    s'.Pending k rs := by
  have hkey := h.target.key hhl
  refine hp.congr fun x qp' hk => ?_
  rw [h.queues]
  split
  · rename_i hx
    subst hx
    refine ⟨fun hout => ?_, fun hq' => ?_⟩
    · rw [iph_outcome hout, hkey] at hk
      exact absurd hk hne
    · cases h.target with
      | found hq hqs hk' =>
        obtain rfl := Option.some.inj (hq.symm.trans hq')
        exact absurd (hk'.symm.trans hk) hne
      | created hno hle => exact absurd (hi.queue_lt x qp' hq') (Nat.not_lt.mpr hle)
  · split
    · rename_i hmem
      exact ⟨nofun, fun hq' => absurd hmem (not_evicted h.evicted h.host hl hq' hk)⟩
    · rfl

/-- What a fragment of the datagram does to its queue, while its host is light. -/
theorem Taken.pending_self (h : Taken clock s s' iph skb es l qs q qp) (hi : s.Table)
    (hiph : Saved iph) (hl : s.Light (ipDst iph)) (hp : s.Pending (ipKey iph) rs) :
    qp.Of (rs ++ [iph]) rs ∧
      (∀ qp', (outcome qp iph skb).1 = some qp' → qp'.Of (rs ++ [iph]) (rs ++ [iph]) →
        s'.Pending (ipKey iph) (rs ++ [iph])) ∧
      ((outcome qp iph skb).1 = none → s'.Pending (ipKey iph) []) := by
  have hkey := h.target.key hiph.header
  obtain rfl : qs = [] := by
    rcases h.evicted with hnil | ⟨x, hf, hh, hip, hgt⟩
    · exact hnil
    · exact absurd (hl x hf hh hip) (Int.not_le.mpr hgt)
  have hself : s'.queues q = (outcome qp iph skb).1 := by rw [h.queues, if_pos rfl]
  refine ⟨hp.target hi hiph h.target, fun qp' hout hof => ?_, fun hout => .fresh fun x qp' hx hk => ?_⟩
  · exact .waits (hself.trans hout) ((congrArg ipKey (iph_outcome hout)).trans hkey) hof
  · rw [h.queues, if_neg List.not_mem_nil] at hx
    split at hx
    · rw [hout] at hx
      cases hx
    · rename_i hne
      cases h.target with
      | found hq hqs hk' => exact hne (hi.key _ _ _ _ hx hq (hk.trans hk'.symm))
      | created hno hle => exact hno x qp' hx List.not_mem_nil hk

/-! ## Calls -/

/-- The loop over the timers changes nothing if none has run out. -/
theorem Expires.unexpired (h : Expires clock s es s') (hno : ∀ q now, .expired q now ∉ es) :
    es = [] ∧ s'.queues = s.queues ∧ s'.hosts = s.hosts := by
  cases h with
  | empty => exact ⟨rfl, rfl, rfl⟩
  | fresh => exact ⟨rfl, jiffies_queues .., jiffies_hosts ..⟩
  | stale => exact absurd (List.mem_cons_self ..) (hno _ _)

theorem Pending.of_queues (hp : s.Pending k rs) (hq : s'.queues = s.queues) : s'.Pending k rs :=
  hp.congr fun q qp _ => by rw [hq]

theorem Light.of_hosts {ip : BitVec 32} (hl : s.Light ip) (hh : s'.hosts = s.hosts) : s'.Light ip :=
  fun h hf hs => hl h hf (hh ▸ hs)

/-- A packet of another datagram. -/
theorem Called.pending_other (h : Called clock s data l s' es) (ha : accepted data)
    (hexp : ∀ q now, .expired q now ∉ es) (hne : ipKey data ≠ k) (hl : s.Light k.dst)
    (hp : s.Pending k rs) : s'.Pending k rs := by
  cases h with
  | whole hx hi hl₁ hw hd =>
    obtain ⟨-, hqueues, hhosts⟩ := hx.unexpired fun q now hmem =>
      hexp q now (List.mem_append_left _ hmem)
    exact hd.pending hne (hl.of_hosts hhosts) (hp.of_queues hqueues)
  | fragment hx hi hl₁ hw ht =>
    obtain ⟨-, hqueues, hhosts⟩ := hx.unexpired fun q now hmem =>
      hexp q now (List.mem_append_left _ hmem)
    exact ht.pending hi.table (Saved.of_accepted ha).header ((ipKey_skb ha).symm ▸ hne)
      (hl.of_hosts hhosts) (hp.of_queues hqueues)

/-- A fragment of the datagram. -/
theorem Called.pending_self (h : Called clock s data l s' es) (ha : accepted data)
    (hwhole : isWhole data = false) (hexp : ∀ q now, .expired q now ∉ es)
    (hl : s.Light (ipDst data)) (hp : s.Pending (ipKey data) rs) : ∃ q qp now,
    es = [.fragment q (SkBuff.create data).data now,
      (outcome qp (SkBuff.create data).data (.create data)).2.elim .isf (.new q)] ∧
    qp.Of (rs ++ [(SkBuff.create data).data]) rs ∧
    (∀ qp', (outcome qp (SkBuff.create data).data (.create data)).1 = some qp' →
      qp'.Of (rs ++ [(SkBuff.create data).data]) (rs ++ [(SkBuff.create data).data]) →
        s'.Pending (ipKey data) (rs ++ [(SkBuff.create data).data])) ∧
    ((outcome qp (SkBuff.create data).data (.create data)).1 = none →
      s'.Pending (ipKey data) []) := by
  cases h with
  | whole hx hi hl₁ hw hd => exact absurd hw (by rw [hwhole]; exact Bool.false_ne_true)
  | @fragment s₁ s₂ es₁ es₂ _ _ q qp hx hi hl₁ hw ht =>
    obtain ⟨rfl, hqueues, hhosts⟩ := hx.unexpired fun q now hmem =>
      hexp q now (List.mem_append_left _ hmem)
    have hkey := ipKey_skb ha
    have hdst : ipDst (SkBuff.create data).data = ipDst data := congrArg IpKey.dst hkey
    have hp₁ : s₁.Pending (ipKey (SkBuff.create data).data) rs := hkey.symm ▸ hp.of_queues hqueues
    have hself := ht.pending_self hi.table (.of_accepted ha) (hdst.symm ▸ hl.of_hosts hhosts) hp₁
    rw [hkey] at hself
    exact ⟨q, qp, _, ht.events, hself⟩

/-! ## Runs -/

/-- The fragments among the packets `ds`, as they are saved. -/
def arrived (fs ds : List (List Byte)) : List (List Byte) :=
  (ds.filter (· ∈ fs)).map fun f => (SkBuff.create f).data

theorem arrived_concat (fs ds : List (List Byte)) (x : List Byte) : arrived fs (ds ++ [x]) =
    if x ∈ fs then arrived fs ds ++ [(SkBuff.create x).data] else arrived fs ds := by
  rw [arrived, List.filter_append]
  split
  · rename_i hx
    rw [List.filter_cons_of_pos (by simpa using hx), List.filter_nil, List.map_append]
    rfl
  · rename_i hx
    rw [List.filter_cons_of_neg (by simpa using hx), List.filter_nil, List.append_nil, arrived]

variable {d : Datagram} {fs ds : List (List Byte)}

theorem mem_of_arrived {r : List Byte} (h : r ∈ arrived fs ds) :
    r ∈ fs.map fun f => (SkBuff.create f).data := by
  obtain ⟨f, hf, rfl⟩ := List.mem_map.mp h
  exact List.mem_map_of_mem (by simpa using (List.mem_filter.mp hf).2)

/-- All have arrived if all have come. -/
theorem all_arrived_iff (hcut : d.Cut 0 fs) :
    (∀ g ∈ fs.map fun f => (SkBuff.create f).data, g ∈ arrived fs ds) ↔ ∀ f ∈ fs, f ∈ ds := by
  constructor
  · intro h f hf
    obtain ⟨x, hx, he⟩ := List.mem_map.mp (h _ (List.mem_map_of_mem hf))
    obtain ⟨hmem, hin⟩ := List.mem_filter.mp hx
    rwa [hcut.skb_injective hf (by simpa using hin) he.symm]
  · intro h g hg
    obtain ⟨f, hf, rfl⟩ := List.mem_map.mp hg
    exact List.mem_map_of_mem (List.mem_filter.mpr ⟨h f hf, by simpa using hf⟩)

/-- A call with one of the fragments, before all have come. -/
theorem Called.arrives (hcut : d.Cut 0 fs) (htwo : 2 ≤ fs.length)
    (hfits : ∀ f ∈ fs, thdr f + d.payload.length ≤ 65535) {f : List Byte} (hf : f ∈ fs)
    (h : Called clock s f l s' es) (hexp : ∀ q now, .expired q now ∉ es) (hl : s.Light d.dst)
    (hp : s.Pending d.key (arrived fs ds)) :
    ((¬ ∀ g ∈ fs, g ∈ ds ++ [f]) → (∃ q now, es = [.fragment q (SkBuff.create f).data now, .isf]) ∧
      s'.Pending d.key (arrived fs (ds ++ [f]))) ∧
    ((∀ g ∈ fs, g ∈ ds ++ [f]) → ∃ q now b,
      es = [.fragment q (SkBuff.create f).data now, .new q (b.map some)] ∧
        (∃ hdr ∈ fs, d.Restores hdr b) ∧ s'.Pending d.key []) := by
  have hpieces := hcut.pieces hfits
  obtain ⟨n, more, hpart, -⟩ := hcut.exists_part hf
  have hkey := hpart.key
  have hconcat : arrived fs (ds ++ [f]) = arrived fs ds ++ [(SkBuff.create f).data] := by
    rw [arrived_concat, if_pos hf]
  have hsub : ∀ r ∈ arrived fs ds ++ [(SkBuff.create f).data],
      r ∈ fs.map fun f => (SkBuff.create f).data := fun r hr => mem_of_arrived (hconcat ▸ hr)
  obtain ⟨q, qp, now, hes, hof, hstay, hgone⟩ := h.pending_self hpart.accepted
    (hcut.not_whole htwo hf) hexp (hpart.dst.symm ▸ hl) (hkey.symm ▸ hp)
  rw [hkey] at hstay hgone
  rw [← all_arrived_iff hcut, hconcat]
  constructor
  · intro hmiss
    obtain ⟨qp', hout, hof'⟩ := hpieces.outcome_missing hsub hof hmiss
    rw [create_skb hpart.accepted] at hout
    rw [hout] at hes hstay
    exact ⟨⟨q, now, hes⟩, hstay qp' rfl hof'⟩
  · intro hall
    obtain ⟨buf, hout, hdr, hmem, hre⟩ := hpieces.outcome_complete hsub hof hall
    rw [create_skb hpart.accepted] at hout
    rw [hout] at hes hgone
    obtain ⟨hbuf, hrestores⟩ := hpieces.restores hsub hre
    obtain ⟨f₀, hf₀, rfl⟩ := List.mem_map.mp hmem
    refine ⟨q, now, buf.map (·.getD 0), ?_, ⟨f₀, hf₀, hrestores.of_skb (hcut.accepted hf₀)⟩, hgone rfl⟩
    rw [← hbuf]
    exact hes

/-- As long as a fragment is missing, those that have come wait in a queue. -/
theorem run_pending (hcut : d.Cut 0 fs) (htwo : 2 ≤ fs.length)
    (hfits : ∀ f ∈ fs, thdr f + d.payload.length ≤ 65535) {s₀ : IpFragment}
    (hi₀ : s₀.Inv l) (hno : s₀.Pending d.key [])
    (hr : run (fun s data => s.startIpfragProc clock data) s₀ ds = some (s, es))
    (hmix : ∀ x ∈ ds, x ∈ fs ∨ ipKey x ≠ d.key) (hmiss : ¬ ∀ f ∈ fs, f ∈ ds)
    (hexp : ∀ q now, .expired q now ∉ es)
    (hl : Along (fun s data => s.startIpfragProc clock data) (fun s _ => s.Light d.dst) s₀ ds) :
    (∃ l, s.Inv l) ∧ s.Pending d.key (arrived fs ds) := by
  refine run_induction_along (I := fun ds s es => (∀ x ∈ ds, x ∈ fs ∨ ipKey x ≠ d.key) →
      (¬ ∀ f ∈ fs, f ∈ ds) → (∀ q now, .expired q now ∉ es) →
        (∃ l, s.Inv l) ∧ s.Pending d.key (arrived fs ds))
    (fun _ _ _ => ⟨⟨l, hi₀⟩, hno⟩) ?_ hr hl hmix hmiss hexp
  intro ds s₁ es₁ x s₂ es₂ hr₁ ih hl₁ hs hmix hmiss hexp
  obtain ⟨⟨l₁, hi₁⟩, hp₁⟩ := ih (fun y hy => hmix y (List.mem_append_left _ hy))
    (fun hall => hmiss fun f hf => List.mem_append_left _ (hall f hf))
    (fun q now hmem => hexp q now (List.mem_append_left _ hmem))
  have hexp₂ : ∀ q now, .expired q now ∉ es₂ := fun q now hmem =>
    hexp q now (List.mem_append_right _ hmem)
  rcases hi₁.called hs with ⟨ha, rfl, -⟩ | ⟨ha, hc⟩
  · -- A packet that is not accepted is no fragment.
    have hx : x ∉ fs := fun hx => by
      rw [hcut.accepted hx] at ha
      cases ha
    rw [arrived_concat, if_neg hx]
    exact ⟨⟨l₁, hi₁⟩, hp₁⟩
  · refine ⟨hc.inv, ?_⟩
    by_cases hx : x ∈ fs
    · exact ((hc.arrives hcut htwo hfits hx hexp₂ hl₁ hp₁).1 hmiss).2
    · rw [arrived_concat, if_neg hx]
      exact hc.pending_other ha hexp₂ ((hmix x (by simp)).resolve_left hx) hl₁ hp₁

/-- The fragments of a datagram are put together again: until all have come, in any order and some
more than once, each is kept, and with the last of them the datagram is returned and no queue is
left, whatever packets of other datagrams come between them. -/
theorem fragments_reassembled {n : ℕ+} {ds₀ : List (List Byte)} {s₀ : IpFragment}
    {es₀ es' : List IpEvent} (hcut : d.Cut 0 fs) (htwo : 2 ≤ fs.length)
    (hfits : ∀ f ∈ fs, thdr f + d.payload.length ≤ 65535)
    (hr₀ : runIp clock n ds₀ = some (s₀, es₀))
    (hno : ∀ q qp, s₀.queues q = some qp → ipKey qp.iph ≠ d.key)
    (hr : run (fun s data => s.startIpfragProc clock data) s₀ ds = some (s, es))
    (hmix : ∀ x ∈ ds, x ∈ fs ∨ ipKey x ≠ d.key) (hmiss : ∃ g ∈ fs, g ∉ ds) {f : List Byte}
    (hf : f ∈ fs) (hs : s.startIpfragProc clock f = some (s', es'))
    (hexp : ∀ q now, .expired q now ∉ es ++ es')
    (hl : Along (fun s data => s.startIpfragProc clock data) (fun s _ => s.Light d.dst) s₀
      (ds ++ [f])) :
    if ∃ g ∈ fs, g ∉ ds ++ [f] then ∃ q iph now, es' = [.fragment q iph now, .isf]
    else ∃ q iph now b, es' = [.fragment q iph now, .new q (b.map some)] ∧
      (∃ hdr ∈ fs, d.Restores hdr b) ∧ ∀ q qp, s'.queues q = some qp → ipKey qp.iph ≠ d.key := by
  obtain ⟨l, hi₀⟩ := runIp_inv hr₀
  have hmiss' : ¬ ∀ f ∈ fs, f ∈ ds := fun hall => by
    obtain ⟨g, hg, hnot⟩ := hmiss
    exact hnot (hall g hg)
  obtain ⟨⟨l₁, hi⟩, hp⟩ := run_pending hcut htwo hfits hi₀ (.fresh hno) hr hmix hmiss'
    (fun q now hmem => hexp q now (List.mem_append_left _ hmem)) hl.left
  rcases hi.called hs with ⟨ha, -, -⟩ | ⟨ha, hc⟩
  · rw [hcut.accepted hf] at ha
    cases ha
  · obtain ⟨hstay, hdone⟩ := hc.arrives hcut htwo hfits hf
      (fun q now hmem => hexp q now (List.mem_append_right _ hmem)) (hl ds f [] s es rfl hr) hp
    split
    · rename_i hmiss₁
      obtain ⟨g, hg, hnot⟩ := hmiss₁
      obtain ⟨⟨q, now, he⟩, -⟩ := hstay fun hall => hnot (hall g hg)
      exact ⟨q, _, now, he⟩
    · rename_i hall
      simp only [not_exists, not_and, not_not] at hall
      obtain ⟨q, now, b, he, hrestores, hp'⟩ := hdone hall
      refine ⟨q, _, now, b, he, hrestores, ?_⟩
      cases hp' with
      | fresh h => exact h
      | waits _ _ hof => exact absurd hof.mem List.not_mem_nil

/-- The datagram of sixteen bytes that two of the packets `piece` make. -/
def sixteen : Datagram :=
  ⟨ipSrc (piece 0x20 0 8), ipDst (piece 0x20 0 8), ipId (piece 0x20 0 8), 17, List.replicate 16 0⟩

/-- Its two fragments. -/
def halves : List (List Byte) := [piece 0x20 0 8, piece 0 1 8]

theorem cut_halves : sixteen.Cut 0 halves := by
  have hfirst : sixteen.Fragment 0 8 true (piece 0x20 0 8) := by
    refine ⟨rfl, rfl, rfl, rfl, ?_, ?_, ?_, ?_, ?_, ?_, ?_⟩ <;> decide
  have hsecond : sixteen.Fragment 8 8 false (piece 0 1 8) := by
    refine ⟨rfl, rfl, rfl, rfl, ?_, ?_, ?_, ?_, ?_, ?_, ?_⟩ <;> decide
  exact .more (by decide) (by decide) hfirst (.last (by decide) hsecond)

/-- The second half twice, and a fragment of another datagram. -/
def beforeLast : List (List Byte) := [piece 0 1 8, piece 0 1 8, (piece 0x20 0 8).set 5 2]

theorem light_of_all {ip : BitVec 32} (hi : s.Table) (h : (List.range s.next).all fun x =>
    (s.hosts x).all fun hf => decide (hf.ipFragMem ≤ IPFRAG_HIGH_THRESH)) : s.Light ip := by
  intro x hf hh _
  have hx := List.all_eq_true.mp h x (List.mem_range.mpr (hi.host_lt x hf hh))
  rw [hh] at hx
  exact of_decide_eq_true hx

theorem fragments_reassembled_halves : ∃ s es s' es' q iph now b,
    runIp (fun _ => 1000) 1 beforeLast = some (s, es) ∧
      s.startIpfragProc (fun _ => 1000) (piece 0x20 0 8) = some (s', es') ∧
      es' = [.fragment q iph now, .new q (b.map some)] ∧ ∃ hdr ∈ halves, sixteen.Restores hdr b := by
  obtain ⟨s, es, hr, l, hi⟩ := runIp_total (fun _ => 1000) 1 beforeLast
  obtain ⟨s', es', hs, -⟩ := hi.startIpfragProc (fun _ => 1000) (piece 0x20 0 8)
  have hall : Along (fun s data => s.startIpfragProc (fun _ => 1000) data)
      (fun s _ => (List.range s.next).all fun x =>
        (s.hosts x).all fun hf => decide (hf.ipFragMem ≤ IPFRAG_HIGH_THRESH)) (create 1)
      (beforeLast ++ [piece 0x20 0 8]) := by decide
  have hexp : (runIp (fun _ => 1000) 1 (beforeLast ++ [piece 0x20 0 8])).all (fun r =>
      r.2.all fun e => match e with | .expired _ _ => false | _ => true) := by decide
  rw [show runIp _ _ (beforeLast ++ [piece 0x20 0 8]) = some (s', es ++ es') from
    run_concat.mpr ⟨s, es, s', es', hr, hs, rfl⟩, Option.all_some, List.all_eq_true] at hexp
  have hr₀ : runIp (fun _ => 1000) 1 [] = some (create 1, []) := rfl
  have hresult := fragments_reassembled cut_halves (by decide) (by decide) hr₀ nofun hr
    (by decide) ⟨piece 0x20 0 8, by decide, by decide⟩ (by decide) hs
    (fun q now hmem => absurd (hexp _ hmem) (by simp))
    fun is₁ i is₂ s₁ os₁ he hr₁ =>
      light_of_all (runIp_inv hr₁).choose_spec.table (hall is₁ i is₂ s₁ os₁ he hr₁)
  rw [if_neg (by decide)] at hresult
  obtain ⟨q, iph, now, b, he, hrestores, -⟩ := hresult
  exact ⟨s, es, s', es', q, iph, now, b, hr, hs, he, hrestores⟩

/-- A datagram that comes in one piece is none of fragments: it is passed on as it is. -/
theorem onePiece_notf : ∃ d : Datagram, d.Cut 0 [piece 0 0 8] ∧
    thdr (piece 0 0 8) + d.payload.length ≤ 65535 ∧
    ∃ s, runIp (fun _ => 1000) 1 [piece 0 0 8] = some (s, [.notf]) :=
  ⟨⟨ipSrc (piece 0 0 8), ipDst (piece 0 0 8), ipId (piece 0 0 8), 17, List.replicate 8 0⟩,
    .last (by decide)
      ⟨rfl, rfl, rfl, rfl, by decide, by decide, by decide, by decide, by decide, by decide, by decide⟩,
    by decide, _, rfl⟩

end IpFragment

end Noff
