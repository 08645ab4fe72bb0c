import Mathlib.Tactic.IntervalCases
import Noff.Ip.Received

/-!
# What is glued has been received

A queue that `ipDone` accepts and `ipGlue` does not give up has its fragments end to end, from
offset 0 up to its length (`Ipq.Of.tiled`); so every byte of the buffer is written, and is one that
a packet carried for its position (`ipGlue_sound`).
-/

namespace Noff

/-! ## End to end -/

/-- The fragments follow each other without gaps, from `a` to `b`. -/
inductive IpFrag.Tiled : Int → Int → List IpFrag → Prop
  | nil {a : Int} : Tiled a a []
  | cons {a b : Int} {fp : IpFrag} {rest : List IpFrag} (ho : fp.offset = a) (hlen : 0 ≤ fp.len)
      (he : fp.endOff = a + fp.len) (h : Tiled fp.endOff b rest) : Tiled a b (fp :: rest)

variable {a b len count count' : Int} {fp : IpFrag} {fragments : List IpFrag} {ihlen i k : Nat}
  {skb skb' buf : Glued} {bytes : List Byte} {hs : List (List Byte)} {qp : Ipq}

theorem IpFrag.Tiled.le (h : IpFrag.Tiled a b fragments) : a ≤ b := by
  induction h with
  | nil => exact le_rfl
  | cons ho hlen he h ih => omega

/-- The last end is the largest. -/
theorem IpFrag.Tiled.end_le (h : IpFrag.Tiled a b fragments) (hfp : fp ∈ fragments) :
    fp.endOff ≤ b := by
  induction h with
  | nil => cases hfp
  | cons ho hlen he h ih =>
    rcases List.mem_cons.mp hfp with rfl | hfp
    · exact h.le
    · exact ih hfp

/-- It is that of a fragment, if there is one. -/
theorem IpFrag.Tiled.exists_end (h : IpFrag.Tiled a b fragments) (hne : fragments ≠ []) :
    ∃ fp ∈ fragments, fp.endOff = b := by
  induction h with
  | nil => exact absurd rfl hne
  | @cons a b fp rest ho hlen he h ih =>
    by_cases hrest : rest = []
    · subst hrest
      cases h
      exact ⟨fp, List.mem_cons_self .., rfl⟩
    · obtain ⟨fp', hfp', hend⟩ := ih hrest
      exact ⟨fp', List.mem_cons_of_mem _ hfp', hend⟩

theorem IpFrag.Tiled.exists_start (h : IpFrag.Tiled a b fragments) (hne : fragments ≠ []) :
    ∃ fp ∈ fragments, fp.offset = a := by
  cases h with
  | nil => exact absurd rfl hne
  | cons ho hlen he h => exact ⟨_, List.mem_cons_self .., ho⟩

theorem IpFrag.Chain.tiled (h : IpFrag.Chain fragments) (hlen : ∀ fp ∈ fragments, 0 ≤ fp.len)
    (hge : ∀ fp ∈ fragments, a ≤ fp.offset) (hc : IpFrag.connected a fragments) :
    ∃ b, IpFrag.Tiled a b fragments := by
  induction fragments generalizing a with
  | nil => exact ⟨a, .nil⟩
  | cons fp rest ih =>
    have hmem : fp ∈ fp :: rest := List.mem_cons_self ..
    have hfp := hge fp hmem
    have hl := h.len fp hmem
    rw [IpFrag.connected] at hc
    split at hc
    · cases hc
    · obtain ⟨b, hb⟩ := ih h.tail (fun x hx => hlen x (List.mem_cons_of_mem _ hx))
        (fun x hx => ((List.pairwise_cons.mp h.sorted).1 x hx).2) hc
      exact ⟨b, .cons (by omega) (hlen fp hmem) (by omega) hb⟩

/-! ## The copies -/

theorem Glued.length_write (h : i + bytes.length ≤ skb.length) :
    (skb.write i bytes).length = skb.length := by
  rw [write, List.length_append, List.length_append, List.length_take, List.length_map,
    List.length_drop]
  omega

/-- `memmove` changes what it copies to. -/
theorem Glued.getElem?_write (h : i + bytes.length ≤ skb.length) (k : Nat) :
    (skb.write i bytes)[k]? =
      if i ≤ k ∧ k < i + bytes.length then some (some (byteAt bytes (k - i))) else skb[k]? := by
  have htake : (skb.take i).length = i := by
    rw [List.length_take]
    omega
  have hlen : (skb.take i ++ bytes.map some).length = i + bytes.length := by
    rw [List.length_append, htake, List.length_map]
  rw [write]
  by_cases hk : k < i + bytes.length
  · rw [List.getElem?_append_left (hlen ▸ hk)]
    by_cases hik : i ≤ k
    · have hlt : k - i < bytes.length := by omega
      rw [if_pos ⟨hik, hk⟩, List.getElem?_append_right (htake.symm ▸ hik), htake, List.getElem?_map,
        byteAt, List.getD_eq_getElem?_getD, List.getElem?_eq_getElem hlt, Option.getD_some,
        Option.map_some]
    · rw [if_neg (by omega), List.getElem?_append_left (by omega), List.getElem?_take_of_lt (by omega)]
  · rw [if_neg (by omega), List.getElem?_append_right (by omega), hlen, List.getElem?_drop]
    congr 1
    omega

/-- The loop over the fragments gives up, or has room for every one. -/
theorem Glued.copy_isSome (h : skb.copy ihlen len count fragments = some (skb', count')) :
    ∀ fp ∈ fragments, 0 ≤ fp.len ∧ fp.offset + ihlen + fp.len ≤ len := by
  induction fragments generalizing skb count with
  | nil => exact nofun
  | cons fp rest ih =>
    rw [copy] at h
    split at h
    · cases h
    · intro x hx
      rcases List.mem_cons.mp hx with rfl | hx
      · omega
      · exact ih h x hx

/-- The loop copies each fragment to its place, where they are end to end. -/
theorem Glued.copy_tiled (h : skb.copy ihlen len count fragments = some (skb', count'))
    (ht : IpFrag.Tiled a b fragments) (ha : 0 ≤ a) (hlen : skb.length = len) :
    skb'.length = skb.length ∧ count' = count + (b - a) ∧
    (∀ k : Nat, ¬ (ihlen + a ≤ k ∧ k < ihlen + b) → skb'[k]? = skb[k]?) ∧
    ∀ p : Nat, a ≤ p → p < b → ∃ fp ∈ fragments, fp.offset ≤ p ∧ p < fp.endOff ∧
      skb'[ihlen + p]? = some (some (byteAt fp.skb.data (fp.ptr.toNat + (p - fp.offset).toNat))) := by
  induction ht generalizing skb count with
  | nil =>
    obtain ⟨rfl, rfl⟩ := Prod.mk.injEq .. ▸ Option.some.inj h
    exact ⟨rfl, by omega, fun k _ => rfl, fun p _ _ => by omega⟩
  | @cons a b fp rest ho hpos he ht ih =>
    have hfit := copy_isSome h fp (List.mem_cons_self ..)
    rw [copy, if_neg (by omega)] at h
    have hroom : ihlen + fp.offset.toNat + (bytesAt fp.skb.data fp.ptr.toNat fp.len.toNat).length ≤
        skb.length := by
      rw [length_bytesAt]
      omega
    have hwrite := getElem?_write hroom
    rw [length_bytesAt] at hwrite
    obtain ⟨hlength, hcount, hrest, hbytes⟩ := ih h (by omega)
      ((length_write hroom).symm ▸ hlen)
    have hb := ht.le
    refine ⟨hlength.trans (length_write hroom), by omega, fun k hk => ?_, fun p hp hpb => ?_⟩
    · rw [hrest k (by omega), hwrite, if_neg (by omega)]
    · by_cases hpe : p < fp.endOff
      · refine ⟨fp, List.mem_cons_self .., by omega, hpe, ?_⟩
        rw [hrest _ (by omega), hwrite, if_pos (by omega), IpFragment.byteAt_bytesAt _ _ (by omega)]
        congr 4
        omega
      · obtain ⟨x, hx, hox, hxe, hbyte⟩ := hbytes p (by omega) hpb
        exact ⟨x, List.mem_cons_of_mem _ hx, hox, hxe, hbyte⟩

/-! ## The buffer -/

theorem Glued.byteAt_map {v : Byte} (h : skb[k]? = some (some v)) :
    byteAt (skb.map (·.getD 0)) k = v := by
  rw [byteAt, List.getD_eq_getElem?_getD, List.getElem?_map, h]
  rfl

/-- What `ipGlue` does, if it does not give up. -/
theorem Ipq.glue_eq_some (h : qp.glue = some buf) : ∃ skb count,
    qp.ihlen + qp.len ≤ 65535 ∧
    Glued.copy qp.ihlen (qp.ihlen + qp.len)
      (Glued.write (List.replicate (qp.ihlen + qp.len).toNat none) 0 (bytesAt qp.iph 0 qp.ihlen)) 0
      qp.fragments = some (skb, count) ∧
    buf = (skb.write 6 [0, 0]).write 2
      [(BitVec.ofInt 16 (ipHl ((skb.write 6 [0, 0]).map (·.getD 0)) * 4 + count)).extractLsb' 8 8,
        (BitVec.ofInt 16 (ipHl ((skb.write 6 [0, 0]).map (·.getD 0)) * 4 + count)).extractLsb' 0 8] := by
  rw [glue] at h
  dsimp only at h
  split at h
  · cases h
  · rename_i hle
    obtain ⟨⟨skb, count⟩, hcopy, he⟩ := Option.bind_eq_some_iff.mp h
    exact ⟨skb, count, by omega, hcopy, (Option.some.inj he).symm⟩

/-- A queue that is glued has its fragments end to end, from 0 to its length. -/
theorem Ipq.Of.tiled {rs : List (List Byte)} (h : qp.Of hs rs) (hd : qp.done)
    (hfit : ∀ fp ∈ qp.fragments, 0 ≤ fp.len ∧ fp.offset + qp.ihlen + fp.len ≤ qp.ihlen + qp.len) :
    qp.fragments ≠ [] ∧ IpFrag.Tiled 0 qp.len qp.fragments := by
  rw [Ipq.done] at hd
  split at hd
  · cases hd
  · rename_i hne
    obtain ⟨fp, hfp, hle⟩ := h.reached hne
    have hnil := List.ne_nil_of_mem hfp
    obtain ⟨b, hb⟩ := h.chain.tiled (fun fp hfp => (hfit fp hfp).1) h.chain.nonneg hd
    obtain ⟨fp', hfp', hend⟩ := hb.exists_end hnil
    have hb_le := hb.end_le hfp
    have hlen' := h.chain.len fp' hfp'
    have hfit' := (hfit fp' hfp').2
    obtain rfl : b = qp.len := by omega
    exact ⟨hnil, hb⟩

/-- The buffer is the datagram of `n` bytes of payload that the packets `hs` have carried, with the
header of the last one of them that has offset 0, which is `hdr`. -/
structure Reassembled (hs : List (List Byte)) (hdr : List Byte) (n : Nat) (buf : Glued) : Prop where
  last : ∃ hs₁ hs₂, hs = hs₁ ++ hdr :: hs₂ ∧ ∀ iph ∈ hs₂, fragOffset iph ≠ 0
  offset : fragOffset hdr = 0
  key : ∀ iph ∈ hs, ipKey iph = ipKey hdr
  length : buf.length = 4 * ipHl hdr + n
  le : 4 * ipHl hdr + n ≤ 65535
  written : none ∉ buf
  header : ∀ k < 4 * ipHl hdr, k ∉ [2, 3, 6, 7] → buf[k]? = some (some (byteAt hdr k))
  ipLen : ipLen (buf.map (·.getD 0)) = 4 * ipHl hdr + n
  ipOff : ipOff (buf.map (·.getD 0)) = 0
  payload : ∀ p < n, ∃ iph ∈ hs, fragOffset iph ≤ p ∧ p < endOf iph ∧
    buf[4 * ipHl hdr + p]? = some (some (byteAt iph (4 * ipHl iph + (p - fragOffset iph))))

/-- The bytes that `ipGlue` puts into the header last. -/
theorem Glued.patch (off len : Byte × Byte) (h : 8 ≤ skb.length) (k : Nat) :
    ((skb.write 6 [off.1, off.2]).write 2 [len.1, len.2])[k]? =
      if k = 2 then some (some len.1) else if k = 3 then some (some len.2)
      else if k = 6 then some (some off.1) else if k = 7 then some (some off.2) else skb[k]? := by
  have hoff : 6 + [off.1, off.2].length ≤ skb.length := h
  have hlen : 2 + [len.1, len.2].length ≤ (skb.write 6 [off.1, off.2]).length := by
    rw [length_write hoff]
    exact le_trans (by simp) h
  rw [getElem?_write hlen, getElem?_write hoff]
  simp only [List.length_cons, List.length_nil, byteAt]
  rcases Nat.lt_or_ge k 8 with hk | hk
  · interval_cases k <;> rfl
  · rw [if_neg (by omega), if_neg (by omega), if_neg (by omega), if_neg (by omega),
      if_neg (by omega), if_neg (by omega)]

/-- A byte that was copied from a fragment is one of the packet that it is from. -/
theorem IpFrag.From.byteAt_eq {iph : List Byte} (h : fp.From iph) {p : Nat} (hp : fp.offset ≤ p) :
    byteAt fp.skb.data (fp.ptr.toNat + (p - fp.offset).toNat) =
      byteAt iph (4 * ipHl iph + (p - fragOffset iph)) := by
  have hoff := h.offset
  have hptr := h.ptr
  rw [h.data]
  congr 1
  omega

/-- What the buffer has, before the header is put right. -/
theorem Ipq.Of.copied {skb : Glued} (h : qp.Of hs hs) (hd : qp.done)
    (hcopy : Glued.copy qp.ihlen (qp.ihlen + qp.len)
      (Glued.write (List.replicate (qp.ihlen + qp.len).toNat none) 0 (bytesAt qp.iph 0 qp.ihlen)) 0
      qp.fragments = some (skb, count)) :
    ∃ n : Nat, qp.len = n ∧ count = n ∧ skb.length = qp.ihlen + n ∧
      (∀ k < qp.ihlen, skb[k]? = some (some (byteAt (headerOf hs) k))) ∧
      (∀ p < n, ∃ iph ∈ hs, fragOffset iph ≤ p ∧ p < endOf iph ∧
        skb[qp.ihlen + p]? = some (some (byteAt iph (4 * ipHl iph + (p - fragOffset iph))))) ∧
      ∃ iph ∈ hs, fragOffset iph = 0 := by
  obtain ⟨hne, ht⟩ := h.tiled hd (Glued.copy_isSome hcopy)
  obtain ⟨n, hn⟩ := Int.eq_ofNat_of_zero_le ht.le
  have hroom : 0 + (bytesAt qp.iph 0 qp.ihlen).length ≤
      (List.replicate (qp.ihlen + qp.len).toNat (none : Option Byte)).length := by
    rw [length_bytesAt, List.length_replicate]
    omega
  have hstart := Glued.length_write hroom
  have hwrite := Glued.getElem?_write hroom
  rw [List.length_replicate] at hstart
  rw [length_bytesAt] at hwrite
  obtain ⟨hlength, hcount, hrest, hbytes⟩ := Glued.copy_tiled hcopy ht le_rfl (by omega)
  refine ⟨n, hn, by omega, by omega, fun k hk => ?_, fun p hp => ?_, ?_⟩
  · have hbyte : byteAt qp.iph k = byteAt (headerOf hs) k := by
      rw [h.iph, IpFragment.byteAt_bytesAt _ _ (by rw [← h.ihlen]; omega), Nat.zero_add]
    rw [hrest k (by omega), hwrite, if_pos (by omega), IpFragment.byteAt_bytesAt _ _ (by omega),
      ← hbyte]
    simp
  · obtain ⟨fp, hfp, hlo, hhi, hbyte⟩ := hbytes p (by omega) (by omega)
    obtain ⟨iph, hiph, -, hfrom⟩ := h.exists_from hfp
    have hoff := hfrom.offset
    refine ⟨iph, hiph, by omega, hfrom.endOff ▸ hhi, ?_⟩
    rw [hbyte, hfrom.byteAt_eq hlo]
  · obtain ⟨fp, hfp, hstart⟩ := ht.exists_start hne
    obtain ⟨iph, hiph, -, hfrom⟩ := h.exists_from hfp
    have hoff := hfrom.offset
    exact ⟨iph, hiph, by omega⟩

theorem Ipq.Of.reassembled (h : qp.Of hs hs) (hd : qp.done) (hg : qp.glue = some buf) :
    ∃ n : Nat, qp.len = n ∧ Reassembled hs (headerOf hs) n buf := by
  obtain ⟨skb, count, hle, hcopy, rfl⟩ := Ipq.glue_eq_some hg
  obtain ⟨n, hn, rfl, hlength, hheader, hpayload, hfirst⟩ := h.copied hd hcopy
  obtain ⟨hs₁, hs₂, heq, hoff, hlast⟩ := headerOf_last (fun iph hiph => (h.saved iph hiph).ne_nil) hfirst
  have hhl := (h.saved _ h.mem).header
  have hihlen := h.ihlen
  have hroom : 6 + [(0 : Byte), 0].length ≤ skb.length := by
    show 8 ≤ skb.length
    omega
  have hfix (k : Nat) := Glued.getElem?_write hroom k
  have hb₀ : byteAt ((skb.write 6 [0, 0]).map (·.getD 0)) 0 = byteAt (headerOf hs) 0 := by
    refine Glued.byteAt_map ?_
    rw [hfix, if_neg (by omega), hheader 0 (by omega)]
  have hhlen : ipHl ((skb.write 6 [0, 0]).map (·.getD 0)) = ipHl (headerOf hs) := by
    rw [ipHl, hb₀, ipHl]
  rw [hhlen]
  generalize hv : BitVec.ofInt 16 ((ipHl (headerOf hs) : Int) * 4 + n) = v
  have hvn : v.toNat = 4 * ipHl (headerOf hs) + n := by
    rw [← hv, BitVec.toNat_ofInt]
    omega
  have hpatch (k : Nat) : ((skb.write 6 [0, 0]).write 2 [v.extractLsb' 8 8, v.extractLsb' 0 8])[k]? = _ :=
    Glued.patch (0, 0) (v.extractLsb' 8 8, v.extractLsb' 0 8) (by omega) k
  have hlen' : ((skb.write 6 [0, 0]).write 2 [v.extractLsb' 8 8, v.extractLsb' 0 8]).length =
      4 * ipHl (headerOf hs) + n := by
    have hroom₂ : 2 + [v.extractLsb' 8 8, v.extractLsb' 0 8].length ≤
        (skb.write 6 [0, 0]).length := by
      rw [Glued.length_write hroom]
      exact le_trans (by simp) hroom
    rw [Glued.length_write hroom₂, Glued.length_write hroom]
    omega
  have hkey : ∀ iph ∈ hs, ipKey iph = ipKey (headerOf hs) := fun iph hiph =>
    (h.key iph hiph).trans (h.key _ h.mem).symm
  refine ⟨n, hn, ⟨hs₁, hs₂, heq, hlast⟩, hoff, hkey, hlen', by omega, fun hnone => ?_,
    fun k hk hne => ?_, ?_, ?_, fun p hp => ?_⟩
  · obtain ⟨k, hk⟩ := List.mem_iff_getElem?.mp hnone
    obtain ⟨hlt, -⟩ := List.getElem?_eq_some_iff.mp hk
    rw [hpatch] at hk
    rcases Nat.lt_or_ge k qp.ihlen with hki | hki
    · rw [hheader k hki] at hk
      split_ifs at hk <;> cases hk
    · obtain ⟨iph, -, -, -, hbyte⟩ := hpayload (k - qp.ihlen) (by omega)
      rw [Nat.add_sub_cancel' hki] at hbyte
      rw [hbyte] at hk
      split_ifs at hk <;> cases hk
  · simp only [List.mem_cons, List.not_mem_nil, or_false, not_or] at hne
    rw [hpatch, if_neg hne.1, if_neg hne.2.1, if_neg hne.2.2.1, if_neg hne.2.2.2, hheader k (by omega)]
  · rw [ipLen, be16, Glued.byteAt_map (hpatch 2), Glued.byteAt_map (hpatch 3), ← hvn]
    congr 1
    exact BitVec.extractLsb'_append_extractLsb'_eq_extractLsb' rfl |>.trans (by simp)
  · rw [ipOff, be16, Glued.byteAt_map (hpatch 6), Glued.byteAt_map (hpatch 7)]
    rfl
  · obtain ⟨iph, hiph, hlo, hhi, hbyte⟩ := hpayload p hp
    refine ⟨iph, hiph, hlo, hhi, ?_⟩
    rw [hpatch, if_neg (by omega), if_neg (by omega), if_neg (by omega), if_neg (by omega), ← hbyte,
      hihlen, Nat.mul_comm]

namespace IpFragment

/-- Whatever packets come, a datagram that is returned is the one that packets of its queue have
carried. -/
theorem ipGlue_sound (clock : Nat → Int) (n : ℕ+) (ds : List (List Byte)) :
    ∃ s es, runIp clock n ds = some (s, es) ∧
      ∀ es₁ q buf es₂, es = es₁ ++ .new q buf :: es₂ →
        (∀ iph ∈ received es₁ q, ∃ data ∈ ds, accepted data ∧ iph = (SkBuff.create data).data) ∧
        ∃ (qp : Ipq) (hdr : List Byte) (k : Nat), qp.glue = some buf ∧ qp.len = k ∧
          lenOf (received es₁ q) = k ∧ Reassembled (received es₁ q) hdr k buf := by
  obtain ⟨s, es, hr, -⟩ := runIp_total clock n ds
  refine ⟨s, es, hr, fun es₁ q buf es₂ he => ⟨fun iph hiph => ?_, ?_⟩⟩
  · refine runIp_mem_received hr q iph ?_
    rw [he, received_append]
    exact List.mem_append_left _ hiph
  · obtain ⟨qp, hof, hd, hg⟩ := (runIp_received hr).2 es₁ q buf es₂ he
    obtain ⟨k, hk, hre⟩ := hof.reassembled hd hg
    exact ⟨qp, _, k, hg, hk, hof.len.symm.trans hk, hre⟩

end IpFragment

end Noff
