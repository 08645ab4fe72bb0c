import Noff.App.Reports
import Noff.Ip.Passed

/-!
# The sizes that sessions report

`onTcpData` is bound to the datagrams that `IpFragment` hands on, and takes what comes with
one as its length. That is the size of a buffer, from 183 to 199 bytes more than `ip_len`
(`padded_of_wellFormed`). So a session reports the sizes of its datagrams where none of them is
small and where what is added to them, in each direction, goes away modulo `2^32`
(`sizesRight_iff`). That takes more than 21 million datagrams (`Cancels.length`).
-/

namespace Noff

namespace TcpData

variable (p : TcpData)

/-- The size of the datagram without the IP header. -/
def trueSize : Int := ipLen p.iphdr - 4 * ipHl p.iphdr

/-- What the length says in addition. -/
def excess : Int := p.len - ipLen p.iphdr

theorem size_eq : p.size = p.trueSize + p.excess := by
  rw [size, trueSize, excess]
  omega

/-- The length is that of a buffer for the datagram. -/
structure Padded : Prop where
  trueSize : 0 ≤ p.trueSize
  excess_ge : 183 ≤ p.excess
  excess_le : p.excess ≤ 199

end TcpData

/-- What `onTcpData` is called with for the datagrams that are handed on. -/
def tcpData (hs : List (Handed Timeval)) : List TcpData :=
  (hs.filter fun h => ipP h.iph = IPPROTO_TCP).map fun h => ⟨h.iph, h.skblen, h.timeStamp⟩

theorem padded_of_wellFormed {h : Handed Timeval} (hw : h.WellFormed) :
    (⟨h.iph, h.skblen, h.timeStamp⟩ : TcpData).Padded := by
  obtain ⟨needFree, hskblen⟩ := hw.skblen
  have hle := hw.header_le
  have hex : (⟨h.iph, h.skblen, h.timeStamp⟩ : TcpData).excess = h.skblen - ipLen h.iph := rfl
  have hlo : ipLen h.iph + 183 ≤ h.skblen := by
    rw [hskblen, IpFragment.skblenOf]
    split <;> omega
  have hhi : h.skblen ≤ ipLen h.iph + 199 := by
    rw [hskblen, IpFragment.skblenOf]
    split <;> omega
  refine ⟨?_, by rw [hex]; omega, by rw [hex]; omega⟩
  show (0 : Int) ≤ ipLen h.iph - 4 * ipHl h.iph
  omega

/-! ## Counters -/

/-- The sizes and the number of small packets are those of the datagrams. -/
structure Counters.SizesRight (c : Counters) (ps : List TcpData) : Prop where
  flowSize : c.flowSize.toInt = (ps.map (·.trueSize)).sum
  smallPacketNum : c.smallPacketNum.toInt = ps.countP (·.trueSize ≤ 64)

/-- What is added to the sizes of the packets goes away in 32 bits, and none of them is small. -/
structure Cancels (ps : List TcpData) : Prop where
  large : ∀ p ∈ ps, 64 < p.trueSize
  sum_lt : (ps.map (·.trueSize)).sum < 2 ^ 31
  excess : (2 ^ 32 : Int) ∣ (ps.map (·.excess)).sum

section

variable {ps : List TcpData}

theorem sum_size (ps : List TcpData) :
    (ps.map (·.size)).sum = (ps.map (·.trueSize)).sum + (ps.map (·.excess)).sum := by
  rw [← List.sum_map_add]
  simp only [TcpData.size_eq]

theorem sum_trueSize_nonneg (h : ∀ p ∈ ps, p.Padded) : 0 ≤ (ps.map (·.trueSize)).sum := by
  refine List.sum_nonneg fun x hx => ?_
  obtain ⟨p, hp, rfl⟩ := List.mem_map.mp hx
  exact (h p hp).trueSize

theorem sum_excess (h : ∀ p ∈ ps, p.Padded) :
    183 * ps.length ≤ (ps.map (·.excess)).sum ∧ (ps.map (·.excess)).sum ≤ 199 * ps.length := by
  induction ps with
  | nil => exact ⟨le_rfl, le_rfl⟩
  | cons p ps ih =>
    obtain ⟨hlo, hhi⟩ := ih fun q hq => h q (.tail _ hq)
    have hp := h p (.head _)
    have hge := hp.excess_ge
    have hle := hp.excess_le
    rw [List.map_cons, List.sum_cons, List.length_cons]
    omega

/-- No packet looks small. -/
theorem smallPacketNum_of_padded (h : ∀ p ∈ ps, p.Padded) : (Counters.of ps).smallPacketNum = 0 := by
  have hzero : ps.countP (·.size ≤ 64) = 0 := List.countP_eq_zero.mpr fun p hp => by
    have hsize := p.size_eq
    have hge := (h p hp).excess_ge
    have hnonneg := (h p hp).trueSize
    rw [decide_eq_true_eq]
    omega
  exact congrArg (BitVec.ofNat 32) hzero

/-- A sum comes out as the first part of it exactly if the other is a multiple of `2^32`. -/
theorem toInt_ofInt_add_eq_iff {x y : Int} (hx : 0 ≤ x) :
    (BitVec.ofInt 32 (x + y)).toInt = x ↔ x < 2 ^ 31 ∧ (2 ^ 32 : Int) ∣ y := by
  rw [BitVec.toInt_ofInt]
  constructor
  · intro h
    have hdvd : ((2 ^ 32 : Nat) : Int) ∣ x + y - (x + y).bmod (2 ^ 32) := Int.dvd_self_sub_bmod
    have hlt : (x + y).bmod (2 ^ 32) < ((2 ^ 32 : Nat) + 1) / 2 := Int.bmod_lt (by decide)
    rw [h] at hdvd hlt
    rw [add_sub_cancel_left] at hdvd
    exact ⟨by omega, hdvd⟩
  · rintro ⟨hlt, k, rfl⟩
    have hbmod : (x + 2 ^ 32 * k).bmod (2 ^ 32) = x.bmod (2 ^ 32) :=
      Int.add_mul_bmod_self_left x (2 ^ 32) k
    rw [hbmod]
    exact Int.bmod_eq_of_le (by omega) (by omega)

theorem Counters.sizesRight_iff_cancels (h : ∀ p ∈ ps, p.Padded) :
    (Counters.of ps).SizesRight ps ↔ Cancels ps := by
  have hflow : (Counters.of ps).flowSize.toInt = (ps.map (·.trueSize)).sum ↔
      (ps.map (·.trueSize)).sum < 2 ^ 31 ∧ (2 ^ 32 : Int) ∣ (ps.map (·.excess)).sum := by
    rw [← toInt_ofInt_add_eq_iff (sum_trueSize_nonneg h), ← sum_size]
    rfl
  have hsmall : (Counters.of ps).smallPacketNum.toInt = (ps.countP (·.trueSize ≤ 64) : Int) ↔
      ∀ p ∈ ps, 64 < p.trueSize := by
    have hcount : ps.countP (·.trueSize ≤ 64) = 0 ↔ ∀ p ∈ ps, 64 < p.trueSize := by
      simp only [List.countP_eq_zero, decide_eq_true_eq, not_le]
    have hzero : (0 : BitVec 32).toInt = 0 := rfl
    rw [smallPacketNum_of_padded h, ← hcount, hzero]
    omega
  constructor
  · intro hr
    obtain ⟨hlt, hdvd⟩ := hflow.mp hr.flowSize
    exact ⟨hsmall.mp hr.smallPacketNum, hlt, hdvd⟩
  · intro hc
    exact ⟨hflow.mpr ⟨hc.sum_lt, hc.excess⟩, hsmall.mpr hc.large⟩

/-- The additions go away for very many packets only, or for none. -/
theorem Cancels.length (h : ∀ p ∈ ps, p.Padded) (hc : Cancels ps) (hne : ps ≠ []) :
    21582751 ≤ ps.length := by
  obtain ⟨k, hk⟩ := hc.excess
  obtain ⟨hlo, hhi⟩ := sum_excess h
  have hpos := List.length_pos_iff.mpr hne
  have hk₁ : 1 ≤ k := by omega
  omega

end

/-! ## Reports -/

namespace TcpSession

/-- The packets of a session that is reported: from the one on that made it to the one it is
reported with, and that one if it closes the session. -/
def Spans (n : Nat) (sharding : Sharding) (ps : List TcpData) (r : Report) (qs : List TcpData) :
    Prop :=
  ∃ ps₁ syn ps₂ p ps₃, ps = ps₁ ++ syn :: ps₂ ++ p :: ps₃ ∧
    Origin n sharding ps₁ syn r.ptr r.data ∧
    (∃ s es s' rs, runSession n sharding (ps₁ ++ syn :: ps₂) = some (s, es) ∧
      s.onTcpData p = some (s', rs) ∧ r ∈ rs) ∧
    Ends p r ∧ qs = syn :: ps₂ ++ if r.data.normallyClosed then [p] else []

/-- The sizes reported are those of the datagrams of the session, in each direction. -/
structure SizesRight (r : Report) (qs : List TcpData) : Prop where
  up : r.data.up.SizesRight (qs.filter (·.isUp r.data.t4))
  down : r.data.down.SizesRight (qs.filter (·.isDown r.data.t4))

theorem Spans.mem {n : Nat} {sharding : Sharding} {ps qs : List TcpData} {r : Report}
    (h : Spans n sharding ps r qs) : ∀ q ∈ qs, q ∈ ps := by
  obtain ⟨ps₁, syn, ps₂, p, ps₃, rfl, -, -, -, rfl⟩ := h
  intro q hq
  rcases List.mem_append.mp hq with hq | hq
  · exact List.mem_append_left _ (List.mem_append_right _ hq)
  · refine List.mem_append_right _ ?_
    split at hq
    · exact List.mem_singleton.mp hq ▸ .head _
    · cases hq

/-- Whatever packets are captured, a session reports the sizes of its datagrams exactly if the
additions to them go away, in each direction. -/
theorem sizesRight_iff {n : Nat} (hn : 0 < n) (sharding : Sharding) (clock : Nat → Int) (k : ℕ+)
    (xs : List (List Byte × Timeval)) :
    ∃ s hs, IpFragment.runHanded clock k xs = some (s, hs) ∧
      ∀ st es, runSession n sharding (tcpData hs) = some (st, es) → ∀ r ∈ es,
        ∃ qs, Spans n sharding (tcpData hs) r qs ∧
          (SizesRight r qs ↔
            Cancels (qs.filter (·.isUp r.data.t4)) ∧ Cancels (qs.filter (·.isDown r.data.t4))) := by
  obtain ⟨s, hs, hr⟩ := IpFragment.runHanded_total clock k xs
  have hpadded : ∀ p ∈ tcpData hs, p.Padded := by
    intro p hp
    obtain ⟨h, hmem, rfl⟩ := List.mem_map.mp hp
    exact padded_of_wellFormed (IpFragment.runHanded_wellFormed hr h (List.mem_filter.mp hmem).1)
  refine ⟨s, hs, hr, fun st es hrun r hmem => ?_⟩
  obtain ⟨ps₁, syn, ps₂, p, ps₃, hsplit, horigin, hcall, hends, hcounts, -⟩ :=
    (runSession_reported hn hrun).accounted r hmem
  have hspans : Spans n sharding (tcpData hs) r
      (syn :: ps₂ ++ if r.data.normallyClosed then [p] else []) :=
    ⟨ps₁, syn, ps₂, p, ps₃, hsplit, horigin, hcall, hends, rfl⟩
  refine ⟨_, hspans, ?_⟩
  have hfilter (f : TcpData → Bool) :
      ∀ q ∈ (syn :: ps₂ ++ if r.data.normallyClosed then [p] else []).filter f, q.Padded :=
    fun q hq => hpadded q (hspans.mem q (List.mem_filter.mp hq).1)
  rw [← Counters.sizesRight_iff_cancels (hfilter _), ← Counters.sizesRight_iff_cancels (hfilter _),
    ← hcounts.up, ← hcounts.down]
  exact ⟨fun h => ⟨h.up, h.down⟩, fun h => ⟨h.1, h.2⟩⟩

deriving instance DecidableEq for TcpData

/-- A connection of two packets, with 20 bytes each behind the IP header. -/
def twoPackets : List TcpData := [shortPacket 1 TH_SYN 40 7, shortPacket 1 TH_FIN 40 8]

theorem sizesRight_iff_twoPackets : ∃ s hs,
    IpFragment.runHanded (fun _ => 0) 1 (twoPackets.map fun p => (p.iphdr, p.timeStamp)) = some (s, hs) ∧
      ∀ st es, runSession 60 plainSharding (tcpData hs) = some (st, es) → ∀ r ∈ es,
        ∃ qs, Spans 60 plainSharding (tcpData hs) r qs ∧
          (SizesRight r qs ↔
            Cancels (qs.filter (·.isUp r.data.t4)) ∧ Cancels (qs.filter (·.isDown r.data.t4))) :=
  sizesRight_iff (by decide) plainSharding (fun _ => 0) 1 _

/-- What `onTcpData` is called with for them. -/
def twoPadded : List TcpData := [shortPacket 1 TH_SYN 232 7, shortPacket 1 TH_FIN 232 8]

/-- What it reports of them: 424 bytes in one direction, and no small packet. -/
def twoReport : Report where
  ptr := 0
  data := {
    t4 := (shortPacket 1 TH_SYN 40 7).t4
    startTime := ⟨7, 0⟩
    endTime := some ⟨8, 0⟩
    up := ⟨424, 2, 1, 1, 0, 0, 0⟩
    down := .zero
    normallyClosed := true
    context := some 0 }

theorem spans_twoPadded {qs : List TcpData} :
    Spans 60 plainSharding twoPadded twoReport qs ↔ qs = twoPadded := by
  constructor
  · rintro ⟨ps₁, syn, ps₂, p, ps₃, hsplit, -, -, -, rfl⟩
    have hlength : twoPadded.length = (ps₁ ++ syn :: ps₂ ++ p :: ps₃).length := congrArg _ hsplit
    have htwo : twoPadded.length = 2 := rfl
    simp only [List.length_append, List.length_cons] at hlength
    obtain rfl : ps₁ = [] := List.length_eq_zero_iff.mp (by omega)
    obtain rfl : ps₂ = [] := List.length_eq_zero_iff.mp (by omega)
    obtain rfl : ps₃ = [] := List.length_eq_zero_iff.mp (by omega)
    exact hsplit.symm
  · rintro rfl
    refine ⟨[], _, [], _, [], rfl, ⟨⟨_, _, rfl, rfl⟩, by decide, by decide, rfl, rfl⟩,
      ⟨_, _, _, _, rfl, rfl, .head _⟩, ⟨fun _ => ?_, nofun⟩, rfl⟩
    exact ⟨by decide, .refl _, by decide, rfl⟩

/-- The sum is 40, and both packets are small. -/
theorem twoPackets_not_sizesRight : ∃ s hs st,
    IpFragment.runHanded (fun _ => 0) 1 (twoPackets.map fun p => (p.iphdr, p.timeStamp)) =
      some (s, hs) ∧
    runSession 60 plainSharding (tcpData hs) = some (st, [twoReport]) ∧
    Spans 60 plainSharding (tcpData hs) twoReport (tcpData hs) ∧
    (tcpData hs).map (·.trueSize) = [20, 20] ∧
    ∀ qs, Spans 60 plainSharding (tcpData hs) twoReport qs → ¬ SizesRight twoReport qs := by
  have hrun : (IpFragment.runHanded (fun _ => 0) 1
      (twoPackets.map fun p => (p.iphdr, p.timeStamp))).any (fun r => tcpData r.2 = twoPadded) := by
    decide
  obtain ⟨⟨s, hs⟩, hr, hs'⟩ := (Option.any_eq_true ..).mp hrun
  have htcp : tcpData hs = twoPadded := of_decide_eq_true hs'
  refine ⟨s, hs, ?_⟩
  rw [htcp]
  refine ⟨_, hr, rfl, spans_twoPadded.mpr rfl, by decide, fun qs hqs hright => ?_⟩
  obtain rfl := spans_twoPadded.mp hqs
  have hsum : (424 : Int) = 40 := hright.up.flowSize
  omega

end TcpSession

end Noff
