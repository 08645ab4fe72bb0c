import Noff.Capture

/-!
# The bytes that the capture thread reads

`onPacket` and `onIpFragment` with `getTuple4`, from the captured frame up to the copy of the packet. The
length that is passed on can be zero or negative, since the tag of a frame is not counted when the
frame is found to be long enough; and `onIpFragment` compares it with `ip_hl` only, which can be 0. So
the two of them stay inside of the captured bytes exactly if the frame fits (`staysInside_iff`).
-/

namespace Noff

open Reading

/-! ## `getTuple4` with the positions it reads -/

section

variable (hdr : List Byte) (len : Int)

/-- The ports behind the IP header, where `len` bytes are for a header of `size` bytes. -/
def readPorts (size : Nat) (msg : String) : Reading (Except String (BitVec 16 × BitVec 16)) := do
  if len < size then return .error msg
  let srcPort ← field (thdr hdr) 2 (le16 hdr (thdr hdr))
  let dstPort ← field (thdr hdr + 2) 2 (le16 hdr (thdr hdr + 2))
  return .ok (srcPort, dstPort)

/-- The switch in `getTuple4`, on the protocol `p`. -/
def readSwitch (p : Byte) : Reading (Except String (BitVec 16 × BitVec 16)) :=
  if p = IPPROTO_TCP then readPorts hdr len sizeofTcphdr "TCP header too short"
  else if p = IPPROTO_UDP then readPorts hdr len sizeofUdphdr "UDP header too short"
  else if p = IPPROTO_ICMP then return .ok (928, 928)
  else
    return .error ("unsupported protocol(0x" ++ String.ofList (Nat.toDigits 16 p.toNat) ++ ")")

/-- `getTuple4`, for `len` bytes. -/
def readTuple4 : Reading (Except String Tuple4) := do
  let hl ← field 0 1 (ipHl hdr)
  let p ← field 9 1 (ipP hdr)
  match ← readSwitch hdr (len - 4 * hl) p with
  | .error e => return .error e
  | .ok (srcPort, dstPort) =>
    let saddr ← field 12 4 (ipSrc hdr)
    let daddr ← field 16 4 (ipDst hdr)
    return .ok ⟨srcPort, dstPort, saddr, daddr⟩

/-- `onIpFragment` up to the copy: the packet is dropped, or this is what `getTuple4` gives. -/
def readIpFragment : Reading (Option (Except String Tuple4)) := do
  let hl ← field 0 1 (ipHl hdr)
  if len < hl * 4 then return none
  else return some (← readTuple4 hdr len)

end

section

variable {hdr : List Byte} {len : Int} {size n : Nat} {msg : String}

theorem value_readPorts : (readPorts hdr len size msg).value =
    if len < size then .error msg else .ok (le16 hdr (thdr hdr), le16 hdr (thdr hdr + 2)) := by
  rw [readPorts, value_ite]
  rfl

theorem within_readPorts :
    (readPorts hdr len size msg).Within n ↔ (size ≤ len → thdr hdr + 4 ≤ n) := by
  rw [readPorts, within_ite]
  simp only [within_bind, within_field, within_pure, not_lt, implies_true, true_and, and_true]
  omega

theorem toBool_readPorts : (readPorts hdr len size msg).value.toBool ↔ size ≤ len := by
  rw [value_readPorts]
  by_cases h : len < size
  · simp [h, Except.toBool]
  · simp [h, Except.toBool, Int.not_lt.mp h]

theorem within_readSwitch {p : Byte} : (readSwitch hdr len p).Within n ↔
    (p = IPPROTO_TCP → sizeofTcphdr ≤ len → thdr hdr + 4 ≤ n) ∧
    (p = IPPROTO_UDP → sizeofUdphdr ≤ len → thdr hdr + 4 ≤ n) := by
  rw [readSwitch]
  by_cases htcp : p = IPPROTO_TCP
  · have hudp : p ≠ IPPROTO_UDP := by rw [htcp]; decide
    rw [if_pos htcp, within_readPorts]
    exact ⟨fun h => ⟨fun _ => h, fun he => absurd he hudp⟩, fun h => h.1 htcp⟩
  · rw [if_neg htcp]
    by_cases hudp : p = IPPROTO_UDP
    · rw [if_pos hudp, within_readPorts]
      exact ⟨fun h => ⟨fun he => absurd he htcp, fun _ => h⟩, fun h => h.2 hudp⟩
    · rw [if_neg hudp, within_ite]
      exact ⟨fun _ => ⟨fun he => absurd he htcp, fun he => absurd he hudp⟩,
        fun _ => ⟨fun _ => within_pure _, fun _ => within_pure _⟩⟩

theorem toBool_readSwitch {p : Byte} : (readSwitch hdr len p).value.toBool ↔
    (p = IPPROTO_TCP ∧ sizeofTcphdr ≤ len) ∨ (p = IPPROTO_UDP ∧ sizeofUdphdr ≤ len) ∨
      p = IPPROTO_ICMP := by
  rw [readSwitch]
  by_cases htcp : p = IPPROTO_TCP
  · subst htcp
    simp [toBool_readPorts]
  · by_cases hudp : p = IPPROTO_UDP
    · subst hudp
      simp [toBool_readPorts]
    · by_cases hicmp : p = IPPROTO_ICMP
      · subst hicmp
        simp [Except.toBool]
      · rw [if_neg htcp, if_neg hudp, if_neg hicmp]
        refine ⟨nofun, ?_⟩
        rintro (⟨hp, -⟩ | ⟨hp, -⟩ | hp)
        · exact absurd hp htcp
        · exact absurd hp hudp
        · exact absurd hp hicmp

/-- Up to the addresses, of which the exceptions know nothing. -/
theorem within_readTuple4 : (readTuple4 hdr len).Within n ↔ 10 ≤ n ∧
    (readSwitch hdr (len - 4 * ipHl hdr) (ipP hdr)).Within n ∧
    ((readSwitch hdr (len - 4 * ipHl hdr) (ipP hdr)).value.toBool → 20 ≤ n) := by
  rw [readTuple4]
  simp only [within_bind, within_field, value_field]
  cases (readSwitch hdr (len - 4 * ipHl hdr) (ipP hdr)).value with
  | error e =>
    simp only [within_pure, Except.toBool, Bool.false_eq_true, false_implies, and_true]
    rw [← and_assoc]
    exact and_congr_left fun _ => by omega
  | ok ports =>
    simp only [within_bind, within_field, within_pure, Except.toBool, and_true, true_implies]
    constructor
    · intro h
      exact ⟨by omega, h.2.2.1, by omega⟩
    · intro h
      exact ⟨by omega, by omega, h.2.1, by omega, by omega⟩

end

/-- The packet is not too short for what `onIpFragment` reads of it. -/
structure PacketFits (hdr : List Byte) (len : Int) : Prop where
  first : 1 ≤ len
  protocol : 4 * ipHl hdr ≤ len → 10 ≤ len
  udp : 4 * ipHl hdr + sizeofUdphdr ≤ len → ipP hdr = IPPROTO_UDP → 20 ≤ len
  icmp : 4 * ipHl hdr ≤ len → ipP hdr = IPPROTO_ICMP → 20 ≤ len

section

variable {hdr : List Byte} {len : Int}

/-- Read by the two threads, it is the same tuple. -/
theorem value_readTuple4 (h : thdr hdr ≤ hdr.length) :
    (readTuple4 hdr hdr.length).value = getTuple4 hdr := by
  have hlen (k : Nat) : (hdr.length : Int) - 4 * ipHl hdr < k ↔ hdr.length - thdr hdr < k := by
    rw [thdr] at h ⊢
    omega
  have hswitch : (readTuple4 hdr hdr.length).value =
      (readSwitch hdr (hdr.length - 4 * ipHl hdr) (ipP hdr)).value.map fun ports =>
        ⟨ports.1, ports.2, ipSrc hdr, ipDst hdr⟩ := by
    rw [readTuple4]
    simp only [value_bind, value_field]
    cases (readSwitch hdr (hdr.length - 4 * ipHl hdr) (ipP hdr)).value <;> rfl
  rw [hswitch, readSwitch, getTuple4]
  simp only [value_ite, value_readPorts, value_pure, hlen]
  split_ifs <;> rfl

theorem within_readIpFragment {n : Nat} : (readIpFragment hdr len).Within n ↔
    1 ≤ n ∧ (4 * ipHl hdr ≤ len → (readTuple4 hdr len).Within n) := by
  have heq : readIpFragment hdr len = field 0 1 (ipHl hdr) >>= fun _ =>
      if len < ipHl hdr * 4 then pure none else readTuple4 hdr len >>= fun t => pure (some t) := rfl
  rw [heq]
  simp only [within_bind, within_field, within_ite, within_pure, and_true, implies_true, true_and,
    not_lt, mul_comm (4 : Int)]
  exact and_congr_left fun _ => by omega

/-- What is read stays inside of the packet exactly if the packet fits. -/
theorem readIpFragment_within_iff :
    (readIpFragment hdr len).Within len.toNat ↔ PacketFits hdr len := by
  have htcp : sizeofTcphdr = 20 := rfl
  have hudp : sizeofUdphdr = 8 := rfl
  have hthdr : thdr hdr = 4 * ipHl hdr := rfl
  rw [within_readIpFragment, within_readTuple4, within_readSwitch, toBool_readSwitch]
  constructor
  · rintro ⟨h₁, h⟩
    refine ⟨by omega, fun hle => ?_, fun hle hp => ?_, fun hle hp => ?_⟩
    · obtain ⟨h₂, -⟩ := h hle
      omega
    · obtain ⟨-, -, h₄⟩ := h (by omega)
      have := h₄ (.inr (.inl ⟨hp, by omega⟩))
      omega
    · obtain ⟨-, -, h₄⟩ := h hle
      have := h₄ (.inr (.inr hp))
      omega
  · intro h
    have hfirst := h.first
    refine ⟨by omega, fun hle => ?_⟩
    have hproto := h.protocol hle
    refine ⟨by omega, ⟨fun _ hle' => by omega, fun hp hle' => ?_⟩, ?_⟩
    · have := h.udp (by omega) hp
      omega
    · rintro (⟨-, hle'⟩ | ⟨hp, hle'⟩ | hp)
      · omega
      · have := h.udp (by omega) hp
        omega
      · have := h.icmp hle hp
        omega

end

/-- The worker's index is found from what is read. -/
theorem indexOf_eq_read {nWorkers : Nat} [NeZero nWorkers] (shard : Sharding) (hdr : List Byte) :
    indexOf nWorkers shard hdr = ((readIpFragment hdr hdr.length).value.bind fun t =>
      (t.map shard.ofTuple).toOption).map (Fin.ofNat nWorkers) := by
  have heq : readIpFragment hdr hdr.length = field 0 1 (ipHl hdr) >>= fun _ =>
      if (hdr.length : Int) < ipHl hdr * 4 then pure none
      else readTuple4 hdr hdr.length >>= fun t => pure (some t) := rfl
  rw [indexOf, heq, value_bind, value_ite]
  by_cases h : hdr.length < ipHl hdr * 4
  · rw [if_pos h, if_pos (by omega)]
    rfl
  · rw [if_neg h, if_neg (by omega), value_bind, value_readTuple4 (by rw [thdr]; omega), value_pure,
      Option.bind_some, Sharding.ofPacket]

namespace Pcap

open Capture

variable {lt : LinkType} {fs : List Frame} {f : Frame}

/-! ## Frames -/

/-- The size of the link header of a frame. -/
def linkHeader (lt : LinkType) (f : Frame) : Nat :=
  match lt with
  | .en10mb => if f.Tagged then 18 else 14
  | .linuxSll => 16

/-- The frame is not too short when it comes after the frames `fs`, and one that is passed on. -/
def Looked (lt : LinkType) (fs : List Frame) (f : Frame) : Prop :=
  match lt with
  | .en10mb => offsetAfter fs < f.data.length ∧ (f.Tagged ∨ f.Plain)
  | .linuxSll => 16 < f.data.length ∧ be16 f.data 14 = 0x0800

/-- How much of it is skipped. -/
def skipped (lt : LinkType) (fs : List Frame) (f : Frame) : Nat :=
  match lt with
  | .en10mb => if f.Tagged then 18 else offsetAfter fs
  | .linuxSll => 16

theorem extracted_of_looked (h : Looked lt fs f) :
    (opened lt).extracted fs f = some (passedAt (skipped lt fs f) f) := by
  cases lt with
  | en10mb =>
    obtain ⟨hlen, ht | hp⟩ := h
    · rw [extracted_tagged ht hlen, skipped, if_pos ht]
    · rw [extracted_plain hp hlen, skipped, if_neg fun ht => ht.not_plain hp]
  | linuxSll =>
    rw [extracted, after_linuxSll, value_onPacket_sll h.1 h.2]
    rfl

theorem extracted_of_not_looked (h : ¬ Looked lt fs f) : (opened lt).extracted fs f = none := by
  cases lt with
  | en10mb =>
    rcases Nat.lt_or_ge (offsetAfter fs) f.data.length with hlt | hle
    · exact extracted_other (fun ht => h ⟨hlt, .inl ht⟩) fun hp => h ⟨hlt, .inr hp⟩
    · exact extracted_short hle
  | linuxSll => rw [extracted, after_linuxSll, value_onPacket_sll_other h]

/-- `onPacket` itself looks at bytes that have been captured. -/
theorem within_onPacket (lt : LinkType) (fs : List Frame) (f : Frame) :
    (((opened lt).after fs).onPacket f).Within f.data.length := by
  by_cases hshort : f.data.length ≤ ((opened lt).after fs).linkOffset.toNat
  · rw [onPacket_short hshort]
    exact within_pure _
  · rw [onPacket, if_neg (by rw [f.caplen_le_iff]; exact hshort)]
    cases lt with
    | en10mb =>
      have hoff := offsetAfter_eq fs
      rw [linkOffset_after, toNat_offsetAfter] at hshort
      rw [linkOffset_after]
      dsimp only
      rw [within_bind, within_field]
      refine ⟨by omega, ?_⟩
      simp only [within_ite, within_pure, implies_true, and_self]
    | linuxSll =>
      rw [after_linuxSll] at hshort ⊢
      have hoff : (opened .linuxSll).linkOffset.toNat = 16 := rfl
      rw [hoff] at hshort
      dsimp only [opened]
      rw [within_bind, within_field]
      refine ⟨by omega, ?_⟩
      simp only [within_ite, within_pure, implies_true, and_self]

/-- A length that is positive is the number of bytes that are not skipped. -/
theorem len_passedAt {o : Nat} (ho : o < 2 ^ 31) :
    (0 < (passedAt o f).len ↔ o < f.data.length ∧ f.data.length < 2 ^ 31 + o) ∧
    (0 < (passedAt o f).len → (passedAt o f).len = f.data.length - o) := by
  have hlen : (passedAt o f).len = (f.caplen - BitVec.ofNat 32 o).toInt := rfl
  have hlt := f.caplen_lt
  rw [hlen, BitVec.toInt_eq_toNat_cond, BitVec.toNat_sub, Frame.toNat_caplen, BitVec.toNat_ofNat]
  omega

/-! ## Results -/

/-- The length passed on is positive and the number of bytes behind the link header, and no byte is
looked at that has not been captured, or that is none of these. -/
structure StaysInside (lt : LinkType) (fs : List Frame) (f : Frame) : Prop where
  reads : (((opened lt).after fs).onPacket f).Within f.data.length
  positive : ∀ p, (opened lt).extracted fs f = some p → 0 < p.len
  length : ∀ p, (opened lt).extracted fs f = some p → p.len = f.data.length - linkHeader lt f
  packet : ∀ p, (opened lt).extracted fs f = some p →
    (readIpFragment (f.data.drop p.start) p.len).Within p.len.toNat

/-- The frame is one that can be passed on: no tag has been seen before, if it has none itself; there
is something behind the link header, less than `2^31` bytes; and the packet fits. -/
structure Fits (lt : LinkType) (fs : List Frame) (f : Frame) : Prop where
  untagged : lt = .en10mb → f.Plain → tagSeen fs = false
  behind : linkHeader lt f < f.data.length
  small : f.data.length < 2 ^ 31 + linkHeader lt f
  packet : PacketFits (f.data.drop (linkHeader lt f)) (f.data.length - linkHeader lt f)

/-- The right number of bytes is skipped, unless a tag has been seen. -/
theorem skipped_eq_iff (h : Looked lt fs f) : skipped lt fs f = linkHeader lt f ↔
    (lt = .en10mb → f.Plain → tagSeen fs = false) := by
  cases lt with
  | en10mb =>
    rw [skipped, linkHeader]
    by_cases ht : f.Tagged
    · rw [if_pos ht, if_pos ht]
      exact ⟨fun _ _ hp => absurd hp ht.not_plain, fun _ => rfl⟩
    · have hp := h.2.resolve_left ht
      rw [if_neg ht, if_neg ht, offsetAfter]
      cases tagSeen fs with
      | false => exact ⟨fun _ _ _ => rfl, fun _ => rfl⟩
      | true => exact ⟨fun he => absurd he (by decide), fun he => absurd (he rfl hp) (by decide)⟩
  | linuxSll => exact ⟨fun _ he => (by cases he), fun _ => rfl⟩

theorem skipped_lt (lt : LinkType) (fs : List Frame) (f : Frame) : skipped lt fs f < 2 ^ 31 := by
  have hoff := offsetAfter_eq fs
  cases lt with
  | en10mb =>
    rw [skipped]
    split <;> omega
  | linuxSll =>
    show 16 < 2 ^ 31
    decide

/-- Whatever frames came before, the capture thread stays inside of the bytes of a frame, and passes on
the right length, exactly if the frame is not passed on or fits. -/
theorem staysInside_iff (lt : LinkType) (fs : List Frame) (f : Frame) :
    StaysInside lt fs f ↔ (Looked lt fs f → Fits lt fs f) := by
  by_cases hl : Looked lt fs f
  · have hsome := extracted_of_looked hl
    obtain ⟨hpos, hlen⟩ := len_passedAt (f := f) (skipped_lt lt fs f)
    constructor
    · intro h _
      have hp := h.positive _ hsome
      have hlength := h.length _ hsome
      have hpacket := h.packet _ hsome
      obtain ⟨hlt, hsmall⟩ := hpos.mp hp
      have hskip : skipped lt fs f = linkHeader lt f := by
        have := hlen hp
        omega
      rw [readIpFragment_within_iff, hlength] at hpacket
      rw [hskip] at hlt hsmall
      refine ⟨(skipped_eq_iff hl).mp hskip, hlt, hsmall, ?_⟩
      rw [← hskip] at hpacket ⊢
      exact hpacket
    · intro h
      have hfit := h hl
      have hskip := (skipped_eq_iff hl).mpr hfit.untagged
      have hp : 0 < (passedAt (skipped lt fs f) f).len :=
        hpos.mpr ⟨hskip ▸ hfit.behind, hskip ▸ hfit.small⟩
      have hlength := hlen hp
      refine ⟨within_onPacket lt fs f, fun p he => ?_, fun p he => ?_, fun p he => ?_⟩
      · rw [Option.some.inj (he.symm.trans hsome)]
        exact hp
      · rw [Option.some.inj (he.symm.trans hsome), hlength, hskip]
      · rw [Option.some.inj (he.symm.trans hsome), readIpFragment_within_iff, hlength, hskip]
        have hstart : (passedAt (linkHeader lt f) f).start = linkHeader lt f := rfl
        rw [hstart]
        exact hfit.packet
  · have hnone {p : Passed} (he : (opened lt).extracted fs f = some p) : False := by
      rw [extracted_of_not_looked hl] at he
      cases he
    exact ⟨fun _ h => absurd h hl, fun _ => ⟨within_onPacket lt fs f, fun p he => (hnone he).elim,
      fun p he => (hnone he).elim, fun p he => (hnone he).elim⟩⟩

/-- A frame that ends in the middle of its tag. -/
def halfTag : Frame where
  data := List.replicate 12 0 ++ [0x81, 0, 0]
  caplen_lt := by decide

/-- It is passed on as -3 bytes. -/
theorem halfTag_not_inside : (opened .en10mb).extracted [] halfTag = some ⟨18, -3⟩ ∧
    ¬ StaysInside .en10mb [] halfTag := by
  have hsome : (opened .en10mb).extracted [] halfTag = some ⟨18, -3⟩ := by decide
  exact ⟨hsome, fun h => absurd (h.positive _ hsome) (by decide)⟩

end Pcap

end Noff
