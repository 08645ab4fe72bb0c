import Noff.Hash
import Noff.Util
import Mathlib.Tactic.NormNum.Prime
import Mathlib.Tactic.Push

/-!
# `Sharding.cc`

The number that is computed of a packet to choose the worker for it. The ports are
read from behind the IP header, whatever the packet carries there.
-/

namespace Noff

abbrev IPPROTO_ICMP : Byte := 1
abbrev IPPROTO_TCP : Byte := 6
abbrev IPPROTO_UDP : Byte := 17

/-- `sizeof(struct udphdr)` -/
def sizeofUdphdr : Nat := 8

/-- `getTuple4`, with the texts of its exceptions. The ports are left in network byte
order; `len` is the length of the list. -/
def getTuple4 (hdr : List Byte) : Except String Tuple4 :=
  let data := thdr hdr
  let len := hdr.length - data
  if ipP hdr = IPPROTO_TCP then
    if len < sizeofTcphdr then .error "TCP header too short"
    else .ok ⟨le16 hdr data, le16 hdr (data + 2), ipSrc hdr, ipDst hdr⟩
  else if ipP hdr = IPPROTO_UDP then
    if len < sizeofUdphdr then .error "UDP header too short"
    else .ok ⟨le16 hdr data, le16 hdr (data + 2), ipSrc hdr, ipDst hdr⟩
  else if ipP hdr = IPPROTO_ICMP then .ok ⟨928, 928, ipSrc hdr, ipDst hdr⟩
  else .error ("unsupported protocol(0x" ++ String.ofList (Nat.toDigits 16 (ipP hdr).toNat) ++ ")")

/-- The loop of the constructor: each random byte takes one of the numbers left in `p`. -/
def shuffle : List Byte → List Byte → List Byte
  | [], _ => []
  | r :: rs, p => byteAt p (r.toNat % p.length) :: shuffle rs (p.eraseIdx (r.toNat % p.length))

theorem length_shuffle (rs p : List Byte) : (shuffle rs p).length = rs.length := by
  induction rs generalizing p with
  | nil => rfl
  | cons r rs ih => rw [shuffle, List.length_cons, ih, List.length_cons]

structure Sharding where
  xors : Vector Byte 6
  perm : Vector Byte 6

/-- The constructor, for the bytes that `initRandom` reads. -/
def Sharding.create (xors perm : Vector Byte 6) : Sharding :=
  ⟨xors, ⟨(shuffle perm.toList [0, 1, 2, 3, 4, 5]).toArray, by
    rw [List.size_toArray, length_shuffle, Vector.length_toList]⟩⟩

/-- What is made of the XOR of the addresses and that of the ports. -/
def Sharding.mix (s : Sharding) (flag1 : BitVec 32) (flag2 : BitVec 16) : Nat :=
  mixBytes s.xors s.perm (bytesOf32 flag1 ++ bytesOf16 flag2)

/-- `operator()(tuple4)` -/
def Sharding.ofTuple (s : Sharding) (t : Tuple4) : Nat :=
  s.mix (t.daddr ^^^ t.saddr) (t.dest ^^^ t.source)

/-- `operator()(const ip *, int)` -/
def Sharding.ofPacket (s : Sharding) (hdr : List Byte) : Except String Nat :=
  (getTuple4 hdr).map s.ofTuple

/-- Both directions of a connection have the same number. -/
theorem Sharding.ofTuple_reversed (s : Sharding) (t : Tuple4) :
    s.ofTuple t.reversed = s.ofTuple t := by
  rw [ofTuple, ofTuple, Tuple4.reversed, BitVec.xor_comm t.saddr, BitVec.xor_comm t.source]

/-- Whether packets with this protocol are sharded. -/
def Sharded (proto : Byte) : Prop :=
  proto = IPPROTO_TCP ∨ proto = IPPROTO_UDP ∨ proto = IPPROTO_ICMP

/-- The size of a transport header that is looked for. -/
def headerSize (proto : Byte) : Nat :=
  if proto = IPPROTO_TCP then sizeofTcphdr
  else if proto = IPPROTO_UDP then sizeofUdphdr
  else 0

/-- The two words at the start of a transport header, the ports. ICMP has none. -/
def portsAt (proto : Byte) (d : List Byte) (i : Nat) : BitVec 16 × BitVec 16 :=
  if proto = IPPROTO_ICMP then (928, 928) else (le16 d i, le16 d (i + 2))

/-- The tuple that is read from a packet, if there are bytes enough for a header. -/
def packetTuple (hdr : List Byte) : Tuple4 :=
  ⟨(portsAt (ipP hdr) hdr (thdr hdr)).1, (portsAt (ipP hdr) hdr (thdr hdr)).2, ipSrc hdr, ipDst hdr⟩

theorem getTuple4_eq {hdr : List Byte} (hp : Sharded (ipP hdr)) : (getTuple4 hdr).toOption =
    if headerSize (ipP hdr) ≤ hdr.length - thdr hdr then some (packetTuple hdr) else none := by
  unfold getTuple4 headerSize packetTuple portsAt
  rcases hp with hp | hp | hp
  · have hicmp : ipP hdr ≠ IPPROTO_ICMP := by rw [hp]; decide
    by_cases hlen : hdr.length - thdr hdr < sizeofTcphdr
    · rw [if_pos hp, if_pos hp, if_pos hlen, if_neg (Nat.not_le.mpr hlen)]
      rfl
    · rw [if_pos hp, if_pos hp, if_neg hlen, if_pos (Nat.not_lt.mp hlen), if_neg hicmp]
      rfl
  · have htcp : ipP hdr ≠ IPPROTO_TCP := by rw [hp]; decide
    have hicmp : ipP hdr ≠ IPPROTO_ICMP := by rw [hp]; decide
    by_cases hlen : hdr.length - thdr hdr < sizeofUdphdr
    · rw [if_neg htcp, if_pos hp, if_neg htcp, if_pos hp, if_pos hlen,
        if_neg (Nat.not_le.mpr hlen)]
      rfl
    · rw [if_neg htcp, if_pos hp, if_neg htcp, if_pos hp, if_neg hlen,
        if_pos (Nat.not_lt.mp hlen), if_neg hicmp]
      rfl
  · have htcp : ipP hdr ≠ IPPROTO_TCP := by rw [hp]; decide
    have hudp : ipP hdr ≠ IPPROTO_UDP := by rw [hp]; decide
    rw [if_neg htcp, if_neg hudp, if_pos hp, if_neg htcp, if_neg hudp, if_pos (Nat.zero_le _),
      if_pos hp]
    rfl

/-! ## Numbers that differ -/

/-- With the bytes in place, the hash reads them as the digits of a number. -/
theorem mixBytes_inPlace (xors : Vector Byte 6) (a b c d e f : Byte) :
    mixBytes xors ⟨#[0, 1, 2, 3, 4, 5], rfl⟩ [a, b, c, d, e, f] =
      ((a ^^^ xors[0]).toNat * 2 ^ 40 + (b ^^^ xors[1]).toNat * 2 ^ 32 +
        (c ^^^ xors[2]).toNat * 2 ^ 24 + (d ^^^ xors[3]).toNat * 2 ^ 16 +
        (e ^^^ xors[4]).toNat * 2 ^ 8 + (f ^^^ xors[5]).toNat) % 0xff100f := by
  simp [mixBytes, List.finRange_succ, byteAt]
  omega

/-- The seed under which the hash of `flag1` and `flag2` reads the digits `z`, and two zeros. -/
def Sharding.aimed (flag1 : BitVec 32) (flag2 : BitVec 16) (z : Vector Byte 4) : Sharding :=
  .create ⟨#[flag1.extractLsb' 0 8 ^^^ z[0], flag1.extractLsb' 8 8 ^^^ z[1],
      flag1.extractLsb' 16 8 ^^^ z[2], flag1.extractLsb' 24 8 ^^^ z[3],
      flag2.extractLsb' 0 8, flag2.extractLsb' 8 8], rfl⟩
    ⟨#[0, 0, 0, 0, 0, 0], rfl⟩

/-- A port number as the hash reads its digits. -/
def digits (x : BitVec 16) : Nat := (x.extractLsb' 0 8).toNat * 2 ^ 8 + (x.extractLsb' 8 8).toNat

/-- The number that the digits `z` make, with two zeros behind them. -/
def leading (z : Vector Byte 4) : Nat :=
  z[0].toNat * 2 ^ 40 + z[1].toNat * 2 ^ 32 + z[2].toNat * 2 ^ 24 + z[3].toNat * 2 ^ 16

theorem mix_aimed (flag1 : BitVec 32) (flag2 x : BitVec 16) (z : Vector Byte 4) :
    (Sharding.aimed flag1 flag2 z).mix flag1 x = (leading z + digits (x ^^^ flag2)) % 0xff100f := by
  have hxor (a b : Byte) : a ^^^ (a ^^^ b) = b := by
    rw [← BitVec.xor_assoc, BitVec.xor_self, BitVec.zero_xor]
  rw [Sharding.mix, bytesOf32_eq, leading, digits, BitVec.extractLsb'_xor, BitVec.extractLsb'_xor,
    ← Nat.add_assoc]
  refine (mixBytes_inPlace _ ..).trans ?_
  rw [Sharding.aimed, Sharding.create]
  simp only [Vector.getElem_mk, List.getElem_toArray, List.getElem_cons_zero,
    List.getElem_cons_succ, hxor]

theorem digits_lt (x : BitVec 16) : digits x < 2 ^ 16 := by
  have h₁ := (x.extractLsb' 0 8).isLt
  have h₂ := (x.extractLsb' 8 8).isLt
  rw [digits]
  omega

theorem digits_eq_zero {x : BitVec 16} (h : digits x = 0) : x = 0 := by
  have h₁ : x.toNat % 2 ^ 8 = 0 := by
    rw [digits, BitVec.extractLsb'_toNat] at h
    simpa using (Nat.eq_zero_of_add_eq_zero h).1
  have h₂ : x.toNat >>> 8 % 2 ^ 8 = 0 := by
    rw [digits, BitVec.extractLsb'_toNat, BitVec.extractLsb'_toNat] at h
    exact (Nat.eq_zero_of_add_eq_zero h).2
  have hx := x.isLt
  rw [Nat.shiftRight_eq_div_pow] at h₂
  refine BitVec.eq_of_toNat_eq ?_
  show x.toNat = 0
  omega

/-- Packets whose addresses agree and whose words do not are told apart by some seed, by
any number of workers but one: the modulus is a prime, which no such number divides that
divides a number below `2 ^ 16`. -/
theorem exists_mix_ne (flag1 : BitVec 32) {x y : BitVec 16} (hne : x ≠ y) {n : Nat} (hn : 1 < n) :
    ∃ xors perm, (Sharding.create xors perm).mix flag1 x % n ≠
      (Sharding.create xors perm).mix flag1 y % n := by
  by_contra hall
  push Not at hall
  have hmix (z : Vector Byte 4) :
      leading z % 0xff100f % n = (leading z + digits (y ^^^ x)) % 0xff100f % n := by
    have h : (Sharding.aimed flag1 x z).mix flag1 x % n =
        (Sharding.aimed flag1 x z).mix flag1 y % n := hall _ _
    rw [mix_aimed, mix_aimed, BitVec.xor_self, show digits 0#16 = 0 from rfl, Nat.add_zero] at h
    exact h
  have hlt := digits_lt (y ^^^ x)
  have hpos : digits (y ^^^ x) ≠ 0 := fun h =>
    hne (BitVec.xor_eq_zero_iff.mp (digits_eq_zero h)).symm
  generalize digits (y ^^^ x) = δ at hmix hlt hpos
  -- With leading zeros, the numbers are `0` and `δ`; with these digits, `M - 1` and `δ - 1`.
  have h₁ : n ∣ δ := by
    have h := hmix ⟨#[0, 0, 0, 0], rfl⟩
    rw [show leading ⟨#[0, 0, 0, 0], rfl⟩ = 0 from rfl, Nat.zero_add,
      Nat.mod_eq_of_lt (by omega : δ < 0xff100f)] at h
    exact Nat.dvd_of_mod_eq_zero (h.symm.trans (Nat.zero_mod n))
  have h₂ : n ∣ 0xff100f := by
    have h := hmix ⟨#[0, 0xde, 0x1e, 0x0d], rfl⟩
    have hlead : leading ⟨#[0, 0xde, 0x1e, 0x0d], rfl⟩ % 0xff100f = 0xff100e := by decide
    have hwrap : (leading ⟨#[0, 0xde, 0x1e, 0x0d], rfl⟩ + δ) % 0xff100f = δ - 1 := by omega
    rw [hlead, hwrap] at h
    have hdvd : n ∣ 0xff100e - (δ - 1) := (Nat.modEq_iff_dvd' (by omega)).mp h.symm
    have hsum := Nat.dvd_add hdvd h₁
    rwa [show 0xff100e - (δ - 1) + δ = 0xff100f by omega] at hsum
  have hprime : Nat.Prime 0xff100f := by norm_num
  have hle := Nat.le_of_dvd (Nat.pos_of_ne_zero hpos) h₁
  rcases (Nat.dvd_prime hprime).mp h₂ with rfl | rfl <;> omega

end Noff
