import Noff.Header

/-!
# Datagrams and their fragments

What a datagram carries, and the packets into which it may be cut on its way.
-/

namespace Noff

/-- `IP_OFFSET`, the bits of `ip_off` that hold the offset. -/
abbrev IP_OFFSET : Nat := 0x1fff

/-- `IP_MF`: more fragments follow. -/
def moreFragments (d : List Byte) : Bool := (ipOff d).getLsbD 13

/-- The position in the datagram of the first byte that a packet carries. -/
def fragOffset (d : List Byte) : Nat := ((ipOff d).toNat &&& IP_OFFSET) * 8

/-- What the fragments of a datagram have in common, and its payload. -/
structure Datagram where
  src : BitVec 32
  dst : BitVec 32
  id : BitVec 16
  proto : Byte
  payload : List Byte

/-- The captured packet `f` carries `n` bytes of the payload from position `off` on. Its
header may have options, and bytes may follow that are not part of it. -/
structure Datagram.Fragment (d : Datagram) (off n : Nat) (more : Bool) (f : List Byte) : Prop where
  src : ipSrc f = d.src
  dst : ipDst f = d.dst
  id : ipId f = d.id
  proto : ipP f = d.proto
  version : ipV f = 4
  header : 5 ≤ ipHl f
  len : ipLen f = thdr f + n
  captured : ipLen f ≤ f.length
  offset : fragOffset f = off
  more : moreFragments f = more
  data : (f.drop (thdr f)).take n = (d.payload.drop off).take n

/-- The packets `fs` carry the payload of a datagram from position `off` on, piece by piece. -/
inductive Datagram.Cut (d : Datagram) : Nat → List (List Byte) → Prop
  | last {off : Nat} {f : List Byte} (hoff : off < d.payload.length)
      (hf : d.Fragment off (d.payload.length - off) false f) : d.Cut off [f]
  | more {off n : Nat} {f : List Byte} {fs : List (List Byte)} (hn : 0 < n) (h8 : 8 ∣ n)
      (hf : d.Fragment off n true f) (hfs : d.Cut (off + n) fs) : d.Cut off (f :: fs)

namespace Datagram

variable {d : Datagram} {off n : Nat} {more : Bool} {f : List Byte} {fs : List (List Byte)}

theorem Cut.exists_fragment (h : d.Cut off fs) {f : List Byte} (hf : f ∈ fs) :
    ∃ off' n more, d.Fragment off' n more f := by
  induction h with
  | last hoff hfrag =>
    obtain rfl := List.mem_singleton.mp hf
    exact ⟨_, _, _, hfrag⟩
  | more hn h8 hfrag hfs ih =>
    rcases List.mem_cons.mp hf with rfl | hmem
    · exact ⟨_, _, _, hfrag⟩
    · exact ih hmem

/-- The offset of a cut lies in the payload. -/
theorem Cut.lt (h : d.Cut off fs) : off < d.payload.length := by
  induction h with
  | last hoff => exact hoff
  | more hn h8 hf hfs ih => omega

/-- The first packet carries the first bytes of the payload, eight of them if
there are as many. -/
theorem Cut.first (h : d.Cut 0 fs) : ∃ f ∈ fs, ∃ n more,
    min 8 d.payload.length ≤ n ∧ n ≤ d.payload.length ∧ d.Fragment 0 n more f := by
  cases h with
  | last hoff hf => exact ⟨_, List.mem_cons_self .., _, _, Nat.min_le_right .., le_rfl, hf⟩
  | more hn h8 hf hfs =>
    have hle := Nat.le_of_dvd hn h8
    have hlt := hfs.lt
    exact ⟨_, List.mem_cons_self .., _, _, by omega, by omega, hf⟩

/-- The bytes of a fragment are those of the payload, from its offset on. -/
theorem Fragment.byteAt_eq (h : d.Fragment off n more f) {i : Nat} (hi : i < n) :
    byteAt f (thdr f + i) = byteAt d.payload (off + i) := by
  have hget := congrArg (·[i]?) h.data
  rw [List.getElem?_take_of_lt hi, List.getElem?_take_of_lt hi, List.getElem?_drop,
    List.getElem?_drop] at hget
  rw [byteAt, byteAt, List.getD_eq_getElem?_getD, List.getD_eq_getElem?_getD, hget]

end Datagram

end Noff
