import Mathlib.Data.BitVec
import Mathlib.Data.List.Range

/-!
# Packet bytes and the headers read from them

A datagram is the list of its bytes, from the IP header on. The fields of
`struct ip` and `struct tcphdr` are read at their offsets, as the code does
through its pointers; `ntohs` and `ntohl` of a field are `be16` and `be32`, and a
field used as it stands in memory is `le16` or `le32` (the code runs on a
little-endian machine).
-/

namespace Noff

abbrev Byte := BitVec 8

/-- Byte `i` of a buffer; past its end, 0. -/
def byteAt (d : List Byte) (i : Nat) : Byte := d.getD i 0

/-- The `n` bytes of a buffer from byte `i` on. -/
def bytesAt (d : List Byte) (i n : Nat) : List Byte := (List.range n).map fun k => byteAt d (i + k)

@[simp] theorem length_bytesAt (d : List Byte) (i n : Nat) : (bytesAt d i n).length = n := by
  simp [bytesAt]

theorem getElem?_bytesAt (d : List Byte) (i : Nat) {n k : Nat} (hk : k < n) :
    (bytesAt d i n)[k]? = some (byteAt d (i + k)) := by
  simp [bytesAt, hk]

/-- Within the buffer, they are a slice of it. -/
theorem bytesAt_eq_take_drop {d : List Byte} {i n : Nat} (h : i + n ≤ d.length) :
    bytesAt d i n = (d.drop i).take n := by
  refine List.ext_getElem? fun k => ?_
  by_cases hk : k < n
  · have hlt : i + k < d.length := by omega
    rw [getElem?_bytesAt d i hk, List.getElem?_take_of_lt hk, List.getElem?_drop, byteAt,
      List.getD_eq_getElem?_getD, List.getElem?_eq_getElem hlt, Option.getD_some]
  · rw [List.getElem?_eq_none (by rw [length_bytesAt]; omega),
      List.getElem?_eq_none (by rw [List.length_take]; omega)]

def be16 (d : List Byte) (i : Nat) : BitVec 16 := byteAt d i ++ byteAt d (i + 1)

def le16 (d : List Byte) (i : Nat) : BitVec 16 := byteAt d (i + 1) ++ byteAt d i

def be32 (d : List Byte) (i : Nat) : BitVec 32 := be16 d i ++ be16 d (i + 2)

def le32 (d : List Byte) (i : Nat) : BitVec 32 := le16 d (i + 2) ++ le16 d i

/-! ## `struct ip` -/

/-- `ip_hl`, the length of the header in 4-byte words. -/
def ipHl (d : List Byte) : Nat := (byteAt d 0 &&& 0x0f).toNat

def ipV (d : List Byte) : Nat := (byteAt d 0 >>> 4).toNat

/-- `ntohs(ip_len)`, the length of the datagram. -/
def ipLen (d : List Byte) : Nat := (be16 d 2).toNat

def ipId (d : List Byte) : BitVec 16 := le16 d 4

/-- `ntohs(ip_off)`, the flags and the fragment offset. -/
def ipOff (d : List Byte) : BitVec 16 := be16 d 6

def ipP (d : List Byte) : Byte := byteAt d 9

/-- `ip_src.s_addr` -/
def ipSrc (d : List Byte) : BitVec 32 := le32 d 12

/-- `ip_dst.s_addr` -/
def ipDst (d : List Byte) : BitVec 32 := le32 d 16

theorem ipHl_lt (d : List Byte) : ipHl d < 16 := by
  rw [ipHl, BitVec.toNat_and]
  exact Nat.lt_succ_of_le Nat.and_le_right

theorem ipLen_lt (d : List Byte) : ipLen d < 65536 := (be16 d 2).isLt

/-! ## `struct tcphdr`, behind the IP header -/

/-- Where the transport header starts. -/
def thdr (d : List Byte) : Nat := 4 * ipHl d

def thSport (d : List Byte) : BitVec 16 := be16 d (thdr d)

def thDport (d : List Byte) : BitVec 16 := be16 d (thdr d + 2)

def thSeq (d : List Byte) : BitVec 32 := be32 d (thdr d + 4)

def thAck (d : List Byte) : BitVec 32 := be32 d (thdr d + 8)

/-- `th_off`, the length of the TCP header in 4-byte words. -/
def thOff (d : List Byte) : Nat := (byteAt d (thdr d + 12) >>> 4).toNat

def thFlags (d : List Byte) : Byte := byteAt d (thdr d + 13)

def thWin (d : List Byte) : BitVec 16 := be16 d (thdr d + 14)

def thUrp (d : List Byte) : BitVec 16 := be16 d (thdr d + 18)

/-- `sizeof(struct tcphdr)` -/
def sizeofTcphdr : Nat := 20

/-- `th_flags & mask`, for the flag `mask`. -/
def hasFlag (d : List Byte) (mask : Byte) : Bool := thFlags d &&& mask != 0

abbrev TH_FIN : Byte := 0x01
abbrev TH_SYN : Byte := 0x02
abbrev TH_RST : Byte := 0x04
abbrev TH_ACK : Byte := 0x10
abbrev TH_URG : Byte := 0x20

end Noff
