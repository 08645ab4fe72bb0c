import Noff.Header

/-!
# `Hash.cc`: the key of a connection
-/

namespace Noff

/-- `Hash`: the two arrays that `init_hash` fills at random. -/
structure Hash where
  xors : Vector Byte 12
  perm : Vector Byte 12

/-- One of the hashes that `init_hash` can make. -/
def Hash.plain : Hash := ⟨⟨#[0, 0, 0, 0, 0, 0, 0, 0, 0, 0, 0, 0], rfl⟩, ⟨#[0, 1, 2, 3, 4, 5, 6, 7, 8, 9, 10, 11], rfl⟩⟩

/-- The bytes of a number as it stands in memory. -/
def bytesOf16 (x : BitVec 16) : List Byte := [x.extractLsb' 0 8, x.extractLsb' 8 8]

def bytesOf32 (x : BitVec 32) : List Byte :=
  bytesOf16 (x.extractLsb' 0 16) ++ bytesOf16 (x.extractLsb' 16 16)

theorem bytesOf32_eq (x : BitVec 32) : bytesOf32 x =
    [x.extractLsb' 0 8, x.extractLsb' 8 8, x.extractLsb' 16 8, x.extractLsb' 24 8] := by
  have h (i j : Nat) (hi : i + 8 ≤ 16) :
      (x.extractLsb' j 16).extractLsb' i 8 = x.extractLsb' (j + i) 8 := by
    ext k hk
    rw [BitVec.getElem_extractLsb', BitVec.getElem_extractLsb', BitVec.getLsbD_extractLsb',
      Nat.add_assoc, decide_eq_true (by omega), Bool.true_and]
  rw [bytesOf32, bytesOf16, bytesOf16, h, h, h, h] <;> first | rfl | decide

/-- The loop of `Hash::get_key` and `Sharding::operator()`. `res` stays below
`2^24`, so that the shift loses no bits. -/
def mixBytes {n : Nat} (xors perm : Vector Byte n) (data : List Byte) : Nat :=
  (List.finRange n).foldl
    (fun res i => (res * 2 ^ 8 + (byteAt data perm[i].toNat ^^^ xors[i]).toNat) % 0xff100f) 0

def Hash.getKey (h : Hash) (src : BitVec 32) (sport : BitVec 16) (dst : BitVec 32)
    (dport : BitVec 16) (hashSize : Nat) : Nat :=
  mixBytes h.xors h.perm (bytesOf32 src ++ bytesOf32 dst ++ bytesOf16 sport ++ bytesOf16 dport) %
    hashSize

end Noff
