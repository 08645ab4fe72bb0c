import Noff.Lib.Slots
import Noff.Sharding

/-!
# `Hash.cc` and `Sharding.cc` on their arrays

The constructors replace the random bytes in `perm` one after the other by the numbers left in
`p`, and close the gap in `p` each time (`shiftDown_eq`). That is `shuffle`, so a permutation
is left (`seedLoop_eq`, `perm_shuffle`), and no access is out of range or reads what is not
initialized. A loop through that permutation reads every byte of a key once (`mixLoop_eq`), in
`get_key` and in `operator()` (`seeds_permute`).
-/

namespace Noff

/-! ## The loops of the constructors -/

/-- The loop that closes the gap: `p[n + j] = p[n + j + 1]`, for `j` below `m - 1 - n`. -/
def shiftDown (m n : Nat) (p : Slots Nat) : Option (Slots Nat) :=
  (List.range (m - 1 - n)).foldlM (fun p j => do p.write (n + j) (← p.read (n + j + 1))) p

/-- One pass of the second loop, on `p` and `perm`. -/
def seedPass (m : Nat) (arrays : Slots Nat × Slots Byte) (i : Nat) :
    Option (Slots Nat × Slots Byte) := do
  let (p, perm) := arrays
  let n := (← perm.read i).toNat % (m - i)
  let perm ← perm.write i (BitVec.ofNat 8 (← p.read n))
  return (← shiftDown m n p, perm)

/-- Both loops, for arrays of `m` entries. -/
def seedLoop (m : Nat) (perm : Slots Byte) : Option (Slots Byte) := do
  let p ← (List.range m).foldlM (fun (p : Slots Nat) i => p.write i i) (.uninit m)
  return (← (List.range m).foldlM (seedPass m) (p, perm)).2

/-- `Hash::init_hash`, for the bytes in `perm` after `getrnd`. -/
def Hash.initHash (perm : Slots Byte) : Option (Slots Byte) := seedLoop 12 perm

/-- `Sharding::Sharding`, for the bytes in `perm_` after `initRandom`. -/
def Sharding.construct (perm : Slots Byte) : Option (Slots Byte) := seedLoop 6 perm

/-- What the numbers in `p` become in `perm`. -/
def toBytes (q : List Nat) : List Byte := q.map (BitVec.ofNat 8)

/-- The entries of `p` after some passes of the loop: those between have moved down. -/
def Moved (n : Nat) (q : List Nat) (j : Nat) (p : Slots Nat) : Prop :=
  ∃ q' : List Nat, p = q'.map some ∧ q'.length = q.length ∧
    ∀ k, q'[k]? = if n ≤ k ∧ k < n + j then q[k + 1]? else q[k]?

theorem Moved.pass {n j : Nat} {q : List Nat} {p : Slots Nat} (h : Moved n q j p)
    (hlt : n + j + 1 < q.length) :
    ∃ p' : Slots Nat, (do p.write (n + j) (← p.read (n + j + 1))) = some p' ∧
      Moved n q (j + 1) p' := by
  obtain ⟨q', rfl, hlen, hget⟩ := h
  refine ⟨(q'.set (n + j) (q[n + j + 1])).map some, ?_, _, rfl, by rw [List.length_set, hlen], ?_⟩
  · -- The entry that is read has not been overwritten yet.
    rw [Slots.read_map_some, hget, if_neg (by omega), List.getElem?_eq_getElem hlt]
    exact Slots.write_map_some (by omega)
  · intro k
    rw [List.getElem?_set]
    by_cases hk : n + j = k
    · rw [if_pos hk, if_pos (by omega), if_pos (by omega), ← hk, List.getElem?_eq_getElem hlt]
    · rw [if_neg hk, hget k]
      exact if_congr (by omega) rfl rfl

/-- Of the first entries, one is gone and the others stand one behind the other. -/
theorem shiftDown_eq {m n k : Nat} {q : List Nat} (hq : q.length = m) (hn : n < k + 1)
    (hk : k + 1 ≤ m) : ∃ q' : List Nat, shiftDown m n (q.map some) = some (q'.map some) ∧
      q'.length = m ∧ q'.take k = (q.take (k + 1)).eraseIdx n := by
  have hstart : Moved n q 0 (q.map some) := ⟨q, rfl, rfl, fun k => (if_neg (by omega)).symm⟩
  obtain ⟨p', h, q', rfl, hlen, hget⟩ :=
    foldlM_range hstart fun j (hj : j < m - 1 - n) p hp => hp.pass (by omega)
  refine ⟨q', h, hlen.trans hq, List.ext_getElem? fun j => ?_⟩
  rw [List.getElem?_eraseIdx]
  by_cases hj : j < k
  · rw [List.getElem?_take_of_lt hj, hget j, List.getElem?_take_of_lt (by omega),
      List.getElem?_take_of_lt (by omega)]
    split_ifs <;> first | rfl | omega
  · rw [List.getElem?_eq_none (by rw [List.length_take]; omega)]
    split
    · omega
    · rw [List.getElem?_eq_none (by rw [List.length_take]; omega)]

/-- The first loop. -/
theorem fill_eq (m : Nat) :
    (List.range m).foldlM (fun (p : Slots Nat) i => p.write i i) (.uninit m) =
      some ((List.range m).map some) := by
  have hpass (i : Nat) (hi : i < m) (p : Slots Nat)
      (hp : p = (List.range i).map some ++ Slots.uninit (m - i)) : ∃ p', p.write i i = some p' ∧
        p' = (List.range (i + 1)).map some ++ Slots.uninit (m - (i + 1)) := by
    subst hp
    refine ⟨_, Slots.write_eq ?_, ?_⟩
    · rw [List.length_append, List.length_map, List.length_range, Slots.uninit,
        List.length_replicate]
      omega
    · rw [show m - i = m - (i + 1) + 1 by omega, Slots.uninit, List.replicate_succ,
        List.set_append_right _ _ (by rw [List.length_map, List.length_range]), List.length_map,
        List.length_range, Nat.sub_self, List.set_cons_zero, List.range_succ, List.map_append,
        List.append_assoc]
      rfl
  obtain ⟨p, h, hp⟩ := foldlM_range (s := Slots.uninit m) rfl hpass
  rw [h, hp, Nat.sub_self, Slots.uninit, List.replicate_zero, List.append_nil]

theorem toBytes_eraseIdx (q : List Nat) (n : Nat) :
    toBytes (q.eraseIdx n) = (toBytes q).eraseIdx n := (List.eraseIdx_map _ _ _).symm

/-- What holds before pass `i`: `done` has been left, and shuffling the first `m - i` entries of
`p` with the bytes that are still to be replaced gives what is missing. -/
def Shuffling (m : Nat) (rs : List Byte) (i : Nat) (arrays : Slots Nat × Slots Byte) : Prop :=
  ∃ (q : List Nat) (done : List Byte), q.length = m ∧ done.length = i ∧
    arrays = (q.map some, (done ++ rs.drop i).map some) ∧
    done ++ shuffle (rs.drop i) (toBytes (q.take (m - i))) = shuffle rs (toBytes (List.range m))

theorem Shuffling.pass {m i : Nat} {rs : List Byte} {arrays : Slots Nat × Slots Byte}
    (h : Shuffling m rs i arrays) (hrs : rs.length = m) (hi : i < m) :
    ∃ arrays', seedPass m arrays i = some arrays' ∧ Shuffling m rs (i + 1) arrays' := by
  obtain ⟨q, done, hq, hdone, rfl, hs⟩ := h
  have hlt : i < rs.length := by omega
  obtain ⟨k, hk⟩ : ∃ k, m - i = k + 1 := ⟨m - i - 1, by omega⟩
  have hn : rs[i].toNat % (k + 1) < k + 1 := Nat.mod_lt _ (Nat.succ_pos k)
  generalize hr : rs[i].toNat % (k + 1) = n at hn
  have hnq : n < q.length := by omega
  obtain ⟨q', hshift, hlen, htake⟩ := shiftDown_eq hq hn (by omega)
  rw [List.drop_eq_getElem_cons hlt] at hs ⊢
  have hset : (done ++ rs[i] :: rs.drop (i + 1)).set i (BitVec.ofNat 8 q[n]) =
      (done ++ [BitVec.ofNat 8 q[n]]) ++ rs.drop (i + 1) := by
    rw [List.set_append_right _ _ hdone.le, hdone, Nat.sub_self, List.set_cons_zero,
      List.append_assoc]
    rfl
  refine ⟨(q'.map some, ((done ++ [BitVec.ofNat 8 q[n]]) ++ rs.drop (i + 1)).map some), ?_, q',
    done ++ [BitVec.ofNat 8 q[n]], hlen, by rw [List.length_append, hdone]; rfl, rfl, ?_⟩
  · have hread : (done ++ rs[i] :: rs.drop (i + 1))[i]? = some rs[i] := by
      rw [List.getElem?_append_right hdone.le, hdone, Nat.sub_self]
      rfl
    have hin : i < (done ++ rs[i] :: rs.drop (i + 1)).length := by
      rw [List.length_append, hdone, List.length_cons]
      omega
    have hwrite := Slots.write_map_some (x := BitVec.ofNat 8 q[n]) hin
    rw [hset] at hwrite
    simp only [seedPass, Slots.read_map_some, hread, Option.bind_eq_bind, Option.bind_some, hk, hr,
      List.getElem?_eq_getElem hnq, hwrite, hshift, Option.pure_def]
  · -- The number that is taken is the one that `shuffle` takes from the first entries.
    have hlength : (toBytes (q.take (k + 1))).length = k + 1 := by
      rw [toBytes, List.length_map, List.length_take]
      omega
    have hbyte : byteAt (toBytes (q.take (k + 1))) n = BitVec.ofNat 8 q[n] := by
      rw [byteAt, List.getD_eq_getElem?_getD, toBytes, List.getElem?_map,
        List.getElem?_take_of_lt hn, List.getElem?_eq_getElem hnq]
      rfl
    rw [hk, shuffle, hlength, hr, hbyte, ← toBytes_eraseIdx] at hs
    rw [← hs, show m - (i + 1) = k by omega, htake, List.append_assoc]
    rfl

/-- The loops of a constructor are `shuffle`. -/
theorem seedLoop_eq {m : Nat} {rs : List Byte} (hrs : rs.length = m) :
    seedLoop m (rs.map some) = some ((shuffle rs (toBytes (List.range m))).map some) := by
  have hstart : Shuffling m rs 0 ((List.range m).map some, rs.map some) := by
    refine ⟨List.range m, [], List.length_range, rfl, rfl, ?_⟩
    rw [List.drop_zero, Nat.sub_zero, List.take_of_length_le List.length_range.le]
    rfl
  obtain ⟨arrays, h, q, done, -, -, rfl, hs⟩ :=
    foldlM_range hstart fun i hi arrays hp => hp.pass hrs hi
  rw [List.drop_of_length_le hrs.le, shuffle, List.append_nil] at hs
  rw [List.drop_of_length_le hrs.le, List.append_nil, hs] at h
  rw [seedLoop, fill_eq]
  exact congrArg (· >>= fun arrays => some arrays.2) h

/-- What is left is a permutation, whatever the random bytes are. -/
theorem perm_shuffle {rs p : List Byte} (h : rs.length = p.length) : (shuffle rs p).Perm p := by
  induction rs generalizing p with
  | nil => rw [List.length_eq_zero_iff.mp h.symm, shuffle]
  | cons r rs ih =>
    have hlt : r.toNat % p.length < p.length := Nat.mod_lt _ (by rw [← h]; exact Nat.succ_pos _)
    have hrest := ih (p := p.eraseIdx (r.toNat % p.length)) (by
      rw [List.length_eraseIdx_of_lt hlt, ← h]
      rfl)
    rw [shuffle, byteAt, List.getD_eq_getElem?_getD, List.getElem?_eq_getElem hlt]
    exact (hrest.cons _).trans (List.getElem_cons_eraseIdx_perm hlt)

/-! ## The loops through a key -/

/-- One pass of the loop of `get_key` and of `operator()`, with the entries of `data` that have
been read. -/
def mixPass (xors perm data : Slots Byte) (acc : BitVec 32 × List Nat) (i : Nat) :
    Option (BitVec 32 × List Nat) := do
  let k := (← perm.read i).toNat
  let byte := (← data.read k) ^^^ (← xors.read i)
  return ((acc.1 <<< 8 + byte.setWidth 32) % 0xff100f#32, acc.2 ++ [k])

def mixLoop (m : Nat) (xors perm data : Slots Byte) : Option (BitVec 32 × List Nat) :=
  (List.range m).foldlM (mixPass xors perm data) (0, [])

/-- `data` in `get_key`. -/
def Hash.keyData (src : BitVec 32) (sport : BitVec 16) (dst : BitVec 32) (dport : BitVec 16) :
    Option (Slots Byte) := do
  let data ← (Slots.uninit 12).store 0 (bytesOf32 src)
  let data ← data.store 4 (bytesOf32 dst)
  let data ← data.store 8 (bytesOf16 sport)
  data.store 10 (bytesOf16 dport)

/-- `get_key` on the arrays, with the entries of `data` that it reads; a size of 0 has no result. -/
def Hash.getKeyOn (xors perm : Slots Byte) (src : BitVec 32) (sport : BitVec 16) (dst : BitVec 32)
    (dport : BitVec 16) (hashSize : Nat) : Option (Nat × List Nat) := do
  let (res, used) ← mixLoop 12 xors perm (← Hash.keyData src sport dst dport)
  if hashSize = 0 then none else return (res.toNat % hashSize, used)

/-- `data` in `operator()`. -/
def Sharding.tupleData (t : Tuple4) : Option (Slots Byte) := do
  let data ← (Slots.uninit 6).store 0 (bytesOf32 (t.daddr ^^^ t.saddr))
  data.store 4 (bytesOf16 (t.dest ^^^ t.source))

/-- `operator()` on the arrays, with the entries of `data` that it reads. -/
def Sharding.ofTupleOn (xors perm : Slots Byte) (t : Tuple4) : Option (BitVec 32 × List Nat) := do
  mixLoop 6 xors perm (← Sharding.tupleData t)

/-- One pass of `mixBytes`. -/
theorem mix_pass {res : BitVec 32} {r : Nat} (hres : res.toNat = r) (hr : r < 0xff100f)
    (b : Byte) : ((res <<< 8 + b.setWidth 32) % 0xff100f#32).toNat =
      (r * 2 ^ 8 + b.toNat) % 0xff100f := by
  have hb := b.isLt
  rw [BitVec.toNat_umod, BitVec.toNat_add, BitVec.toNat_shiftLeft, BitVec.toNat_setWidth,
    Nat.shiftLeft_eq, hres, Nat.mod_eq_of_lt (by omega : b.toNat < 2 ^ 32),
    Nat.mod_eq_of_lt (by omega : r * 2 ^ 8 < 2 ^ 32),
    Nat.mod_eq_of_lt (by omega : r * 2 ^ 8 + b.toNat < 2 ^ 32)]
  rfl

/-- What holds before pass `i`. -/
def Mixed {m : Nat} (xors perm : Vector Byte m) (data : List Byte) (i : Nat)
    (acc : BitVec 32 × List Nat) : Prop :=
  acc.1.toNat = ((List.finRange m).take i).foldl
    (fun res i => (res * 2 ^ 8 + (byteAt data (perm.get i).toNat ^^^ xors.get i).toNat) % 0xff100f) 0 ∧
  acc.1.toNat < 0xff100f ∧ acc.2 = (perm.toList.take i).map (·.toNat)

theorem Mixed.pass {m i : Nat} {xors perm : Vector Byte m} {data : List Byte}
    {acc : BitVec 32 × List Nat} (h : Mixed xors perm data i acc) (hi : i < m)
    (hperm : perm[i].toNat < data.length) :
    ∃ acc', mixPass (xors.toList.map some) (perm.toList.map some) (data.map some) acc i =
      some acc' ∧ Mixed xors perm data (i + 1) acc' := by
  obtain ⟨hres, hlt, hused⟩ := h
  have hentry (v : Vector Byte m) : v.toList[i]? = some v[i] := by
    rw [List.getElem?_eq_getElem (by rwa [Vector.length_toList]), Vector.getElem_toList]
  have hbyte : data[perm[i].toNat]? = some (byteAt data perm[i].toNat) := by
    rw [byteAt, List.getD_eq_getElem?_getD, List.getElem?_eq_getElem hperm]
    rfl
  have hpass := mix_pass rfl hlt (byteAt data perm[i].toNat ^^^ xors[i])
  have hrun : mixPass (xors.toList.map some) (perm.toList.map some) (data.map some) acc i =
      some ((acc.1 <<< 8 + (byteAt data perm[i].toNat ^^^ xors[i]).setWidth 32) % 0xff100f#32,
        acc.2 ++ [perm[i].toNat]) := by
    simp only [mixPass, Slots.read_map_some, hentry, hbyte, Option.bind_eq_bind, Option.bind_some,
      Option.pure_def]
  refine ⟨_, hrun, ?_, ?_, ?_⟩
  · have hnext : (List.finRange m)[i]? = some ⟨i, hi⟩ := by
      rw [List.getElem?_eq_getElem (by rwa [List.length_finRange]), List.getElem_finRange]
      rfl
    rw [List.take_add_one, hnext, List.foldl_append, ← hres]
    exact hpass
  · exact hpass.trans_lt (Nat.mod_lt _ (by decide))
  · rw [List.take_add_one, hentry, List.map_append, hused]
    rfl

/-- The loop is `mixBytes`: no shift loses bits, and the entries of `data` are read in the order
of `perm`. -/
theorem mixLoop_eq {m : Nat} (xors perm : Vector Byte m) (data : List Byte)
    (hperm : ∀ k ∈ perm.toList, k.toNat < data.length) :
    ∃ res : BitVec 32, mixLoop m (xors.toList.map some) (perm.toList.map some) (data.map some) =
      some (res, perm.toList.map (·.toNat)) ∧ res.toNat = mixBytes xors perm data := by
  have hstart : Mixed xors perm data 0 (0, []) := ⟨rfl, by decide, rfl⟩
  obtain ⟨⟨res, used⟩, h, hres, -, hused⟩ := foldlM_range hstart fun i hi acc hacc =>
    hacc.pass hi (hperm _ (Vector.mem_toList_iff.mpr (Vector.getElem_mem hi)))
  rw [List.take_of_length_le perm.length_toList.le] at hused
  rw [List.take_of_length_le List.length_finRange.le] at hres
  exact ⟨res, hused ▸ h, hres⟩

/-- All bytes of `data` are written. -/
theorem Hash.keyData_eq (src : BitVec 32) (sport : BitVec 16) (dst : BitVec 32)
    (dport : BitVec 16) : Hash.keyData src sport dst dport =
      some ((bytesOf32 src ++ bytesOf32 dst ++ bytesOf16 sport ++ bytesOf16 dport).map some) := rfl

theorem Sharding.tupleData_eq (t : Tuple4) : Sharding.tupleData t =
    some ((bytesOf32 (t.daddr ^^^ t.saddr) ++ bytesOf16 (t.dest ^^^ t.source)).map some) := rfl

/-- A permutation of the numbers below `m`. -/
def PermutesBelow (m : Nat) (ps : List Byte) : Prop := (ps.map (·.toNat)).Perm (List.range m)

theorem PermutesBelow.lt {m : Nat} {ps : List Byte} (h : PermutesBelow m ps) {k : Byte}
    (hk : k ∈ ps) : k.toNat < m :=
  List.mem_range.mp (h.subset (List.mem_map_of_mem hk))

theorem permutesBelow_shuffle {m : Nat} {rs : List Byte} (hrs : rs.length = m) (hm : m ≤ 256) :
    PermutesBelow m (shuffle rs (toBytes (List.range m))) := by
  have hlength : rs.length = (toBytes (List.range m)).length := by
    rw [hrs, toBytes, List.length_map, List.length_range]
  have hperm := perm_shuffle hlength
  refine (hperm.map (·.toNat)).trans (.of_eq ?_)
  rw [toBytes, List.map_map]
  refine (List.map_congr_left fun k hk => ?_).trans (List.map_id _)
  have hlt := List.mem_range.mp hk
  exact Nat.mod_eq_of_lt (by omega)

/-- The state that `Hash::Hash` leaves, for the bytes that `getrnd` reads. -/
def Hash.create (xors perm : Vector Byte 12) : Hash :=
  ⟨xors, ⟨(shuffle perm.toList (toBytes (List.range 12))).toArray, by
    rw [List.size_toArray, length_shuffle, Vector.length_toList]⟩⟩

/-- Whatever the random bytes are, the constructors leave permutations, and `get_key` and
`operator()` read every byte of their key once. None of them leaves its arrays, or reads what is
not initialized. -/
theorem seeds_permute :
    (∀ xors perm : Vector Byte 12,
      Hash.initHash (perm.toList.map some) = some ((Hash.create xors perm).perm.toList.map some) ∧
      PermutesBelow 12 (Hash.create xors perm).perm.toList ∧
      ∀ src sport dst dport hashSize, 0 < hashSize → ∃ used,
        Hash.getKeyOn (xors.toList.map some) ((Hash.create xors perm).perm.toList.map some)
          src sport dst dport hashSize =
            some ((Hash.create xors perm).getKey src sport dst dport hashSize, used) ∧
        used.Perm (List.range 12) ∧
        (Hash.create xors perm).getKey src sport dst dport hashSize < hashSize) ∧
    ∀ xors perm : Vector Byte 6,
      Sharding.construct (perm.toList.map some) =
        some ((Sharding.create xors perm).perm.toList.map some) ∧
      PermutesBelow 6 (Sharding.create xors perm).perm.toList ∧
      ∀ t, ∃ res used,
        Sharding.ofTupleOn (xors.toList.map some)
          ((Sharding.create xors perm).perm.toList.map some) t = some (res, used) ∧
        res.toNat = (Sharding.create xors perm).ofTuple t ∧ used.Perm (List.range 6) := by
  constructor
  · intro xors perm
    have hlist : (Hash.create xors perm).perm.toList =
        shuffle perm.toList (toBytes (List.range 12)) := rfl
    have hp : PermutesBelow 12 (Hash.create xors perm).perm.toList :=
      hlist ▸ permutesBelow_shuffle perm.length_toList (by decide)
    refine ⟨?_, hp, fun src sport dst dport hashSize hpos => ?_⟩
    · rw [Hash.initHash, seedLoop_eq perm.length_toList, hlist]
    · obtain ⟨res, hloop, hres⟩ := mixLoop_eq xors (Hash.create xors perm).perm
        (bytesOf32 src ++ bytesOf32 dst ++ bytesOf16 sport ++ bytesOf16 dport)
        fun k hk => hp.lt hk
      refine ⟨_, ?_, hp, Nat.mod_lt _ hpos⟩
      rw [Hash.getKeyOn, Hash.keyData_eq, Option.bind_eq_bind, Option.bind_some, hloop,
        Option.bind_eq_bind, Option.bind_some]
      dsimp only
      rw [if_neg hpos.ne', hres]
      rfl
  · intro xors perm
    have hlist : (Sharding.create xors perm).perm.toList =
        shuffle perm.toList (toBytes (List.range 6)) := rfl
    have hp : PermutesBelow 6 (Sharding.create xors perm).perm.toList :=
      hlist ▸ permutesBelow_shuffle perm.length_toList (by decide)
    refine ⟨?_, hp, fun t => ?_⟩
    · rw [Sharding.construct, seedLoop_eq perm.length_toList, hlist]
    · obtain ⟨res, hloop, hres⟩ := mixLoop_eq xors (Sharding.create xors perm).perm
        (bytesOf32 (t.daddr ^^^ t.saddr) ++ bytesOf16 (t.dest ^^^ t.source))
        fun k hk => hp.lt hk
      exact ⟨res, _, by rw [Sharding.ofTupleOn, Sharding.tupleData_eq]; exact hloop, hres, hp⟩

/-- With the size of the table that `TcpFragment` makes. -/
theorem seeds_permute_streams :
    PermutesBelow 12 (Hash.create (.replicate 12 0) (.replicate 12 0xff)).perm.toList ∧
      ∃ key used, Hash.getKeyOn (List.replicate 12 (some 0))
        ((Hash.create (.replicate 12 0) (.replicate 12 0xff)).perm.toList.map some)
          0x0100000a 1 0x0200000a 80 500000 = some (key, used) ∧
        used.Perm (List.range 12) ∧ key < 500000 := by
  obtain ⟨-, hp, hkey⟩ := seeds_permute.1 (.replicate 12 0) (.replicate 12 0xff)
  obtain ⟨used, hrun, hused, hlt⟩ := hkey 0x0100000a 1 0x0200000a 80 500000 (by decide)
  exact ⟨hp, _, used, hrun, hused, hlt⟩

end Noff
