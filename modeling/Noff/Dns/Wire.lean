import Noff.Dns.Within

/-!
# Messages on the wire, as the parser reads them

Numbers are big-endian on the wire. The parser adds bytes as signed numbers, so
that a number loses 256 where its low byte is at least 128 (`readWord_wire`).
-/

namespace Noff.Dns

open Reading

variable {data : List Byte}

/-- The bytes `bs` stand at position `p` of a message. -/
def At (data : List Byte) (p : Nat) (bs : List Byte) : Prop := bs <+: data.drop p

theorem byteAt_of_lt {p : Nat} (h : p < data.length) : byteAt data p = data[p] := by
  rw [byteAt, List.getD_eq_getElem?_getD, List.getElem?_eq_getElem h, Option.getD_some]

theorem At.cons {p : Nat} {b : Byte} {bs : List Byte} :
    At data p (b :: bs) ↔ p < data.length ∧ byteAt data p = b ∧ At data (p + 1) bs := by
  constructor
  · rintro ⟨rest, h⟩
    have hlt : p < data.length := by
      by_contra hge
      rw [List.drop_eq_nil_of_le (by omega)] at h
      cases h
    rw [List.drop_eq_getElem_cons hlt] at h
    obtain ⟨hb, hbs⟩ := List.cons_eq_cons.mp h
    exact ⟨hlt, by rw [byteAt_of_lt hlt, ← hb], rest, hbs⟩
  · rintro ⟨hlt, rfl, rest, h⟩
    refine ⟨rest, ?_⟩
    rw [List.drop_eq_getElem_cons hlt, List.cons_append, h, byteAt_of_lt hlt]

theorem At.append {p : Nat} {bs cs : List Byte} :
    At data p (bs ++ cs) ↔ At data p bs ∧ At data (p + bs.length) cs := by
  induction bs generalizing p with
  | nil => exact ⟨fun h => ⟨List.nil_prefix, h⟩, fun h => h.2⟩
  | cons b bs ih =>
    rw [List.cons_append, At.cons, At.cons, ih, List.length_cons, Nat.add_assoc,
      Nat.add_comm 1, and_assoc, and_assoc]

theorem At.le {p : Nat} {bs : List Byte} (h : At data p bs) (hne : bs ≠ []) :
    p + bs.length ≤ data.length := by
  have hle := h.length_le
  have hpos := List.length_pos_iff.mpr hne
  rw [List.length_drop] at hle
  omega

/-- A number of 16 bits, big-endian. -/
def wire16 (x : BitVec 16) : List Byte := [x.extractLsb' 8 8, x.extractLsb' 0 8]

def wire32 (x : BitVec 32) : List Byte :=
  wire16 (x.extractLsb' 16 16) ++ wire16 (x.extractLsb' 0 16)

/-- What the parser makes of a number: the low byte is added as a signed one. -/
def signedLow (x : BitVec 16) : BitVec 16 := if x.getLsbD 7 then x - 256 else x

theorem getLsbD_seven (x : BitVec 16) : x.getLsbD 7 = decide (128 ≤ x.toNat % 256) := by
  rw [BitVec.getLsbD, Nat.testBit_eq_decide_div_mod_eq]
  exact decide_eq_decide.mpr (by omega)

theorem toNat_signedLow (x : BitVec 16) : (signedLow x).toNat =
    if 128 ≤ x.toNat % 256 then (x.toNat + (2 ^ 16 - 256)) % 2 ^ 16 else x.toNat := by
  rw [signedLow, getLsbD_seven]
  by_cases h : 128 ≤ x.toNat % 256
  · rw [if_pos (decide_eq_true h), if_pos h, BitVec.toNat_sub, Nat.add_comm]
    rfl
  · rw [if_neg (by simpa using h), if_neg h]

theorem signedLow_eq_iff {x : BitVec 16} : signedLow x = x ↔ x.getLsbD 7 = false := by
  have hx := x.isLt
  rw [← BitVec.toNat_inj, toNat_signedLow, getLsbD_seven, decide_eq_false_iff_not]
  split <;> omega

/-- A number whose low byte is positive is what it seems. -/
theorem signedLow_eq {x y : BitVec 16} (hy : y.getLsbD 7 = false) : signedLow x = y ↔ x = y := by
  have hx := x.isLt
  rw [getLsbD_seven, decide_eq_false_iff_not] at hy
  rw [← BitVec.toNat_inj, toNat_signedLow, ← BitVec.toNat_inj]
  split <;> omega

/-- Adding the bytes of a number as the parser does. -/
theorem add_bytes (x : BitVec 16) :
    ((x.extractLsb' 8 8).signExtend 16 <<< 8) + (x.extractLsb' 0 8).signExtend 16 =
      signedLow x := by
  have hx := x.isLt
  have hmsb (y : Byte) : y.msb = decide (128 ≤ y.toNat) := by
    rw [BitVec.msb_eq_decide]
  rw [← BitVec.toNat_inj, toNat_signedLow, BitVec.toNat_add, BitVec.toNat_shiftLeft,
    BitVec.toNat_signExtend, BitVec.toNat_signExtend, hmsb, hmsb, BitVec.toNat_setWidth,
    BitVec.toNat_setWidth, BitVec.extractLsb'_toNat, BitVec.extractLsb'_toNat,
    Nat.shiftRight_eq_div_pow, Nat.shiftRight_eq_div_pow, Nat.shiftLeft_eq]
  simp only [decide_eq_true_eq]
  split <;> split <;> split <;> omega

theorem readWord_wire {pos : Pos} {x : BitVec 16} (hpos : pos.toNat + 1 < 2 ^ 32)
    (h : At data pos.toNat (wire16 x)) : (readWord data pos).value = signedLow x := by
  obtain ⟨-, hhi, hlo⟩ := At.cons.mp h
  obtain ⟨-, hlo, -⟩ := At.cons.mp hlo
  have hnext : (pos + 1).toNat = pos.toNat + 1 := by bv_omega
  rw [← add_bytes, ← hhi, ← hlo, ← hnext]
  rfl

/-- Of a TTL, the parser keeps the lower half. -/
theorem readTtl_wire {pos : Pos} {x : BitVec 32} (hpos : pos.toNat + 3 < 2 ^ 32)
    (h : At data pos.toNat (wire32 x)) :
    (readTtl data pos).value = signedLow (x.extractLsb' 0 16) := by
  obtain ⟨hhi, hlo⟩ := At.append.mp h
  obtain ⟨-, hc, hd⟩ := At.cons.mp hlo
  obtain ⟨-, hd, -⟩ := At.cons.mp hd
  have h₂ : (pos + 2).toNat = pos.toNat + 2 := by bv_omega
  have h₃ : (pos + 3).toNat = pos.toNat + 3 := by bv_omega
  have hdrop (a b c d : BitVec 16) :
      ((((((0 : BitVec 16) <<< 8) + a) <<< 8 + b) <<< 8) + c) <<< 8 + d = c <<< 8 + d := by
    rw [← BitVec.toNat_inj]
    simp only [BitVec.toNat_add, BitVec.toNat_shiftLeft, Nat.shiftLeft_eq]
    omega
  have hval : (readTtl data pos).value = (byteAt data (pos.toNat + 2)).signExtend 16 <<< 8 +
      (byteAt data (pos.toNat + 3)).signExtend 16 := by
    rw [← h₂, ← h₃]
    exact hdrop ((byteAt data pos.toNat).signExtend 16) ((byteAt data (pos + 1).toNat).signExtend 16)
      ((byteAt data (pos + 2).toNat).signExtend 16) ((byteAt data (pos + 3).toNat).signExtend 16)
  rw [hval, ← add_bytes, ← hc, ← hd]
  rfl

/-! ## Names -/

/-- A name whose labels are written out. -/
def wireName (labels : List (List Byte)) : List Byte :=
  labels.flatMap (fun l => BitVec.ofNat 8 l.length :: l) ++ [0]

theorem wireName_cons (l : List Byte) (labels : List (List Byte)) :
    wireName (l :: labels) = BitVec.ofNat 8 l.length :: l ++ wireName labels := by
  rw [wireName, List.flatMap_cons, List.append_assoc]
  rfl

theorem length_wireName_pos (labels : List (List Byte)) : 0 < (wireName labels).length := by
  rw [wireName, List.length_append]
  exact Nat.succ_pos _

/-- The length of a label is no pointer, and is added as it is. -/
theorem length_byte {n : Nat} (hn : 0 < n) (h128 : n < 128) : BitVec.ofNat 8 n ≠ 0 ∧
    isPointer (BitVec.ofNat 8 n) = false ∧ ((BitVec.ofNat 8 n).signExtend 32).toNat = n := by
  have htoNat : (BitVec.ofNat 8 n).toNat = n := by
    rw [BitVec.toNat_ofNat, Nat.mod_eq_of_lt (by omega)]
  refine ⟨fun h => ?_, not_isPointer (by omega), ?_⟩
  · rw [h] at htoNat
    exact absurd htoNat (by simp; omega)
  · have hmsb : (BitVec.ofNat 8 n).msb = false := by
      rw [BitVec.msb_eq_decide, htoNat]
      exact decide_eq_false (by omega)
    rw [BitVec.toNat_signExtend, hmsb, BitVec.toNat_setWidth, htoNat, Nat.mod_eq_of_lt (by omega)]
    rfl

/-- Labels as they may stand in a name. -/
def LabelsOk (labels : List (List Byte)) : Prop := ∀ l ∈ labels, l ≠ [] ∧ l.length < 64

end Noff.Dns
