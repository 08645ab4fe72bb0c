import Mathlib.Data.List.Basic
import Mathlib.Data.BitVec

/-!
# Fields behind one another, with a separator

A line of fields with a separator between them. Splitting a line gives fields back if and only
if they are the ones of which it was made and none of them holds the separator
(`splitOn_intercalate_iff`). Numbers are printed in decimals, which hold digits only
(`isDigit_of_mem_decimal`) and tell the numbers apart (`decimal_injective`).
-/

namespace Noff

section

variable {α : Type} [BEq α] [LawfulBEq α] {x : α}

/-- The separators in a line: those between the fields and those inside them. -/
theorem count_intercalate (x : α) {ls : List (List α)} (hne : ls ≠ []) :
    ([x].intercalate ls).count x + 1 = (ls.map (List.count x)).sum + ls.length := by
  induction ls with
  | nil => exact absurd rfl hne
  | cons l ls ih =>
    cases ls with
    | nil => rw [List.intercalate_singleton, List.map_singleton, List.sum_singleton]; rfl
    | cons l' ls =>
      have htail := ih (List.cons_ne_nil _ _)
      rw [List.intercalate_cons_cons, List.count_append, List.count_append, List.count_singleton_self,
        List.map_cons, List.sum_cons, List.length_cons]
      omega

theorem not_mem_of_mem_splitOn {l line : List α} (h : l ∈ line.splitOn x) : x ∉ l := by
  induction line generalizing l with
  | nil =>
    rw [List.splitOn_nil, List.mem_singleton] at h
    rw [h]
    exact List.not_mem_nil
  | cons y line ih =>
    rw [List.splitOn_cons_eq_if_modifyHead] at h
    split at h
    · rcases List.mem_cons.mp h with rfl | h
      · exact List.not_mem_nil
      · exact ih h
    · rename_i hy
      have hne : x ≠ y := fun he => hy (by rw [he, beq_self_eq_true])
      cases hs : line.splitOn x with
      | nil => exact absurd hs (List.splitOn_ne_nil x line)
      | cons l' ls =>
        rw [hs, List.modifyHead_cons] at h
        rcases List.mem_cons.mp h with rfl | h
        · exact List.not_mem_cons_of_ne_of_not_mem hne (ih (hs ▸ List.mem_cons_self ..))
        · exact ih (hs ▸ List.mem_cons_of_mem _ h)

/-- The fields that a line splits into are those of which it was made, as many as these, if and
only if no field holds the separator. -/
theorem splitOn_intercalate_iff {ls ls' : List (List α)} (hne : ls' ≠ [])
    (hlen : ls.length = ls'.length) :
    ([x].intercalate ls').splitOn x = ls ↔ ls' = ls ∧ ∀ l ∈ ls', x ∉ l := by
  constructor
  · intro h
    have hline : [x].intercalate ls = [x].intercalate ls' := by rw [← h, List.intercalate_splitOn]
    have hclean : ∀ l ∈ ls, x ∉ l := fun l hl => not_mem_of_mem_splitOn (h ▸ hl)
    have hcount := count_intercalate x hne
    have hcount' := count_intercalate x (fun hnil => hne (List.length_eq_zero_iff.mp
      (by rw [← hlen, hnil, List.length_nil])) : ls ≠ [])
    have hzero : (ls.map (List.count x)).sum = 0 := by
      refine List.sum_eq_zero_iff_forall_eq_nat.mpr fun n hn => ?_
      obtain ⟨l, hl, rfl⟩ := List.mem_map.mp hn
      exact List.count_eq_zero.mpr (hclean l hl)
    have hzero' : (ls'.map (List.count x)).sum = 0 := by
      rw [hline] at hcount'
      omega
    have hclean' : ∀ l ∈ ls', x ∉ l := fun l hl =>
      List.count_eq_zero.mp (List.sum_eq_zero_iff_forall_eq_nat.mp hzero' _ (List.mem_map_of_mem hl))
    refine ⟨?_, hclean'⟩
    rw [← h, List.splitOn_intercalate x hclean' hne]
  · rintro ⟨rfl, hclean⟩
    exact List.splitOn_intercalate x hclean hne

end

/-! ## Numbers in decimals -/

/-- The characters of a text, one byte each. -/
def textBytes (cs : List Char) : List (BitVec 8) := cs.map fun c => BitVec.ofNat 8 c.toNat

/-- `std::to_string` of a number that is not negative. -/
def decimal (n : Nat) : List (BitVec 8) := textBytes (Nat.toDigits 10 n)

/-- `std::to_string` -/
def decimalInt (n : Int) : List (BitVec 8) :=
  if n < 0 then 0x2d :: decimal n.natAbs else decimal n.natAbs

theorem toNat_of_isDigit {c : Char} (h : c.isDigit) :
    0x30 ≤ c.toNat ∧ c.toNat ≤ 0x39 ∧ (BitVec.ofNat 8 c.toNat).toNat = c.toNat := by
  obtain ⟨h₁, h₂⟩ := Char.isDigit_iff_toNat.mp h
  have hlt : c.toNat < 2 ^ 8 := Nat.lt_of_le_of_lt h₂ (by decide)
  exact ⟨h₁, h₂, by rw [BitVec.toNat_ofNat, Nat.mod_eq_of_lt hlt]⟩

theorem isDigit_of_mem_decimal {n : Nat} {b : BitVec 8} (h : b ∈ decimal n) :
    0x30 ≤ b.toNat ∧ b.toNat ≤ 0x39 := by
  obtain ⟨c, hc, rfl⟩ := List.mem_map.mp h
  obtain ⟨h₁, h₂, he⟩ := toNat_of_isDigit (Nat.isDigit_of_mem_toDigits (by decide) (by decide) hc)
  rw [he]
  exact ⟨h₁, h₂⟩

theorem not_mem_decimal {b : BitVec 8} (hb : b.toNat < 0x30) (n : Nat) : b ∉ decimal n := by
  intro h
  have hdigit := (isDigit_of_mem_decimal h).1
  omega

/-- The number that digits stand for. -/
def ofDecimal (bs : List (BitVec 8)) : Nat := bs.foldl (fun n b => 10 * n + (b.toNat - 0x30)) 0

theorem ofDecimal_decimal (n : Nat) : ofDecimal (decimal n) = n := by
  rw [ofDecimal, decimal, textBytes, List.foldl_map]
  refine (List.foldl_ext _ (fun n c => 10 * n + (c.toNat - '0'.toNat)) 0 fun m c hc => ?_).trans ?_
  · rw [(toNat_of_isDigit (Nat.isDigit_of_mem_toDigits (by decide) (by decide) hc)).2.2]
    rfl
  · rw [← Nat.ofDigitChars_eq_foldl, Nat.ofDigitChars_ten_toDigits]

theorem decimal_injective {m n : Nat} (h : decimal m = decimal n) : m = n := by
  rw [← ofDecimal_decimal m, h, ofDecimal_decimal]

/-- A sign is no digit, so the numbers below 0 are told apart from the others. -/
theorem decimalInt_injective {m n : Int} (h : decimalInt m = decimalInt n) : m = n := by
  have hsign {k : Nat} {bs : List (BitVec 8)} (he : 0x2d :: bs = decimal k) : False := by
    have hdigit := isDigit_of_mem_decimal (he ▸ List.mem_cons_self ..)
    exact absurd hdigit.1 (by decide)
  rw [decimalInt, decimalInt] at h
  split at h <;> split at h
  · have habs := decimal_injective (List.cons.inj h).2
    omega
  · exact (hsign h).elim
  · exact (hsign h.symm).elim
  · have habs := decimal_injective h
    omega

theorem not_mem_decimalInt {b : BitVec 8} (hb : b.toNat < 0x2d) (n : Int) : b ∉ decimalInt n := by
  intro h
  rw [decimalInt] at h
  split at h
  · rcases List.mem_cons.mp h with rfl | h
    · exact absurd hb (by decide)
    · exact not_mem_decimal (by omega) _ h
  · exact not_mem_decimal (by omega) _ h

/-- Numbers with dots between them, as an address is printed. -/
def dotted (ns : List (BitVec 8)) : List (BitVec 8) :=
  [0x2e].intercalate (ns.map fun n => decimal n.toNat)

theorem dotted_injective {ms ns : List (BitVec 8)} (hm : ms ≠ []) (hn : ns ≠ [])
    (h : dotted ms = dotted ns) : ms = ns := by
  have hsplit {ns : List (BitVec 8)} (hn : ns ≠ []) :
      (dotted ns).splitOn 0x2e = ns.map fun n => decimal n.toNat := by
    refine List.splitOn_intercalate 0x2e (fun l hl => ?_) (by simpa using hn)
    obtain ⟨n, -, rfl⟩ := List.mem_map.mp hl
    exact not_mem_decimal (by decide) _
  have hinj : Function.Injective fun n : BitVec 8 => decimal n.toNat := fun m n hmn =>
    BitVec.eq_of_toNat_eq (decimal_injective hmn)
  exact List.map_injective_iff.mpr hinj (by rw [← hsplit hm, ← hsplit hn, h])

theorem not_mem_intercalate {b c : BitVec 8} {ls : List (List (BitVec 8))} (hbc : b ≠ c)
    (h : ∀ l ∈ ls, b ∉ l) : b ∉ [c].intercalate ls := by
  induction ls with
  | nil => exact List.not_mem_nil
  | cons l ls ih =>
    cases ls with
    | nil => rw [List.intercalate_singleton]; exact h l (List.mem_cons_self ..)
    | cons l' ls =>
      rw [List.intercalate_cons_cons, List.mem_append, List.mem_append, List.mem_singleton]
      rintro ((hl | hl) | hl)
      · exact h l (List.mem_cons_self ..) hl
      · exact hbc hl
      · exact ih (fun l hl => h l (List.mem_cons_of_mem _ hl)) hl

theorem not_mem_dotted {b : BitVec 8} (hb : b.toNat < 0x2e) (ns : List (BitVec 8)) :
    b ∉ dotted ns := by
  refine not_mem_intercalate (fun he => ?_) fun l hl => ?_
  · rw [he] at hb
    exact absurd hb (by decide)
  · obtain ⟨n, -, rfl⟩ := List.mem_map.mp hl
    exact not_mem_decimal (by omega) _

end Noff
