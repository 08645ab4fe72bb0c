import Mathlib.Data.BitVec
import Mathlib.Tactic.Abel

/-!
# Serial numbers

Positions in an unbounded stream, known only modulo `2^(w+1)`. Two serial
numbers are compared by the sign of their difference, which orders positions
at most `2^w` apart (`sub_toInt`): there the difference of the numbers, read as
a signed number, is the difference of the positions.
-/

namespace Noff.Serial

variable {w : Nat}

/-- The serial number of position `n` of a stream that starts at `b`. -/
def pos (b : BitVec w) (n : Nat) : BitVec w := b + BitVec.ofNat w n

@[simp] theorem pos_zero (b : BitVec w) : pos b 0 = b := by simp [pos]

theorem pos_add (b : BitVec w) (m n : Nat) : pos b m + BitVec.ofNat w n = pos b (m + n) := by
  simp only [pos, BitVec.ofNat_add, BitVec.add_assoc]

/-- The difference of two serial numbers, as an unsigned number. -/
theorem sub_eq (b : BitVec w) {m n : Nat} (h : n ≤ m) :
    pos b m - pos b n = BitVec.ofNat w (m - n) := by
  obtain ⟨k, rfl⟩ := Nat.exists_eq_add_of_le h
  simp only [pos, BitVec.ofNat_add, Nat.add_sub_cancel_left]
  abel

/-- The difference of two serial numbers, as a signed number. -/
theorem sub_toInt (b : BitVec (w + 1)) {m n : Nat} (h₁ : m < n + 2 ^ w) (h₂ : n ≤ m + 2 ^ w) :
    (pos b m - pos b n).toInt = (m : Int) - n := by
  have e : pos b m - pos b n = BitVec.ofNat (w + 1) m - BitVec.ofNat (w + 1) n := by
    simp only [pos]; abel
  have h₁' : (m : Int) < n + 2 ^ w := by exact_mod_cast h₁
  have h₂' : (n : Int) ≤ m + 2 ^ w := by exact_mod_cast h₂
  rw [e, BitVec.toInt_sub, BitVec.toInt_ofNat', BitVec.toInt_ofNat', Int.bmod_sub_bmod,
    Int.sub_bmod_bmod, Nat.pow_succ]
  refine Int.bmod_eq_of_le ?_ ?_
  · push_cast; omega
  · push_cast; omega

end Noff.Serial
