import Noff.Header
import Noff.Lib.Serial

/-!
# `Util.h`: connection tuples and sequence numbers
-/

namespace Noff

/-- `tuple4`: the two ports and the two addresses of a packet. -/
structure Tuple4 where
  source : BitVec 16
  dest : BitVec 16
  saddr : BitVec 32
  daddr : BitVec 32
  deriving DecidableEq, Repr

/-- The tuple of the other direction. -/
def Tuple4.reversed (t : Tuple4) : Tuple4 := ⟨t.dest, t.source, t.daddr, t.saddr⟩

@[simp] theorem Tuple4.reversed_reversed (t : Tuple4) : t.reversed.reversed = t := rfl

/-- `seq1` comes before `seq2`. -/
def before (seq1 seq2 : BitVec 32) : Bool := (seq1 - seq2).toInt < 0

/-- `seq1` comes after `seq2`. -/
def after (seq1 seq2 : BitVec 32) : Bool := (seq2 - seq1).toInt < 0

/-- A number below `2^31`, stored in an `int`. -/
theorem toInt_ofNat_of_lt {n : Nat} (h : n < 2 ^ 31) : (BitVec.ofNat 32 n).toInt = n := by
  rw [BitVec.toInt_ofNat', Int.bmod_eq_of_le (by omega) (by omega)]

open Serial

/-- `after` on the sequence numbers of positions at most `2^31` apart. -/
theorem after_pos (b : BitVec 32) {m n : Nat} (h₁ : n < m + 2 ^ 31) (h₂ : m ≤ n + 2 ^ 31) :
    after (pos b m) (pos b n) = decide (n < m) := by
  rw [after, sub_toInt (w := 31) b h₁ h₂]
  exact decide_eq_decide.mpr (by omega)

end Noff
