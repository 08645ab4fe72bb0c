import Mathlib.Init

/-!
# `Timer.cc`
-/

namespace Noff

/-- `Timer`, with the second before which it does not fire. -/
structure Timer where
  time : Int

/-- `checkTime` for the second `tv_sec`, under the lock. -/
def Timer.checkTime (timer : Timer) (sec : Int) : Timer × Bool :=
  if timer.time ≤ sec then (⟨sec + 1⟩, true) else (timer, false)

/-- The second of `lastCheckTime`. -/
def Timer.lastCheckTime (timer : Timer) : Int := timer.time - 1

end Noff
