import Mathlib.Data.List.Basic

/-!
# Arrays with entries that are not initialized

An array as the list of its entries, each without a value until it is written. A read has a
result where the entry exists and was written, a write where the entry exists. The rule for a
counting loop is `foldlM_range`: what a pass keeps holds after all of them, and none fails.
-/

namespace Noff

variable {α σ : Type}

abbrev Slots (α : Type) := List (Option α)

namespace Slots

variable (l : Slots α) (i : Nat)

/-- An array as it is declared, without values. -/
def uninit (n : Nat) : Slots α := List.replicate n none

def read : Option α := l[i]?.join

def write (x : α) : Option (Slots α) := if i < l.length then some (l.set i (some x)) else none

/-- Values are written one behind the other, from entry `i` on. -/
def store (l : Slots α) (i : Nat) : List α → Option (Slots α)
  | [] => some l
  | x :: xs => do (← l.write i x).store (i + 1) xs

variable {l i}

@[simp] theorem read_map_some (xs : List α) (i : Nat) : read (xs.map some) i = xs[i]? := by
  rw [read, List.getElem?_map]
  cases xs[i]? <;> rfl

theorem write_eq {x : α} (h : i < l.length) : l.write i x = some (l.set i (some x)) := if_pos h

theorem write_map_some {xs : List α} {x : α} (h : i < xs.length) :
    write (xs.map some) i x = some ((xs.set i x).map some) := by
  rw [write_eq (by rwa [List.length_map]), List.map_set]

end Slots

/-- What holds at first and is kept by every pass of a loop, none of which fails, holds at the
end. -/
theorem foldlM_range {I : Nat → σ → Prop} {f : σ → Nat → Option σ} {n : Nat} {s : σ} (h₀ : I 0 s)
    (hpass : ∀ i < n, ∀ s, I i s → ∃ s', f s i = some s' ∧ I (i + 1) s') :
    ∃ s', (List.range n).foldlM f s = some s' ∧ I n s' := by
  induction n with
  | zero => exact ⟨s, rfl, h₀⟩
  | succ n ih =>
    obtain ⟨s₁, h₁, hi₁⟩ := ih fun i hi => hpass i (Nat.lt_succ_of_lt hi)
    obtain ⟨s₂, h₂, hi₂⟩ := hpass n (Nat.lt_succ_self n) s₁ hi₁
    refine ⟨s₂, ?_, hi₂⟩
    rw [List.range_succ, List.foldlM_append, h₁]
    simpa using h₂

end Noff
