import Mathlib.Init

/-!
# Computations that read a buffer

A computation with the positions at which it reads. It stays within a buffer if
its parts do (`within_bind`).
-/

namespace Noff

universe u v

/-- A result, and the positions read on the way to it, in order. -/
structure Reading (α : Type u) where
  value : α
  reads : List Nat

namespace Reading

variable {α : Type u} {β : Type u} {n : Nat}

instance : Monad Reading where
  pure a := ⟨a, []⟩
  bind x f := ⟨(f x.value).value, x.reads ++ (f x.value).reads⟩

/-- The value `a`, found at position `i`. -/
def found (i : Nat) (a : α) : Reading α := ⟨a, [i]⟩

/-- The value `a`, found in the `k` bytes from position `i` on. -/
def field (i k : Nat) (a : α) : Reading α := ⟨a, List.range' i k⟩

@[simp] theorem value_pure (a : α) : (pure a : Reading α).value = a := rfl

@[simp] theorem reads_pure (a : α) : (pure a : Reading α).reads = [] := rfl

@[simp] theorem value_bind (x : Reading α) (f : α → Reading β) :
    (x >>= f).value = (f x.value).value := rfl

@[simp] theorem reads_bind (x : Reading α) (f : α → Reading β) :
    (x >>= f).reads = x.reads ++ (f x.value).reads := rfl

@[simp] theorem value_found (i : Nat) (a : α) : (found i a).value = a := rfl

@[simp] theorem value_field (i k : Nat) (a : α) : (field i k a).value = a := rfl

theorem value_ite {c : Prop} [Decidable c] (x y : Reading α) :
    (if c then x else y).value = if c then x.value else y.value := by
  split <;> rfl

/-- All positions read are smaller than `n`. -/
def Within (n : Nat) (x : Reading α) : Prop := ∀ i ∈ x.reads, i < n

@[simp] theorem within_pure (a : α) : (pure a : Reading α).Within n := by simp [Within]

@[simp] theorem within_found {i : Nat} {a : α} : (found i a).Within n ↔ i < n := by
  simp [Within, found]

@[simp] theorem within_field {i k : Nat} {a : α} :
    (field i k a).Within n ↔ k = 0 ∨ i + k ≤ n := by
  simp only [Within, field, List.mem_range'_1]
  constructor
  · intro h
    rcases k with - | k
    · exact .inl rfl
    · have hlast := h (i + k) (by omega)
      exact .inr (by omega)
  · intro h j hj
    omega

@[simp] theorem within_bind {x : Reading α} {f : α → Reading β} :
    (x >>= f).Within n ↔ x.Within n ∧ (f x.value).Within n := by
  simp only [Within, reads_bind, List.mem_append, or_imp, forall_and]

theorem within_ite {c : Prop} [Decidable c] {x y : Reading α} :
    (if c then x else y).Within n ↔ (c → x.Within n) ∧ (¬ c → y.Within n) := by
  split <;> simp [*]

/-- No position read is smaller than `n`. -/
def Behind (n : Nat) (x : Reading α) : Prop := ∀ i ∈ x.reads, n ≤ i

@[simp] theorem behind_pure (a : α) : (pure a : Reading α).Behind n := by simp [Behind]

theorem behind_field {i k : Nat} {a : α} (h : n ≤ i) : (field i k a).Behind n := by
  simp only [Behind, field, List.mem_range'_1]
  omega

@[simp] theorem behind_bind {x : Reading α} {f : α → Reading β} :
    (x >>= f).Behind n ↔ x.Behind n ∧ (f x.value).Behind n := by
  simp only [Behind, reads_bind, List.mem_append, or_imp, forall_and]

theorem Behind.mono {m : Nat} {x : Reading α} (h : x.Behind n) (hm : m ≤ n) : x.Behind m :=
  fun i hi => Nat.le_trans hm (h i hi)

end Reading

end Noff
