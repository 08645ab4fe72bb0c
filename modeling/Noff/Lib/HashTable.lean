import Mathlib.Algebra.GroupWithZero.Nat
import Mathlib.Data.Fin.Basic

/-!
# Chained hash tables

A table of buckets, each element in the bucket of its key's hash. A lookup goes through the
bucket of the hash that is looked up, and finds an element with this hash whose key compares
equal. Where the hash respects a comparison that is an equivalence (`Coherent`), equal keys
look up the same element (`HashTable.lookup_congr`), and an element that is the only one with
such a key is found (`HashTable.lookup_eq_some`).
-/

namespace Noff

variable {α κ : Type} {hash : κ → Nat} {eq : κ → κ → Bool} {key : α → κ} {n : Nat} [NeZero n]

/-- What a table relies on, of the hash and the comparison of its keys. -/
structure Coherent (hash : κ → Nat) (eq : κ → κ → Bool) : Prop where
  refl : ∀ a, eq a a
  symm : ∀ a b, eq a b → eq b a
  trans : ∀ a b c, eq a b → eq b c → eq a c
  hash_eq : ∀ a b, eq a b → hash a = hash b

structure HashTable (hash : κ → Nat) (key : α → κ) (n : Nat) [NeZero n] where
  buckets : Fin n → List α
  placed : ∀ i, ∀ x ∈ buckets i, Fin.ofNat n (hash (key x)) = i

namespace HashTable

variable (t : HashTable hash key n) {a b : κ} {x : α}

instance : Membership α (HashTable hash key n) := ⟨fun t x => ∃ i, x ∈ t.buckets i⟩

theorem mem_bucket {t : HashTable hash key n} :
    x ∈ t.buckets (Fin.ofNat n (hash a)) ↔
      x ∈ t ∧ Fin.ofNat n (hash a) = Fin.ofNat n (hash (key x)) := by
  constructor
  · intro h
    exact ⟨⟨_, h⟩, (t.placed _ x h).symm⟩
  · rintro ⟨⟨i, hi⟩, he⟩
    rwa [he, t.placed i x hi]

variable (eq) in
/-- `find` of a key. -/
def lookup (a : κ) : Option α :=
  (t.buckets (Fin.ofNat n (hash a))).find? fun x => hash a = hash (key x) && eq a (key x)

/-- Equal keys look up the same element. -/
theorem lookup_congr (h : Coherent hash eq) (hab : eq a b) : t.lookup eq a = t.lookup eq b := by
  have heq (c : κ) : eq a c = eq b c := by
    rw [Bool.eq_iff_iff]
    exact ⟨h.trans b a c (h.symm a b hab), h.trans a b c hab⟩
  simp only [lookup, h.hash_eq a b hab, heq]

/-- The only element with a key equal to `a` is found by it. -/
theorem lookup_eq_some (h : Coherent hash eq) (hx : x ∈ t) (hax : eq a (key x))
    (hone : ∀ y ∈ t, eq a (key y) → y = x) : t.lookup eq a = some x := by
  have hhash : hash a = hash (key x) := h.hash_eq a _ hax
  have hmem : x ∈ t.buckets (Fin.ofNat n (hash a)) := mem_bucket.mpr ⟨hx, by rw [hhash]⟩
  rw [lookup]
  cases hl : List.find? _ _ with
  | none =>
    have hnone := List.find?_eq_none.mp hl x hmem
    rw [Bool.and_eq_true, decide_eq_true_eq] at hnone
    exact absurd ⟨hhash, hax⟩ hnone
  | some y =>
    have hy := List.find?_some hl
    rw [Bool.and_eq_true] at hy
    rw [hone y (mem_bucket.mp (List.mem_of_find?_eq_some hl)).1 hy.2]

/-- Where no element has a key equal to `a`, none is found. -/
theorem lookup_eq_none (h : ∀ y ∈ t, ¬ eq a (key y)) : t.lookup eq a = none := by
  rw [lookup, List.find?_eq_none]
  intro y hy hfound
  rw [Bool.and_eq_true] at hfound
  exact h y (mem_bucket.mp hy).1 hfound.2

end HashTable

end Noff
