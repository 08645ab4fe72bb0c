import Mathlib.Order.Lattice
import Mathlib.Data.List.Pairwise

/-!
# Sets ordered by a key

A set whose elements are compared by a key alone, as `std::set` is with a
comparison of that key: two elements with the same key are equivalent, and
`insert` leaves the set as it is if it holds one equivalent to the new one
(`mem_insert`). The elements are listed in order, which is part of the type.
-/

namespace Noff

variable {α κ : Type} [LinearOrder κ] {key : α → κ}

structure OrderedSet (key : α → κ) where
  elems : List α
  sorted : elems.Pairwise (key · < key ·)

namespace OrderedSet

instance [DecidableEq α] : DecidableEq (OrderedSet key) := fun s₁ s₂ =>
  decidable_of_iff (s₁.elems = s₂.elems) ⟨fun h => by cases s₁; cases s₂; simp_all, fun h => h ▸ rfl⟩

instance : Membership α (OrderedSet key) := ⟨fun s x => x ∈ s.elems⟩

instance : EmptyCollection (OrderedSet key) := ⟨⟨[], .nil⟩⟩

theorem mem_elems {s : OrderedSet key} {x : α} : x ∈ s.elems ↔ x ∈ s := Iff.rfl

@[simp] theorem elems_empty : (∅ : OrderedSet key).elems = [] := rfl

@[simp] theorem not_mem_empty (x : α) : x ∉ (∅ : OrderedSet key) := List.not_mem_nil

variable (key) in
/-- `insert` on the elements. -/
def insertElem (x : α) : List α → List α
  | [] => [x]
  | y :: ys =>
    if key x < key y then x :: y :: ys
    else if key y < key x then y :: insertElem x ys
    else y :: ys

theorem mem_insertElem {x z : α} {l : List α} (hl : l.Pairwise (key · < key ·)) :
    z ∈ insertElem key x l ↔ z ∈ l ∨ z = x ∧ ∀ y ∈ l, key y ≠ key x := by
  induction l with
  | nil => simp [insertElem]
  | cons y ys ih =>
    obtain ⟨hy, hys⟩ := List.pairwise_cons.mp hl
    simp only [insertElem]
    split
    · rename_i hlt
      have hne : ∀ w ∈ y :: ys, key w ≠ key x := by
        intro w hw
        rcases List.mem_cons.mp hw with rfl | hw
        · exact ne_of_gt hlt
        · exact ne_of_gt (lt_trans hlt (hy w hw))
      rw [List.mem_cons, and_iff_left hne, or_comm]
    · split
      · rename_i hlt
        have hne : key y ≠ key x := ne_of_lt hlt
        rw [List.mem_cons, ih hys, List.mem_cons, List.forall_mem_cons, and_iff_right hne, or_assoc]
      · rename_i h₁ h₂
        have heq : key y = key x := le_antisymm (not_lt.mp h₁) (not_lt.mp h₂)
        exact (or_iff_left fun h => h.2 y (List.mem_cons_self ..) heq).symm

theorem pairwise_insertElem {x : α} {l : List α} (hl : l.Pairwise (key · < key ·)) :
    (insertElem key x l).Pairwise (key · < key ·) := by
  induction l with
  | nil => simp [insertElem]
  | cons y ys ih =>
    obtain ⟨hy, hys⟩ := List.pairwise_cons.mp hl
    simp only [insertElem]
    split
    · rename_i hlt
      refine List.pairwise_cons.mpr ⟨fun w hw => ?_, hl⟩
      rcases List.mem_cons.mp hw with rfl | hw
      · exact hlt
      · exact lt_trans hlt (hy w hw)
    · split
      · rename_i hlt
        refine List.pairwise_cons.mpr ⟨fun w hw => ?_, ih hys⟩
        rcases (mem_insertElem hys).mp hw with hw | ⟨rfl, -⟩
        · exact hy w hw
        · exact hlt
      · exact hl

/-- `std::set::insert` -/
def insert (s : OrderedSet key) (x : α) : OrderedSet key :=
  ⟨insertElem key x s.elems, pairwise_insertElem s.sorted⟩

/-- The elements that satisfy `p`; the others erased. -/
def filter (p : α → Bool) (s : OrderedSet key) : OrderedSet key :=
  ⟨s.elems.filter p, s.sorted.filter p⟩

@[simp] theorem elems_filter (p : α → Bool) (s : OrderedSet key) :
    (s.filter p).elems = s.elems.filter p := rfl

theorem mem_insert {s : OrderedSet key} {x z : α} :
    z ∈ s.insert x ↔ z ∈ s ∨ z = x ∧ ∀ y ∈ s, key y ≠ key x := mem_insertElem s.sorted

theorem mem_of_mem_insert {s : OrderedSet key} {x z : α} (h : z ∈ s.insert x) : z ∈ s ∨ z = x :=
  (mem_insert.mp h).imp_right And.left

@[simp] theorem mem_filter {s : OrderedSet key} {p : α → Bool} {x : α} :
    x ∈ s.filter p ↔ x ∈ s ∧ p x = true := List.mem_filter

/-- Two sets with the same elements are the same: the order leaves no choice. -/
theorem ext_mem {s₁ s₂ : OrderedSet key} (h : ∀ x, x ∈ s₁ ↔ x ∈ s₂) : s₁ = s₂ := by
  have he : s₁.elems = s₂.elems := by
    have hnd (s : OrderedSet key) : s.elems.Nodup := s.sorted.imp fun hlt he =>
      absurd (he ▸ hlt) (lt_irrefl _)
    refine List.Perm.eq_of_pairwise (fun x y _ _ hxy hyx => absurd (lt_trans hxy hyx) (lt_irrefl _))
      s₁.sorted s₂.sorted ?_
    exact (List.perm_ext_iff_of_nodup (hnd s₁) (hnd s₂)).mpr h
  cases s₁
  cases s₂
  simp_all

/-- The first element has the least key. -/
theorem le_of_mem {s : OrderedSet key} {x y : α} {ys : List α} (h : s.elems = y :: ys)
    (hx : x ∈ s) : key y ≤ key x := by
  have hs := s.sorted
  rw [← mem_elems, h] at hx
  rw [h] at hs
  rcases List.mem_cons.mp hx with rfl | hx
  · exact le_refl _
  · exact le_of_lt ((List.pairwise_cons.mp hs).1 x hx)

end OrderedSet

end Noff
