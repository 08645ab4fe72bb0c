import Mathlib.Data.List.Basic
import Mathlib.Data.List.Lattice

/-!
# A wheel of buckets

A ring buffer with room for `n` buckets. What is inserted goes into the newest
bucket; where a bucket is added to a full wheel, it takes the place of the oldest, and
what is in no other bucket is dropped. An element is in the wheel until `n` buckets
have been added after it was inserted last (`age_push`, `mem_push`), and then it is
dropped (`mem_dropped`).
-/

namespace Noff

/-- The buckets are listed from the newest on. -/
structure Wheel (α : Type) (n : Nat) where
  buckets : List (List α)
  length_le : buckets.length ≤ n

namespace Wheel

variable {α : Type} [DecidableEq α] {n : Nat}

def empty : Wheel α n := ⟨[], Nat.zero_le n⟩

/-- A new bucket. -/
def push (w : Wheel α n) : Wheel α n := ⟨([] :: w.buckets).take n, List.length_take_le ..⟩

instance : Membership α (Wheel α n) := ⟨fun w x => ∃ b ∈ w.buckets, x ∈ b⟩

omit [DecidableEq α] in
theorem mem_def {w : Wheel α n} {x : α} : x ∈ w ↔ ∃ b ∈ w.buckets, x ∈ b := Iff.rfl

instance (w : Wheel α n) (x : α) : Decidable (x ∈ w) :=
  inferInstanceAs (Decidable (∃ b ∈ w.buckets, x ∈ b))

/-- What is lost where a new bucket takes the place of the oldest. -/
def dropped (w : Wheel α n) : List α := (w.buckets.drop (n - 1)).flatten.filter (· ∉ w.push)

/-- Into the newest bucket, if there is one. -/
def insert (w : Wheel α n) (x : α) : Option (Wheel α n) :=
  match w with
  | ⟨[], _⟩ => none
  | ⟨b :: bs, h⟩ => some ⟨b.insert x :: bs, h⟩

/-- How many buckets are newer than the one that `x` was inserted in last. -/
def age (w : Wheel α n) (x : α) : Nat := w.buckets.findIdx (x ∈ ·)

omit [DecidableEq α] in
@[simp] theorem not_mem_empty (x : α) : x ∉ (empty : Wheel α n) := by
  rintro ⟨b, hb, -⟩
  cases hb

variable {w w' : Wheel α n} {x y : α}

theorem mem_iff_age : x ∈ w ↔ w.age x < w.buckets.length := by
  rw [age, List.findIdx_lt_length, mem_def]
  simp only [decide_eq_true_eq]

theorem age_lt (h : x ∈ w) : w.age x < n := Nat.lt_of_lt_of_le (mem_iff_age.mp h) w.length_le

/-! ## Inserting -/

theorem exists_insert (h : w.buckets ≠ []) (x : α) : ∃ w', w.insert x = some w' := by
  obtain ⟨_ | ⟨b, bs⟩, hn⟩ := w
  · exact absurd rfl h
  · exact ⟨_, rfl⟩

section

variable (h : w.insert x = some w')
include h

theorem exists_of_insert : ∃ b bs, w.buckets = b :: bs ∧ w'.buckets = b.insert x :: bs := by
  obtain ⟨_ | ⟨b, bs⟩, hn⟩ := w
  · cases h
  · cases h
    exact ⟨b, bs, rfl, rfl⟩

theorem mem_insert : y ∈ w' ↔ y ∈ w ∨ y = x := by
  obtain ⟨b, bs, hb, hb'⟩ := exists_of_insert h
  rw [mem_def, mem_def, hb, hb']
  simp only [List.exists_mem_cons_iff, List.mem_insert_iff]
  rw [or_comm (a := y = x), or_right_comm]

theorem age_insert_self : w'.age x = 0 := by
  obtain ⟨b, bs, -, hb'⟩ := exists_of_insert h
  rw [age, hb', List.findIdx_cons, decide_eq_true List.mem_insert_self]
  rfl

theorem age_insert_of_ne (hy : y ≠ x) : w'.age y = w.age y := by
  obtain ⟨b, bs, hb, hb'⟩ := exists_of_insert h
  have hmem : y ∈ b.insert x ↔ y ∈ b := by rw [List.mem_insert_iff, or_iff_right hy]
  rw [age, age, hb, hb', List.findIdx_cons, List.findIdx_cons, decide_eq_decide.mpr hmem]

theorem insert_ne_nil : w'.buckets ≠ [] := by
  obtain ⟨b, bs, -, hb'⟩ := exists_of_insert h
  rw [hb']
  exact List.cons_ne_nil _ _

end

/-! ## A new bucket -/

omit [DecidableEq α] in
theorem push_ne_nil (hn : 0 < n) : w.push.buckets ≠ [] := by
  obtain ⟨k, rfl⟩ := Nat.exists_eq_add_of_lt hn
  exact List.cons_ne_nil _ _

omit [DecidableEq α] in
/-- The new bucket is empty, and behind it are the others but for the oldest. -/
theorem buckets_push (hn : 0 < n) : w.push.buckets = [] :: w.buckets.take (n - 1) := by
  obtain ⟨k, rfl⟩ := Nat.exists_eq_add_of_lt hn
  rfl

theorem age_le : w.age x ≤ w.buckets.length := List.findIdx_le_length

theorem findIdx_push (hn : 0 < n) : w.push.age x = min (n - 1) (w.age x) + 1 := by
  rw [age, buckets_push hn, List.findIdx_cons, List.findIdx_take]
  rfl

theorem mem_push (hn : 0 < n) : x ∈ w.push ↔ x ∈ w ∧ w.age x + 1 < n := by
  have hle := w.age_le (x := x)
  have hlen := w.length_le
  rw [mem_iff_age, mem_iff_age, findIdx_push hn, buckets_push hn, List.length_cons, List.length_take]
  omega

theorem age_push (hn : 0 < n) (h : x ∈ w.push) : w.push.age x = w.age x + 1 := by
  have hlt := ((mem_push hn).mp h).2
  rw [findIdx_push hn]
  omega

theorem mem_dropped (hn : 0 < n) : x ∈ w.dropped ↔ x ∈ w ∧ w.age x + 1 = n := by
  rw [dropped, List.mem_filter, decide_eq_true_eq, mem_push hn]
  constructor
  · rintro ⟨hx, hno⟩
    obtain ⟨b, hb, hxb⟩ := List.mem_flatten.mp hx
    have hmem : x ∈ w := ⟨b, List.mem_of_mem_drop hb, hxb⟩
    have hlt := age_lt hmem
    exact ⟨hmem, by have := not_and.mp hno hmem; omega⟩
  · rintro ⟨hmem, hage⟩
    have hlt := mem_iff_age.mp hmem
    refine ⟨List.mem_flatten.mpr ⟨w.buckets[w.age x], ?_, ?_⟩, fun h => by omega⟩
    · rw [List.mem_drop_iff_getElem]
      exact ⟨0, by omega, by congr 1; omega⟩
    · exact of_decide_eq_true (List.findIdx_getElem (p := fun b => decide (x ∈ b)) (w := hlt))

/-- What is held is kept or dropped. -/
theorem mem_push_or_dropped (hn : 0 < n) (h : x ∈ w) : x ∈ w.push ∨ x ∈ w.dropped := by
  rw [mem_push hn, mem_dropped hn]
  have hlt := age_lt h
  rcases Nat.lt_or_ge (w.age x + 1) n with hn | hn
  · exact .inl ⟨h, hn⟩
  · exact .inr ⟨h, by omega⟩

theorem not_mem_push_of_dropped (hn : 0 < n) (h : x ∈ w.dropped) : x ∉ w.push := by
  rw [mem_push hn]
  rw [mem_dropped hn] at h
  omega

end Wheel

end Noff
