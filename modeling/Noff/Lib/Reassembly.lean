import Mathlib.Data.Nat.Find
import Mathlib.Order.MinMax
import Mathlib.Tactic.Tauto
import Mathlib.Data.List.Basic

/-!
# Reassembling a stream from ranges

What a receiver of ranges of positions `[off, off + len)` of a stream can
deliver in order: the positions below the first one that no range received so
far covers (`coveredLen`). A `Buffer` keeps how much it has delivered and the
ranges that start beyond that, sorted; `Buffer.receive` takes one more range.
`Buffer.Inv` ties the two together: it is kept by `receive` (`Inv.receive`), and
what has been delivered is then all that can be (`Inv.coveredLen`).
-/

namespace Noff.Reassembly

/-- The positions `off, …, off + len - 1` of a stream. -/
structure Range where
  off : Nat
  len : Nat
  deriving DecidableEq, Repr

def Range.stop (r : Range) : Nat := r.off + r.len

def Range.Covers (r : Range) (p : Nat) : Prop := r.off ≤ p ∧ p < r.stop

instance (r : Range) (p : Nat) : Decidable (r.Covers p) := inferInstanceAs (Decidable (_ ∧ _))

/-- One of the ranges covers `p`. -/
def Covered (rs : List Range) (p : Nat) : Prop := ∃ r ∈ rs, r.Covers p

instance (rs : List Range) (p : Nat) : Decidable (Covered rs p) :=
  inferInstanceAs (Decidable (∃ r ∈ rs, r.Covers p))

@[simp] theorem not_covered_nil (p : Nat) : ¬ Covered [] p := by simp [Covered]

@[simp] theorem covered_cons {r : Range} {rs : List Range} {p : Nat} :
    Covered (r :: rs) p ↔ r.Covers p ∨ Covered rs p := by simp [Covered]

@[simp] theorem covered_append {rs rs' : List Range} {p : Nat} :
    Covered (rs ++ rs') p ↔ Covered rs p ∨ Covered rs' p := by
  simp only [Covered, List.mem_append, or_and_right, exists_or]

/-- The ranges do not cover everything. -/
theorem exists_not_covered (rs : List Range) : ∃ p, ¬ Covered rs p := by
  have : ∃ b, ∀ r ∈ rs, r.stop ≤ b := by
    induction rs with
    | nil => exact ⟨0, by simp⟩
    | cons r rs ih =>
      obtain ⟨b, hb⟩ := ih
      refine ⟨max b r.stop, fun x hx => ?_⟩
      rcases List.mem_cons.mp hx with rfl | hx
      · exact le_max_right _ _
      · exact le_trans (hb x hx) (le_max_left _ _)
  obtain ⟨b, hb⟩ := this
  exact ⟨b, fun ⟨r, hr, _, h⟩ => absurd (hb r hr) (Nat.not_le.mpr h)⟩

/-- The length of the longest prefix of the stream that the ranges cover. -/
def coveredLen (rs : List Range) : Nat := Nat.find (exists_not_covered rs)

theorem coveredLen_eq_iff {rs : List Range} {n : Nat} :
    coveredLen rs = n ↔ (∀ p < n, Covered rs p) ∧ ¬ Covered rs n := by
  rw [coveredLen, Nat.find_eq_iff]
  simp only [not_not]
  exact and_comm

/-! ## The buffer -/

/-- A receiver: it has delivered the positions below `done`, and holds the
ranges `pending` that start beyond. -/
structure Buffer where
  done : Nat
  pending : List Range

/-- `r` put in front of the first range that starts after it. -/
def place (r : Range) : List Range → List Range
  | [] => [r]
  | x :: xs => if r.off < x.off then r :: x :: xs else x :: place r xs

/-- The ranges at the front that the delivered positions reach, delivered. -/
def absorb (done : Nat) : List Range → Buffer
  | [] => ⟨done, []⟩
  | r :: rs => if done < r.off then ⟨done, r :: rs⟩ else absorb (max done r.stop) rs

def Buffer.receive (b : Buffer) (r : Range) : Buffer :=
  if r.off ≤ b.done then absorb (max b.done r.stop) b.pending
  else ⟨b.done, place r b.pending⟩

theorem mem_place {r x : Range} {rs : List Range} : x ∈ place r rs ↔ x = r ∨ x ∈ rs := by
  induction rs with
  | nil => simp [place]
  | cons y ys ih =>
    simp only [place]
    split
    · simp
    · simp only [List.mem_cons, ih]
      tauto

theorem covered_place {r : Range} {rs : List Range} {p : Nat} :
    Covered (place r rs) p ↔ r.Covers p ∨ Covered rs p := by
  simp [Covered, mem_place]

/-- Ranges in the order in which they start. -/
abbrev Sorted (rs : List Range) : Prop := rs.Pairwise (·.off ≤ ·.off)

theorem Sorted.place {r : Range} {rs : List Range} (h : Sorted rs) : Sorted (place r rs) := by
  induction rs with
  | nil => simp [Reassembly.place]
  | cons x xs ih =>
    obtain ⟨hx, hxs⟩ := List.pairwise_cons.mp h
    simp only [Reassembly.place]
    split
    · rename_i hlt
      refine List.pairwise_cons.mpr ⟨fun y hy => ?_, h⟩
      rcases List.mem_cons.mp hy with rfl | hy
      · exact hlt.le
      · exact hlt.le.trans (hx y hy)
    · rename_i hge
      refine List.pairwise_cons.mpr ⟨fun y hy => ?_, ih hxs⟩
      rcases mem_place.mp hy with rfl | hy
      · exact Nat.not_lt.mp hge
      · exact hx y hy

/-- What the buffer has delivered and what it holds, against the ranges
received: together they cover the same positions, and what it holds starts
beyond what it has delivered. -/
structure Buffer.Inv (b : Buffer) (rcvd : List Range) : Prop where
  sorted : Sorted b.pending
  ahead : ∀ r ∈ b.pending, b.done < r.off
  covered : ∀ p, Covered rcvd p ↔ p < b.done ∨ Covered b.pending p

/-- What `absorb` leaves: it starts beyond what has been delivered, and no
position is lost. -/
theorem absorb_spec {rs : List Range} (h : Sorted rs) (d : Nat) :
    Sorted (absorb d rs).pending ∧ (∀ r ∈ (absorb d rs).pending, (absorb d rs).done < r.off) ∧
      ∀ p, p < (absorb d rs).done ∨ Covered (absorb d rs).pending p ↔ p < d ∨ Covered rs p := by
  induction rs generalizing d with
  | nil => simp [absorb]
  | cons r rs ih =>
    obtain ⟨hr, hrs⟩ := List.pairwise_cons.mp h
    simp only [absorb]
    split
    · rename_i hlt
      refine ⟨h, fun x hx => ?_, fun p => Iff.rfl⟩
      rcases List.mem_cons.mp hx with rfl | hx
      · exact hlt
      · exact hlt.trans_le (hr x hx)
    · rename_i hge
      obtain ⟨h₁, h₂, h₃⟩ := ih hrs (max d r.stop)
      refine ⟨h₁, h₂, fun p => (h₃ p).trans ?_⟩
      simp only [covered_cons, Range.Covers, lt_max_iff]
      constructor
      · rintro ((h | h) | h)
        · exact .inl h
        · by_cases hp : p < d
          · exact .inl hp
          · exact .inr (.inl ⟨by omega, h⟩)
        · exact .inr (.inr h)
      · rintro (h | ⟨-, h⟩ | h)
        · exact .inl (.inl h)
        · exact .inl (.inr h)
        · exact .inr h

/-- With nothing within reach, `absorb` delivers nothing. -/
theorem absorb_of_ahead {rs : List Range} {d : Nat} (h : ∀ r ∈ rs, d < r.off) :
    absorb d rs = ⟨d, rs⟩ := by
  cases rs with
  | nil => rfl
  | cons r rs => rw [absorb, if_pos (h r (List.mem_cons_self ..))]

theorem absorb_mem {rs : List Range} {d : Nat} {r : Range} (h : r ∈ (absorb d rs).pending) :
    r ∈ rs := by
  induction rs generalizing d with
  | nil => simp [absorb] at h
  | cons x xs ih =>
    simp only [absorb] at h
    split at h
    · exact h
    · exact List.mem_cons_of_mem _ (ih h)

theorem le_absorb_done (rs : List Range) (d : Nat) : d ≤ (absorb d rs).done := by
  induction rs generalizing d with
  | nil => exact le_refl _
  | cons x xs ih =>
    simp only [absorb]
    split
    · exact le_refl _
    · exact (le_max_left _ _).trans (ih _)

namespace Buffer

theorem inv_empty : Inv ⟨0, []⟩ [] := ⟨List.Pairwise.nil, by simp, by simp⟩

/-- Receiving one more range keeps the invariant. -/
theorem Inv.receive {b : Buffer} {rcvd : List Range} (h : b.Inv rcvd) (r : Range) :
    (b.receive r).Inv (rcvd ++ [r]) := by
  unfold Buffer.receive
  split
  · rename_i hle
    obtain ⟨h₁, h₂, h₃⟩ := absorb_spec h.sorted (max b.done r.stop)
    refine ⟨h₁, h₂, fun p => ?_⟩
    rw [h₃, covered_append, h.covered, covered_cons, lt_max_iff]
    have hc : r.Covers p → p < r.stop := And.right
    have hd : p < r.stop → p < b.done ∨ r.Covers p := fun hp => by
      by_cases hb : p < b.done
      · exact .inl hb
      · exact .inr ⟨by omega, hp⟩
    have := not_covered_nil p
    tauto
  · rename_i hlt
    refine ⟨h.sorted.place, fun x hx => ?_, fun p => ?_⟩
    · rcases mem_place.mp hx with rfl | hx
      · exact Nat.not_le.mp hlt
      · exact h.ahead x hx
    · rw [covered_append, h.covered, covered_cons, covered_place]
      have := not_covered_nil p
      tauto

/-- All that the ranges received allow to deliver has been delivered. -/
theorem Inv.coveredLen {b : Buffer} {rcvd : List Range} (h : b.Inv rcvd) :
    coveredLen rcvd = b.done := by
  refine coveredLen_eq_iff.mpr ⟨fun p hp => (h.covered p).mpr (.inl hp), fun hc => ?_⟩
  rcases (h.covered _).mp hc with hlt | ⟨r, hr, hle, -⟩
  · exact absurd hlt (Nat.lt_irrefl _)
  · exact absurd (h.ahead r hr) (Nat.not_lt.mpr hle)

end Buffer

end Noff.Reassembly
