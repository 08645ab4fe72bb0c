import Mathlib.Data.List.Nodup

/-!
# Blocks of memory

Blocks are allocated, each with an origin, and freed. An access to a block that
is not there, or not any more, is not survived (`none`). Pointers to different
blocks that are there can all be freed (`freeAll_holds`).
-/

namespace Noff

universe u

inductive Ptr where
  | null
  /-- What an uninitialized variable holds, if it is not `NULL`. -/
  | wild
  | block (n : Nat)
  deriving DecidableEq

structure Block (O : Type u) where
  origin : O
  live : Bool

/-- The blocks in the order of their allocation. -/
abbrev Heap (O : Type u) := List (Block O)

namespace Heap

variable {O : Type u}

def malloc (h : Heap O) (o : O) : Ptr × Heap O := (.block h.length, h ++ [⟨o, true⟩])

/-- `p` points to a block of origin `o` that has not been freed. -/
def Holds (h : Heap O) (o : O) (p : Ptr) : Prop := ∃ n, p = .block n ∧ h[n]? = some ⟨o, true⟩

def free (h : Heap O) : Ptr → Option (Heap O)
  | .null => some h
  | .wild => none
  | .block n => if (h[n]?).any (·.live) then some (h.modify n fun b => { b with live := false }) else none

/-- An access through a pointer. -/
def access (h : Heap O) : Ptr → Option Unit
  | .block n => if (h[n]?).any (·.live) then some () else none
  | _ => none

/-- `free` of several pointers, in order. -/
def freeAll (h : Heap O) (ps : List Ptr) : Option (Heap O) := ps.foldlM free h

variable {h h' : Heap O} {o o' : O} {p q : Ptr}

theorem holds_malloc (h : Heap O) (o : O) : (h.malloc o).2.Holds o (h.malloc o).1 :=
  ⟨h.length, rfl, List.getElem?_concat_length⟩

/-- What is allocated later changes nothing for a block. -/
theorem Holds.mono (hp : h.Holds o p) (hle : h <+: h') : h'.Holds o p := by
  obtain ⟨n, rfl, hn⟩ := hp
  obtain ⟨bs, rfl⟩ := hle
  exact ⟨n, rfl, by rw [List.getElem?_append_left (List.getElem?_eq_some_iff.mp hn).1, hn]⟩

theorem prefix_malloc (h : Heap O) (o : O) : h <+: (h.malloc o).2 := ⟨_, rfl⟩

theorem Holds.ne_null (hp : h.Holds o p) : p ≠ .null := by
  obtain ⟨n, rfl, -⟩ := hp
  exact Ptr.noConfusion

/-- A block has one origin. -/
theorem Holds.origin_eq (hp : h.Holds o p) (hp' : h.Holds o' p) : o = o' := by
  obtain ⟨n, rfl, hn⟩ := hp
  obtain ⟨m, hm, hn'⟩ := hp'
  cases hm
  rw [hn] at hn'
  exact congrArg Block.origin (Option.some.inj hn')

/-- A new block is none of those before. -/
theorem Holds.ne_malloc (hp : h.Holds o p) (o' : O) : p ≠ (h.malloc o').1 := by
  obtain ⟨n, rfl, hn⟩ := hp
  intro he
  have hlt := (List.getElem?_eq_some_iff.mp hn).1
  cases he
  exact Nat.lt_irrefl _ hlt

theorem Holds.access (hp : h.Holds o p) : h.access p = some () := by
  obtain ⟨n, rfl, hn⟩ := hp
  rw [Heap.access, hn]
  rfl

/-- What is freed was there; the other blocks stay. -/
theorem Holds.free (hp : h.Holds o p) :
    ∃ h', h.free p = some h' ∧ ∀ o' q, q ≠ p → h.Holds o' q → h'.Holds o' q := by
  obtain ⟨n, rfl, hn⟩ := hp
  refine ⟨h.modify n fun b => { b with live := false }, ?_, fun o' q hne hq => ?_⟩
  · rw [Heap.free, hn]
    rfl
  · obtain ⟨m, rfl, hm⟩ := hq
    refine ⟨m, rfl, ?_⟩
    have hmn : n ≠ m := fun he => hne (he ▸ rfl)
    rw [List.getElem?_modify_ne _ _ hmn]
    exact hm

/-- A block that is allocated and freed at once leaves the others as they were. -/
theorem free_malloc (h : Heap O) (o : O) :
    (h.malloc o).2.free (h.malloc o).1 = some (h ++ [⟨o, false⟩]) := by
  simp only [malloc, free, List.getElem?_concat_length, Option.any_some, if_true]
  rw [List.modify_eq_take_drop, List.take_left, List.drop_left]
  rfl

/-- Different blocks that are there are freed, and the others stay. -/
theorem freeAll_holds {ps : List Ptr} (hnodup : (ps.filter (· ≠ .null)).Nodup)
    (hps : ∀ p ∈ ps, p = .null ∨ ∃ o, h.Holds o p) :
    ∃ h', h.freeAll ps = some h' ∧ ∀ o q, q ∉ ps → h.Holds o q → h'.Holds o q := by
  induction ps generalizing h with
  | nil => exact ⟨h, rfl, fun _ _ _ hq => hq⟩
  | cons p ps ih =>
    rcases hps p (List.mem_cons_self ..) with rfl | ⟨o, hp⟩
    · rw [List.filter_cons_of_neg (by decide)] at hnodup
      obtain ⟨h', hfree, hkeep⟩ := ih hnodup fun q hq => hps q (List.mem_cons_of_mem _ hq)
      exact ⟨h', hfree, fun o q hq => hkeep o q fun hmem => hq (List.mem_cons_of_mem _ hmem)⟩
    · rw [List.filter_cons_of_pos (by simpa using hp.ne_null), List.nodup_cons] at hnodup
      obtain ⟨h₁, hfree₁, hkeep₁⟩ := hp.free
      have hps₁ : ∀ q ∈ ps, q = .null ∨ ∃ o, h₁.Holds o q := by
        intro q hq
        rcases hps q (List.mem_cons_of_mem _ hq) with hnull | ⟨o', hq'⟩
        · exact .inl hnull
        · have hne : q ≠ p := by
            rintro rfl
            exact hnodup.1 (List.mem_filter.mpr ⟨hq, by simpa using hp.ne_null⟩)
          exact .inr ⟨o', hkeep₁ o' q hne hq'⟩
      obtain ⟨h', hfree, hkeep⟩ := ih hnodup.2 hps₁
      refine ⟨h', ?_, fun o q hq hold => ?_⟩
      · rw [freeAll, List.foldlM_cons, hfree₁]
        exact hfree
      · rw [List.mem_cons, not_or] at hq
        exact hkeep o q hq.2 (hkeep₁ o q hq.1 hold)

end Heap

end Noff
