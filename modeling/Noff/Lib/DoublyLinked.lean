import Mathlib.Data.List.Basic
import Mathlib.Logic.Function.Basic

/-!
# Doubly linked lists

The nodes of a list have pointers to the ones before and behind them, and the list to
its first and last. A node that is removed keeps its own pointers. Removing it once more, with nothing
else done in between, changes nothing (`Loose.remove`); putting it at the end then sets them
anew (`Links.pushBack`), as does putting it between two others (`Links.insert`).
-/

namespace Noff

variable {ι : Type} [DecidableEq ι]

structure DoublyLinked (ι : Type) where
  head : Option ι
  tail : Option ι
  prev : ι → Option ι
  next : ι → Option ι

namespace DoublyLinked

/-- The list without nodes; no pointer of a node has been set. -/
def empty : DoublyLinked ι := ⟨none, none, fun _ => none, fun _ => none⟩

/-- `x` is put at the end. -/
def pushBack (d : DoublyLinked ι) (x : ι) : DoublyLinked ι :=
  match d.tail with
  | some t =>
    { d with
      tail := some x
      prev := Function.update d.prev x (some t)
      next := Function.update (Function.update d.next t (some x)) x none }
  | none =>
    ⟨some x, some x, Function.update d.prev x none, Function.update d.next x none⟩

/-- What points to `x` is set to point past it. -/
def remove (d : DoublyLinked ι) (x : ι) : DoublyLinked ι :=
  let d := match d.prev x with
    | some p => { d with next := Function.update d.next p (d.next x) }
    | none => { d with head := d.next x }
  match d.next x with
  | some n => { d with prev := Function.update d.prev n (d.prev x) }
  | none => { d with tail := d.prev x }

/-- `x` is put between `p` and `n`. -/
def insert (d : DoublyLinked ι) (p n : Option ι) (x : ι) : DoublyLinked ι :=
  let d := { d with prev := Function.update d.prev x p, next := Function.update d.next x n }
  let d := match p with
    | some p => { d with next := Function.update d.next p (some x) }
    | none => { d with head := some x }
  match n with
  | some n => { d with prev := Function.update d.prev n (some x) }
  | none => { d with tail := some x }

/-- The list is `l`. -/
structure Links (d : DoublyLinked ι) (l : List ι) : Prop where
  nodup : l.Nodup
  head : d.head = l.head?
  tail : d.tail = l.getLast?
  node : ∀ l₁ x l₂, l = l₁ ++ x :: l₂ → d.prev x = l₁.getLast? ∧ d.next x = l₂.head?

/-- The node `x` is in no list, but points to the end of `l₁` and the start of `l₂`, which
follow each other. -/
structure Loose (d : DoublyLinked ι) (x : ι) (l₁ l₂ : List ι) : Prop where
  links : d.Links (l₁ ++ l₂)
  notMem : x ∉ l₁ ++ l₂
  prev : d.prev x = l₁.getLast?
  next : d.next x = l₂.head?

omit [DecidableEq ι] in
theorem links_empty : (empty : DoublyLinked ι).Links [] :=
  ⟨.nil, rfl, rfl, fun l₁ x l₂ h => by cases l₁ <;> cases h⟩

variable {d : DoublyLinked ι} {l l₁ l₂ : List ι} {x y : ι}

omit [DecidableEq ι] in
/-- The pointers say which list it is. -/
theorem Links.unique {l' : List ι} (h : d.Links l) (h' : d.Links l') : l = l' := by
  have hrest : ∀ a r a' r', l = a ++ r → l' = a' ++ r' → r.head? = r'.head? → r = r' := by
    intro a r a' r' hl hl' hhead
    induction r generalizing a a' r' with
    | nil => exact (List.head?_eq_none_iff.mp hhead.symm).symm
    | cons x r ih =>
      cases r' with
      | nil => cases hhead
      | cons x' r' =>
        obtain rfl : x = x' := Option.some.inj hhead
        have hnext := (h.node a x r hl).2
        rw [(h'.node a' x r' hl').2] at hnext
        rw [ih (a ++ [x]) (a' ++ [x]) r' (by simp [hl]) (by simp [hl']) hnext.symm]
  exact hrest [] l [] l' rfl rfl (h.head.symm.trans h'.head)

/-- Both steps of `remove` read the pointers that `x` had. -/
theorem remove_eq (d : DoublyLinked ι) (x : ι) : d.remove x =
    ⟨if d.prev x = none then d.next x else d.head, if d.next x = none then d.prev x else d.tail,
      fun y => if d.next x = some y then d.prev x else d.prev y,
      fun y => if d.prev x = some y then d.next x else d.next y⟩ := by
  have hset (f : ι → Option ι) (z : ι) (v : Option ι) :
      Function.update f z v = fun y => if some z = some y then v else f y := by
    funext y
    simp only [Function.update_apply, Option.some.injEq, eq_comm]
  rw [remove]
  cases hp : d.prev x with
  | none => cases hn : d.next x <;> simp [hset, hp]
  | some p =>
    have hx : Function.update d.next p (d.next x) x = d.next x := by
      rw [Function.update_apply, ite_eq_right_iff]
      exact fun _ => rfl
    simp only [hx]
    cases hn : d.next x <;> simp [hset, hp]

theorem Links.remove (h : d.Links (l₁ ++ x :: l₂)) : (d.remove x).Loose x l₁ l₂ := by
  obtain ⟨hprev, hnext⟩ := h.node l₁ x l₂ rfl
  obtain ⟨hnodup, hx⟩ : (l₁ ++ l₂).Nodup ∧ x ∉ l₁ ++ l₂ := by
    obtain ⟨hx, hnodup⟩ := List.nodup_cons.mp (List.perm_middle.nodup_iff.mp h.nodup)
    exact ⟨hnodup, hx⟩
  have hx₁ : l₁.getLast? ≠ some x := fun he =>
    hx (List.mem_append_left _ (List.mem_of_getLast? he))
  have hx₂ : l₂.head? ≠ some x := fun he => hx (List.mem_append_right _ (List.mem_of_mem_head? he))
  refine ⟨⟨hnodup, ?_, ?_, fun a y b hy => ?_⟩, hx, ?_, ?_⟩
  · rw [remove_eq]
    dsimp only
    rw [hprev, hnext, h.head, List.head?_append, List.head?_append]
    cases l₁ <;> simp
  · rw [remove_eq]
    dsimp only
    rw [hprev, hnext, h.tail]
    cases l₂ <;> simp
  · have hno : y ∉ a ++ b :=
      (List.nodup_cons.mp (List.perm_middle.nodup_iff.mp (hy ▸ hnodup))).1
    rw [List.mem_append, not_or] at hno
    rw [remove_eq]
    dsimp only
    rw [hprev, hnext]
    rcases List.append_eq_append_iff.mp hy with ⟨c, rfl, hc⟩ | ⟨c, rfl, hc⟩
    · -- The node is behind `x`.
      obtain ⟨hp, hn⟩ := h.node (l₁ ++ x :: c) y b (by rw [hc]; simp)
      rw [List.mem_append, not_or] at hno
      have hlast : l₁.getLast? ≠ some y := fun he => hno.1.1 (List.mem_of_getLast? he)
      rw [if_neg hlast, hn, hp, hc]
      refine ⟨?_, rfl⟩
      cases c with
      | nil => simp
      | cons z c =>
        have hz : z ≠ y := fun he => hno.1.2 (he ▸ List.mem_cons_self ..)
        simp [hz]
    · cases c with
      | nil =>
        obtain rfl : y :: b = l₂ := hc
        obtain ⟨hp, hn⟩ := h.node (a ++ [x]) y b (by simp)
        have hlast : a.getLast? ≠ some y := fun he => hno.1 (List.mem_of_getLast? he)
        simp [hlast, hn]
      | cons z c =>
        -- It is in front of `x`.
        obtain ⟨rfl, hb⟩ : y = z ∧ b = c ++ l₂ := List.cons_eq_cons.mp hc
        obtain ⟨hp, hn⟩ := h.node a y (c ++ x :: l₂) (by simp)
        rw [hb, List.mem_append, not_or] at hno
        have hhead : l₂.head? ≠ some y := fun he => hno.2.2 (List.mem_of_mem_head? he)
        rw [if_neg hhead, hp, hn, hb]
        refine ⟨rfl, ?_⟩
        cases c with
        | nil => simp
        | cons z c =>
          have hlast : (a ++ y :: z :: c).getLast? ≠ some y := fun he => by
            have hmem : y ∈ z :: c := List.mem_of_getLast? (by simpa using he)
            exact hno.2.1 hmem
          rw [if_neg hlast]
          rfl
  · rw [remove_eq]
    dsimp only
    rw [hnext, if_neg hx₂, hprev]
  · rw [remove_eq]
    dsimp only
    rw [hprev, if_neg hx₁, hnext]

/-- Removing the node again changes nothing. -/
theorem Loose.remove (h : d.Loose x l₁ l₂) : d.remove x = d := by
  have hhead : (if l₁.getLast? = none then l₂.head? else d.head) = d.head := by
    rw [h.links.head]
    cases l₁ <;> simp
  have htail : (if l₂.head? = none then l₁.getLast? else d.tail) = d.tail := by
    rw [h.links.tail]
    cases l₂ <;> simp
  rw [remove_eq, h.prev, h.next, hhead, htail]
  have hprev : (fun y => if l₂.head? = some y then l₁.getLast? else d.prev y) = d.prev := by
    funext y
    rw [ite_eq_right_iff]
    intro hy
    obtain ⟨b, rfl⟩ : ∃ b, l₂ = y :: b := by
      cases l₂ with
      | nil => cases hy
      | cons z b => exact ⟨b, by rw [Option.some.inj hy]⟩
    exact (h.links.node l₁ y b rfl).1.symm
  have hnext : (fun y => if l₁.getLast? = some y then l₂.head? else d.next y) = d.next := by
    funext y
    rw [ite_eq_right_iff]
    intro hy
    obtain ⟨a, rfl⟩ := List.getLast?_eq_some_iff.mp hy
    exact (h.links.node a y l₂ (by simp)).2.symm
  rw [hprev, hnext]

theorem pushBack_eq (d : DoublyLinked ι) (x : ι) (h : d.head = none ↔ d.tail = none) :
    d.pushBack x = ⟨if d.head = none then some x else d.head, some x,
      fun y => if y = x then d.tail else d.prev y,
      fun y => if y = x then none else if d.tail = some y then some x else d.next y⟩ := by
  rw [DoublyLinked.pushBack]
  cases ht : d.tail with
  | none =>
    rw [if_pos (h.mpr ht)]
    dsimp only
    congr 1 <;> funext y <;> simp [Function.update_apply]
  | some t =>
    have hne : d.head ≠ none := fun he => by simp [h.mp he] at ht
    rw [if_neg hne]
    dsimp only
    congr 1 <;> funext y <;> simp [Function.update_apply, eq_comm]

theorem Links.pushBack (h : d.Links l) (hx : x ∉ l) : (d.pushBack x).Links (l ++ [x]) := by
  have hnodup : (l ++ [x]).Nodup :=
    (List.perm_append_singleton x l).nodup_iff.mpr (List.nodup_cons.mpr ⟨hx, h.nodup⟩)
  have hnone : d.head = none ↔ d.tail = none := by
    rw [h.head, h.tail, List.head?_eq_none_iff, List.getLast?_eq_none_iff]
  rw [pushBack_eq d x hnone]
  refine ⟨hnodup, ?_, ?_, fun a y b hy => ?_⟩
  · dsimp only
    rw [h.head]
    cases l <;> simp
  · simp
  · dsimp only
    rcases List.eq_nil_or_concat b with rfl | ⟨b, z, rfl⟩
    · -- The node is the new one.
      obtain ⟨rfl, hyx⟩ := List.append_inj' hy rfl
      obtain rfl : x = y := by simpa using hyx
      rw [if_pos rfl, if_pos rfl, h.tail]
      exact ⟨rfl, rfl⟩
    · rw [List.concat_eq_append, ← List.cons_append, ← List.append_assoc] at hy
      obtain ⟨rfl, hz⟩ := List.append_inj' hy rfl
      obtain rfl : x = z := by simpa using hz
      obtain ⟨hp, hn⟩ := h.node a y b rfl
      have hne : y ≠ x := fun he => hx (by simp [he])
      rw [if_neg hne, if_neg hne, hp, hn, h.tail]
      refine ⟨rfl, ?_⟩
      cases b with
      | nil => simp
      | cons w b =>
        have hlast : (a ++ y :: w :: b).getLast? ≠ some y := fun he => by
          have hmem : y ∈ w :: b := List.mem_of_getLast? (by simpa using he)
          have hnd := List.nodup_append.mp h.nodup
          exact (List.nodup_cons.mp hnd.2.1).1 hmem
        rw [if_neg hlast]
        rfl

theorem insert_eq (d : DoublyLinked ι) (p n : Option ι) (x : ι) : d.insert p n x =
    ⟨if p = none then some x else d.head, if n = none then some x else d.tail,
      fun y => if n = some y then some x else if y = x then p else d.prev y,
      fun y => if p = some y then some x else if y = x then n else d.next y⟩ := by
  cases p <;> cases n <;>
    simp only [DoublyLinked.insert, reduceCtorEq, if_true, if_false, mk.injEq, true_and]
  all_goals
    constructor <;> funext y <;> simp [Function.update_apply, eq_comm]

theorem Links.insert (h : d.Links (l₁ ++ l₂)) (hx : x ∉ l₁ ++ l₂) :
    (d.insert l₁.getLast? l₂.head? x).Links (l₁ ++ x :: l₂) := by
  have hnodup : (l₁ ++ x :: l₂).Nodup :=
    List.perm_middle.nodup_iff.mpr (List.nodup_cons.mpr ⟨hx, h.nodup⟩)
  rw [List.mem_append, not_or] at hx
  have hx₁ : l₁.getLast? ≠ some x := fun he => hx.1 (List.mem_of_getLast? he)
  have hx₂ : l₂.head? ≠ some x := fun he => hx.2 (List.mem_of_mem_head? he)
  rw [insert_eq]
  refine ⟨hnodup, ?_, ?_, fun a y b hy => ?_⟩
  · dsimp only
    rw [h.head]
    cases l₁ <;> simp
  · dsimp only
    rw [h.tail]
    cases l₂ <;> simp
  · have hno : y ∉ a ++ b :=
      (List.nodup_cons.mp (List.perm_middle.nodup_iff.mp (hy ▸ hnodup))).1
    rw [List.mem_append, not_or] at hno
    have hself : a = l₁ → y = x → b = l₂ →
        (if l₂.head? = some y then some x else if y = x then l₁.getLast? else d.prev y) =
          a.getLast? ∧
        (if l₁.getLast? = some y then some x else if y = x then l₂.head? else d.next y) =
          b.head? := by
      rintro rfl rfl rfl
      rw [if_neg hx₂, if_neg hx₁, if_pos rfl, if_pos rfl]
      exact ⟨rfl, rfl⟩
    dsimp only
    rcases List.append_eq_append_iff.mp hy with ⟨c, rfl, hc⟩ | ⟨c, rfl, hc⟩
    · cases c with
      | nil =>
        obtain ⟨rfl, rfl⟩ := List.cons.inj hc
        exact hself (by simp) rfl rfl
      | cons z c =>
        -- The node is behind `x`.
        obtain ⟨rfl, rfl⟩ : x = z ∧ l₂ = c ++ y :: b := List.cons_eq_cons.mp hc
        obtain ⟨hp, hn⟩ := h.node (l₁ ++ c) y b (by simp)
        have hyx : y ≠ x := fun he => hx.2 (by simp [he])
        have hlast : l₁.getLast? ≠ some y := fun he =>
          hno.1 (List.mem_append_left _ (List.mem_of_getLast? he))
        rw [if_neg hlast, if_neg hyx, if_neg hyx, hp, hn]
        refine ⟨?_, rfl⟩
        cases c with
        | nil => simp
        | cons z c =>
          have hz : z ≠ y := fun he => hno.1 (by simp [he])
          simp [hz]
    · cases c with
      | nil =>
        obtain ⟨rfl, rfl⟩ := List.cons.inj hc
        exact hself (by simp) rfl rfl
      | cons z c =>
        -- It is in front of `x`.
        obtain ⟨rfl, rfl⟩ : y = z ∧ b = c ++ x :: l₂ := List.cons_eq_cons.mp hc
        obtain ⟨hp, hn⟩ := h.node a y (c ++ l₂) (by simp)
        have hyx : y ≠ x := fun he => hx.1 (by simp [he])
        have hhead : l₂.head? ≠ some y := fun he => hno.2 (by simp [List.mem_of_mem_head? he])
        rw [if_neg hhead, if_neg hyx, if_neg hyx, hp, hn]
        refine ⟨rfl, ?_⟩
        cases c with
        | nil => simp
        | cons z c =>
          have hlast : (a ++ y :: z :: c).getLast? ≠ some y := fun he => by
            have hmem : y ∈ z :: c := List.mem_of_getLast? (by simpa using he)
            exact hno.2 (List.mem_append_left _ hmem)
          rw [if_neg hlast]
          rfl

end DoublyLinked

end Noff
