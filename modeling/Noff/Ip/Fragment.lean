import Mathlib.Algebra.Order.BigOperators.Group.List
import Mathlib.Data.List.TakeWhile
import Noff.Ip.Datagram

/-!
# The fragments of one queue

`struct ipFrag` and what `ipDefrag`, `ipDone` and `ipGlue` do with the fragments that a queue
holds. They stay in order, none of them beyond the start of the next (`Chain.place`), although one that
lies in the one before it is kept with an end in front of its offset; what a fragment
replaces is exactly what is no longer charged for (`sum_charge_place`).
-/

namespace Noff

/-- `struct skBuff` -/
structure SkBuff where
  data : List Byte
  truesize : Nat
  deriving DecidableEq

/-- The buffer for a fragment, made in `ipDefragStub`. -/
def SkBuff.create (iph : List Byte) : SkBuff where
  data := bytesAt iph 0 (ipLen iph)
  truesize := (ipLen iph + 16 - 1 + 15) / 16 * 16 + 168

/-- `struct ipFrag`. `ptr` is where the pointer points to, from the start of the data of `skb`. -/
structure IpFrag where
  offset : Int
  endOff : Int
  len : Int
  skb : SkBuff
  ptr : Int
  deriving DecidableEq

namespace IpFrag

/-- `sizeof(struct ipFrag)` -/
def sizeofIpFrag : Int := 48

/-- What is charged for a fragment. -/
def charge (fp : IpFrag) : Int := sizeofIpFrag + fp.skb.truesize

/-- `ip_frag_create` -/
def create (offset endOff : Int) (skb : SkBuff) (ptr : Int) : IpFrag :=
  ⟨offset, endOff, endOff - offset, skb, ptr⟩

/-- The next `i` bytes are left to the fragment before. -/
def advance (i : Int) (fp : IpFrag) : IpFrag :=
  { fp with offset := fp.offset + i, len := fp.len - i, ptr := fp.ptr + i }

/-- The loop over the fragments behind a new one that ends at `endOff`: those that are left,
and those that are freed. `kept` has the ones from `next` up to `tmp`. If one behind
them is freed, `next` goes on to the one after it, and they are lost. -/
def trim (endOff : Int) : List IpFrag → List IpFrag → List IpFrag × List IpFrag
  | kept, [] => (kept, [])
  | kept, tmp :: tfp =>
    if tmp.offset ≥ endOff then (kept ++ tmp :: tfp, [])
    else
      let next := kept.headD tmp
      let tmp' := tmp.advance (endOff - next.offset)
      if tmp'.len ≤ 0 then
        let (left, freed) := trim endOff [] tfp
        (left, tmp' :: freed)
      else trim endOff (kept ++ [tmp']) tfp

/-- How far a new fragment at `offset` lies in the one before it. -/
def overlap (offset : Int) (prevs : List IpFrag) : Int :=
  match prevs.getLast? with
  | none => 0
  | some prev => if offset < prev.endOff then prev.endOff - offset else 0

/-- The fragments of a queue with a new one, whose bytes start at `ptr`, and those that are freed. -/
def place (fragments : List IpFrag) (offset endOff : Int) (skb : SkBuff) (ptr : Int) :
    List IpFrag × List IpFrag :=
  let prevs := fragments.takeWhile (·.offset < offset)
  let nexts := fragments.dropWhile (·.offset < offset)
  let i := overlap offset prevs
  let (nexts, freed) := trim endOff [] nexts
  (prevs ++ create (offset + i) endOff skb (ptr + i) :: nexts, freed)

/-- The loop of `ipDone`. -/
def connected : Int → List IpFrag → Bool
  | _, [] => true
  | offset, fp :: rest => if fp.offset > offset then false else connected fp.endOff rest

/-! ## Invariants -/

/-- The length of a fragment is that from its offset to its end, and it starts behind what the
one before it has. -/
structure Chain (fragments : List IpFrag) : Prop where
  nonneg : ∀ fp ∈ fragments, 0 ≤ fp.offset
  len : ∀ fp ∈ fragments, fp.len = fp.endOff - fp.offset
  sorted : fragments.Pairwise fun fp fp' => fp.offset ≤ fp'.offset ∧ fp.endOff ≤ fp'.offset

theorem chain_nil : Chain [] := ⟨nofun, nofun, .nil⟩

variable {fragments : List IpFrag} {fp tmp : IpFrag} {offset endOff ptr : Int} {skb : SkBuff}

theorem Chain.tail (h : Chain (fp :: fragments)) : Chain fragments :=
  ⟨fun x hx => h.nonneg x (List.mem_cons_of_mem _ hx),
    fun x hx => h.len x (List.mem_cons_of_mem _ hx), (List.pairwise_cons.mp h.sorted).2⟩

theorem Chain.sublist {fragments' : List IpFrag} (h : Chain fragments)
    (hs : fragments'.Sublist fragments) : Chain fragments' :=
  ⟨fun x hx => h.nonneg x (hs.subset hx), fun x hx => h.len x (hs.subset hx),
    h.sorted.sublist hs⟩

@[simp] theorem charge_advance (i : Int) (fp : IpFrag) : (fp.advance i).charge = fp.charge := rfl

/-- What a new fragment does to the ones behind it: those that end where it does, or
before, are freed, and at most one is cut. -/
inductive Trimmed (endOff : Int) : List IpFrag → List IpFrag → List IpFrag → Prop
  | behind {rest : List IpFrag} (h : ∀ fp ∈ rest, endOff ≤ fp.offset) : Trimmed endOff rest rest []
  | cut {tmp : IpFrag} {rest : List IpFrag} (ho : tmp.offset < endOff) (he : endOff < tmp.endOff)
      (h : ∀ fp ∈ rest, endOff ≤ fp.offset) :
      Trimmed endOff (tmp :: rest) (tmp.advance (endOff - tmp.offset) :: rest) []
  | freed {tmp : IpFrag} {rest left freed : List IpFrag} (ho : tmp.offset < endOff)
      (he : tmp.endOff ≤ endOff) (h : Trimmed endOff rest left freed) :
      Trimmed endOff (tmp :: rest) left (tmp.advance (endOff - tmp.offset) :: freed)

/-- No fragment is lost: `next` is the one that is looked at whenever one is freed. -/
theorem Chain.trimmed (h : Chain fragments) (endOff : Int) :
    Trimmed endOff fragments (trim endOff [] fragments).1 (trim endOff [] fragments).2 := by
  induction fragments with
  | nil => exact .behind nofun
  | cons tmp rest ih =>
    have hlen := h.len tmp (List.mem_cons_self ..)
    have hsorted := (List.pairwise_cons.mp h.sorted).1
    have hbehind (hle : endOff ≤ tmp.offset ∨ endOff ≤ tmp.endOff) :
        ∀ fp ∈ rest, endOff ≤ fp.offset := fun fp hfp => by
      have := hsorted fp hfp
      omega
    rw [trim]
    split
    · rename_i hge
      refine .behind fun fp hfp => ?_
      rcases List.mem_cons.mp hfp with rfl | hfp
      · exact hge
      · exact hbehind (.inl hge) fp hfp
    · rename_i hlt
      dsimp only [List.headD_nil]
      split
      · rename_i hle
        have hle : tmp.len - (endOff - tmp.offset) ≤ 0 := hle
        exact .freed (by omega) (by omega) (ih h.tail)
      · rename_i hpos
        have hpos : ¬ tmp.len - (endOff - tmp.offset) ≤ 0 := hpos
        have hrest := hbehind (.inr (by omega))
        have htrim : trim endOff [tmp.advance (endOff - tmp.offset)] rest =
            (tmp.advance (endOff - tmp.offset) :: rest, []) := by
          cases rest with
          | nil => rfl
          | cons x rest => rw [trim, if_pos (hrest x (List.mem_cons_self ..))]; rfl
        rw [List.nil_append, htrim]
        exact .cut (by omega) (by omega) hrest

namespace Trimmed

variable {left freed : List IpFrag}

theorem le_offset (h : Trimmed endOff fragments left freed) : ∀ fp ∈ left, endOff ≤ fp.offset := by
  induction h with
  | behind h => exact h
  | @cut tmp rest ho he h =>
    intro fp hfp
    rcases List.mem_cons.mp hfp with rfl | hfp
    · show endOff ≤ tmp.offset + (endOff - tmp.offset)
      omega
    · exact h fp hfp
  | freed ho he h ih => exact ih

/-- What is left, has been there, or starts later than it did. -/
theorem exists_of_mem (h : Trimmed endOff fragments left freed) :
    ∀ fp ∈ left, ∃ fp₀ ∈ fragments, ∃ i ≥ 0, fp = fp₀.advance i := by
  have hself (fp : IpFrag) : fp = fp.advance 0 := by simp [advance]
  induction h with
  | behind h => exact fun fp hfp => ⟨fp, hfp, 0, le_rfl, hself fp⟩
  | @cut tmp rest ho he h =>
    intro fp hfp
    rcases List.mem_cons.mp hfp with rfl | hfp
    · exact ⟨tmp, List.mem_cons_self .., _, by omega, rfl⟩
    · exact ⟨fp, List.mem_cons_of_mem _ hfp, 0, le_rfl, hself fp⟩
  | freed ho he h ih =>
    intro fp hfp
    obtain ⟨fp₀, hfp₀, hi⟩ := ih fp hfp
    exact ⟨fp₀, List.mem_cons_of_mem _ hfp₀, hi⟩

theorem sum_charge (h : Trimmed endOff fragments left freed) :
    (left.map charge).sum + (freed.map charge).sum = (fragments.map charge).sum := by
  induction h with
  | behind h => simp
  | cut ho he h => simp
  | freed ho he h ih =>
    simp only [List.map_cons, List.sum_cons, charge_advance]
    omega

theorem chain (h : Trimmed endOff fragments left freed) (hc : Chain fragments) : Chain left := by
  induction h with
  | behind h => exact hc
  | @cut tmp rest ho he h =>
    have hoff : (tmp.advance (endOff - tmp.offset)).offset = endOff := by
      show tmp.offset + (endOff - tmp.offset) = endOff
      omega
    have htmp := hc.nonneg tmp (List.mem_cons_self ..)
    have hlen := hc.len tmp (List.mem_cons_self ..)
    refine ⟨fun fp hfp => ?_, fun fp hfp => ?_, List.pairwise_cons.mpr ⟨fun fp hfp => ?_, hc.tail.sorted⟩⟩
    · rcases List.mem_cons.mp hfp with rfl | hfp
      · omega
      · exact hc.tail.nonneg fp hfp
    · rcases List.mem_cons.mp hfp with rfl | hfp
      · show tmp.len - (endOff - tmp.offset) = tmp.endOff - (tmp.offset + (endOff - tmp.offset))
        omega
      · exact hc.tail.len fp hfp
    · exact ⟨by rw [hoff]; exact h fp hfp, ((List.pairwise_cons.mp hc.sorted).1 fp hfp).2⟩
  | freed ho he h ih => exact ih hc.tail

/-- An end that some fragment has reached is reached by the new one, or by one that is left. -/
theorem exists_le_end (h : Trimmed endOff fragments left freed) (hfp : fp ∈ fragments) :
    fp.endOff ≤ endOff ∨ ∃ fp' ∈ left, fp.endOff ≤ fp'.endOff := by
  induction h with
  | behind h => exact .inr ⟨fp, hfp, le_rfl⟩
  | @cut tmp rest ho he h =>
    rcases List.mem_cons.mp hfp with rfl | hfp
    · exact .inr ⟨_, List.mem_cons_self .., le_rfl⟩
    · exact .inr ⟨fp, List.mem_cons_of_mem _ hfp, le_rfl⟩
  | freed ho he h ih =>
    rcases List.mem_cons.mp hfp with rfl | hfp
    · exact .inl he
    · exact ih hfp

/-- A position of a fragment is still in one, or in front of the end of the new one. -/
theorem covered (h : Trimmed endOff fragments left freed) (hfp : fp ∈ fragments) {p : Int}
    (hlo : fp.offset ≤ p) (hhi : p < fp.endOff) :
    p < endOff ∨ ∃ fp' ∈ left, fp'.offset ≤ p ∧ p < fp'.endOff := by
  induction h with
  | behind h => exact .inr ⟨fp, hfp, hlo, hhi⟩
  | @cut tmp rest ho he h =>
    rcases List.mem_cons.mp hfp with rfl | hfp
    · by_cases hp : p < endOff
      · exact .inl hp
      · refine .inr ⟨_, List.mem_cons_self .., ?_, hhi⟩
        show fp.offset + (endOff - fp.offset) ≤ p
        omega
    · exact .inr ⟨fp, List.mem_cons_of_mem _ hfp, hlo, hhi⟩
  | freed ho he h ih =>
    rcases List.mem_cons.mp hfp with rfl | hfp
    · exact .inl (by omega)
    · exact ih hfp

end Trimmed

theorem overlap_nonneg (offset : Int) (prevs : List IpFrag) : 0 ≤ overlap offset prevs := by
  rw [overlap]
  split
  · exact le_rfl
  · split
    · omega
    · exact le_rfl

/-- The fragments that start later than the new one are those that are not skipped. -/
theorem Chain.le_offset_of_mem_dropWhile (h : Chain fragments) (offset : Int) :
    ∀ fp ∈ fragments.dropWhile (·.offset < offset), offset ≤ fp.offset := by
  induction fragments with
  | nil => exact nofun
  | cons tmp rest ih =>
    by_cases hlt : tmp.offset < offset
    · rw [List.dropWhile_cons_of_pos (by simpa using hlt)]
      exact ih h.tail
    · rw [List.dropWhile_cons_of_neg (by simpa using hlt)]
      intro fp hfp
      rcases List.mem_cons.mp hfp with rfl | hfp
      · exact Int.not_lt.mp hlt
      · have := ((List.pairwise_cons.mp h.sorted).1 fp hfp).1
        omega

theorem offset_lt_of_mem_takeWhile
    (hfp : fp ∈ fragments.takeWhile (·.offset < offset)) : fp.offset < offset := by
  simpa using List.mem_takeWhile_imp hfp

/-- What the fragments in front of the new one have ends before it, once it is moved. -/
theorem Chain.end_le_of_mem_takeWhile (h : Chain fragments)
    (hfp : fp ∈ fragments.takeWhile (·.offset < offset)) :
    fp.endOff ≤ offset + overlap offset (fragments.takeWhile (·.offset < offset)) := by
  have hc := h.sublist (List.takeWhile_sublist (·.offset < offset))
  have hlt : ∀ fp ∈ fragments.takeWhile (·.offset < offset), fp.offset < offset := fun fp hfp =>
    offset_lt_of_mem_takeWhile hfp
  generalize fragments.takeWhile (·.offset < offset) = prevs at hfp hc hlt ⊢
  rcases List.eq_nil_or_concat prevs with rfl | ⟨init, prev, rfl⟩
  · cases hfp
  · rw [List.concat_eq_append] at hfp hc hlt ⊢
    have ho := overlap_nonneg offset (init ++ [prev])
    rcases List.mem_append.mp hfp with hfp | hfp
    · have hsorted := ((List.pairwise_append.mp hc.sorted).2.2 fp hfp prev (List.mem_singleton_self _)).2
      have hprev := hlt prev (by simp)
      omega
    · obtain rfl := List.mem_singleton.mp hfp
      rw [overlap, List.getLast?_concat]
      dsimp only
      split <;> omega

/-- How a new fragment divides those that are there. -/
structure Placed (fragments : List IpFrag) (offset endOff : Int) (skb : SkBuff) (ptr : Int)
    (fragments' freed prevs left : List IpFrag) (i : Int) : Prop where
  eq : fragments' = prevs ++ create (offset + i) endOff skb (ptr + i) :: left
  nonneg : 0 ≤ i
  overlap : i = overlap offset prevs
  front : ∀ fp ∈ prevs, fp.offset < offset ∧ fp.endOff ≤ offset + i
  trimmed : ∃ nexts, fragments = prevs ++ nexts ∧ Trimmed endOff nexts left freed ∧
    ∀ fp ∈ nexts, offset + i ≤ fp.offset

theorem Chain.placed (h : Chain fragments) (offset endOff : Int) (skb : SkBuff) (ptr : Int) :
    ∃ prevs left i, Placed fragments offset endOff skb ptr (place fragments offset endOff skb ptr).1
      (place fragments offset endOff skb ptr).2 prevs left i := by
  have hnexts := h.sublist (List.dropWhile_sublist (·.offset < offset))
  have happ := List.takeWhile_append_dropWhile (p := (·.offset < offset)) (l := fragments)
  refine ⟨_, _, _, rfl, overlap_nonneg .., rfl, fun fp hfp =>
    ⟨offset_lt_of_mem_takeWhile hfp, h.end_le_of_mem_takeWhile hfp⟩,
    _, happ.symm, hnexts.trimmed endOff, fun fp hfp => ?_⟩
  have hle := h.le_offset_of_mem_dropWhile offset fp hfp
  rw [IpFrag.overlap]
  split
  · omega
  · rename_i prev hprev
    have hmem := List.mem_of_getLast? hprev
    have hsorted := h.sorted
    rw [← happ] at hsorted
    have := ((List.pairwise_append.mp hsorted).2.2 prev hmem fp hfp).2
    split <;> omega

namespace Placed

variable {fragments' freed prevs left : List IpFrag} {i : Int}

theorem chain (h : Placed fragments offset endOff skb ptr fragments' freed prevs left i)
    (hc : Chain fragments) (hoff : 0 ≤ offset) : Chain fragments' := by
  obtain ⟨nexts, hsplit, ht, hnexts⟩ := h.trimmed
  have hprevs : Chain prevs := hc.sublist (hsplit ▸ List.sublist_append_left ..)
  have hleft : Chain left := ht.chain (hc.sublist (hsplit ▸ List.sublist_append_right ..))
  have hi := h.nonneg
  have hge : ∀ fp ∈ left, offset + i ≤ fp.offset := fun fp hfp => by
    obtain ⟨fp₀, hfp₀, j, hj, rfl⟩ := ht.exists_of_mem fp hfp
    have := hnexts fp₀ hfp₀
    show offset + i ≤ fp₀.offset + j
    omega
  rw [h.eq]
  refine ⟨fun fp hfp => ?_, fun fp hfp => ?_, List.pairwise_append.mpr
    ⟨hprevs.sorted, List.pairwise_cons.mpr ⟨fun fp hfp => ⟨hge fp hfp, ht.le_offset fp hfp⟩,
      hleft.sorted⟩, fun fp hfp fp' hfp' => ?_⟩⟩
  · rcases List.mem_append.mp hfp with hfp | hfp
    · exact hprevs.nonneg fp hfp
    · rcases List.mem_cons.mp hfp with rfl | hfp
      · show 0 ≤ offset + i
        omega
      · exact hleft.nonneg fp hfp
  · rcases List.mem_append.mp hfp with hfp | hfp
    · exact hprevs.len fp hfp
    · rcases List.mem_cons.mp hfp with rfl | hfp
      · rfl
      · exact hleft.len fp hfp
  · have hp := h.front fp hfp
    rcases List.mem_cons.mp hfp' with rfl | hfp'
    · show fp.offset ≤ offset + i ∧ fp.endOff ≤ offset + i
      omega
    · have := hge fp' hfp'
      omega

theorem sum_charge (h : Placed fragments offset endOff skb ptr fragments' freed prevs left i) :
    (fragments'.map charge).sum + (freed.map charge).sum =
      (fragments.map charge).sum + (sizeofIpFrag + skb.truesize) := by
  obtain ⟨nexts, hsplit, ht, -⟩ := h.trimmed
  have hsum := ht.sum_charge
  rw [h.eq, hsplit]
  simp only [List.map_append, List.map_cons, List.sum_append, List.sum_cons]
  have hnew : (create (offset + i) endOff skb (ptr + i)).charge = sizeofIpFrag + skb.truesize := rfl
  omega

/-- The fragments are the new one, and ones that have been there and may start later now. -/
theorem exists_of_mem (h : Placed fragments offset endOff skb ptr fragments' freed prevs left i)
    (hfp : fp ∈ fragments') : fp = create (offset + i) endOff skb (ptr + i) ∨
      ∃ fp₀ ∈ fragments, ∃ j ≥ 0, fp = fp₀.advance j := by
  obtain ⟨nexts, hsplit, ht, -⟩ := h.trimmed
  rw [h.eq] at hfp
  rw [hsplit]
  rcases List.mem_append.mp hfp with hfp | hfp
  · exact .inr ⟨fp, List.mem_append_left _ hfp, 0, le_rfl, by simp [advance]⟩
  · rcases List.mem_cons.mp hfp with rfl | hfp
    · exact .inl rfl
    · obtain ⟨fp₀, hfp₀, hj⟩ := ht.exists_of_mem fp hfp
      exact .inr ⟨fp₀, List.mem_append_right _ hfp₀, hj⟩

theorem mem_new (h : Placed fragments offset endOff skb ptr fragments' freed prevs left i) :
    create (offset + i) endOff skb (ptr + i) ∈ fragments' := by
  rw [h.eq]
  simp

/-- No end that has been reached is given up. -/
theorem exists_le_end (h : Placed fragments offset endOff skb ptr fragments' freed prevs left i)
    (hfp : fp ∈ fragments) : ∃ fp' ∈ fragments', fp.endOff ≤ fp'.endOff := by
  obtain ⟨nexts, hsplit, ht, -⟩ := h.trimmed
  rw [hsplit] at hfp
  rcases List.mem_append.mp hfp with hfp | hfp
  · exact ⟨fp, by rw [h.eq]; exact List.mem_append_left _ hfp, le_rfl⟩
  · rcases ht.exists_le_end hfp with hle | ⟨fp', hfp', hle⟩
    · exact ⟨_, h.mem_new, hle⟩
    · exact ⟨fp', by rw [h.eq]; simp [hfp'], hle⟩

/-- What is stored is what has been stored, and what the new fragment has. -/
theorem covered (h : Placed fragments offset endOff skb ptr fragments' freed prevs left i) (p : Int) :
    (∃ fp ∈ fragments', fp.offset ≤ p ∧ p < fp.endOff) ↔
      (∃ fp ∈ fragments, fp.offset ≤ p ∧ p < fp.endOff) ∨ offset ≤ p ∧ p < endOff := by
  have hi := h.nonneg
  obtain ⟨nexts, hsplit, ht, hnexts⟩ := h.trimmed
  have hnew : offset + i ≤ p → p < endOff → ∃ fp ∈ fragments', fp.offset ≤ p ∧ p < fp.endOff :=
    fun hlo hhi => ⟨_, h.mem_new, hlo, hhi⟩
  constructor
  · rintro ⟨fp, hfp, hlo, hhi⟩
    rcases h.exists_of_mem hfp with rfl | ⟨fp₀, hfp₀, j, hj, rfl⟩
    · have hlo : offset + i ≤ p := hlo
      exact .inr ⟨by omega, hhi⟩
    · have hlo : fp₀.offset + j ≤ p := hlo
      exact .inl ⟨fp₀, hfp₀, by omega, hhi⟩
  · rintro (⟨fp, hfp, hlo, hhi⟩ | ⟨hlo, hhi⟩)
    · rw [hsplit] at hfp
      rcases List.mem_append.mp hfp with hfp | hfp
      · exact ⟨fp, by rw [h.eq]; exact List.mem_append_left _ hfp, hlo, hhi⟩
      · rcases ht.covered hfp hlo hhi with hp | ⟨fp', hfp', hp⟩
        · have hge := hnexts fp hfp
          exact hnew (by omega) hp
        · exact ⟨fp', by rw [h.eq]; simp [hfp'], hp⟩
    · by_cases hp : offset + i ≤ p
      · exact hnew hp hhi
      · -- It is what the new fragment leaves to the one before it.
        have hover := h.overlap
        rw [IpFrag.overlap] at hover
        split at hover
        · omega
        · rename_i prev hprev
          have hmem := List.mem_of_getLast? hprev
          have hlt := (h.front prev hmem).1
          split at hover
          · exact ⟨prev, by rw [h.eq]; exact List.mem_append_left _ hmem, by omega, by omega⟩
          · omega

end Placed

end IpFrag

end Noff
