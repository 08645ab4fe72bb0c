import Noff.Ip.Packets

/-!
# The pointers of the fragments

`ipDefrag` puts a fragment into the list of its queue by setting `prev` and `next` of the nodes,
while it frees some of them. That makes the list that `IpFrag.place` has
(`FragList.Makes.place`), with pointers that agree, after any packets
(`FragList.exists_ofPackets`).
-/

namespace Noff

/-- The fragments of a queue with their pointers: `qp->fragments` is the `head` of the nodes. (There is no
pointer to the last one.) A fragment that is freed is gone. -/
structure FragList where
  nodes : DoublyLinked Nat
  frag : Nat → Option IpFrag
  /-- The number of the next fragment. -/
  next : Nat

namespace FragList

def empty : FragList := ⟨.empty, fun _ => none, 0⟩

variable (s : FragList)

/-- The loop that looks for the place of a new fragment: it comes between these two. -/
def find (offset : Int) : Nat → Option Nat → Option Nat → Option (Option Nat × Option Nat)
  | 0, _, _ => none
  | _ + 1, prev, none => some (prev, none)
  | fuel + 1, prev, some x => do
    let fp ← s.frag x
    if fp.offset ≥ offset then return (prev, some x) else find offset fuel (some x) (s.nodes.next x)

/-- The loop over the fragments from `tmp` on; with what it leaves in `next`. -/
def trim (endOff : Int) : Nat → FragList → Option Nat → Option Nat → Option (FragList × Option Nat)
  | 0, _, _, _ => none
  | _ + 1, s, next, none => some (s, next)
  | fuel + 1, s, next, some tmp => do
    let tfp := s.nodes.next tmp
    let fp ← s.frag tmp
    if fp.offset ≥ endOff then return (s, next)
    else
      let i := endOff - (← s.frag (← next)).offset
      let fp := fp.advance i
      if fp.len ≤ 0 then
        trim endOff fuel
          { s with nodes := s.nodes.remove tmp, frag := Function.update s.frag tmp none } tfp tfp
      else trim endOff fuel { s with frag := Function.update s.frag tmp (some fp) } next tfp

/-- How far the new fragment lies in `prev`. -/
def overlap (offset : Int) : Option Nat → Option Int
  | none => some 0
  | some p => do
    let fp ← s.frag p
    return if offset < fp.endOff then fp.endOff - offset else 0

/-- What `ipDefrag` does with the list. -/
def place (offset endOff : Int) (skb : SkBuff) (ptr : Int) : Option FragList := do
  let (prev, next) ← s.find offset (s.next + 1) none s.nodes.head
  let i ← s.overlap offset prev
  let (s, next) ← trim endOff (s.next + 1) s next next
  return { s with
    nodes := s.nodes.insert prev next s.next
    frag := Function.update s.frag s.next (some (.create (offset + i) endOff skb (ptr + i)))
    next := s.next + 1 }

/-- The nodes `xs` are linked, and are the fragments of the list. -/
structure Makes (xs : List Nat) (fragments : List IpFrag) : Prop where
  links : s.nodes.Links xs
  frag : xs.map s.frag = fragments.map some
  lt : ∀ x ∈ xs, x < s.next

theorem makes_empty : empty.Makes [] [] := ⟨DoublyLinked.links_empty, rfl, nofun⟩

variable {s} {s' : FragList} {xs xs₁ xs₂ : List Nat} {fs fs₁ fs₂ : List IpFrag} {offset endOff ptr : Int}
  {k : Nat} {skb : SkBuff}

theorem Makes.length_lt (h : s.Makes xs fs) : xs.length < s.next + 1 := by
  have hsub : xs.Subperm (List.range s.next) :=
    h.links.nodup.subperm fun x hx => List.mem_range.mpr (h.lt x hx)
  simpa [Nat.lt_succ_iff] using hsub.length_le

/-- The first loop stops in front of the first fragment that does not start earlier. -/
theorem find_eq (offset : Int) (h : s.nodes.Links (xs₁ ++ xs₂)) (hfrag : xs₂.map s.frag = fs.map some)
    (hk : xs₂.length < k) : ∃ ys zs, xs₂ = ys ++ zs ∧
      s.find offset k xs₁.getLast? xs₂.head? = some ((xs₁ ++ ys).getLast?, zs.head?) ∧
      ys.map s.frag = (fs.takeWhile (·.offset < offset)).map some ∧
      zs.map s.frag = (fs.dropWhile (·.offset < offset)).map some := by
  obtain ⟨k, rfl⟩ : ∃ k', k = k' + 1 := ⟨k - 1, by omega⟩
  induction xs₂ generalizing xs₁ fs k with
  | nil =>
    obtain rfl : fs = [] := by simpa using hfrag.symm
    exact ⟨[], [], rfl, by simp [find], rfl, rfl⟩
  | cons x xs₂ ih =>
    cases fs with
    | nil => cases hfrag
    | cons fp fs =>
      obtain ⟨hx, hrest⟩ := List.cons.inj hfrag
      rw [List.head?_cons, find]
      simp only [hx, Option.bind_eq_bind, Option.bind_some, Option.pure_def]
      by_cases hlt : fp.offset < offset
      · obtain ⟨k, rfl⟩ : ∃ k', k = k' + 1 := ⟨k - 1, by simp at hk; omega⟩
        have hnext := (h.node xs₁ x xs₂ rfl).2
        have h' : s.nodes.Links ((xs₁ ++ [x]) ++ xs₂) := by simpa using h
        obtain ⟨ys, zs, rfl, hfind, hys, hzs⟩ := ih h' hrest k (by simpa using hk)
        rw [List.getLast?_concat] at hfind
        rw [if_neg (by omega), hnext, hfind, List.takeWhile_cons_of_pos (by simpa using hlt),
          List.dropWhile_cons_of_pos (by simpa using hlt)]
        refine ⟨x :: ys, zs, rfl, by simp, ?_, hzs⟩
        rw [List.map_cons, List.map_cons, hx, hys]
      · rw [if_pos (by omega), List.takeWhile_cons_of_neg (by simpa using hlt),
          List.dropWhile_cons_of_neg (by simpa using hlt)]
        exact ⟨[], x :: xs₂, rfl, by simp, rfl, hfrag⟩

theorem Makes.length_eq (h : s.Makes xs fs) : xs.length = fs.length := by
  simpa using congrArg List.length h.frag

/-- The fragments of two parts of the list. -/
theorem Makes.split (h : s.Makes (xs₁ ++ xs₂) (fs₁ ++ fs₂)) (hl : xs₁.length = fs₁.length) :
    xs₁.map s.frag = fs₁.map some ∧ xs₂.map s.frag = fs₂.map some := by
  have hfrag := h.frag
  rw [List.map_append, List.map_append] at hfrag
  exact List.append_inj hfrag (by simpa using hl)

theorem Makes.of_split {nodes : DoublyLinked Nat} {frag : Nat → Option IpFrag} {n : Nat}
    (hlinks : nodes.Links (xs₁ ++ xs₂)) (h₁ : xs₁.map frag = fs₁.map some)
    (h₂ : xs₂.map frag = fs₂.map some) (hlt : ∀ x ∈ xs₁ ++ xs₂, x < n) :
    (⟨nodes, frag, n⟩ : FragList).Makes (xs₁ ++ xs₂) (fs₁ ++ fs₂) :=
  ⟨hlinks, by rw [List.map_append, List.map_append, h₁, h₂], hlt⟩

theorem map_update {x : Nat} (hx : x ∉ xs) (frag : Nat → Option IpFrag) (v : Option IpFrag) :
    xs.map (Function.update frag x v) = xs.map frag :=
  List.map_congr_left fun y hy =>
    Function.update_of_ne (fun he : y = x => hx (he ▸ hy)) ..

/-- The second loop leaves what it should. -/
theorem Makes.trim {left freed : List IpFrag} (ht : IpFrag.Trimmed endOff fs₂ left freed)
    (hlen : ∀ fp ∈ fs₂, fp.len = fp.endOff - fp.offset) (h : s.Makes (xs₁ ++ xs₂) (fs₁ ++ fs₂))
    (hl : xs₁.length = fs₁.length) (hk : xs₂.length < k) :
    ∃ s' zs, FragList.trim endOff k s xs₂.head? xs₂.head? = some (s', zs.head?) ∧
      s'.Makes (xs₁ ++ zs) (fs₁ ++ left) ∧ s'.next = s.next := by
  obtain ⟨k, rfl⟩ : ∃ k', k = k' + 1 := ⟨k - 1, by omega⟩
  induction ht generalizing s xs₂ k with
  | @behind rest hge =>
    refine ⟨s, xs₂, ?_, h, rfl⟩
    obtain ⟨-, hfrag⟩ := h.split hl
    cases xs₂ with
    | nil => rfl
    | cons x xs₂ =>
      cases rest with
      | nil => cases hfrag
      | cons fp rest =>
        have hx := (List.cons.inj hfrag).1
        rw [List.head?_cons, FragList.trim]
        simp only [hx, Option.bind_eq_bind, Option.bind_some, Option.pure_def]
        rw [if_pos (hge fp (List.mem_cons_self ..))]
  | @cut tmp rest ho he hge =>
    have htmp := hlen tmp (List.mem_cons_self ..)
    obtain ⟨hfrag₁, hfrag⟩ := h.split hl
    cases xs₂ with
    | nil => cases hfrag
    | cons x xs₂ =>
      obtain ⟨hx, hrest⟩ := List.cons.inj hfrag
      have hno := (List.nodup_cons.mp (List.perm_middle.nodup_iff.mp h.links.nodup)).1
      rw [List.mem_append, not_or] at hno
      have hpos : ¬ (tmp.advance (endOff - tmp.offset)).len ≤ 0 := by
        show ¬ tmp.len - (endOff - tmp.offset) ≤ 0
        omega
      have hrest' : xs₂.map (Function.update s.frag x (some (tmp.advance (endOff - tmp.offset)))) =
          rest.map some := by rw [map_update hno.2, hrest]
      have hmakes : (⟨s.nodes, Function.update s.frag x (some (tmp.advance (endOff - tmp.offset))),
          s.next⟩ : FragList).Makes (xs₁ ++ x :: xs₂)
            (fs₁ ++ tmp.advance (endOff - tmp.offset) :: rest) := by
        refine .of_split h.links ?_ ?_ h.lt
        · rw [map_update hno.1, hfrag₁]
        · rw [List.map_cons, hrest', Function.update_self]
          rfl
      refine ⟨_, x :: xs₂, ?_, hmakes, rfl⟩
      obtain ⟨k, rfl⟩ : ∃ k', k = k' + 1 := ⟨k - 1, by simp at hk; omega⟩
      rw [List.head?_cons, FragList.trim]
      simp only [hx, Option.bind_eq_bind, Option.bind_some, Option.pure_def,
        (h.links.node xs₁ x xs₂ rfl).2, if_neg hpos]
      rw [if_neg (by omega)]
      -- The next fragment, if there is one, starts behind the new one.
      cases xs₂ with
      | nil => rfl
      | cons y xs₂ =>
        cases rest with
        | nil => cases hrest
        | cons fp rest =>
          have hy := (List.cons.inj hrest').1
          rw [List.head?_cons, FragList.trim]
          simp only [hy, Option.bind_eq_bind, Option.bind_some, Option.pure_def]
          rw [if_pos (hge fp (List.mem_cons_self ..))]
  | @freed tmp rest left freed ho he ht ih =>
    have htmp := hlen tmp (List.mem_cons_self ..)
    obtain ⟨hfrag₁, hfrag⟩ := h.split hl
    cases xs₂ with
    | nil => cases hfrag
    | cons x xs₂ =>
      obtain ⟨hx, hrest⟩ := List.cons.inj hfrag
      have hno := (List.nodup_cons.mp (List.perm_middle.nodup_iff.mp h.links.nodup)).1
      rw [List.mem_append, not_or] at hno
      have hle : (tmp.advance (endOff - tmp.offset)).len ≤ 0 := by
        show tmp.len - (endOff - tmp.offset) ≤ 0
        omega
      have hmakes : (⟨s.nodes.remove x, Function.update s.frag x none, s.next⟩ : FragList).Makes
          (xs₁ ++ xs₂) (fs₁ ++ rest) := by
        refine .of_split h.links.remove.links ?_ ?_ fun y hy => h.lt y ?_
        · rw [map_update hno.1, hfrag₁]
        · rw [map_update hno.2, hrest]
        · exact List.mem_append.mpr ((List.mem_append.mp hy).imp_right (List.mem_cons_of_mem _))
      obtain ⟨k, rfl⟩ : ∃ k', k = k' + 1 := ⟨k - 1, by simp at hk; omega⟩
      obtain ⟨s', zs, htrim, hmakes', hnext⟩ :=
        ih (fun fp hfp => hlen fp (List.mem_cons_of_mem _ hfp)) hmakes k (by simpa using hk)
      refine ⟨s', zs, ?_, hmakes', hnext⟩
      rw [List.head?_cons, FragList.trim]
      simp only [hx, Option.bind_eq_bind, Option.bind_some, (h.links.node xs₁ x xs₂ rfl).2,
        if_pos hle]
      rw [if_neg (by omega), htrim]

theorem overlap_eq (offset : Int) (hfrag : xs.map s.frag = fs.map some) :
    s.overlap offset xs.getLast? = some (IpFrag.overlap offset fs) := by
  have hlast := congrArg List.getLast? hfrag
  rw [List.getLast?_map, List.getLast?_map] at hlast
  rw [IpFrag.overlap]
  cases hx : xs.getLast? with
  | none =>
    rw [hx] at hlast
    cases hfp : fs.getLast? with
    | none => rfl
    | some fp =>
      rw [hfp] at hlast
      cases hlast
  | some x =>
    rw [hx] at hlast
    cases hfp : fs.getLast? with
    | none =>
      rw [hfp] at hlast
      cases hlast
    | some fp =>
      rw [hfp] at hlast
      rw [overlap, Option.some.inj hlast]
      rfl

/-- The pointers are those of the list with the new fragment in its place. -/
theorem Makes.place (h : s.Makes xs fs) (hc : IpFrag.Chain fs) (offset endOff : Int) (skb : SkBuff)
    (ptr : Int) : ∃ s' xs', s.place offset endOff skb ptr = some s' ∧
      s'.Makes xs' (IpFrag.place fs offset endOff skb ptr).1 := by
  have hlen := h.length_lt
  have hlinks : s.nodes.Links ([] ++ xs) := h.links
  obtain ⟨ys, zs, rfl, hfind, hys, hzs⟩ := find_eq offset hlinks h.frag hlen
  have happ := List.takeWhile_append_dropWhile (p := (·.offset < offset)) (l := fs)
  have hnexts := hc.sublist (List.dropWhile_sublist (·.offset < offset))
  have h' : s.Makes (ys ++ zs) (fs.takeWhile (·.offset < offset) ++ fs.dropWhile (·.offset < offset)) :=
    happ.symm ▸ h
  have hl : ys.length = (fs.takeWhile (·.offset < offset)).length := by
    simpa using congrArg List.length hys
  obtain ⟨s', zs', htrim, hmakes, hnext⟩ := h'.trim (k := s.next + 1) (hnexts.trimmed endOff) hnexts.len hl
    (by rw [List.length_append] at hlen; omega)
  obtain ⟨hfrag₁, hfrag₂⟩ := hmakes.split hl
  have hx : s'.next ∉ ys ++ zs' := fun hmem => Nat.lt_irrefl _ (hmakes.lt _ hmem)
  have hx' := hx
  rw [List.mem_append, not_or] at hx'
  have hi := overlap_eq offset hys
  have hplace : (IpFrag.place fs offset endOff skb ptr).1 = fs.takeWhile (·.offset < offset) ++
      .create (offset + IpFrag.overlap offset (fs.takeWhile (·.offset < offset))) endOff skb
        (ptr + IpFrag.overlap offset (fs.takeWhile (·.offset < offset))) ::
      (IpFrag.trim endOff [] (fs.dropWhile (·.offset < offset))).1 := rfl
  generalize IpFrag.overlap offset (fs.takeWhile (·.offset < offset)) = i at hi hplace
  refine ⟨⟨s'.nodes.insert ys.getLast? zs'.head? s'.next,
    Function.update s'.frag s'.next (some (.create (offset + i) endOff skb (ptr + i))), s'.next + 1⟩,
    ys ++ s'.next :: zs', ?_, ?_⟩
  · rw [FragList.place, h.links.head]
    rw [List.getLast?_nil, List.nil_append] at hfind
    simp only [hfind, hi, htrim, Option.bind_eq_bind, Option.bind_some, Option.pure_def]
  · rw [hplace]
    refine .of_split (hmakes.links.insert hx) ?_ ?_ fun y hy => ?_
    · rw [map_update hx'.1, hfrag₁]
    · rw [List.map_cons, map_update hx'.2, hfrag₂, Function.update_self]
      rfl
    · rcases List.mem_append.mp hy with hy | hy
      · exact Nat.lt_succ_of_lt (hmakes.lt y (List.mem_append_left _ hy))
      · rcases List.mem_cons.mp hy with rfl | hy
        · exact Nat.lt_succ_self _
        · exact Nat.lt_succ_of_lt (hmakes.lt y (List.mem_append_right _ hy))

/-- The list of the fragments of a queue, after the packets for it. -/
def ofPackets (rs : List (List Byte)) : Option FragList :=
  rs.foldlM (fun s iph => if oversized iph then some s else
    s.place (fragOffset iph) (endOf iph) (.create iph) (ipHl iph * 4 : Nat)) empty

theorem ofPackets_concat (rs : List (List Byte)) (iph : List Byte) :
    ofPackets (rs ++ [iph]) = (ofPackets rs).bind fun s => if oversized iph then some s else
      s.place (fragOffset iph) (endOf iph) (.create iph) (ipHl iph * 4 : Nat) := by
  rw [ofPackets, List.foldlM_append]
  simp only [List.foldlM_cons, List.foldlM_nil, bind_pure, ofPackets, Option.bind_eq_bind]

end FragList

/-- The pointers of a queue, after the packets for it, are those of its fragments. -/
theorem FragList.exists_ofPackets (rs : List (List Byte)) :
    ∃ s xs, FragList.ofPackets rs = some s ∧ s.Makes xs (fragmentsOf rs) := by
  induction rs using List.reverseRecOn with
  | nil => exact ⟨_, [], rfl, makes_empty⟩
  | append_singleton rs iph ih =>
    obtain ⟨s, xs, hs, hmakes⟩ := ih
    rw [ofPackets_concat, fragmentsOf_concat, hs, Option.bind_some]
    split
    · exact ⟨s, xs, rfl, hmakes⟩
    · exact hmakes.place (chain_fragmentsOf rs) ..

end Noff
