import Noff.Ip.Calls

/-!
# The packets of a queue

What the packets that have come for a queue make of it: its header is that of the last one with
offset 0 (`headerOf_last`), its length the end of the last one without `IP_MF`, and its fragments are
from them (`exists_from`) and have the bytes that they have, and no others (`covered_fragmentsOf`).
-/

namespace Noff

/-- Where a packet ends in its datagram. -/
def endOf (iph : List Byte) : Int := fragOffset iph + ipLen iph - (ipHl iph * 4 : Nat)

/-- A packet that `ipDefrag` takes to be part of an oversized datagram. -/
def oversized (iph : List Byte) : Bool := ipLen iph + fragOffset iph > 65535

/-- A packet as it is saved: with a header, and nothing behind its end. -/
structure Saved (iph : List Byte) : Prop where
  header : 5 ≤ ipHl iph
  header_le : ipHl iph * 4 ≤ ipLen iph
  length : iph.length = ipLen iph

/-- The fragment is what is left of the packet. -/
structure IpFrag.From (fp : IpFrag) (iph : List Byte) : Prop where
  data : fp.skb.data = iph
  offset : fragOffset iph ≤ fp.offset
  endOff : fp.endOff = endOf iph
  ptr : fp.ptr = (ipHl iph * 4 : Nat) + (fp.offset - fragOffset iph)

/-- The packet whose header a queue has. -/
def headerOf (rs : List (List Byte)) : List Byte :=
  rs.foldl (fun header iph => if header = [] ∨ fragOffset iph = 0 then iph else header) []

/-- The length that a queue has. -/
def lenOf (rs : List (List Byte)) : Int :=
  rs.foldl (fun len iph => if oversized iph ∨ moreFragments iph then len else endOf iph) 0

/-- The fragments that a queue has. -/
def fragmentsOf (rs : List (List Byte)) : List IpFrag :=
  rs.foldl (fun fragments iph => if oversized iph then fragments else
    (IpFrag.place fragments (fragOffset iph) (endOf iph) (.create iph) (ipHl iph * 4 : Nat)).1) []

theorem headerOf_concat (rs : List (List Byte)) (iph : List Byte) : headerOf (rs ++ [iph]) =
    if headerOf rs = [] ∨ fragOffset iph = 0 then iph else headerOf rs := by
  rw [headerOf, List.foldl_append]
  rfl

theorem lenOf_concat (rs : List (List Byte)) (iph : List Byte) : lenOf (rs ++ [iph]) =
    if oversized iph ∨ moreFragments iph then lenOf rs else endOf iph := by
  rw [lenOf, List.foldl_append]
  rfl

theorem fragmentsOf_concat (rs : List (List Byte)) (iph : List Byte) : fragmentsOf (rs ++ [iph]) =
    if oversized iph then fragmentsOf rs else
      (IpFrag.place (fragmentsOf rs) (fragOffset iph) (endOf iph) (.create iph)
        (ipHl iph * 4 : Nat)).1 := by
  rw [fragmentsOf, List.foldl_append]
  rfl

variable {fp : IpFrag} {iph : List Byte} {rs : List (List Byte)}

theorem IpFrag.From.advance (h : fp.From iph) {i : Int} (hi : 0 ≤ i) : (fp.advance i).From iph := by
  have hoffset := h.offset
  have hptr := h.ptr
  refine ⟨h.data, ?_, h.endOff, ?_⟩
  · show (fragOffset iph : Int) ≤ fp.offset + i
    omega
  · show fp.ptr + i = _ + (fp.offset + i - fragOffset iph)
    omega

/-- The copy of an accepted packet. -/
theorem Saved.of_accepted {data : List Byte} (ha : IpFragment.accepted data) :
    Saved (SkBuff.create data).data := by
  obtain ⟨-, hhl, -, -, hlen⟩ := IpFragment.of_accepted ha
  refine ⟨?_, ?_, ?_⟩
  · rwa [IpFragment.ipHl_skb ha]
  · rw [IpFragment.ipHl_skb ha, IpFragment.ipLen_skb ha]
    omega
  · rw [IpFragment.ipLen_skb ha, SkBuff.create, length_bytesAt]

/-- Its copy is the same. -/
theorem Saved.data_create (h : Saved iph) : (SkBuff.create iph).data = iph := by
  rw [SkBuff.create, bytesAt_eq_take_drop (by rw [h.length, Nat.zero_add]), List.drop_zero, ← h.length,
    List.take_length]

theorem create_skb {data : List Byte} (ha : IpFragment.accepted data) :
    SkBuff.create (SkBuff.create data).data = SkBuff.create data := by
  have hdata := (Saved.of_accepted ha).data_create
  have htrue : (SkBuff.create (SkBuff.create data).data).truesize = (SkBuff.create data).truesize := by
    rw [SkBuff.create, IpFragment.ipLen_skb ha, SkBuff.create]
  calc SkBuff.create (SkBuff.create data).data
      = ⟨(SkBuff.create (SkBuff.create data).data).data,
          (SkBuff.create (SkBuff.create data).data).truesize⟩ := rfl
    _ = SkBuff.create data := by rw [hdata, htrue]

theorem Saved.ne_nil (h : Saved iph) : iph ≠ [] := by
  have hheader := h.header
  have hle := h.header_le
  have hlen := h.length
  refine List.ne_nil_of_length_pos ?_
  omega

/-- The header that a queue has is that of the last packet with offset 0. -/
theorem headerOf_last (hnil : ∀ iph ∈ rs, iph ≠ []) (h : ∃ iph ∈ rs, fragOffset iph = 0) :
    ∃ rs₁ rs₂, rs = rs₁ ++ headerOf rs :: rs₂ ∧ fragOffset (headerOf rs) = 0 ∧
      ∀ iph ∈ rs₂, fragOffset iph ≠ 0 := by
  induction rs using List.reverseRecOn with
  | nil =>
    simp at h
  | append_singleton rs iph ih =>
    rw [headerOf_concat]
    by_cases h₀ : fragOffset iph = 0
    · rw [if_pos (.inr h₀)]
      exact ⟨rs, [], rfl, h₀, nofun⟩
    · have hold : ∃ iph ∈ rs, fragOffset iph = 0 := by
        obtain ⟨x, hx, hx₀⟩ := h
        rcases List.mem_append.mp hx with hx | hx
        · exact ⟨x, hx, hx₀⟩
        · exact absurd (List.mem_singleton.mp hx ▸ hx₀) h₀
      obtain ⟨rs₁, rs₂, heq, hoff, hlast⟩ := ih (fun x hx => hnil x (List.mem_append_left _ hx)) hold
      have hmem : headerOf rs ∈ rs₁ ++ headerOf rs :: rs₂ := by simp
      rw [← heq] at hmem
      have hsome : headerOf rs ≠ [] := hnil _ (List.mem_append_left _ hmem)
      rw [if_neg (by simp [hsome, h₀])]
      refine ⟨rs₁, rs₂ ++ [iph], ?_, hoff, fun x hx => ?_⟩
      · rw [← List.cons_append, ← List.append_assoc, ← heq]
      · rcases List.mem_append.mp hx with hx | hx
        · exact hlast x hx
        · exact List.mem_singleton.mp hx ▸ h₀

theorem chain_fragmentsOf (rs : List (List Byte)) : IpFrag.Chain (fragmentsOf rs) := by
  induction rs using List.reverseRecOn with
  | nil => exact IpFrag.chain_nil
  | append_singleton rs iph ih =>
    rw [fragmentsOf_concat]
    split
    · exact ih
    · obtain ⟨prevs, left, i, hp⟩ :=
        ih.placed (fragOffset iph) (endOf iph) (.create iph) (ipHl iph * 4 : Nat)
      exact hp.chain ih (Int.natCast_nonneg _)

/-- Every fragment is from a packet. -/
theorem exists_from (hrs : ∀ iph ∈ rs, Saved iph) (hfp : fp ∈ fragmentsOf rs) :
    ∃ iph ∈ rs, oversized iph = false ∧ fp.From iph := by
  induction rs using List.reverseRecOn generalizing fp with
  | nil => cases hfp
  | append_singleton rs iph ih =>
    have hold {fp} (hfp : fp ∈ fragmentsOf rs) :
        ∃ iph' ∈ rs ++ [iph], oversized iph' = false ∧ fp.From iph' := by
      obtain ⟨iph', hmem, h⟩ := ih (fun x hx => hrs x (List.mem_append_left _ hx)) hfp
      exact ⟨iph', List.mem_append_left _ hmem, h⟩
    rw [fragmentsOf_concat] at hfp
    split at hfp
    · exact hold hfp
    · rename_i ho
      obtain ⟨prevs, left, i, hp⟩ := (chain_fragmentsOf rs).placed (fragOffset iph) (endOf iph)
        (.create iph) (ipHl iph * 4 : Nat)
      have hi := hp.nonneg
      rcases hp.exists_of_mem hfp with rfl | ⟨fp₀, hfp₀, j, hj, rfl⟩
      · refine ⟨iph, by simp, by simpa using ho, (hrs iph (by simp)).data_create, ?_, rfl, ?_⟩
        · show (fragOffset iph : Int) ≤ fragOffset iph + i
          omega
        · show ((ipHl iph * 4 : Nat) : Int) + i = _ + (fragOffset iph + i - fragOffset iph)
          omega
      · obtain ⟨iph', hmem, ho', hfrom⟩ := hold hfp₀
        exact ⟨iph', hmem, ho', hfrom.advance hj⟩

/-- The length has been reached by a fragment. -/
theorem exists_reached (h : lenOf rs ≠ 0) : ∃ fp ∈ fragmentsOf rs, lenOf rs ≤ fp.endOff := by
  induction rs using List.reverseRecOn with
  | nil => exact absurd rfl h
  | append_singleton rs iph ih =>
    rw [lenOf_concat] at h ⊢
    rw [fragmentsOf_concat]
    obtain ⟨prevs, left, i, hp⟩ := (chain_fragmentsOf rs).placed (fragOffset iph) (endOf iph)
      (.create iph) (ipHl iph * 4 : Nat)
    by_cases ho : oversized iph
    · have hkeep : oversized iph ∨ moreFragments iph := .inl ho
      rw [if_pos hkeep] at h ⊢
      rw [if_pos ho]
      exact ih h
    · rw [if_neg ho]
      by_cases hmore : moreFragments iph
      · have hkeep : oversized iph ∨ moreFragments iph := .inr hmore
        rw [if_pos hkeep] at h ⊢
        obtain ⟨fp, hfp, hle⟩ := ih h
        obtain ⟨fp', hfp', hle'⟩ := hp.exists_le_end hfp
        exact ⟨fp', hfp', hle.trans hle'⟩
      · rw [if_neg (by simp [ho, hmore])]
        exact ⟨_, hp.mem_new, le_rfl⟩

/-- A position is in a fragment if and only if it is in a packet. -/
theorem covered_fragmentsOf (rs : List (List Byte)) (p : Int) :
    (∃ fp ∈ fragmentsOf rs, fp.offset ≤ p ∧ p < fp.endOff) ↔
      ∃ iph ∈ rs, oversized iph = false ∧ fragOffset iph ≤ p ∧ p < endOf iph := by
  induction rs using List.reverseRecOn with
  | nil => simp [fragmentsOf]
  | append_singleton rs iph ih =>
    rw [fragmentsOf_concat]
    by_cases ho : oversized iph
    · rw [if_pos ho, ih]
      simp [or_and_right, exists_or, ho]
    · obtain ⟨prevs, left, i, hp⟩ := (chain_fragmentsOf rs).placed (fragOffset iph) (endOf iph)
        (.create iph) (ipHl iph * 4 : Nat)
      rw [if_neg ho, hp.covered, ih]
      simp [or_and_right, exists_or, ho]

end Noff
