import Noff.Ip.Stored

/-!
# The copies that the defragmenter makes

Each `memmove` and `memcpy` of a call, with the buffers that it reads and writes. All of them stay in
their buffers but the one that saves a header with the eight bytes behind it, which
needs a packet that has these (`copies_inBounds`).
-/

namespace Noff

/-- A copy of `n` bytes, from position `src` of a buffer to position `dst` of another one. -/
structure Copy where
  src : Int
  srcLen : Int
  dst : Int
  dstLen : Int
  n : Int

structure Copy.InBounds (c : Copy) : Prop where
  n : 0 ≤ c.n
  src : 0 ≤ c.src ∧ c.src + c.n ≤ c.srcLen
  dst : 0 ≤ c.dst ∧ c.dst + c.n ≤ c.dstLen

/-- A fragment is saved in `ipDefragStub`. -/
def saveCopy (data : List Byte) : Copy := ⟨0, data.length, 0, ipLen data, ipLen data⟩

/-- The header of a fragment is saved, in `ipCreate` or `ipDefrag`. -/
def headerCopy (iph : List Byte) : Copy :=
  ⟨0, iph.length, 0, sizeofIph, (ipHl iph * 4 + 8 : Nat)⟩

/-- The loop of `ipGlue` over the fragments. -/
def fragmentCopies (ihlen : Nat) (len : Int) : List IpFrag → List Copy
  | [] => []
  | fp :: rest =>
    if fp.len < 0 ∨ fp.offset + ihlen + fp.len > len then []
    else
      ⟨fp.ptr, fp.skb.data.length, ihlen + fp.offset, len, fp.len⟩ :: fragmentCopies ihlen len rest

/-- The copies in `ipGlue`. -/
def Ipq.glueCopies (qp : Ipq) : List Copy :=
  let len := qp.ihlen + qp.len
  if len > 65535 then []
  else ⟨0, sizeofIph, 0, len, qp.ihlen⟩ :: fragmentCopies qp.ihlen len qp.fragments

/-- The copies in `ipDefrag`, with the queue that it finds for the fragment. -/
def fragCopies (found : Option Ipq) (iph : List Byte) (skb : SkBuff) : List Copy :=
  let qp := found.elim (.create iph 0 0) (·.remember iph)
  (if found.isNone ∨ fragOffset iph = 0 then [headerCopy iph] else []) ++
    if oversized iph then []
    else if (qp.add iph skb).1.done then (qp.add iph skb).1.glueCopies else []

/-- The copies in `ipDefragStub`. -/
def IpFragment.copies (clock : Nat → Int) (s : IpFragment) (data : List Byte) : List Copy :=
  match s.expire clock with
  | none => []
  | some (s, _) =>
    if isWhole data then []
    else
      let skb := SkBuff.create data
      saveCopy data :: fragCopies (s.foundQueue skb.data) skb.data skb

/-- The packet has the bytes that are saved with a header, if it is one whose header is saved. -/
def IpFragment.headerFits (clock : Nat → Int) (s : IpFragment) (data : List Byte) : Prop :=
  isWhole data = false → ipHl data * 4 + 8 ≤ ipLen data ∨
    fragOffset data ≠ 0 ∧ ∃ s₁ es qp, s.expire clock = some (s₁, es) ∧
      s₁.foundQueue (SkBuff.create data).data = some qp

variable {fp : IpFrag} {fragments : List IpFrag} {rs : List (List Byte)} {qp : Ipq} {iph : List Byte}
  {ihlen : Nat} {len : Int} {found : Option Ipq} {skb : SkBuff}

/-- What is left of a packet is in its buffer. -/
theorem IpFrag.From.inBounds (h : fp.From iph) (hiph : Saved iph) (hlen : fp.len = fp.endOff - fp.offset) :
    0 ≤ fp.ptr ∧ fp.ptr + fp.len = fp.skb.data.length := by
  have hoff := h.offset
  have hptr := h.ptr
  have hend := h.endOff
  have hle := hiph.header_le
  rw [endOf] at hend
  rw [h.data, hiph.length]
  omega

theorem fragmentCopies_inBounds (hc : IpFrag.Chain fragments)
    (hfrom : ∀ fp ∈ fragments, ∃ iph, Saved iph ∧ fp.From iph) :
    ∀ c ∈ fragmentCopies ihlen len fragments, c.InBounds := by
  induction fragments with
  | nil => exact nofun
  | cons fp rest ih =>
    have hlen := hc.len fp (List.mem_cons_self ..)
    have hoff := hc.nonneg fp (List.mem_cons_self ..)
    obtain ⟨iph, hiph, hf⟩ := hfrom fp (List.mem_cons_self ..)
    obtain ⟨hptr, hend⟩ := hf.inBounds hiph hlen
    rw [fragmentCopies]
    split
    · exact nofun
    · intro c hmem
      rcases List.mem_cons.mp hmem with rfl | hmem
      · refine ⟨?_, ⟨hptr, hend.le⟩, ?_, ?_⟩ <;> dsimp only <;> omega
      · exact ih hc.tail (fun x hx => hfrom x (List.mem_cons_of_mem _ hx)) c hmem

theorem lenOf_nonneg (hrs : ∀ iph ∈ rs, Saved iph) : 0 ≤ lenOf rs := by
  induction rs using List.reverseRecOn with
  | nil => exact le_rfl
  | append_singleton rs iph ih =>
    rw [lenOf_concat]
    split
    · exact ih fun x hx => hrs x (List.mem_append_left _ hx)
    · have := (hrs iph (by simp)).header_le
      rw [endOf]
      omega

theorem Ipq.Of.glueCopies_inBounds (h : qp.Of rs rs) : ∀ c ∈ qp.glueCopies, c.InBounds := by
  have hihlen := h.ihlen
  have hhl := ipHl_lt (headerOf rs)
  have hpos := lenOf_nonneg h.saved
  rw [← h.len] at hpos
  rw [glueCopies]
  split
  · exact nofun
  · intro c hmem
    rcases List.mem_cons.mp hmem with rfl | hmem
    · refine ⟨?_, ?_, ?_⟩ <;> simp only [sizeofIph] <;> omega
    · refine fragmentCopies_inBounds h.chain (fun fp hfp => ?_) c hmem
      obtain ⟨iph, hiph, -, hf⟩ := h.exists_from hfp
      exact ⟨iph, h.saved iph hiph, hf⟩

theorem Saved.headerCopy_inBounds (h : Saved iph) :
    (headerCopy iph).InBounds ↔ ipHl iph * 4 + 8 ≤ ipLen iph := by
  have hhl := ipHl_lt iph
  have hlen := h.length
  constructor
  · intro hc
    have hsrc : (0 : Int) + (ipHl iph * 4 + 8 : Nat) ≤ iph.length := hc.src.2
    omega
  · intro hle
    refine ⟨?_, ?_, ?_⟩ <;> simp only [headerCopy, sizeofIph] <;> omega

/-- The copies for a fragment, with a queue that is what its packets make of it. -/
theorem Saved.fragCopies_inBounds (hiph : Saved iph) (hskb : skb = .create iph)
    (hfound : ∀ qp, found = some qp → ipKey qp.iph = ipKey iph ∧ ∃ rs, qp.Of rs rs) :
    (∀ c ∈ fragCopies found iph skb, c.InBounds) ↔
      (found.isNone ∨ fragOffset iph = 0 → ipHl iph * 4 + 8 ≤ ipLen iph) := by
  have hof : ∃ hs rs, hs = rs ++ [iph] ∧
      (found.elim (Ipq.create iph 0 0) (·.remember iph)).Of hs rs := by
    cases found with
    | none => exact ⟨[iph], [], rfl, Ipq.Of.create hiph 0⟩
    | some qp =>
      obtain ⟨hk, rs, h⟩ := hfound qp rfl
      exact ⟨_, rs, rfl, h.remember hiph hk⟩
  obtain ⟨hs, rs, rfl, h⟩ := hof
  have hglue : oversized iph = false → ∀ c ∈ ((found.elim (Ipq.create iph 0 0)
      (·.remember iph)).add iph skb).1.glueCopies, c.InBounds := fun ho =>
    (h.add (by simp) (by simp [ho]) hskb).glueCopies_inBounds
  rw [fragCopies]
  constructor
  · intro hall hcond
    rw [if_pos hcond] at hall
    exact hiph.headerCopy_inBounds.mp (hall _ (by simp))
  · intro hcond c hmem
    rcases List.mem_append.mp hmem with hmem | hmem
    · split at hmem
      · rename_i hc
        rw [List.mem_singleton.mp hmem]
        exact hiph.headerCopy_inBounds.mpr (hcond hc)
      · cases hmem
    · split at hmem
      · cases hmem
      · rename_i ho
        split at hmem
        · exact hglue (by simpa using ho) c hmem
        · cases hmem

namespace IpFragment

variable {s : IpFragment} {l : List QueuePtr} {es : List IpEvent}

/-- The queue that is found is one of the table, and the one of the key. -/
theorem Inv.of_foundQueue (hi : s.Inv l) (hq : s.foundQueue iph = some qp) :
    ipKey qp.iph = ipKey iph ∧ ∃ q, s.queues q = some qp := by
  obtain ⟨s₁, qs, he, hp, -, -⟩ := hi.exists_evict iph true
  simp only [and_true] at he
  rw [foundQueue] at hq
  simp only [he, Option.bind_eq_bind, Option.bind_some] at hq
  rcases hp.table.findQueue hp.found with ⟨hfind, -⟩ | ⟨q, qp', hfind, hq', -, hk⟩
  · rw [hfind] at hq
    cases hq
  · rw [hfind] at hq
    obtain rfl : qp' = qp := Option.some.inj (hq'.symm.trans hq)
    refine ⟨hk, q, ?_⟩
    rw [hp.queues] at hq'
    split at hq'
    · cases hq'
    · exact hq'

/-- Whatever has come before, all copies for a packet are within their buffers if and only if it
has the bytes that are saved with its header, in case its header is saved. -/
theorem copies_inBounds (clock : Nat → Int) (n : ℕ+) (ds : List (List Byte)) :
    ∃ s es, runIp clock n ds = some (s, es) ∧ ∀ data, accepted data →
      ((∀ c ∈ copies clock s data, c.InBounds) ↔ headerFits clock s data) := by
  obtain ⟨s, es, hr, l, hi⟩ := runIp_total clock n ds
  refine ⟨s, es, hr, fun data ha => ?_⟩
  obtain ⟨s₁, es₁, l₁, he, hx, hi₁, -⟩ := hi.exists_expire clock
  have hholds := hx.holds hi (runIp_received hr).1
  have hsaved := Saved.of_accepted ha
  have hsave : (saveCopy data).InBounds := by
    obtain ⟨-, -, -, hlen, -⟩ := of_accepted ha
    refine ⟨?_, ?_, ?_⟩ <;> simp only [saveCopy] <;> omega
  rw [copies, he, headerFits]
  dsimp only
  by_cases hw : isWhole data
  · rw [if_pos hw]
    simp [hw]
  · rw [if_neg hw]
    have hfound : ∀ qp, s₁.foundQueue (SkBuff.create data).data = some qp →
        ipKey qp.iph = ipKey (SkBuff.create data).data ∧ ∃ rs, qp.Of rs rs := fun qp hq => by
      obtain ⟨hk, q, hq⟩ := hi₁.of_foundQueue hq
      exact ⟨hk, _, hholds.queues q qp hq⟩
    have hcopies := hsaved.fragCopies_inBounds (create_skb ha).symm hfound
    rw [ipHl_skb ha, ipLen_skb ha, fragOffset_skb ha] at hcopies
    rw [List.forall_mem_cons, and_iff_right hsave, hcopies]
    rw [Bool.not_eq_true] at hw
    constructor
    · intro h _
      cases hq : s₁.foundQueue (SkBuff.create data).data with
      | none => exact .inl (h (.inl (by rw [hq]; rfl)))
      | some qp =>
        by_cases h₀ : fragOffset data = 0
        · exact .inl (h (.inr h₀))
        · exact .inr ⟨h₀, s₁, es₁, qp, he, hq⟩
    · intro h hcond
      rcases h hw with hle | ⟨h₀, s₂, es₂, qp, heq, hq⟩
      · exact hle
      · obtain ⟨rfl, rfl⟩ := Prod.mk.injEq .. ▸ Option.some.inj (he.symm.trans heq)
        rcases hcond with hnone | hzero
        · rw [hq] at hnone
          cases hnone
        · exact absurd hzero h₀

/-- A last fragment with fewer than eight bytes, that comes before the others: its header is
saved with bytes that it does not have. -/
theorem headerCopy_outOfBounds : accepted (piece 0 1 4) ∧
    ¬ ∀ c ∈ copies (fun _ => 1000) (create 1) (piece 0 1 4), c.InBounds := by
  refine ⟨by decide, fun h => ?_⟩
  have hmem : headerCopy (SkBuff.create (piece 0 1 4)).data ∈
      copies (fun _ => 1000) (create 1) (piece 0 1 4) := List.mem_cons_of_mem _ (List.mem_cons_self ..)
  have hsrc := (h _ hmem).src.2
  exact absurd hsrc (by decide)

end IpFragment

end Noff
