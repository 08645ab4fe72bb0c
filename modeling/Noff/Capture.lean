import Noff.Dispatcher
import Noff.Lib.Reading

/-!
# `Capture.cc`

`onPacket` skips the link header of a captured frame and calls `onIpFragment` with what is behind
it. How much it skips is a member variable, which a frame with a VLAN tag sets to 18 and
nothing sets back (`linkOffset_after`). So a frame without a tag is taken apart as a
new `Capture` would do it exactly if no frame with a tag came before it (`memoryless_iff`).
-/

namespace Noff.Pcap

open Reading

/-- A captured frame, of `caplen` bytes. -/
structure Frame where
  data : List Byte
  caplen_lt : data.length < 2 ^ 32

def Frame.caplen (f : Frame) : BitVec 32 := BitVec.ofNat 32 f.data.length

/-- The link types that `initLinkType` supports. -/
inductive LinkType where
  | en10mb | linuxSll
  deriving DecidableEq

abbrev DLT_EN10MB : Int := 1

abbrev DLT_LINUX_SLL : Int := 113

structure Capture where
  linkType : LinkType
  linkOffset : BitVec 32

/-- A `Capture` that has been opened on a link of this type. -/
def Capture.opened : LinkType → Capture
  | .en10mb => ⟨.en10mb, 14⟩
  | .linuxSll => ⟨.linuxSll, 16⟩

/-- `initLinkType`, for the result of `pcap_datalink`; it exits for any other type. -/
def initLinkType (datalink : Int) : Option Capture :=
  if datalink = DLT_EN10MB then some (.opened .en10mb)
  else if datalink = DLT_LINUX_SLL then some (.opened .linuxSll)
  else none

/-- What the callbacks are called with: the position of the packet in the frame, and `len`. -/
structure Passed where
  start : Nat
  len : Int
  deriving DecidableEq

namespace Capture

def pass (c : Capture) (f : Frame) : Passed :=
  ⟨c.linkOffset.toNat, (f.caplen - c.linkOffset).toInt⟩

/-- `onPacket`: the state behind it, and what the callbacks are called with. -/
def onPacket (c : Capture) (f : Frame) : Reading (Capture × Option Passed) := do
  if f.caplen ≤ c.linkOffset then return (c, none)
  match c.linkType with
  | .en10mb =>
    let ethertype ← field 12 2 (be16 f.data 12)
    if ethertype = 0x8100 then
      let c := { c with linkOffset := 18 }
      return (c, some (c.pass f))
    else if ethertype ≠ 0x0800 then return (c, none)
    else return (c, some (c.pass f))
  | .linuxSll =>
    let protocol ← field 14 2 (be16 f.data 14)
    if protocol ≠ 0x0800 then return (c, none)
    else return (c, some (c.pass f))

/-- The state after the frames `fs`. -/
def after (c : Capture) (fs : List Frame) : Capture := fs.foldl (fun c f => (c.onPacket f).value.1) c

/-- What is extracted of the frame `f`, after the frames `fs`. -/
def extracted (c : Capture) (fs : List Frame) (f : Frame) : Option Passed :=
  ((c.after fs).onPacket f).value.2

end Capture

/-! ## One frame -/

namespace Frame

variable (f : Frame)

/-- The frame has a VLAN tag. -/
def Tagged : Prop := be16 f.data 12 = 0x8100

/-- The frame is one of IPv4, without a tag. -/
def Plain : Prop := be16 f.data 12 = 0x0800

instance : Decidable f.Tagged := inferInstanceAs (Decidable (_ = _))

instance : Decidable f.Plain := inferInstanceAs (Decidable (_ = _))

variable {f}

theorem Tagged.not_plain (h : f.Tagged) : ¬ f.Plain := fun hp => by
  rw [Tagged, hp] at h
  exact absurd h (by decide)

theorem toNat_caplen (f : Frame) : f.caplen.toNat = f.data.length := by
  rw [caplen, BitVec.toNat_ofNat]
  exact Nat.mod_eq_of_lt f.caplen_lt

theorem caplen_le_iff (f : Frame) (x : BitVec 32) : f.caplen ≤ x ↔ f.data.length ≤ x.toNat := by
  rw [BitVec.le_def, toNat_caplen]

end Frame

namespace Capture

variable {c : Capture} {f : Frame} {o : BitVec 32}

/-- A frame that is too short leaves everything as it is. -/
theorem onPacket_short (h : f.data.length ≤ c.linkOffset.toNat) :
    c.onPacket f = pure (c, none) := by
  rw [onPacket, if_pos ((f.caplen_le_iff _).mpr h)]

theorem value_onPacket_tagged (h : o.toNat < f.data.length) (ht : f.Tagged) :
    ((⟨.en10mb, o⟩ : Capture).onPacket f).value =
      (⟨.en10mb, 18⟩, some ((⟨.en10mb, 18⟩ : Capture).pass f)) := by
  rw [onPacket, if_neg (by rw [f.caplen_le_iff]; exact Nat.not_le.mpr h)]
  exact congrArg value (if_pos ht)

theorem value_onPacket_plain (h : o.toNat < f.data.length) (hp : f.Plain) :
    ((⟨.en10mb, o⟩ : Capture).onPacket f).value =
      (⟨.en10mb, o⟩, some ((⟨.en10mb, o⟩ : Capture).pass f)) := by
  have ht : ¬ f.Tagged := fun ht => ht.not_plain hp
  rw [onPacket, if_neg (by rw [f.caplen_le_iff]; exact Nat.not_le.mpr h)]
  exact (congrArg value (if_neg ht)).trans (congrArg value (if_neg (not_not_intro hp)))

theorem value_onPacket_other (ht : ¬ f.Tagged) (hp : ¬ f.Plain) :
    ((⟨.en10mb, o⟩ : Capture).onPacket f).value = (⟨.en10mb, o⟩, none) := by
  rcases Nat.lt_or_ge o.toNat f.data.length with h | h
  · rw [onPacket, if_neg (by rw [f.caplen_le_iff]; exact Nat.not_le.mpr h)]
    exact (congrArg value (if_neg ht)).trans (congrArg value (if_pos hp))
  · exact congrArg value (onPacket_short (c := ⟨.en10mb, o⟩) h)

theorem value_onPacket_sll (h : 16 < f.data.length) (hp : be16 f.data 14 = 0x0800) :
    ((opened .linuxSll).onPacket f).value =
      (opened .linuxSll, some ((opened .linuxSll).pass f)) := by
  rw [onPacket, if_neg (by rw [f.caplen_le_iff]; exact Nat.not_le.mpr h)]
  exact congrArg value (if_neg (not_not_intro hp))

theorem value_onPacket_sll_other (h : ¬ (16 < f.data.length ∧ be16 f.data 14 = 0x0800)) :
    ((opened .linuxSll).onPacket f).value = (opened .linuxSll, none) := by
  rcases Nat.lt_or_ge 16 f.data.length with hlt | hle
  · rw [onPacket, if_neg (by rw [f.caplen_le_iff]; exact Nat.not_le.mpr hlt)]
    have hp : be16 f.data 14 ≠ 0x0800 := fun hp => h ⟨hlt, hp⟩
    exact congrArg value (if_pos hp)
  · exact congrArg value (onPacket_short hle)

end Capture

/-! ## Frames one after the other -/

/-- A frame with a tag has come, one that is not too short to be looked at. -/
def tagSeen (fs : List Frame) : Bool := fs.any fun f => f.Tagged ∧ 14 < f.data.length

/-- `linkOffset_`, after the frames `fs`. -/
def offsetAfter (fs : List Frame) : Nat := if tagSeen fs then 18 else 14

theorem tagSeen_concat (fs : List Frame) (f : Frame) :
    tagSeen (fs ++ [f]) = (tagSeen fs || decide (f.Tagged ∧ 14 < f.data.length)) := by
  rw [tagSeen, List.any_append, List.any_cons, List.any_nil, Bool.or_false, tagSeen]

theorem offsetAfter_concat (fs : List Frame) (f : Frame) : offsetAfter (fs ++ [f]) =
    if f.Tagged ∧ 14 < f.data.length then 18 else offsetAfter fs := by
  rw [offsetAfter, offsetAfter, tagSeen_concat]
  by_cases h : f.Tagged ∧ 14 < f.data.length <;> simp [h]

theorem offsetAfter_eq (fs : List Frame) : offsetAfter fs = 14 ∨ offsetAfter fs = 18 := by
  rw [offsetAfter]
  split
  · exact .inr rfl
  · exact .inl rfl

theorem toNat_offsetAfter (fs : List Frame) :
    (BitVec.ofNat 32 (offsetAfter fs)).toNat = offsetAfter fs := by
  rcases offsetAfter_eq fs with h | h <;> rw [h] <;> rfl

/-- The order of the frames does not matter. -/
theorem offsetAfter_perm {fs fs' : List Frame} (h : fs.Perm fs') : offsetAfter fs = offsetAfter fs' := by
  rw [offsetAfter, offsetAfter, tagSeen, tagSeen, h.any_eq]

namespace Capture

/-- Nothing sets the offset back. -/
theorem linkOffset_after (fs : List Frame) :
    (opened .en10mb).after fs = ⟨.en10mb, BitVec.ofNat 32 (offsetAfter fs)⟩ := by
  induction fs using List.reverseRecOn with
  | nil => rfl
  | append_singleton fs f ih =>
    have hstep : (opened .en10mb).after (fs ++ [f]) =
        (((⟨.en10mb, BitVec.ofNat 32 (offsetAfter fs)⟩ : Capture).onPacket f).value).1 := by
      rw [after, List.foldl_concat, ← after, ih]
    have hnat := toNat_offsetAfter fs
    have hoff := offsetAfter_eq fs
    rw [hstep, offsetAfter_concat]
    by_cases ht : f.Tagged
    · rcases Nat.lt_or_ge (offsetAfter fs) f.data.length with hlen | hlen
      · rw [value_onPacket_tagged (by rw [hnat]; exact hlen) ht, if_pos ⟨ht, by omega⟩]
        rfl
      · rw [onPacket_short (by rw [hnat]; exact hlen)]
        show (⟨.en10mb, BitVec.ofNat 32 (offsetAfter fs)⟩ : Capture) = _
        split
        · rw [show offsetAfter fs = 18 by omega]
        · rfl
    · rw [if_neg fun h => ht h.1]
      by_cases hp : f.Plain
      · rcases Nat.lt_or_ge (offsetAfter fs) f.data.length with hlen | hlen
        · rw [value_onPacket_plain (by rw [hnat]; exact hlen) hp]
        · rw [onPacket_short (by rw [hnat]; exact hlen)]
          rfl
      · rw [value_onPacket_other ht hp]

/-- On the other link type, it stays. -/
theorem after_linuxSll (fs : List Frame) : (opened .linuxSll).after fs = opened .linuxSll := by
  induction fs using List.reverseRecOn with
  | nil => rfl
  | append_singleton fs f ih =>
    have hstep : (opened .linuxSll).after (fs ++ [f]) = ((opened .linuxSll).onPacket f).value.1 := by
      rw [after, List.foldl_concat, ← after, ih]
    rw [hstep]
    by_cases h : 16 < f.data.length ∧ be16 f.data 14 = 0x0800
    · rw [value_onPacket_sll h.1 h.2]
    · rw [value_onPacket_sll_other h]

/-- What is passed on of a frame where `o` bytes of it are skipped. -/
def passedAt (o : Nat) (f : Frame) : Passed := ⟨o, (f.caplen - BitVec.ofNat 32 o).toInt⟩

variable {fs : List Frame} {f : Frame}

theorem extracted_short (h : f.data.length ≤ offsetAfter fs) :
    (opened .en10mb).extracted fs f = none := by
  rw [extracted, linkOffset_after, onPacket_short (by rw [toNat_offsetAfter]; exact h)]
  rfl

theorem extracted_tagged (ht : f.Tagged) (h : offsetAfter fs < f.data.length) :
    (opened .en10mb).extracted fs f = some (passedAt 18 f) := by
  rw [extracted, linkOffset_after, value_onPacket_tagged (by rw [toNat_offsetAfter]; exact h) ht]
  rfl

theorem extracted_plain (hp : f.Plain) (h : offsetAfter fs < f.data.length) :
    (opened .en10mb).extracted fs f = some (passedAt (offsetAfter fs) f) := by
  rw [extracted, linkOffset_after, value_onPacket_plain (by rw [toNat_offsetAfter]; exact h) hp,
    pass, passedAt, toNat_offsetAfter]

theorem extracted_other (ht : ¬ f.Tagged) (hp : ¬ f.Plain) :
    (opened .en10mb).extracted fs f = none := by
  rw [extracted, linkOffset_after, value_onPacket_other ht hp]

/-- Earlier frames may be reordered. -/
theorem extracted_perm {fs' : List Frame} (h : fs.Perm fs') (f : Frame) :
    (opened .en10mb).extracted fs f = (opened .en10mb).extracted fs' f := by
  rw [extracted, extracted, linkOffset_after, linkOffset_after, offsetAfter_perm h]

/-! ## What depends on the frames before -/

/-- What is extracted of `f` after the frames `fs` is what would be of `f` alone, behind 14 bytes of a
frame without a tag and behind 18 bytes of one with a tag. -/
structure Alone (fs : List Frame) (f : Frame) : Prop where
  eq : (opened .en10mb).extracted fs f = (opened .en10mb).extracted [] f
  plain : f.Plain → ∀ p, (opened .en10mb).extracted fs f = some p → p.start = 14
  tagged : f.Tagged → ∀ p, (opened .en10mb).extracted fs f = some p → p.start = 18

theorem alone_of_not_seen (h : tagSeen fs = false) (f : Frame) : Alone fs f := by
  have hoff : offsetAfter fs = 14 := if_neg (by rw [h]; decide)
  have hnil : offsetAfter [] = 14 := rfl
  refine ⟨?_, fun hp p he => ?_, fun ht p he => ?_⟩
  · rw [extracted, extracted, linkOffset_after, linkOffset_after, hoff, hnil]
  · rcases Nat.lt_or_ge 14 f.data.length with hlt | hle
    · obtain rfl := Option.some.inj ((extracted_plain hp (hoff ▸ hlt)).symm.trans he)
      exact hoff
    · rw [extracted_short (hoff ▸ hle)] at he
      cases he
  · rcases Nat.lt_or_ge 14 f.data.length with hlt | hle
    · obtain rfl := Option.some.inj ((extracted_tagged ht (hoff ▸ hlt)).symm.trans he)
      rfl
    · rw [extracted_short (hoff ▸ hle)] at he
      cases he

theorem alone_iff_of_seen (h : tagSeen fs) : Alone fs f ↔
    ¬ (f.Plain ∧ 14 < f.data.length) ∧ ¬ (f.Tagged ∧ 14 < f.data.length ∧ f.data.length ≤ 18) := by
  have hoff : offsetAfter fs = 18 := if_pos h
  constructor
  · intro ha
    refine ⟨fun ⟨hp, hlen⟩ => ?_, fun ⟨ht, hlo, hhi⟩ => ?_⟩
    · rcases Nat.lt_or_ge 18 f.data.length with hlt | hle
      · have hstart : offsetAfter fs = 14 := ha.plain hp _ (extracted_plain hp (hoff ▸ hlt))
        omega
      · have hnil : offsetAfter [] < f.data.length := hlen
        have heq := ha.eq
        rw [extracted_plain hp hnil, extracted_short (hoff ▸ hle)] at heq
        cases heq
    · have hnil : offsetAfter [] < f.data.length := hlo
      have heq := ha.eq
      rw [extracted_tagged ht hnil, extracted_short (hoff ▸ hhi)] at heq
      cases heq
  · rintro ⟨hplain, htagged⟩
    have hsome {p : Passed} (he : (opened .en10mb).extracted fs f = some p) : 18 < f.data.length :=
      Nat.not_le.mp fun hle => by
        rw [extracted_short (hoff ▸ hle)] at he
        cases he
    refine ⟨?_, fun hp p he => absurd ⟨hp, by have := hsome he; omega⟩ hplain, fun ht p he => ?_⟩
    · by_cases hshort : f.data.length ≤ 14
      · rw [extracted_short (by omega), extracted_short hshort]
      · have hp : ¬ f.Plain := fun hp => hplain ⟨hp, by omega⟩
        by_cases ht : f.Tagged
        · have hlen : 18 < f.data.length := Nat.not_le.mp fun hle => htagged ⟨ht, by omega, hle⟩
          have hnil : offsetAfter [] < f.data.length := Nat.lt_trans (by decide) hlen
          rw [extracted_tagged ht (hoff ▸ hlen), extracted_tagged ht hnil]
        · rw [extracted_other ht hp, extracted_other ht hp]
    · obtain rfl := Option.some.inj ((extracted_tagged ht (hoff ▸ hsome he)).symm.trans he)
      rfl

/-- The property holds of each of the frames. -/
def Memoryless (fs : List Frame) : Prop := ∀ fs₁ f fs₂, fs = fs₁ ++ f :: fs₂ → Alone fs₁ f

/-- Frames on Ethernet are taken apart each by itself exactly if no frame with a tag, of more than 14
bytes, comes before an IPv4 frame without one, nor before a frame that ends with its tag. -/
theorem memoryless_iff (fs : List Frame) : Memoryless fs ↔
    ∀ fs₁ f fs₂, fs = fs₁ ++ f :: fs₂ → tagSeen fs₁ →
      ¬ (f.Plain ∧ 14 < f.data.length) ∧ ¬ (f.Tagged ∧ 14 < f.data.length ∧ f.data.length ≤ 18) := by
  constructor
  · exact fun h fs₁ f fs₂ he hs => (alone_iff_of_seen hs).mp (h fs₁ f fs₂ he)
  · intro h fs₁ f fs₂ he
    cases hs : tagSeen fs₁ with
    | false => exact alone_of_not_seen hs f
    | true => exact (alone_iff_of_seen hs).mpr (h fs₁ f fs₂ he hs)

/-- A frame of twenty bytes behind the link header, with a tag or without. -/
def twentyBytes (tagged : Bool) : Frame where
  data := List.replicate 12 0 ++ (if tagged then [0x81, 0, 0, 1] else []) ++ [0x08, 0] ++
    [0x45, 0, 0, 20, 0, 0, 0, 0, 64, 1, 0, 0, 10, 0, 0, 1, 10, 0, 0, 2]
  caplen_lt := by cases tagged <;> decide

/-- A frame without a tag behind one with a tag: the first four bytes of its IP header are
skipped too. -/
theorem not_memoryless_tagged :
    (opened .en10mb).extracted [] (twentyBytes false) = some ⟨14, 20⟩ ∧
    (opened .en10mb).extracted [twentyBytes true] (twentyBytes false) = some ⟨18, 16⟩ ∧
    ¬ Memoryless [twentyBytes true, twentyBytes false] := by
  refine ⟨by decide, by decide, fun h => ?_⟩
  have hstart := (h [twentyBytes true] (twentyBytes false) [] rfl).plain (by decide) ⟨18, 16⟩ (by decide)
  exact absurd hstart (by decide)

end Capture

end Noff.Pcap
