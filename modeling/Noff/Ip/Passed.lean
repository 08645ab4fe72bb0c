import Noff.Ip.Glue

/-!
# What is handed on

`genIpProc` is given each whole datagram that `startIpfragProc` accepts and each
one that is put together from fragments, with a length made for it. These
datagrams have a header that is at least 20 bytes long and no longer than
`ip_len`, and `ip_len` bytes (`runHanded_wellFormed`).
-/

namespace Noff

/-- A datagram that is handed on, with what is given as its length and as its time. -/
structure Handed (τ : Type) where
  iph : List Byte
  skblen : Nat
  timeStamp : τ

/-- Its header and its length are such as `startIpfragProc` accepts. -/
structure Handed.WellFormed {τ : Type} (h : Handed τ) : Prop where
  header : 5 ≤ ipHl h.iph
  header_le : 4 * ipHl h.iph ≤ ipLen h.iph
  length : ipLen h.iph ≤ h.iph.length
  skblen : ∃ needFree, h.skblen = IpFragment.skblenOf h.iph needFree

/-- A datagram that is put together again has the header of one of its fragments. -/
theorem Reassembled.header_eq {rs : List (List Byte)} {hdr : List Byte} {k : Nat} {buf : Glued}
    (h : Reassembled rs hdr k buf) (hhl : 5 ≤ ipHl hdr) : ipHl (buf.map (·.getD 0)) = ipHl hdr := by
  have hb : byteAt (buf.map (·.getD 0)) 0 = byteAt hdr 0 :=
    Glued.byteAt_map (h.header 0 (by omega) (by decide))
  rw [ipHl, hb, ipHl]

namespace IpFragment

variable {τ : Type} {clock : Nat → Int} {n : ℕ+} {s : IpFragment} {es : List IpEvent}
  {xs : List (List Byte × τ)} {hs : List (Handed τ)}

/-- What `startIpfragProc` hands on of the captured packet `x`. -/
def handedOn (x : List Byte × τ) (es : List IpEvent) : List (Handed τ) :=
  es.filterMap fun e => (passed x.1 e).map fun (iph, skblen) => ⟨iph, skblen, x.2⟩

/-- `startIpfragProc`, with what it hands on. -/
def handOn (clock : Nat → Int) (s : IpFragment) (x : List Byte × τ) :
    Option (IpFragment × List (Handed τ)) :=
  (s.startIpfragProc clock x.1).map fun (s, es) => (s, handedOn x es)

/-- What is handed on of the captured packets `xs`. -/
abbrev runHanded (clock : Nat → Int) (n : ℕ+) (xs : List (List Byte × τ)) :
    Option (IpFragment × List (Handed τ)) :=
  run (handOn clock) (create n) xs

theorem mem_handedOn {x : List Byte × τ} {h : Handed τ} : h ∈ handedOn x es ↔
    ∃ e ∈ es, passed x.1 e = some (h.iph, h.skblen) ∧ h.timeStamp = x.2 := by
  simp only [handedOn, List.mem_filterMap, Option.map_eq_some_iff, Prod.exists]
  constructor
  · rintro ⟨e, he, iph, skblen, hp, rfl⟩
    exact ⟨e, he, hp, rfl⟩
  · rintro ⟨e, he, hp, ht⟩
    refine ⟨e, he, h.iph, h.skblen, hp, ?_⟩
    cases h
    cases ht
    rfl

/-- A run that hands on is a run of `startIpfragProc`. -/
theorem runHanded_runIp (h : runHanded clock n xs = some (s, hs)) :
    ∃ es, runIp clock n (xs.map Prod.fst) = some (s, es) ∧
      ∀ h ∈ hs, ∃ x ∈ xs, accepted x.1 ∧ ∃ e ∈ es, passed x.1 e = some (h.iph, h.skblen) := by
  refine run_induction (I := fun xs s hs => ∃ es, runIp clock n (xs.map Prod.fst) = some (s, es) ∧
    ∀ h ∈ hs, ∃ x ∈ xs, accepted x.1 ∧ ∃ e ∈ es, passed x.1 e = some (h.iph, h.skblen))
    ⟨[], rfl, nofun⟩ ?_ h
  intro xs s hs x s' hs' hr ⟨es, hes, hall⟩ hstep
  obtain ⟨⟨s₁, es₁⟩, hcall, he⟩ := Option.map_eq_some_iff.mp hstep
  obtain ⟨rfl, rfl⟩ := Prod.mk.injEq .. ▸ he
  refine ⟨es ++ es₁, ?_, fun h hmem => ?_⟩
  · rw [List.map_append]
    exact run_concat.mpr ⟨s, es, s₁, es₁, hes, hcall, rfl⟩
  · rcases List.mem_append.mp hmem with hmem | hmem
    · obtain ⟨x', hx', ha, e, he, hp⟩ := hall h hmem
      exact ⟨x', List.mem_append_left _ hx', ha, e, List.mem_append_left _ he, hp⟩
    · obtain ⟨e, hmem', hp, -⟩ := mem_handedOn.mp hmem
      refine ⟨x, by simp, ?_, e, List.mem_append_right _ hmem', hp⟩
      by_contra ha
      rw [startIpfragProc, if_neg ha] at hcall
      have hnil : es₁ = [] := (congrArg Prod.snd (Option.some.inj hcall)).symm
      rw [hnil] at hmem'
      cases hmem'

theorem runHanded_total (clock : Nat → Int) (n : ℕ+) (xs : List (List Byte × τ)) :
    ∃ s hs, runHanded clock n xs = some (s, hs) := by
  have htotal : ∃ s hs, runHanded clock n xs = some (s, hs) ∧ ∃ l, s.Inv l := by
    refine run_total (I := fun s : IpFragment => ∃ l, s.Inv l) ⟨[], inv_create n⟩
      (fun s x ⟨l, hi⟩ => ?_) xs
    obtain ⟨s', es, he, hc⟩ := hi.startIpfragProc clock x.1
    refine ⟨s', handedOn x es, by rw [handOn, he]; rfl, ?_⟩
    rcases hc with ⟨-, rfl, -⟩ | ⟨-, hc⟩
    · exact ⟨l, hi⟩
    · exact hc.inv
  obtain ⟨s, hs, h, -⟩ := htotal
  exact ⟨s, hs, h⟩

theorem runHanded_wellFormed (h : runHanded clock n xs = some (s, hs)) :
    ∀ h ∈ hs, h.WellFormed := by
  obtain ⟨es, hes, hall⟩ := runHanded_runIp h
  intro h hmem
  obtain ⟨x, -, ha, e, he, hp⟩ := hall h hmem
  cases e with
  | notf =>
    simp only [passed, Option.some.injEq, Prod.mk.injEq] at hp
    obtain ⟨hiph, hskblen⟩ := hp
    simp only [accepted, Bool.and_eq_true, decide_eq_true_eq] at ha
    obtain ⟨⟨⟨⟨-, hhl⟩, -⟩, hlen⟩, hle⟩ := ha
    refine ⟨?_, ?_, ?_, false, ?_⟩ <;> rw [← hiph]
    · exact hhl
    · exact hle
    · exact hlen
    · exact hskblen.symm
  | new q buf =>
    simp only [passed, Option.some.injEq, Prod.mk.injEq] at hp
    obtain ⟨hiph, hskblen⟩ := hp
    obtain ⟨es₁, es₂, hes'⟩ := List.append_of_mem he
    obtain ⟨qp, hof, hd, hg⟩ := (runIp_received hes).2 es₁ q buf es₂ hes'
    obtain ⟨k, -, hre⟩ := hof.reassembled hd hg
    have hhl := (hof.saved _ hof.mem).header
    have heq := Reassembled.header_eq hre hhl
    have hlength := hre.length
    have hlen := hre.ipLen
    refine ⟨?_, ?_, ?_, true, ?_⟩ <;> rw [← hiph]
    · rw [heq]
      exact hhl
    · rw [heq, hlen]
      exact Nat.le_add_right ..
    · rw [hlen, List.length_map, hlength]
    · exact hskblen.symm
  | _ => cases hp

end IpFragment

end Noff
