import Noff.App.Reports
import Noff.Dispatcher
import Noff.Lib.HashTable

/-!
# The two directions of a connection

`Tuple4HashEqual` is an equivalence, and equal tuples have the same number under every seed
of `Sharding` (`Sharding.coherent`). So a session is found in the map from either direction,
however the map distributes its elements (`TcpSession.lookup_eq_find`), and the dispatcher
gives the packets of both directions to one worker (`indexOf_reversed`). The three are put
together in `bothDirections_together`.
-/

namespace Noff

open Tuple4 TcpSession

/-- The hash and the comparison of `SessionDataMap`. -/
theorem Sharding.coherent (s : Sharding) : Coherent s.ofTuple tuple4HashEqual where
  refl a := tuple4HashEqual_iff.mpr (.refl a)
  symm a b h := tuple4HashEqual_iff.mpr (tuple4HashEqual_iff.mp h).symm
  trans a b c h h' :=
    tuple4HashEqual_iff.mpr ((tuple4HashEqual_iff.mp h).trans (tuple4HashEqual_iff.mp h'))
  hash_eq a b h := by
    rcases tuple4HashEqual_iff.mp h with rfl | rfl
    · rfl
    · exact s.ofTuple_reversed b

theorem tuple4HashEqual_reversed (t : Tuple4) : tuple4HashEqual t.reversed t :=
  tuple4HashEqual_iff.mpr (.inr rfl)

/-! ## The map of the sessions -/

namespace TcpSession

variable {n : Nat} {s : TcpSession n}

/-- An unordered map with the elements of `sessionDataMap`, however many buckets it has and in
whatever order the elements of a bucket are, finds what `find` does. -/
theorem lookup_eq_find (hi : s.Inv) (sharding : Sharding) {buckets : Nat} [NeZero buckets]
    (t : HashTable sharding.ofTuple SessionNode.key buckets)
    (ht : ∀ m, m ∈ t ↔ m ∈ s.sessionDataMap) (t4 : Tuple4) :
    t.lookup tuple4HashEqual t4 = s.find t4 := by
  cases hf : s.find t4 with
  | none =>
    refine t.lookup_eq_none fun m hm heq => ?_
    exact find_eq_none.mp hf m ((ht m).mp hm) (tuple4HashEqual_iff.mp heq)
  | some m =>
    obtain ⟨hm, hflow⟩ := of_find_eq_some hf
    refine t.lookup_eq_some sharding.coherent ((ht m).mpr hm) (tuple4HashEqual_iff.mpr hflow)
      fun m' hm' heq => ?_
    exact hi.eq_of_sameFlow ((ht m').mp hm') hm ((tuple4HashEqual_iff.mp heq).symm.trans hflow)

end TcpSession

/-! ## The workers -/

/-- The packet has an index: it goes to a worker, if there is room in its queue. -/
def Shardable (hdr : List Byte) : Prop :=
  Sharded (ipP hdr) ∧ thdr hdr + headerSize (ipP hdr) ≤ hdr.length

theorem getTuple4_of_not_sharded {hdr : List Byte} (h : ¬ Sharded (ipP hdr)) :
    (getTuple4 hdr).toOption = none := by
  simp only [Sharded, not_or] at h
  rw [getTuple4, if_neg h.1, if_neg h.2.1, if_neg h.2.2]
  rfl

variable {nWorkers : Nat} [NeZero nWorkers]

/-- The index is that of the tuple, for the packets that get one. -/
theorem indexOf_eq_some_iff (s : Sharding) {hdr : List Byte} {i : Fin nWorkers} :
    indexOf nWorkers s hdr = some i ↔
      Shardable hdr ∧ Fin.ofNat nWorkers (s.ofTuple (packetTuple hdr)) = i := by
  by_cases hp : Sharded (ipP hdr)
  · by_cases hlen : thdr hdr ≤ hdr.length
    · rw [indexOf_eq s hp hlen, Shardable, and_iff_right hp]
      have hle : headerSize (ipP hdr) ≤ hdr.length - thdr hdr ↔
          thdr hdr + headerSize (ipP hdr) ≤ hdr.length := by omega
      simp only [hle]
      split
      · rename_i h
        rw [and_iff_right h, Option.some.injEq]
      · rename_i h
        exact iff_of_false (fun he => by cases he) fun h' => h h'.1
    · refine iff_of_false ?_ fun h => ?_
      · rw [indexOf, if_pos (by rw [thdr] at hlen; omega)]
        intro he
        cases he
      · have hfits := h.1.2
        omega
  · refine iff_of_false ?_ fun h => hp h.1.1
    have hmap : (s.ofPacket hdr).toOption = (getTuple4 hdr).toOption.map s.ofTuple := by
      rw [Sharding.ofPacket]
      cases getTuple4 hdr <;> rfl
    rw [indexOf, hmap, getTuple4_of_not_sharded hp]
    split <;> exact fun he => by cases he

/-- Packets of the two directions of a connection have the same index. -/
theorem indexOf_reversed (s : Sharding) {f g : List Byte} (hf : Shardable f) (hg : Shardable g)
    (hrev : packetTuple g = (packetTuple f).reversed) :
    ∃ i, indexOf nWorkers s f = some i ∧ indexOf nWorkers s g = some i := by
  refine ⟨_, (indexOf_eq_some_iff s).mpr ⟨hf, rfl⟩, (indexOf_eq_some_iff s).mpr ⟨hg, ?_⟩⟩
  rw [hrev, s.ofTuple_reversed]

/-- Both directions of a connection are one key: for the comparison and the hash, in the map of
the sessions after every run, and for the dispatcher with any number of workers. -/
theorem bothDirections_together (s : Sharding) :
    Coherent s.ofTuple tuple4HashEqual ∧
    (∀ n ps session es, 0 < n → runSession n s ps = some (session, es) →
      ∀ buckets [NeZero buckets] (t : HashTable s.ofTuple SessionNode.key buckets),
        (∀ m, m ∈ t ↔ m ∈ session.sessionDataMap) → ∀ t4,
          t.lookup tuple4HashEqual t4 = session.find t4 ∧
          t.lookup tuple4HashEqual t4.reversed = session.find t4) ∧
    ∀ nWorkers [NeZero nWorkers] f g, Shardable f → Shardable g →
      packetTuple g = (packetTuple f).reversed →
      ∃ i, indexOf nWorkers s f = some i ∧ indexOf nWorkers s g = some i := by
  refine ⟨s.coherent, fun n ps session es hn hr buckets _ t ht t4 => ?_,
    fun nWorkers _ f g hf hg hrev => indexOf_reversed s hf hg hrev⟩
  have hi := (TcpSession.runSession_reported hn hr).inv
  refine ⟨TcpSession.lookup_eq_find hi s t ht t4, ?_⟩
  rw [t.lookup_congr s.coherent (tuple4HashEqual_reversed t4), TcpSession.lookup_eq_find hi s t ht t4]

/-- A packet that answers `shortPacket 1`. -/
def answerPacket : List Byte :=
  [0x45, 0, 0, 40, 0, 0, 0, 0, 64, 6, 0, 0, 10, 0, 0, 2, 10, 0, 0, 1, 0, 80, 0, 1,
    0, 0, 0, 0, 0, 0, 0, 0, 0x50, 0x12, 0, 0, 0, 0, 0, 0]

/-- The session of a SYN is found from either direction, and the answer reaches its worker. -/
theorem bothDirections_together_syn :
    (∃ session es, runSession 60 plainSharding [shortPacket 1 TH_SYN 40 7] = some (session, es) ∧
      ∃ t : HashTable plainSharding.ofTuple SessionNode.key 1,
        (t.lookup tuple4HashEqual (shortPacket 1 TH_SYN 40 7).t4).isSome ∧
        t.lookup tuple4HashEqual (shortPacket 1 TH_SYN 40 7).t4.reversed =
          t.lookup tuple4HashEqual (shortPacket 1 TH_SYN 40 7).t4) ∧
      ∃ i, indexOf 4 plainSharding (shortPacket 1 TH_SYN 40 7).iphdr = some i ∧
        indexOf 4 plainSharding answerPacket = some i := by
  obtain ⟨-, hmap, hworker⟩ := bothDirections_together plainSharding
  have hr : ∃ session es, runSession 60 plainSharding [shortPacket 1 TH_SYN 40 7] =
      some (session, es) ∧ (session.find (shortPacket 1 TH_SYN 40 7).t4).isSome := ⟨_, _, rfl, rfl⟩
  obtain ⟨session, es, hr, hfound⟩ := hr
  let t : HashTable plainSharding.ofTuple SessionNode.key 1 :=
    ⟨fun _ => session.sessionDataMap, fun _ _ _ => Subsingleton.elim _ _⟩
  have ht (m : SessionNode) : m ∈ t ↔ m ∈ session.sessionDataMap :=
    ⟨fun ⟨_, h⟩ => h, fun h => ⟨0, h⟩⟩
  obtain ⟨hlookup, hrev⟩ :=
    hmap 60 _ session es (by decide) hr 1 t ht (shortPacket 1 TH_SYN 40 7).t4
  refine ⟨⟨session, es, hr, t, by rw [hlookup, hfound], hrev.trans hlookup.symm⟩, ?_⟩
  exact hworker 4 _ _ ⟨.inl rfl, by decide⟩ ⟨.inl rfl, by decide⟩ rfl

end Noff
