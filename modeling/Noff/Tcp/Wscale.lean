import Noff.Consumers
import Noff.Tcp.Handed

/-!
# The window scale

`getWscale` looks for the window-scale option in the header of a SYN. It reads the
bytes of the options only (`reads_readWscale`), and of a list of options it finds the
last window scale (`getWscale_options`). The answer of the server decides about both
sides (`agreed`), and nothing later changes their scales
(`wscale_negotiated`).
-/

namespace Noff.Tcp

open Reading

/-! ## What is read -/

section

variable {d : List Byte}

theorem behind_readShift {n ind : Nat} (hn : n ≤ thdr d + sizeofTcphdr + ind) (kind : Nat)
    (ret : Bool) (ws : BitVec 32) : (readShift d ind kind ret ws).Behind n := by
  rw [readShift]
  split
  · exact behind_bind.mpr ⟨behind_field (by omega), behind_pure _⟩
  · exact behind_pure _

/-- The loop of `getWscale` goes forward: it reads no byte in front of the one it has come to. -/
theorem behind_readWscaleFrom (ind : Nat) (ret : Bool) (ws : BitVec 32) :
    (readWscaleFrom d ind ret ws).Behind (thdr d + sizeofTcphdr + ind) := by
  fun_induction getWscaleFrom d ind ret ws with
  | case1 ind ret ws hend =>
    rw [readWscaleFrom, if_pos hend]
    exact behind_pure _
  | case2 ind ret ws hend hzero =>
    rw [readWscaleFrom, if_neg hend]
    simp only [behind_bind, value_field, hzero, if_true, behind_pure, and_true]
    exact behind_field (le_refl _)
  | case3 ind ret ws hend hzero hone ih =>
    rw [readWscaleFrom, if_neg hend]
    simp only [behind_bind, value_field, hone]
    exact ⟨behind_field (le_refl _), ih.mono (by omega)⟩
  | case4 ind ret ws hend hzero hone shift ws' ret' hsize =>
    rw [readWscaleFrom, if_neg hend]
    simp only [behind_bind, value_field, hzero, hone, if_false]
    refine ⟨behind_field (le_refl _), behind_readShift (le_refl _) _ ret ws,
      behind_field (by omega), ?_⟩
    exact (congrArg (Behind _) (if_pos hsize)).mpr (behind_pure _)
  | case5 ind ret ws hend hzero hone shift ws' ret' hsize ih =>
    rw [readWscaleFrom, if_neg hend]
    simp only [behind_bind, value_field, hzero, hone, if_false, value_readShift]
    refine ⟨behind_field (le_refl _), behind_readShift (le_refl _) _ ret ws,
      behind_field (by omega), ?_⟩
    exact (congrArg (Behind _) (if_neg hsize)).mpr (ih.mono (by omega))

/-- Behind `th_off`, the bytes that `getWscale` reads are options of the header. -/
theorem reads_readWscale (d : List Byte) : ∃ is, (readWscale d).reads = (thdr d + 12) :: is ∧
    ∀ i ∈ is, thdr d + sizeofTcphdr ≤ i ∧ i < thdr d + 4 * thOff d :=
  ⟨(readWscaleFrom d 0 false 1).reads, rfl, fun i hi =>
    ⟨behind_readWscaleFrom 0 false 1 i hi, within_readWscaleFrom (le_refl _) 0 false 1 i hi⟩⟩

end

/-! ## Lists of options -/

/-- An option of a TCP header, other than the end of the list. -/
inductive TcpOption where
  | nop
  | wscale (shift : Byte)
  | other (kind : Byte) (data : List Byte) (hkind : kind ≠ 0 ∧ kind ≠ 1 ∧ kind ≠ 3)
    (hlen : data.length + 2 < 256)

namespace TcpOption

/-- The bytes of an option: its kind and, but for a NOP, its length and data. -/
def encode : TcpOption → List Byte
  | nop => [1]
  | wscale shift => [3, 3, shift]
  | other kind data _ _ => kind :: BitVec.ofNat 8 (data.length + 2) :: data

def shift : TcpOption → Option Byte
  | wscale shift => some shift
  | _ => none

theorem three_le_length {o : TcpOption} {s : Byte} (h : o.shift = some s) :
    3 ≤ o.encode.length := by
  cases o with
  | wscale s => exact le_refl _
  | nop => cases h
  | other => cases h

end TcpOption

/-- The bytes between the fixed part of the header and the data. -/
def optionBytes (d : List Byte) : List Byte :=
  bytesAt d (thdr d + sizeofTcphdr) (4 * thOff d - sizeofTcphdr)

/-- The header has the options `opts`, and behind them nothing or the end of the list. -/
def HasOptions (d : List Byte) (opts : List TcpOption) : Prop :=
  ∃ rest, optionBytes d = opts.flatMap TcpOption.encode ++ rest ∧
    (rest = [] ∨ ∃ pad, rest = 0 :: pad)

/-- The shift of the last window scale. -/
def lastShift (opts : List TcpOption) : Option Byte := (opts.filterMap TcpOption.shift).getLast?

/-- The factor of a shift. -/
def factor (shift : Byte) : Nat := 2 ^ min 14 shift.toNat

theorem factor_le (shift : Byte) : factor shift ≤ 2 ^ 14 :=
  Nat.pow_le_pow_right (by decide) (min_le_left ..)

theorem toNat_factor (shift : Byte) : (BitVec.ofNat 32 (factor shift)).toNat = factor shift :=
  Nat.mod_eq_of_lt ((factor_le shift).trans_lt (by decide))

/-- A window scale takes three bytes. -/
theorem lastShift_of_short {opts : List TcpOption}
    (h : (opts.flatMap TcpOption.encode).length < 3) : lastShift opts = none := by
  rw [lastShift, List.getLast?_eq_none_iff, List.filterMap_eq_nil_iff]
  intro o ho
  cases hs : o.shift with
  | none => rfl
  | some s =>
    have hsub : o.encode.Sublist (opts.flatMap TcpOption.encode) :=
      List.sublist_flatten_of_mem (List.mem_map_of_mem ho)
    have hthree := TcpOption.three_le_length hs
    exact absurd h (Nat.not_lt.mpr (hthree.trans hsub.length_le))

theorem lastShift_cons_of_none {o : TcpOption} (ho : o.shift = none) (opts : List TcpOption) :
    lastShift (o :: opts) = lastShift opts := by
  rw [lastShift, List.filterMap_cons_none ho, lastShift]

theorem lastShift_wscale (s : Byte) (opts : List TcpOption) :
    lastShift (.wscale s :: opts) = some ((lastShift opts).getD s) := by
  have hcons : (TcpOption.wscale s :: opts).filterMap TcpOption.shift =
      s :: opts.filterMap TcpOption.shift := rfl
  rw [lastShift, hcons, List.getLast?_cons, lastShift]

section

variable {d : List Byte} {ind : Nat} {pre bs : List Byte}

theorem length_of_drop (h : (optionBytes d).drop ind = bs) :
    bs.length = 4 * thOff d - sizeofTcphdr - ind := by
  rw [← h, List.length_drop, optionBytes, length_bytesAt]

/-- The bytes that follow, as the code reads them. -/
theorem optionAt_of_drop (h : (optionBytes d).drop ind = pre ++ bs) {k : Nat} {b : Byte}
    (hk : pre[k]? = some b) : optionAt d (ind + k) = b.toNat := by
  have hlt := (List.getElem?_eq_some_iff.mp hk).1
  have hlen := length_of_drop h
  rw [List.length_append] at hlen
  have hget : (optionBytes d)[ind + k]? = some b := by
    rw [← List.getElem?_drop, h, List.getElem?_append_left hlt, hk]
  rw [optionBytes, getElem?_bytesAt _ _ (by omega)] at hget
  rw [optionAt, Option.some.inj hget]

theorem drop_of_drop (h : (optionBytes d).drop ind = pre ++ bs) :
    (optionBytes d).drop (ind + pre.length) = bs := by
  rw [← List.drop_drop, h, List.drop_left]

/-- The loop from the start of some option on. -/
theorem getWscaleFrom_options {opts : List TcpOption} {rest : List Byte}
    (hrest : rest = [] ∨ ∃ pad, rest = 0 :: pad)
    (h : (optionBytes d).drop ind = opts.flatMap TcpOption.encode ++ rest) (ret : Bool)
    (ws : BitVec 32) : getWscaleFrom d ind ret ws =
      (lastShift opts).elim (ret, ws) fun s => (true, BitVec.ofNat 32 (factor s)) := by
  have hlen := length_of_drop h
  rw [List.length_append] at hlen
  induction opts generalizing ind ret ws with
  | nil =>
    rw [getWscaleFrom]
    split
    · rfl
    · rename_i hend
      obtain ⟨pad, rfl⟩ := hrest.resolve_left fun he => by
        rw [he, List.flatMap_nil, List.length_nil] at hlen
        omega
      have hbytes : (optionBytes d).drop ind = [0] ++ pad := h
      have hzero : optionAt d ind = 0 := optionAt_of_drop (k := 0) hbytes rfl
      rw [if_pos hzero]
      rfl
  | cons o opts ih =>
    have hbytes : (optionBytes d).drop ind = o.encode ++ (opts.flatMap TcpOption.encode ++ rest) := by
      rw [h, List.flatMap_cons, List.append_assoc]
    have hnext := drop_of_drop hbytes
    have hih := fun ret ws => ih hnext ret ws (by rw [← length_of_drop hnext, List.length_append])
    rw [getWscaleFrom]
    split
    · -- Too few bytes are left for a window scale.
      rename_i hend
      rw [lastShift_of_short (by omega)]
      rfl
    · cases o with
      | nop =>
        have hkind : optionAt d ind = 1 := optionAt_of_drop (k := 0) hbytes rfl
        rw [if_neg (by omega), if_pos hkind, lastShift_cons_of_none rfl]
        exact hih ret ws
      | wscale s =>
        have hkind : optionAt d ind = 3 := optionAt_of_drop (k := 0) hbytes rfl
        have hsize : optionAt d (ind + 1) = 3 := optionAt_of_drop (k := 1) hbytes rfl
        have hshift : optionAt d (ind + 2) = s.toNat := optionAt_of_drop (k := 2) hbytes rfl
        simp only [hkind, hsize, hshift, if_true, OfNat.ofNat_ne_zero, OfNat.ofNat_ne_one, if_false,
          Nat.reduceLT]
        rw [lastShift_wscale]
        refine (hih true _).trans ?_
        cases lastShift opts <;> rfl
      | other kind data hkind hdata =>
        have hk : optionAt d ind = kind.toNat := optionAt_of_drop (k := 0) hbytes rfl
        have hsize : optionAt d (ind + 1) = data.length + 2 := by
          rw [optionAt_of_drop (k := 1) hbytes rfl, BitVec.toNat_ofNat]
          exact Nat.mod_eq_of_lt hdata
        have hne (n : Byte) (hn : kind ≠ n) : kind.toNat ≠ n.toNat :=
          fun he => hn (BitVec.eq_of_toNat_eq he)
        have h₀ : optionAt d ind ≠ 0 := hk ▸ hne 0 hkind.1
        have h₁ : optionAt d ind ≠ 1 := hk ▸ hne 1 hkind.2.1
        have h₃ : optionAt d ind ≠ 3 := hk ▸ hne 3 hkind.2.2
        simp only [if_neg h₀, if_neg h₁, if_neg h₃, hsize]
        rw [if_neg (by omega), lastShift_cons_of_none rfl]
        exact hih ret ws

/-- `getWscale` finds the last window scale of the options. -/
theorem getWscale_options {opts : List TcpOption} (h : HasOptions d opts) : getWscale d =
    (lastShift opts).elim (false, 1) fun s => (true, BitVec.ofNat 32 (factor s)) := by
  obtain ⟨rest, hbytes, hrest⟩ := h
  exact getWscaleFrom_options hrest (by rw [List.drop_zero, hbytes]) false 1

end

/-! ## What a packet does to the scales -/

/-- Whether a half scales its window, and by which factor. -/
def HalfStream.scaling (h : HalfStream) : Bool × BitVec 32 := (h.wscaleOn, h.wscale)

/-- The scalings of the client and of the server. -/
def TcpStream.scaling (s : TcpStream) : (Bool × BitVec 32) × (Bool × BitVec 32) :=
  (s.client.scaling, s.server.scaling)

/-- What the answer of a server makes of what the client offers. -/
def agreed (offer answer : Bool × BitVec 32) : (Bool × BitVec 32) × (Bool × BitVec 32) :=
  if offer.1 then if answer.1 then (offer, (true, answer.2)) else ((false, 1), (false, 1))
  else (offer, (false, 1))

theorem scaling_tcpQueue (a : Owner) (ts : Int) (q : Flow) (seg : Segment) :
    (tcpQueue a ts q seg).rcv.scaling = q.rcv.scaling :=
  congrArg (·.2.2) (settings_tcpQueue a ts q seg)

section

variable {a : StreamPtr} {p : Packet} {fc : Bool} {w w' : Work}

theorem scaling_withHalves {s : TcpStream} {snd rcv : HalfStream}
    (hs : snd.scaling = (s.snd fc).scaling) (hr : rcv.scaling = (s.rcv fc).scaling) :
    (s.withHalves fc snd rcv).scaling = s.scaling := by
  cases fc with
  | false => exact Prod.ext hr hs
  | true => exact Prod.ext hs hr

theorem scaling_takeAck (w : Work) : (takeAck p fc w).stream.scaling = w.stream.scaling := by
  have hest : (establish p fc w).stream.scaling = w.stream.scaling := by
    simp only [establish]
    split <;> rfl
  rw [takeAck]
  split
  · rw [acknowledge, scaling_withHalves, hest]
    · rw [handleAck]
      split <;> rfl
    · split <;> rfl
  · rfl

theorem scaling_takeData (w : Work) : (takeData a p fc w).stream.scaling = w.stream.scaling := by
  rw [takeData]
  split
  · refine scaling_withHalves ?_ (scaling_tcpQueue ..)
    rw [snd_tcpQueue]
    rfl
  · rfl

theorem scaling_updateWindow (w : Work) :
    (updateWindow p fc w).stream.scaling = w.stream.scaling :=
  scaling_withHalves rfl rfl

/-- The stream `s` waits for the SYN with ACK that packet `y` is. -/
structure TcpStream.Awaits (s : TcpStream) (y : Packet) : Prop where
  syn : hasFlag y.ip TH_SYN
  ack : hasFlag y.ip TH_ACK
  client : s.client.state = .synSent
  server : s.server.state = .close
  acks : s.client.seq = thAck y.ip

/-- The answer of the server is taken. -/
theorem processSyn_awaits (h : w.stream.Awaits p) : ∃ w', processSyn p false w = .keep w' ∧
    w'.stream.server.state = .synRecv ∧
    w'.stream.scaling = agreed w.stream.client.scaling (getWscale p.ip) := by
  have hst : ¬ (w.stream.client.state ≠ .synSent ∨ w.stream.server.state ≠ .close ∨
      (!hasFlag p.ip TH_ACK) = true) := by
    rw [h.client, h.server, h.ack]
    decide
  have hseq : ¬ w.stream.client.seq ≠ thAck p.ip := not_not.mpr h.acks
  simp only [processSyn, Bool.false_eq_true, if_false]
  rw [if_neg hst, if_neg hseq]
  refine ⟨_, rfl, ?_, ?_⟩
  · dsimp only
    repeat' split
    all_goals rfl
  · by_cases hon : w.stream.client.wscaleOn = true
    · by_cases hws : (getWscale p.ip).1 = true
      · simp only [TcpStream.scaling, HalfStream.scaling, agreed, hon, hws, if_true]
      · simp only [TcpStream.scaling, HalfStream.scaling, agreed, hon, hws, if_true, if_false,
          Bool.false_eq_true]
    · simp only [TcpStream.scaling, HalfStream.scaling, agreed, hon, if_false, Bool.false_eq_true]

/-- A packet with SYN that the stream stays with changes it only if it was waiting for it. -/
theorem processSyn_keep (h : processSyn p fc w = .keep w') : w' = w ∨
    (w.stream.server.state = .close ∧ w'.stream.server.state = .synRecv) := by
  simp only [processSyn] at h
  split at h
  · split at h
    · cases h
    · exact .inl (Outcome.keep.inj h).symm
  · split at h
    · exact .inl (Outcome.keep.inj h).symm
    · rename_i hst
      simp only [ne_eq, not_or, not_not] at hst
      split at h
      · exact .inl (Outcome.keep.inj h).symm
      · obtain rfl := Outcome.keep.inj h
        refine .inr ⟨hst.2.1, ?_⟩
        dsimp only
        repeat' split
        all_goals rfl

/-- A packet is the answer of the server, or leaves the scales as they are. -/
theorem processStream_scaling (h : processStream a p fc w = .keep w') :
    (w'.stream.scaling = w.stream.scaling ∧
      (w'.stream.server.state = .close → w.stream.server.state = .close)) ∨
    (w.stream.server.state = .close ∧ w'.stream.server.state = .synRecv) := by
  simp only [processStream] at h
  split at h
  · refine (processSyn_keep h).imp (fun he => ?_) id
    rw [he]
    exact ⟨rfl, id⟩
  · split at h
    · cases h
      exact .inl ⟨rfl, id⟩
    · split at h
      · cases h
      · split at h
        · cases h
        · split at h
          · cases h
          · cases h
            refine .inl ⟨?_, fun hst => ?_⟩
            · rw [scaling_updateWindow, scaling_takeData, scaling_takeAck]
            · have hx := (takeAck_extends (a := a) (p := p) fc w).trans
                ((takeData_extends fc _).trans (updateWindow_extends fc _))
              rcases hx.server.state with he | he
              · rw [← he, hst]
              · rw [hst] at he
                cases he

end

/-! ## Runs -/

section

open TcpFragment

variable {hash : Hash} {junk : StreamPtr → TcpStream} {t t' : TcpFragment} {a : StreamPtr}
  {s : TcpStream} {p : Packet} {es : List Event}

/-- What the work of every packet keeps of a stream holds of it as long as it is in the map. -/
theorem run_stream {P : TcpStream → Prop}
    (hP : ∀ {p fc w w'}, processStream a p fc w = .keep w' → P w.stream → P w'.stream)
    (hi : t.Inv hash) (ha : a < t.next) (h : ∀ s, t.deref a = some s → P s) {ps : List Packet}
    (hr : run (processTcp hash junk) t ps = some (t', es)) :
    a < t'.next ∧ ∀ s, t'.deref a = some s → P s := by
  refine (run_induction (I := fun _ t _ => t.Inv hash ∧ a < t.next ∧ ∀ s, t.deref a = some s → P s)
    ⟨hi, ha, h⟩ ?_ hr).2
  rintro _ t₁ _ p t₂ es₂ - ⟨hi₁, ha₁, h₁⟩ hp
  obtain ⟨D, u, us, t₂', es₂', hp', -, -, hiu, hs⟩ := hi₁.processTcp junk p
  rw [hp] at hp'
  cases hp'
  refine ⟨hiu.step hs, ha₁.trans_le (Inv.next_le hi₁ hp), fun s hd => ?_⟩
  rcases hi₁.deref_processTcp hp hd with hd₁ | ⟨ha₂, -⟩ | ⟨fc, w, w', -, hd₁, hk, rfl⟩
  · exact h₁ s hd₁
  · exact absurd ha₁ (by rw [ha₂]; exact Nat.lt_irrefl _)
  · exact hP hk (h₁ w.stream hd₁)

/-- The first packet of a connection makes a stream at the next address. -/
theorem TcpFragment.Inv.processTcp_first (hi : t.Inv hash) (hwf : wellFormed p.ip) (hfirst : isFirst p.ip)
    (hp : t.processTcp hash junk p = some (t', es)) : t.next < t'.next ∧
      t'.deref t.next = some (newStream hash (junk t.next) p.ip p.timeStamp) := by
  obtain ⟨D, t₁, es₁, hck, hc⟩ := hi.tcpChecktimeouts p.timeStamp
  have hi₁ : t₁.Inv hash := hc.eq ▸ hi.without _
  have hcreate (D' : List StreamPtr) : t.next < ((t₁.without D').create hash junk p).next ∧
      ((t₁.without D').create hash junk p).deref t.next =
        some (newStream hash (junk t.next) p.ip p.timeStamp) := by
    have hnext : (t₁.without D').next = t.next := by rw [hc.eq]; rfl
    rw [(hi₁.without D').deref_create, hnext, if_pos rfl]
    exact ⟨hnext ▸ Nat.lt_succ_self _, rfl⟩
  rw [TcpFragment.processTcp, hck] at hp
  simp only [Option.bind_eq_bind, Option.bind_some, TcpFragment.processPacket, hwf, hfirst,
    Bool.not_true, Bool.false_eq_true, if_false, if_true] at hp
  split at hp
  · by_cases hlt : t₁.tcphashmap.length < tcpStreamTableSize
    · rw [addNewtcp_of_lt hlt, ← without_nil t₁] at hp
      cases hp
      exact hcreate []
    · rw [addNewtcp_of_le (Nat.not_lt.mp hlt), hi₁.clearAllStream.eq] at hp
      cases hp
      exact hcreate _
  · rename_i b fc hf
    obtain ⟨n, hn, rfl, -⟩ := exists_of_findStream hf
    rw [hi₁.freeTcpstream (hi₁.deref hn)] at hp
    simp only [Option.bind_some, Option.pure_def,
      addNewtcp_of_lt ((length_without_lt hn).trans_le hi₁.length)] at hp
    cases hp
    exact hcreate [n.ptr]

/-- In the tables `t`, packet `y` is the SYN with ACK that the stream `a` waits for. -/
structure Answers (hash : Hash) (t : TcpFragment) (a : StreamPtr) (y : Packet) : Prop where
  wellFormed : wellFormed y.ip
  found : ∃ t₁ es, t.tcpChecktimeouts y.timeStamp = some (t₁, es) ∧
    t₁.findStream hash y.ip = some (a, false)
  awaits : ∃ s, t.deref a = some s ∧ s.Awaits y

variable (junk) in
/-- The answer of the server is found and taken. -/
theorem TcpFragment.Inv.answered {y : Packet} (hi : t.Inv hash) (h : Answers hash t a y) :
    ∃ t' es s₀ s, t.processTcp hash junk y = some (t', es) ∧ t.deref a = some s₀ ∧
      s₀.server.state = .close ∧ t'.deref a = some s ∧ s.server.state = .synRecv ∧
      s.scaling = agreed s₀.client.scaling (getWscale y.ip) := by
  obtain ⟨t₁, es₁, hck, hf⟩ := h.found
  obtain ⟨s₀, hd₀, hs₀⟩ := h.awaits
  obtain ⟨D, t₁', es₁', hck', hc⟩ := hi.tcpChecktimeouts y.timeStamp
  rw [hck] at hck'
  cases hck'
  have hi₁ : t₁.Inv hash := hc.eq ▸ hi.without _
  obtain ⟨n, hn, rfl, -⟩ := exists_of_findStream hf
  have hd := hi₁.deref hn
  have hdn := deref_of_without (hc.eq ▸ hd)
  rw [hd₀] at hdn
  obtain rfl := Option.some.inj hdn
  obtain ⟨w', hkeep, hst, hsc⟩ := processSyn_awaits (w := t₁.work n.stream) hs₀
  have hfirst : isFirst y.ip = false := by
    rw [isFirst, hs₀.ack, Bool.not_true, Bool.and_false, Bool.false_and]
  have hproc : processStream n.ptr y false (t₁.work n.stream) = .keep w' := by
    rw [processStream, if_pos hs₀.syn, hkeep]
  refine ⟨(t₁.conclude n.ptr w').1, es₁ ++ (t₁.conclude n.ptr w').2, n.stream, w'.stream, ?_, hd₀,
    hs₀.server, ?_, hst, hsc⟩
  · rw [TcpFragment.processTcp, hck]
    simp only [Option.bind_eq_bind, Option.bind_some, TcpFragment.processPacket, h.wellFormed, hf,
      hfirst, hd, hproc, Bool.not_true, Bool.false_eq_true, if_false, Option.pure_def]
  · rw [deref_conclude hd, if_pos rfl]

/-- Until the server answers, the client has what it has offered. -/
theorem run_offered {ps₁ ps₂ : List Packet} {x : Packet} {t₁ t₂ : TcpFragment}
    {es₁ es₂ : List Event} (hr₁ : runTcp hash junk ps₁ = some (t₁, es₁)) (hwf : wellFormed x.ip)
    (hfirst : isFirst x.ip) (hr₂ : runTcp hash junk (ps₁ ++ x :: ps₂) = some (t₂, es₂))
    (hd : t₂.deref t₁.next = some s) (hst : s.server.state = .close) :
    s.client.scaling = getWscale x.ip := by
  obtain ⟨u₁, us₁, u₂, us₂, hu₁, hu₂, he⟩ := run_append.mp hr₂
  rw [show run (processTcp hash junk) empty ps₁ = some (t₁, es₁) from hr₁] at hu₁
  cases hu₁
  cases he
  obtain ⟨v₁, vs₁, v₂, vs₂, hx, hv, he⟩ := run_cons.mp hu₂
  cases he
  obtain ⟨hlt, hnew⟩ := (runTcp_inv hr₁).processTcp_first hwf hfirst hx
  have hi : v₁.Inv hash := runTcp_inv (run_concat.mpr ⟨t₁, es₁, v₁, vs₁, hr₁, hx, rfl⟩)
  have hkept := run_stream
    (P := fun s => s.server.state = .close → s.client.scaling = getWscale x.ip)
    (fun {p fc w w'} hk h hst => by
      rcases processStream_scaling hk with ⟨hsc, hcl⟩ | ⟨-, hrecv⟩
      · exact (congrArg Prod.fst hsc).trans (h (hcl hst))
      · rw [hst] at hrecv
        cases hrecv)
    hi hlt (fun s hs _ => by rw [hnew] at hs; cases hs; rfl) hv
  exact hkept.2 s hd hst

/-- Behind the answer both sides keep their scales. -/
theorem run_scaling {t₀ : TcpFragment} {s₀ : TcpStream} (hi : t₀.Inv hash)
    (hd₀ : t₀.deref a = some s₀) (hst : s₀.server.state ≠ .close) {ps : List Packet}
    (hr : run (processTcp hash junk) t₀ ps = some (t, es)) (hd : t.deref a = some s) :
    s.scaling = s₀.scaling := by
  have hkept := run_stream (P := fun s => s.server.state ≠ .close ∧ s.scaling = s₀.scaling)
    (fun {p fc w w'} hk h => by
      rcases processStream_scaling hk with ⟨hsc, hcl⟩ | ⟨hclose, -⟩
      · exact ⟨fun hst => h.1 (hcl hst), hsc.trans h.2⟩
      · exact absurd hclose h.1)
    hi (hi.lt_of_deref hd₀) (fun s hs => by rw [hd₀] at hs; cases hs; exact ⟨hst, rfl⟩) hr
  exact (hkept.2 s hd).2

/-- The scales that the options of the two packets ask for. -/
def negotiated (cs ss : List TcpOption) : Nat × Nat :=
  match lastShift cs, lastShift ss with
  | some sc, some ss => (factor sc, factor ss)
  | _, _ => (1, 1)

theorem negotiated_le (cs ss : List TcpOption) :
    (negotiated cs ss).1 ≤ 2 ^ 14 ∧ (negotiated cs ss).2 ≤ 2 ^ 14 := by
  rw [negotiated]
  split
  · exact ⟨factor_le _, factor_le _⟩
  · decide

/-- The scales that the code gives to the two sides. -/
theorem agreed_options {x y : List Byte} {cs ss : List TcpOption} (hcs : HasOptions x cs)
    (hss : HasOptions y ss) : ((agreed (getWscale x) (getWscale y)).1.2.toNat,
      (agreed (getWscale x) (getWscale y)).2.2.toNat) = negotiated cs ss := by
  rw [getWscale_options hcs, getWscale_options hss, negotiated]
  cases lastShift cs with
  | none => rfl
  | some sc =>
    cases lastShift ss with
    | none => rfl
    | some ss => exact Prod.ext (toNat_factor sc) (toNat_factor ss)

/-- The scales of a stream are those that the options ask for, and the window check multiplies
each window by its scale without an overflow, to at most `65535 * 2^14`. -/
structure TcpStream.Scaled (cs ss : List TcpOption) (s : TcpStream) : Prop where
  pair : (s.client.wscale.toNat, s.server.wscale.toNat) = negotiated cs ss
  window : ∀ fc, ((s.rcv fc).window.setWidth 32 * (s.rcv fc).wscale).toNat =
      (s.rcv fc).window.toNat * (s.rcv fc).wscale.toNat ∧
    (s.rcv fc).window.toNat * (s.rcv fc).wscale.toNat ≤ 65535 * 2 ^ 14

theorem TcpStream.Scaled.of_pair {cs ss : List TcpOption}
    (h : (s.client.wscale.toNat, s.server.wscale.toNat) = negotiated cs ss) : s.Scaled cs ss := by
  refine ⟨h, fun fc => ?_⟩
  have hle := negotiated_le cs ss
  rw [← h] at hle
  have hscale : (s.rcv fc).wscale.toNat ≤ 2 ^ 14 := by
    cases fc with
    | false => exact hle.1
    | true => exact hle.2
  have hwin : (s.rcv fc).window.toNat ≤ 65535 := Nat.le_of_lt_succ (s.rcv fc).window.isLt
  have hprod := Nat.mul_le_mul hwin hscale
  refine ⟨?_, hprod⟩
  have hlt : (s.rcv fc).window.toNat * (s.rcv fc).wscale.toNat < 2 ^ 32 :=
    lt_of_le_of_lt hprod (by decide)
  have hwindow : (s.rcv fc).window.toNat % 2 ^ 32 = (s.rcv fc).window.toNat :=
    Nat.mod_eq_of_lt (by omega)
  rw [BitVec.toNat_mul, BitVec.toNat_setWidth, hwindow, Nat.mod_eq_of_lt hlt]

/-- `getWscale` reads option bytes only. After a SYN with the options `cs` and the SYN with ACK
and the options `ss` that its stream waits for, whatever comes between and behind them, the
stream has the scales that the two lists ask for. -/
theorem wscale_negotiated {ps₁ ps₂ : List Packet} {x y : Packet} {cs ss : List TcpOption}
    {t₁ t₂ : TcpFragment} {es₁ es₂ : List Event} (hr₁ : runTcp hash junk ps₁ = some (t₁, es₁))
    (hwf : wellFormed x.ip) (hfirst : isFirst x.ip) (hcs : HasOptions x.ip cs)
    (hr₂ : runTcp hash junk (ps₁ ++ x :: ps₂) = some (t₂, es₂)) (hy : Answers hash t₂ t₁.next y)
    (hss : HasOptions y.ip ss) :
    (∀ d, (readWscale d).value = getWscale d ∧
      ∃ is, (readWscale d).reads = (thdr d + 12) :: is ∧
        ∀ i ∈ is, thdr d + sizeofTcphdr ≤ i ∧ i < thdr d + 4 * thOff d) ∧
    (∃ t es s, runTcp hash junk (ps₁ ++ x :: ps₂ ++ [y]) = some (t, es) ∧
      t.deref t₁.next = some s) ∧
    ∀ ps₃ t es s, runTcp hash junk (ps₁ ++ x :: ps₂ ++ y :: ps₃) = some (t, es) →
      t.deref t₁.next = some s → s.Scaled cs ss := by
  obtain ⟨t₃, es₃, s₀, s, hp, hd₀, hcl, hd, hrecv, hsc⟩ :=
    (runTcp_inv hr₂).answered junk hy
  have hr₃ : runTcp hash junk (ps₁ ++ x :: ps₂ ++ [y]) = some (t₃, es₂ ++ es₃) :=
    run_concat.mpr ⟨t₂, es₂, t₃, es₃, hr₂, hp, rfl⟩
  refine ⟨fun d => ⟨value_readWscale d, reads_readWscale d⟩, ⟨t₃, _, s, hr₃, hd⟩, ?_⟩
  intro ps₃ t es s' hr hd'
  have hagreed : s.scaling = agreed (getWscale x.ip) (getWscale y.ip) := by
    rw [hsc, run_offered hr₁ hwf hfirst hr₂ hd₀ hcl]
  rw [List.append_cons] at hr
  obtain ⟨u₁, us₁, u₂, us₂, hu₁, hu₂, he⟩ := run_append.mp hr
  rw [show run (processTcp hash junk) empty (ps₁ ++ x :: ps₂ ++ [y]) = _ from hr₃] at hu₁
  cases hu₁
  cases he
  have hkept := run_scaling (runTcp_inv hr₃) hd (by rw [hrecv]; nofun) hu₂ hd'
  refine .of_pair ((agreed_options hcs hss).symm.trans ?_).symm
  rw [← hagreed, ← hkept]
  rfl

/-- A packet with options, of the connection from port 1 to port 80. -/
def optionsPacket (fromClient : Bool) (seq ack flags : Byte) (opts : List TcpOption) : Packet :=
  let bytes := opts.flatMap TcpOption.encode
  ⟨((headersOnly fromClient 1 seq ack flags).set 3 (BitVec.ofNat 8 (40 + bytes.length))).set 32
    (BitVec.ofNat 8 (4 * (20 + bytes.length))) ++ bytes, 256, 0⟩

/-- A maximum segment size, a NOP and a window scale. -/
def offeredOptions : List TcpOption :=
  [.other 2 [5, 0xb4] (by decide) (by decide), .nop, .wscale 7]

/-- A shift that is too large, in the last three bytes. -/
def answeredOptions : List TcpOption := [.nop, .wscale 15]

def offerPacket : Packet := optionsPacket true 1 0 TH_SYN offeredOptions

def answerPacket : Packet := optionsPacket false 7 2 (TH_SYN ||| TH_ACK) answeredOptions

theorem wscale_negotiated_handshake : ∃ t es s,
    runTcp .plain (fun _ => emptyStream) [offerPacket, answerPacket] = some (t, es) ∧
      t.deref 0 = some s ∧ (s.client.wscale.toNat, s.server.wscale.toNat) = (2 ^ 7, 2 ^ 14) := by
  have hcheck : (runTcp .plain (fun _ => emptyStream) [offerPacket]).any (fun r =>
      ((r.1.tcpChecktimeouts 0).any fun r => r.1.findStream .plain answerPacket.ip = some (0, false)) &&
        (r.1.deref 0).any fun s => s.client.state = .synSent ∧ s.server.state = .close ∧
          s.client.seq = thAck answerPacket.ip) = true := by decide +kernel
  obtain ⟨⟨t₂, es₂⟩, hr₂, hcheck⟩ := (Option.any_eq_true ..).mp hcheck
  obtain ⟨hfound, hawaits⟩ := Bool.and_eq_true .. ▸ hcheck
  obtain ⟨⟨t₁, es₁⟩, hck, hf⟩ := (Option.any_eq_true ..).mp hfound
  obtain ⟨s, hd, hs⟩ := (Option.any_eq_true ..).mp hawaits
  have hs := of_decide_eq_true hs
  have hy : Answers .plain t₂ 0 answerPacket :=
    ⟨by decide, ⟨t₁, es₁, hck, of_decide_eq_true hf⟩,
      ⟨s, hd, ⟨by decide, by decide, hs.1, hs.2.1, hs.2.2⟩⟩⟩
  have hr₁ : runTcp .plain (fun _ => emptyStream) [] = some (empty, []) := rfl
  have hcs : HasOptions offerPacket.ip offeredOptions := ⟨[], by decide, .inl rfl⟩
  have hss : HasOptions answerPacket.ip answeredOptions := ⟨[], by decide, .inl rfl⟩
  obtain ⟨-, ⟨t, es, s, hr, hd⟩, hscaled⟩ :=
    wscale_negotiated hr₁ (by decide) (by decide) hcs hr₂ hy hss
  exact ⟨t, es, s, hr, hd, (hscaled [] t es s hr hd).pair⟩

end

end Noff.Tcp
