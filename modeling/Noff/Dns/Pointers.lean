import Noff.Dns.Names
import Noff.Dns.Wire

/-!
# Names, as the parser finds them

To the parser, a label has up to 127 bytes, and a pointer leads to its `target`: the
offset is counted from `idPos`, and the low byte of it is signed. `Found` is the name
that is found in this way, with the rounds that the loops need. `readRRname` returns
this name as it is printed, and the position behind its encoding, if and only if
there are rounds enough (`readRRname_eq_some_iff`).
-/

namespace Noff.Dns

open Reading

variable {data : List Byte} {idPos : Pos}

/-- The parser finds the name with these labels at position `p`, in `n` rounds. -/
inductive Found (data : List Byte) (idPos : Pos) : Nat → List (List Byte) → Nat → Prop where
  | zero {p : Nat} (h : At data p [0]) : Found data idPos p [] 0
  | label {p n : Nat} {l : List Byte} {labels : List (List Byte)} (hne : l ≠ [])
    (h128 : l.length < 128) (h : At data p (BitVec.ofNat 8 l.length :: l))
    (hrest : Found data idPos (p + 1 + l.length) labels n) :
    Found data idPos p (l :: labels) (n + l.length + 1)
  | pointer {p n : Nat} {c d : Byte} {labels : List (List Byte)} (h : At data p [c, d])
    (hptr : isPointer c = true) (hname : Found data idPos (target idPos c d).toNat labels n) :
    Found data idPos p labels (n + 1)

theorem Found.lt {p n : Nat} {labels : List (List Byte)} (h : Found data idPos p labels n) :
    p < data.length := by
  cases h with
  | zero h => exact (At.cons.mp h).1
  | label _ _ h => exact (At.cons.mp h).1
  | pointer h => exact (At.cons.mp h).1

/-! ## What is written -/

/-- A name as it is printed: the labels with dots between them, escaped. -/
def printed (labels : List (List Byte)) : List Byte :=
  (labels.flatMap fun l => 0x2e :: l.flatMap escape).tail

/-- What the second loop is to write, when it has written `name` and the bytes `l` of a label and
the labels `rest` follow. -/
def writing (name l : List Byte) (rest : List (List Byte)) : List Byte :=
  if l = [] ∧ name = [] then printed rest
  else name ++ (l.flatMap escape ++ rest.flatMap fun l => 0x2e :: l.flatMap escape)

theorem writing_end (name : List Byte) : writing name [] [] = name := by
  rw [writing]
  split
  case isTrue h => exact h.2.symm
  case isFalse => exact List.append_nil name

theorem writing_label {name l : List Byte} (hne : l ≠ []) (rest : List (List Byte)) :
    writing (if name ≠ [] then name ++ [0x2e] else name) l rest = writing name [] (l :: rest) := by
  rw [writing, if_neg (fun h => hne h.1), writing]
  by_cases hname : name = []
  · subst hname
    rfl
  · rw [if_pos hname, if_neg (fun h => hname h.2)]
    simp

theorem escape_ne_nil (c : Byte) : escape c ≠ [] := by
  unfold escape
  split <;> exact List.cons_ne_nil _ _

theorem writing_byte (name l : List Byte) (b : Byte) (rest : List (List Byte)) :
    writing (name ++ escape b) l rest = writing name (b :: l) rest := by
  rw [writing, writing, if_neg (fun h => escape_ne_nil b (List.append_eq_nil_iff.mp h.2).2),
    if_neg (fun h => List.cons_ne_nil _ _ h.1)]
  simp

/-! ## The rounds of a name -/

/-- In front of a round, the bytes `l` of a label are left, and then the name `rest`, in `n`
rounds. -/
structure Left (data : List Byte) (idPos : Pos) (v : NameScan) (l : List Byte)
    (rest : List (List Byte)) (n : Nat) : Prop where
  label : At data v.pos.toNat l
  next : v.next.toNat = v.pos.toNat + l.length
  name : Found data idPos v.next.toNat rest n

variable {v v' : NameScan} {l : List Byte} {rest : List (List Byte)} {n : Nat}

theorem Left.eq_nil (h : Left data idPos v l rest n) (hnext : v.next = v.pos) : l = [] := by
  have := h.next
  rw [hnext] at this
  exact List.length_eq_zero_iff.mp (by omega)

/-- A byte of a label that is left is the next one. -/
theorem Left.eq_cons (h : Left data idPos v l rest n) (hnext : v.next ≠ v.pos) :
    ∃ l', l = byteAt data v.pos.toNat :: l' ∧ At data (v.pos.toNat + 1) l' := by
  cases l with
  | nil => exact absurd (BitVec.eq_of_toNat_eq h.next) hnext
  | cons b l' =>
    obtain ⟨-, rfl, hl'⟩ := At.cons.mp h.label
    exact ⟨l', rfl, hl'⟩

/-- A round leaves the rest of the name: one round less, and what the second loop is to write. -/
theorem Left.round (hlen : data.length < 2 ^ 16) (hpos : below data v.pos = true)
    (hr : Round data idPos v v') (h : Left data idPos v l rest n) :
    ∃ l' rest' n', Left data idPos v' l' rest' n' ∧ n' + l'.length + 1 = n + l.length ∧
      ∀ name, writing (copied data v name) l' rest' = writing name l rest := by
  have hlt := below_iff.mp hpos
  have hsucc : (v.pos + 1).toNat = v.pos.toNat + 1 := by bv_omega
  simp only [copied]
  cases hr with
  | pointer hnext hptr =>
    obtain rfl := h.eq_nil hnext
    have hname := hnext ▸ h.name
    cases hname with
    | zero h0 =>
      rw [(At.cons.mp h0).2.1] at hptr
      exact absurd hptr (by decide)
    | label hne h128 hl =>
      rw [(At.cons.mp hl).2.1, (length_byte (List.length_pos_iff.mpr hne) h128).2.1] at hptr
      cases hptr
    | pointer hcd _ hname =>
      obtain ⟨-, rfl, hd⟩ := At.cons.mp hcd
      obtain ⟨-, rfl, -⟩ := At.cons.mp hd
      refine ⟨[], rest, _, ⟨List.nil_prefix, rfl, hsucc ▸ hname⟩, rfl, fun name => ?_⟩
      rw [if_pos hnext, if_pos hptr]
  | label hnext h0 hptr =>
    obtain rfl := h.eq_nil hnext
    have hname := hnext ▸ h.name
    cases hname with
    | zero h0' => exact absurd (At.cons.mp h0').2.1 h0
    | pointer hcd hptr' =>
      rw [(At.cons.mp hcd).2.1, hptr'] at hptr
      cases hptr
    | @label _ n l' labels hne h128 hl hrest =>
      obtain ⟨-, hc, hl⟩ := At.cons.mp hl
      have hext := (length_byte (List.length_pos_iff.mpr hne) h128).2.2
      have hto := hrest.lt
      have hnext' : (v.pos + (byteAt data v.pos.toNat).signExtend 32 + 1).toNat =
          v.pos.toNat + 1 + l'.length := by
        rw [hc]
        bv_omega
      refine ⟨l', labels, n, ⟨hsucc ▸ hl, ?_, ?_⟩, rfl, fun name => ?_⟩
      · rw [hnext, hnext', hsucc]
      · rw [hnext, hnext']
        exact hrest
      · rw [if_pos hnext, if_neg (by rw [hptr]; decide), writing_label hne]
  | byte hnext =>
    obtain ⟨l', rfl, hl'⟩ := h.eq_cons hnext
    have hto := h.next
    rw [List.length_cons] at hto
    refine ⟨l', rest, n, ⟨hsucc ▸ hl', ?_, h.name⟩, rfl, fun name => ?_⟩
    · rw [hsucc, hto]
      omega
    · rw [if_neg hnext, writing_byte]

/-- What is left behind a round was left in front of it, with one round more. -/
theorem Left.of_round (hlen : data.length < 2 ^ 16) (hpos : below data v.pos = true)
    (hr : Round data idPos v v') (h : Left data idPos v' l rest n) :
    ∃ l' rest' n', Left data idPos v l' rest' n' ∧ n' + l'.length = n + l.length + 1 := by
  have hlt := below_iff.mp hpos
  have hsucc : (v.pos + 1).toNat = v.pos.toNat + 1 := by bv_omega
  cases hr with
  | pointer hnext hptr hpos' =>
    obtain rfl := h.eq_nil rfl
    have hcd : At data v.pos.toNat [byteAt data v.pos.toNat, byteAt data (v.pos + 1).toNat] := by
      refine At.cons.mpr ⟨hlt, rfl, ?_⟩
      rw [← hsucc]
      exact At.cons.mpr ⟨below_iff.mp hpos', rfl, List.nil_prefix⟩
    refine ⟨[], rest, n + 1, ⟨List.nil_prefix, by rw [hnext]; rfl, ?_⟩, rfl⟩
    rw [hnext]
    exact .pointer hcd hptr h.name
  | label hnext h0 hptr =>
    obtain ⟨hl, hto, hname⟩ := h
    dsimp only at hl hto hname
    rw [hnext] at hto hname
    obtain ⟨h128, hto'⟩ := toNat_label hlen hlt _ (by omega) hname.lt
    have hlength : l.length = (byteAt data v.pos.toNat).toNat := by omega
    have hne : l ≠ [] := by
      rintro rfl
      exact h0 (BitVec.eq_of_toNat_eq hlength.symm)
    have hc : byteAt data v.pos.toNat = BitVec.ofNat 8 l.length := by
      rw [hlength, BitVec.ofNat_toNat, BitVec.setWidth_eq]
    rw [hto', ← hlength] at hname
    refine ⟨[], l :: rest, n + l.length + 1, ⟨List.nil_prefix, by rw [hnext]; rfl, ?_⟩, rfl⟩
    rw [hnext]
    exact .label hne (by omega) (At.cons.mpr ⟨hlt, hc, hsucc ▸ hl⟩) hname
  | byte hnext =>
    obtain ⟨hl, hto, hname⟩ := h
    dsimp only at hl hto hname
    refine ⟨byteAt data v.pos.toNat :: l, rest, n, ⟨?_, ?_, hname⟩, rfl⟩
    · exact At.cons.mpr ⟨hlt, rfl, hsucc ▸ hl⟩
    · rw [hto, hsucc, List.length_cons]
      omega

/-- With rounds left, the first loop goes on. -/
theorem Left.scanByte (h : Left data idPos v l rest n) (hpos : n + l.length ≠ 0) :
    (scanning data v).value = true ∧ ∃ v', (scanByte data idPos v).value = some v' := by
  by_cases hnext : v.next = v.pos
  · obtain rfl := h.eq_nil hnext
    have hname := hnext ▸ h.name
    have hgo (h0 : byteAt data v.pos.toNat ≠ 0) : (scanning data v).value = true := by
      rw [scanning, if_pos (below_iff.mpr hname.lt), if_pos hnext]
      exact decide_eq_true h0
    rw [Dns.scanByte, value_bind]
    dsimp only
    rw [if_pos hnext, value_readAt]
    cases hname with
    | zero => exact absurd rfl hpos
    | label hne h128 hl =>
      obtain ⟨h0, hptr, -⟩ := length_byte (List.length_pos_iff.mpr hne) h128
      rw [← (At.cons.mp hl).2.1] at h0 hptr
      rw [if_neg (by rw [hptr]; decide)]
      exact ⟨hgo h0, _, rfl⟩
    | pointer hcd hptr =>
      obtain ⟨hlt, rfl, hd⟩ := At.cons.mp hcd
      have hlt' := (At.cons.mp hd).1
      have hbelow : below data (v.pos + 1) = true := below_iff.mpr (by bv_omega)
      rw [if_pos hptr, if_pos hbelow]
      refine ⟨hgo fun h0 => ?_, _, rfl⟩
      rw [h0] at hptr
      exact absurd hptr (by decide)
  · obtain ⟨l', rfl, -⟩ := h.eq_cons hnext
    have hlt : v.pos.toNat < data.length := (At.cons.mp h.label).1
    rw [scanning, if_pos (below_iff.mpr hlt), if_neg hnext, Dns.scanByte, value_bind]
    dsimp only
    rw [if_neg hnext]
    exact ⟨rfl, _, rfl⟩

/-- The first loop comes to the end of the name in the rounds that are left. -/
theorem Left.scanName (hlen : data.length < 2 ^ 16) (h : Left data idPos v l rest n) (left : Nat) :
    ∃ v', (scanName data idPos (left + (n + l.length)) v).value = some (v', left) ∧
      below data v'.pos = true := by
  generalize hk : n + l.length = k
  induction k generalizing v l rest n with
  | zero =>
    obtain ⟨rfl, hl⟩ := Nat.add_eq_zero_iff.mp hk
    obtain rfl := List.length_eq_zero_iff.mp hl
    have hnext : v.next = v.pos := BitVec.eq_of_toNat_eq h.next
    have hname := hnext ▸ h.name
    have hbelow : below data v.pos = true := below_iff.mpr hname.lt
    cases hname with
    | zero h0 =>
      have hstop : (scanning data v).value = false := by
        rw [scanning, if_pos hbelow, if_pos hnext]
        exact decide_eq_false (not_not.mpr (At.cons.mp h0).2.1)
      refine ⟨v, ?_, hbelow⟩
      cases left <;>
      · rw [Nat.add_zero, Dns.scanName, value_bind, hstop]
        rfl
  | succ k ih =>
    obtain ⟨hgo, v', hv⟩ := h.scanByte (by omega)
    obtain ⟨hpos, hr⟩ := round_of_scanByte hgo hv
    obtain ⟨l', rest', n', h', hn, -⟩ := h.round hlen hpos hr
    obtain ⟨u, hu, hbelow⟩ := ih h' (by omega)
    refine ⟨u, ?_, hbelow⟩
    rw [← Nat.add_assoc, Dns.scanName, value_bind, if_pos hgo, value_bind, hv]
    exact hu

/-! ## The name that is returned -/

variable {pos q : Pos} {labels : List (List Byte)} {name : List Byte}

theorem Found.left (h : Found data idPos pos.toNat labels n) (endPos : Pos) (nameLen : Nat) :
    Left data idPos ⟨pos, pos, endPos, nameLen⟩ [] labels n :=
  ⟨List.nil_prefix, rfl, h⟩

/-- A name that is measured is found. -/
theorem Measured.found (hlen : data.length < 2 ^ 16) (h : Measured data idPos pos v) :
    ∃ labels n, Found data idPos pos.toNat labels n ∧ n < 2 * data.length := by
  obtain ⟨left, hscan, hleft⟩ := h.scanned
  -- what is left in front of a round and the rounds before it are those of the whole name
  have hrounds := scanName_rounds (I := fun k u => ∀ l rest n, Left data idPos u l rest n →
      ∃ labels m, Found data idPos pos.toNat labels m ∧ m + k = n + l.length + 2 * data.length)
    (fun k u u' hpos hr hI l rest n hl => ?_) hscan ?_
  · obtain ⟨hI, hstop⟩ := hrounds
    obtain ⟨hnext, hzero⟩ := scanning_false (hstop hleft) h.below
    have hend : Found data idPos v.next.toNat [] 0 := by
      rw [hnext]
      exact .zero (At.cons.mpr ⟨below_iff.mp h.below, hzero, List.nil_prefix⟩)
    obtain ⟨labels, m, hfound, hm⟩ := hI [] [] 0 ⟨List.nil_prefix, by rw [hnext]; rfl, hend⟩
    rw [List.length_nil] at hm
    exact ⟨labels, m, hfound, by omega⟩
  · obtain ⟨l', rest', n', hl', hn⟩ := hl.of_round hlen hpos hr
    obtain ⟨labels, m, hfound, hm⟩ := hI l' rest' n' hl'
    exact ⟨labels, m, hfound, by omega⟩
  · intro l rest n hl
    obtain rfl := hl.eq_nil rfl
    exact ⟨rest, n, hl.name, rfl⟩

/-- Of a name that is measured, the second loop writes the labels that are found. -/
theorem Measured.writes (hlen : data.length < 2 ^ 16) (h : Measured data idPos pos v)
    (hfound : Found data idPos pos.toNat labels n) :
    (Dns.copyLoop data idPos (2 * data.length) pos pos []).value = some (printed labels, v.pos) := by
  obtain ⟨left, hscan, hleft⟩ := h.scanned
  obtain ⟨-, name, hcopy, l, rest, n', hl, hw⟩ := copyLoop_of_scanName
    (I := fun u name => ∃ l rest n, Left data idPos u l rest n ∧ writing name l rest = printed labels)
    (fun u u' name hpos hr ⟨l, rest, n, hl, hw⟩ => by
      obtain ⟨l', rest', n', hl', -, hw'⟩ := hl.round hlen hpos hr
      exact ⟨l', rest', n', hl', by rw [hw', hw]⟩)
    hscan hleft h.below le_rfl ⟨[], labels, n, hfound.left 0 0, if_pos ⟨rfl, rfl⟩⟩
  have hstop := (scanName_rounds (I := fun _ _ => True) (fun _ _ _ _ _ _ => trivial) hscan
    trivial).2 hleft
  obtain ⟨hnext, hzero⟩ := scanning_false hstop h.below
  obtain rfl := hl.eq_nil hnext
  have hname := hnext ▸ hl.name
  cases hname with
  | zero => rw [hcopy, ← hw, writing_end]
  | label hne h128 hl' =>
    rw [(At.cons.mp hl').2.1] at hzero
    exact absurd hzero (length_byte (List.length_pos_iff.mpr hne) h128).1
  | pointer hcd hptr =>
    rw [(At.cons.mp hcd).2.1] at hzero
    rw [hzero] at hptr
    exact absurd hptr (by decide)

/-- `readRRname` returns the name that is found, if there are rounds enough, and the position
behind its encoding. -/
theorem readRRname_eq_some_iff (hlen : data.length < 2 ^ 16) :
    (readRRname data pos idPos).value = some (name, q) ↔ InPlace data pos.toNat q.toNat ∧
      ∃ labels n, Found data idPos pos.toNat labels n ∧ n < 2 * data.length ∧
        name = printed labels := by
  constructor
  · intro h
    obtain ⟨v, hv, hcopy, rfl⟩ := readRRname_eq_some.mp h
    obtain ⟨labels, n, hfound, hn⟩ := hv.found hlen
    rw [hv.writes hlen hfound] at hcopy
    cases hcopy
    exact ⟨hv.inPlace hlen, labels, n, hfound, hn, rfl⟩
  · rintro ⟨hplace, labels, n, hfound, hn, rfl⟩
    obtain ⟨v, hscan, hbelow⟩ := (hfound.left 0 0).scanName hlen (2 * data.length - n)
    rw [List.length_nil, Nat.add_zero, Nat.sub_add_cancel hn.le] at hscan
    have hv : Measured data idPos pos v := ⟨⟨_, hscan, by omega⟩, hbelow⟩
    refine readRRname_eq_some.mpr ⟨v, hv, hv.writes hlen hfound, ?_⟩
    exact BitVec.eq_of_toNat_eq (hplace.unique (hv.inPlace hlen))

/-! ## Names that are written out -/

theorem Found.written (hok : LabelsOk labels) {p : Nat} (h : At data p (wireName labels)) :
    Found data idPos p labels ((wireName labels).length - 1) := by
  induction labels generalizing p with
  | nil => exact .zero h
  | cons l labels ih =>
    obtain ⟨hne, h64⟩ := hok l (List.mem_cons_self ..)
    have hpos := length_wireName_pos labels
    rw [wireName_cons] at h ⊢
    obtain ⟨hl, hrest⟩ := At.append.mp h
    have hlabels := ih (fun l' hl' => hok l' (List.mem_cons_of_mem _ hl')) (p := p + 1 + l.length) (by
      rw [Nat.add_assoc, Nat.add_comm 1]
      exact hrest)
    have hlength : (BitVec.ofNat 8 l.length :: l ++ wireName labels).length - 1 =
        (wireName labels).length - 1 + l.length + 1 := by
      rw [List.length_append, List.length_cons]
      omega
    rw [hlength]
    exact .label hne (by omega) hl hlabels

theorem InPlace.written (hok : LabelsOk labels) {p : Nat} (h : At data p (wireName labels)) :
    InPlace data p (p + (wireName labels).length) := by
  induction labels generalizing p with
  | nil =>
    obtain ⟨hlt, hzero, -⟩ := At.cons.mp h
    exact .zero hlt hzero
  | cons l labels ih =>
    obtain ⟨hne, h64⟩ := hok l (List.mem_cons_self ..)
    have hpos := List.length_pos_iff.mpr hne
    rw [wireName_cons] at h ⊢
    obtain ⟨hl, hrest⟩ := At.append.mp h
    obtain ⟨-, hc, -⟩ := At.cons.mp hl
    have hto : (byteAt data p).toNat = l.length := by
      rw [hc, BitVec.toNat_ofNat, Nat.mod_eq_of_lt (by omega)]
    have hplace := ih (fun l' hl' => hok l' (List.mem_cons_of_mem _ hl')) (p := p + 1 + l.length) (by
      rw [Nat.add_assoc, Nat.add_comm 1]
      exact hrest)
    have hend : p + (BitVec.ofNat 8 l.length :: l ++ wireName labels).length =
        p + 1 + l.length + (wireName labels).length := by
      rw [List.length_append, List.length_cons]
      omega
    rw [hend]
    refine .label (fun h0 => ?_) (by omega) (by rw [hto]; exact hplace)
    rw [h0] at hto
    exact absurd hto (by simp; omega)

variable (idPos) in
/-- A name that is written out is decoded as it is printed, up to its end. -/
theorem readRRname_written (hok : LabelsOk labels) (hat : At data pos.toNat (wireName labels))
    (hlen : data.length < 2 ^ 16) : ∃ q, (readRRname data pos idPos).value = some (printed labels, q) ∧
      q.toNat = pos.toNat + (wireName labels).length := by
  have hwire := length_wireName_pos labels
  have hle := hat.le (List.length_pos_iff.mp hwire)
  have hq : (pos + BitVec.ofNat 32 (wireName labels).length).toNat =
      pos.toNat + (wireName labels).length := by
    bv_omega
  refine ⟨_, (readRRname_eq_some_iff hlen).mpr ⟨?_, labels, (wireName labels).length - 1,
    .written hok hat, by omega, rfl⟩, hq⟩
  rw [hq]
  exact .written hok hat

end Noff.Dns
