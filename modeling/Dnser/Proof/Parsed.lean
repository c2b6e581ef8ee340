import Dnser.Proof.Encodes

/-!
# What the parser returns

`Reads p P` says of every successful run of `p` that it stays inside the buffer it was
given, moves forward, and returns a value that satisfies `P` together with the number of
bytes it took. As for the writer, sequencing composes, and what holds of a parsed message
is read off the parser.

A parsed message fits (`Message.Fits`) in everything but its names: a name that was read is
short enough, and so is every piece of it between two dots, but a piece may be empty. The
wire allows a label to hold the byte `'.'`, and the string does not tell it from a separator.
-/

namespace Dnser

open Utf8 (Str)
open Bytes Abort Loop

/-- Every successful run returns, and takes, what `P` says. -/
def Reads {α : Type} (p : ReadM α) (P : α → Nat → Prop) : Prop :=
  ∀ r a r', p r = .ok (a, r') → r.pos ≤ r.buf.length →
    ∃ n, r' = ⟨r.buf, r.pos + n⟩ ∧ r.pos + n ≤ r.buf.length ∧ P a n

namespace Reads

variable {α β : Type} {p : ReadM α} {P : α → Nat → Prop}

theorem mono {Q : α → Nat → Prop} (h : Reads p P) (hPQ : ∀ a n, P a n → Q a n) : Reads p Q := by
  intro r a r' hrun hpos
  obtain ⟨n, hr, hn, hP⟩ := h r a r' hrun hpos
  exact ⟨n, hr, hn, hPQ a n hP⟩

theorem pure {a : α} (h : P a 0) : Reads (Pure.pure a) P := by
  intro r a' r' hrun hpos
  cases hrun
  exact ⟨0, rfl, hpos, h⟩

theorem readErr (e : ParseError) : Reads (readErr e) P := by
  intro r a r' hrun
  cases hrun

/-- **Sequencing.** The second parse owes what is left of the promise. -/
theorem bind {k : α → ReadM β} {Q : β → Nat → Prop} (h : Reads p P)
    (hk : ∀ a n, P a n → Reads (k a) fun b n' => Q b (n + n')) : Reads (p >>= k) Q := by
  intro r b r' hrun hpos
  obtain ⟨a, r₁, h₁, h₂⟩ := stateT_bind_eq_ok_iff.mp hrun
  obtain ⟨n, rfl, hn, hP⟩ := h r a r₁ h₁ hpos
  obtain ⟨n', rfl, hn', hQ⟩ := hk a n hP _ b r' h₂ hn
  exact ⟨n + n', by rw [Nat.add_assoc], by dsimp only at hn'; omega, hQ⟩

theorem readU8 : Reads readU8 fun _ n => n = 1 := by
  intro r v r' hrun _
  unfold Dnser.readU8 at hrun
  split at hrun
  · rename_i hb
    cases hrun
    exact ⟨1, rfl, (List.getElem?_eq_some_iff.mp hb).1, rfl⟩
  · cases hrun

theorem getRange_eq_some {buf bs : List UInt8} {i k : Nat} (h : getRange buf i (i + k) = some bs) :
    i + k ≤ buf.length := by
  unfold getRange at h
  split at h
  · omega
  · cases h

theorem readU16 : Reads readU16 fun _ n => n = 2 := by
  intro r v r' hrun _
  unfold Dnser.readU16 at hrun
  split at hrun
  · cases hrun
  · rename_i h
    cases hrun
    exact ⟨2, rfl, getRange_eq_some h, rfl⟩
  · cases hrun

theorem readU32 : Reads readU32 fun _ n => n = 4 := by
  intro r v r' hrun _
  unfold Dnser.readU32 at hrun
  split at hrun
  · cases hrun
  · rename_i h
    cases hrun
    exact ⟨4, rfl, getRange_eq_some h, rfl⟩
  · cases hrun

theorem readBytes (k : Nat) : Reads (readBytes k) fun bs n => n = k ∧ bs.length = k := by
  intro r bs r' hrun _
  simp only [Dnser.readBytes] at hrun
  split at hrun
  · cases hrun
  rename_i hle
  obtain ⟨bs', hs, hrun⟩ := bind_eq_ok_iff.mp hrun
  rw [slice_of_le (by omega) (by omega)] at hs
  cases hs
  cases hrun
  refine ⟨k, rfl, by omega, rfl, ?_⟩
  simp
  omega

/-- A counted section: one item after the other. -/
theorem parseSection (P : α → Prop) (c : Nat) (h : Reads p fun a n => c ≤ n ∧ P a) (k : Nat) :
    Reads (parseSection p k) fun as n => c * k ≤ n ∧ as.length = k ∧ ∀ a ∈ as, P a := by
  induction k with
  | zero => exact pure (by simp)
  | succ k ih =>
      refine h.bind fun a n ⟨hn, ha⟩ => ih.bind fun as n' ⟨hn', hlen, has⟩ => pure ⟨?_, ?_, ?_⟩
      · rw [Nat.mul_succ]
        omega
      · simp [hlen]
      · simpa using ⟨ha, has⟩

end Reads

/-! ## Names -/

/-- A name that came off the wire: short, and in short pieces. -/
def ReadableName (name : Str) : Prop :=
  name.len ≤ maxNameLen ∧ ∀ l ∈ labelsOf name.bytes, l.length ≤ 63

theorem length_le_of_mem_splitDots {bs l : List UInt8} (h : l ∈ splitDots bs) :
    l.length ≤ bs.length := by
  have hjoin := joinDots_splitDots bs
  obtain ⟨xs, ys, hsplit⟩ := List.append_of_mem h
  rw [hsplit] at hjoin
  have hlen : ∀ zs : List (List UInt8), l.length ≤ (joinDots (zs ++ l :: ys)).length := by
    intro zs
    induction zs with
    | nil =>
        cases ys with
        | nil => simp
        | cons y ys => simp [joinDots_cons_cons]
    | cons z zs ih =>
        cases zs with
        | nil =>
            simp only [List.nil_append, List.cons_append] at ih ⊢
            rw [joinDots_cons_cons]
            simp
            omega
        | cons z' zs =>
            simp only [List.cons_append] at ih ⊢
            rw [joinDots_cons_cons]
            simp
            omega
  rw [← hjoin]
  exact hlen xs

/-- The pieces of joined labels are the pieces of the labels. -/
theorem splitDots_joinDots_eq_flatMap {ls : List (List UInt8)} (hne : ls ≠ []) :
    splitDots (joinDots ls) = ls.flatMap splitDots := by
  induction ls with
  | nil => exact absurd rfl hne
  | cons l ls ih =>
      cases ls with
      | nil => simp
      | cons l' ls =>
          have hsplit : splitDots (joinDots (l :: l' :: ls)) =
              splitDots l ++ splitDots (joinDots (l' :: ls)) := by
            rw [joinDots_cons_cons, splitDots, List.splitOn_append_cons_self]
            rfl
          rw [hsplit, ih (by simp)]
          rfl

/-- The same of a name, which is empty when there are no labels. -/
theorem labelsOf_joinDots {ls : List (List UInt8)} (h : ∀ l ∈ ls, 1 ≤ l.length) :
    labelsOf (joinDots ls) = ls.flatMap splitDots := by
  cases ls with
  | nil => rfl
  | cons l ls =>
      have hlen := length_le_joinDots h
      have hne : joinDots (l :: ls) ≠ [] := by
        refine List.ne_nil_of_length_pos ?_
        rw [List.length_cons] at hlen
        omega
      rw [labelsOf, if_neg (by simpa using hne), splitDots_joinDots_eq_flatMap (by simp)]

/-- A piece of joined labels is a piece of one of them. -/
theorem mem_labelsOf_joinDots {ls : List (List UInt8)} {x : List UInt8}
    (h : ∀ l ∈ ls, 1 ≤ l.length) :
    x ∈ labelsOf (joinDots ls) ↔ ∃ l ∈ ls, x ∈ splitDots l := by
  rw [labelsOf_joinDots h, List.mem_flatMap]

/-- The string of a name is its labels with dots between them. -/
theorem bytes_of_readName {r r' : Reader} {name : Str} (h : readName r = .ok (name, r')) :
    ∃ ls jumps, Spells r.buf r.pos ls jumps r'.pos ∧ r'.buf = r.buf ∧ name.len ≤ maxNameLen ∧
      name.bytes = joinDots ls := by
  obtain ⟨labels, jumps, stop, hsp, -, rfl, hlen, rfl⟩ := readName_eq_ok_iff.mp h
  refine ⟨labels.map Str.bytes, jumps, hsp, rfl, hlen, bytes_joinLabels fun l hl => ?_⟩
  exact List.ne_nil_of_length_pos (hsp.label_length l.bytes (List.mem_map_of_mem hl)).1

theorem Reads.readName : Reads readName fun name n => 1 ≤ n ∧ ReadableName name := by
  rintro r name ⟨buf, stop⟩ hrun -
  obtain ⟨ls, jumps, hsp, rfl, hlen, hbytes⟩ := bytes_of_readName hrun
  have hb := hsp.bounds
  dsimp only at hb
  refine ⟨stop - r.pos, by rw [Nat.add_sub_cancel' (by omega)], by omega, by omega, hlen, ?_⟩
  intro x hx
  rw [hbytes, mem_labelsOf_joinDots fun l hl => (hsp.label_length l hl).1] at hx
  obtain ⟨l, hl, hx⟩ := hx
  exact Nat.le_trans (length_le_of_mem_splitDots hx) (hsp.label_length l hl).2

/-! ## Record data -/

/-- **The item loop uses up its length exactly**, and so stays inside the buffer. -/
theorem ItemFormat.reads {η ι : Type} {headLen : Nat} {head : ReadM (η × Nat)}
    {mk : η → List UInt8 → ι} {encode : ι → List UInt8} {Fits : ι → Prop} {hpos : 0 < headLen}
    (F : ItemFormat headLen head mk encode Fits) (rdlen : Nat) :
    Reads (readItems headLen head mk hpos rdlen) fun items _ =>
      (items.flatMap encode).length = rdlen ∧ ∀ x ∈ items, Fits x := by
  rintro ⟨buf, q⟩ items r' hrun hle
  obtain ⟨hseg, hlen, hall, rfl⟩ := F.readItems_eq_ok_iff.mp hrun
  have hend := hseg.le_length hle
  rw [hlen] at hend
  exact ⟨rdlen, rfl, hend, hlen, hall⟩

/-- What `RData::parse` returns for type number `t`. -/
structure RData.Parsed (t : UInt16) (rd : RData) : Prop where
  typeNumber : rd.typeNumber = t
  sizes : rd.SizesOk
  names : ∀ n ∈ rd.names, ReadableName n

theorem Reads.toOctets {k : Nat} {bs : List UInt8} :
    Reads (toOctets k bs) fun _ n => n = 0 := by
  intro r addr r' hrun hle
  unfold Dnser.toOctets at hrun
  split at hrun
  · cases hrun
    exact ⟨0, rfl, hle, rfl⟩
  · cases hrun

theorem Reads.readTxt (rdlen : UInt16) :
    Reads (readTxt rdlen.toNat) fun chunks _ => (RData.txt chunks).SizesOk := by
  refine (txtFormat.reads rdlen.toNat).mono ?_
  rintro chunks n ⟨hlen, hc⟩
  have hlt := rdlen.toNat_lt
  rw [length_flatMap_encodeChunk] at hlen
  exact ⟨hc, by omega⟩

theorem Reads.readOpt (rdlen : UInt16) :
    Reads (readOpt rdlen.toNat) fun options _ => (RData.opt options).SizesOk := by
  refine (optFormat.reads rdlen.toNat).mono ?_
  rintro options n ⟨hlen, ho⟩
  have hlt := rdlen.toNat_lt
  rw [length_flatMap_encodeOption] at hlen
  exact ⟨ho, by omega⟩

theorem Reads.parseInner (t rdlen : UInt16) :
    Reads (RData.parseInner t rdlen) fun rd _ => rd.Parsed t := by
  have hone : ∀ (rd : RData) {name : Str}, rd.SizesOk → rd.names = [name] → ReadableName name →
      rd.Parsed rd.typeNumber := by
    intro rd name hs hnames hr
    exact ⟨rfl, hs, by rw [hnames]; simpa using hr⟩
  have hnone : ∀ rd : RData, rd.SizesOk → rd.names = [] → rd.Parsed rd.typeNumber := by
    intro rd hs hnames
    exact ⟨rfl, hs, by rw [hnames]; simp⟩
  by_cases ht : t ∈ modelledTypes
  · simp only [modelledTypes, List.mem_cons, List.not_mem_nil, or_false] at ht
    rcases ht with rfl | rfl | rfl | rfl | rfl | rfl | rfl | rfl | rfl | rfl
    · show Reads (if rdlen ≠ 4 then _ else _) _
      split
      · exact Reads.readErr _
      · exact (Reads.readBytes 4).bind fun b _ _ => Reads.toOctets.bind fun addr _ _ =>
          Reads.pure (hnone (.a addr) trivial rfl)
    · exact Reads.readName.bind fun name _ h => Reads.pure (hone (.ns name) trivial rfl h.2)
    · exact Reads.readName.bind fun name _ h => Reads.pure (hone (.cname name) trivial rfl h.2)
    · refine Reads.readName.bind fun mname _ hm => Reads.readName.bind fun rname _ hr =>
        Reads.readU32.bind fun serial _ _ => Reads.readU32.bind fun refresh _ _ =>
        Reads.readU32.bind fun retry _ _ => Reads.readU32.bind fun expire _ _ =>
        Reads.readU32.bind fun minimum _ _ => Reads.pure ⟨rfl, trivial, ?_⟩
      simpa [RData.names] using ⟨hm.2, hr.2⟩
    · exact Reads.readName.bind fun name _ h => Reads.pure (hone (.ptr name) trivial rfl h.2)
    · exact Reads.readU16.bind fun preference _ _ => Reads.readName.bind fun name _ h =>
        Reads.pure (hone (.mx preference name) trivial rfl h.2)
    · exact (Reads.readTxt rdlen).bind fun chunks _ h => Reads.pure (hnone (.txt chunks) h rfl)
    · show Reads (if rdlen ≠ 16 then _ else _) _
      split
      · exact Reads.readErr _
      · exact (Reads.readBytes 16).bind fun b _ _ => Reads.toOctets.bind fun addr _ _ =>
          Reads.pure (hnone (.aaaa addr) trivial rfl)
    · exact Reads.readU16.bind fun priority _ _ => Reads.readU16.bind fun weight _ _ =>
        Reads.readU16.bind fun port _ _ => Reads.readName.bind fun name _ h =>
          Reads.pure (hone (.srv priority weight port name) trivial rfl h.2)
    · exact (Reads.readOpt rdlen).bind fun options _ h =>
        Reads.pure (hnone (.opt options) h rfl)
  · rw [parseInner_unknown ht]
    refine (Reads.readBytes _).bind fun data _ h => Reads.pure ⟨rfl, ⟨?_, ht⟩, by simp [RData.names]⟩
    have := rdlen.toNat_lt
    omega

/-- What `parse` reads, if it is `n` bytes: `RData::parse` around `RData::parse_inner`. -/
def measured {α : Type} (n : Nat) (parse : ReadM α) : ReadM α := do
  let start ← readerPos
  let a ← parse
  let pos ← readerPos
  let used ← StateT.lift (sub pos start)
  if used ≠ n then readErr .rdataLengthMismatch
  else pure a

section
variable {α : Type} {p : ReadM α} {r r' : Reader} {a : α}

theorem measured_of_error {e : Abort ParseError} (h : p r = .error e) (n : Nat) :
    measured n p r = .error e := by
  rw [measured, stateT_bind_of_ok (show readerPos r = .ok (r.pos, r) from rfl),
    stateT_bind_of_error h]

/-- The subtraction is fine if the cursor moved forward. -/
theorem measured_of_ok (h : p r = .ok (a, r')) (hle : r.pos ≤ r'.pos) (n : Nat) :
    measured n p r =
      if r'.pos - r.pos ≠ n then .error (.err .rdataLengthMismatch) else .ok (a, r') := by
  have hlift : (StateT.lift (sub r'.pos r.pos) : ReadM Nat) r' = .ok (r'.pos - r.pos, r') := by
    unfold StateT.lift
    rw [sub_of_le hle]
    rfl
  rw [measured, stateT_bind_of_ok (show readerPos r = .ok (r.pos, r) from rfl),
    stateT_bind_of_ok h, stateT_bind_of_ok (show readerPos r' = .ok (r'.pos, r') from rfl),
    stateT_bind_of_ok hlift]
  split <;> rfl

theorem measured_eq_ok_iff {n : Nat} :
    measured n p r = .ok (a, r') ↔ p r = .ok (a, r') ∧ r'.pos = r.pos + n := by
  constructor
  · intro hrun
    obtain ⟨start, r₁, hstart, hrun⟩ := stateT_bind_eq_ok_iff.mp hrun
    cases hstart
    obtain ⟨a', r₂, hp, hrun⟩ := stateT_bind_eq_ok_iff.mp hrun
    obtain ⟨pos, r₃, hpos, hrun⟩ := stateT_bind_eq_ok_iff.mp hrun
    cases hpos
    obtain ⟨used, r₄, hused, hrun⟩ := stateT_bind_eq_ok_iff.mp hrun
    obtain ⟨used', hsub, hlift⟩ := bind_eq_ok_iff.mp hused
    cases hlift
    unfold sub at hsub
    split at hsub
    · cases hsub
      split at hrun
      · cases hrun
      · cases hrun
        exact ⟨hp, by omega⟩
    · cases hsub
  · intro hparts
    obtain ⟨hp, hpos⟩ := hparts
    rw [measured_of_ok hp (by omega), if_neg (by omega)]

/-- What was measured is that long. -/
theorem Reads.measured {P : α → Nat → Prop} (h : Reads p P) (n : Nat) :
    Reads (measured n p) fun a k => k = n ∧ P a k := by
  intro r a r' hrun hle
  obtain ⟨hp, hpos⟩ := measured_eq_ok_iff.mp hrun
  obtain ⟨k, rfl, hk, hP⟩ := h r a r' hp hle
  dsimp only at hpos
  exact ⟨k, rfl, hk, by omega, hP⟩

end

/-- **Record data is read within its length.** -/
theorem Reads.rdataParse (t rdlen : UInt16) :
    Reads (RData.parse t rdlen) fun rd n => n = rdlen.toNat ∧ rd.Parsed t :=
  (Reads.parseInner t rdlen).measured rdlen.toNat

/-! ## Records, questions, messages -/

theorem Reads.resourceRecord : Reads ResourceRecord.parse fun rr n =>
    11 ≤ n ∧ rr.rdata.SizesOk ∧ ∀ name ∈ rr.names, ReadableName name := by
  refine Reads.readName.bind fun name n₁ h₁ => Reads.readU16.bind fun t n₂ h₂ =>
    Reads.readU16.bind fun cls n₃ h₃ => Reads.readU32.bind fun ttl n₄ h₄ =>
    Reads.readU16.bind fun rdlen n₅ h₅ => (Reads.rdataParse t rdlen).bind fun rd n₆ h₆ =>
      Reads.pure ⟨by omega, h₆.2.sizes, ?_⟩
  intro x hx
  rcases List.mem_cons.mp hx with rfl | hx
  · exact h₁.2
  · exact h₆.2.names x hx

theorem Reads.question : Reads Question.parse fun q n =>
    5 ≤ n ∧ q.qclass.isKnown = true ∧ ReadableName q.name := by
  refine Reads.readName.bind fun name n₁ h₁ => Reads.readU16.bind fun t n₂ h₂ => ?_
  split
  · exact Reads.readErr _
  · refine Reads.readU16.bind fun cls n₃ h₃ => ?_
    dsimp only
    split
    · exact Reads.readErr _
    · rename_i hknown
      exact Reads.pure ⟨by omega, by simpa using hknown, h₁.2⟩

theorem Reads.header : Reads Header.parse fun h n => n = 12 ∧ h.flags &&& Header.Z = 0 := by
  refine Reads.readU16.bind fun id n₁ h₁ => Reads.readU16.bind fun flags n₂ h₂ => ?_
  split
  · exact Reads.readErr _
  · rename_i hz
    exact Reads.readU16.bind fun qd n₃ h₃ => Reads.readU16.bind fun an n₄ h₄ =>
      Reads.readU16.bind fun ns n₅ h₅ => Reads.readU16.bind fun ar n₆ h₆ =>
        Reads.pure ⟨by omega, by simpa using hz⟩

theorem Message.names_of_sections {P : Str → Prop} {m : Message}
    (hq : ∀ q ∈ m.questions, P q.name) (hrr : ∀ rr ∈ m.records, ∀ n ∈ rr.names, P n) :
    ∀ n ∈ m.names, P n := by
  intro n hn
  rcases List.mem_append.mp hn with hn | hn
  · obtain ⟨q, hmem, rfl⟩ := List.mem_map.mp hn
    exact hq q hmem
  · obtain ⟨rr, hmem, hn⟩ := List.mem_flatMap.mp hn
    exact hrr rr hmem n hn

theorem Reads.message : Reads Message.parseM fun m n =>
    12 + 11 * m.additional.length ≤ n ∧ m.Fits ReadableName := by
  refine Reads.header.bind fun h n₀ hh =>
    (Reads.parseSection _ 5 Reads.question h.qdCount.toNat).bind fun qs n₁ hq =>
    (Reads.parseSection _ 11 Reads.resourceRecord h.anCount.toNat).bind fun an n₂ han =>
    (Reads.parseSection _ 11 Reads.resourceRecord h.nsCount.toNat).bind fun ns n₃ hns =>
    (Reads.parseSection _ 11 Reads.resourceRecord h.arCount.toNat).bind fun ar n₄ har =>
      Reads.pure ⟨?_, ?_⟩
  · dsimp only
    omega
  · have hrecords : ∀ rr ∈ an ++ ns ++ ar, rr.rdata.SizesOk ∧ ∀ n ∈ rr.names, ReadableName n := by
      intro rr hrr
      rcases List.mem_append.mp hrr with hrr | hrr
      · rcases List.mem_append.mp hrr with hrr | hrr
        · exact han.2.2 rr hrr
        · exact hns.2.2 rr hrr
      · exact har.2.2 rr hrr
    exact
      { qdCount := hq.2.1.symm
        anCount := han.2.1.symm
        nsCount := hns.2.1.symm
        arCount := har.2.1.symm
        reserved := hh.2
        classes := fun q hmem => (hq.2.2 q hmem).1
        sizes := fun rr hmem => (hrecords rr hmem).1
        names := Message.names_of_sections (fun q hmem => (hq.2.2 q hmem).2)
          (fun rr hmem => (hrecords rr hmem).2) }

/-- **What was parsed fits**, but for dots inside labels. -/
theorem fits_of_parse {b : List UInt8} {m : Message} (h : Message.parse b = .ok m) :
    m.Fits ReadableName ∧ 12 + 11 * m.additional.length ≤ b.length := by
  obtain ⟨⟨m', r'⟩, hrun, rfl⟩ := map_eq_ok_iff.mp h
  obtain ⟨n, -, hn, hle, hfits⟩ := Reads.message _ _ _ hrun (Nat.zero_le _)
  exact ⟨hfits, by dsimp only at hn ⊢; omega⟩

end Dnser
