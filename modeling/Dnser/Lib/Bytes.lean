import Mathlib.Algebra.Ring.Nat
import Mathlib.Data.List.Basic

/-!
# Byte buffers

Two things every binary format needs, stated once for lists of bytes.

* **Big-endian words.** `be16` and `be32` are the network byte order of a word,
  `ofBe16` and `ofBe32` put the bytes together again.

* **Segments.** `Segment buf p bs` says that `bs` stands in `buf` at offset `p`.
  It splits along `++`, survives every extension of the buffer, and is what a
  reader positioned at `p` gets to rely on.

* **Holes.** `AgreeOff holes buf buf'` says that two buffers differ in nothing but
  the words at `holes`. What holds of every buffer that agrees with this one off its
  holes does not care what is filled into them.
-/

namespace Bytes

/-! ## Big-endian words -/

/-- The bytes of a 16-bit word, most significant first. -/
def be16 (v : UInt16) : List UInt8 :=
  [UInt8.ofNat (v.toNat / 2 ^ 8), UInt8.ofNat v.toNat]

/-- The word two bytes spell, most significant first. -/
def ofBe16 (a b : UInt8) : UInt16 := UInt16.ofNat (a.toNat * 2 ^ 8 + b.toNat)

/-- The bytes of a 32-bit word, most significant first. -/
def be32 (v : UInt32) : List UInt8 :=
  [UInt8.ofNat (v.toNat / 2 ^ 24), UInt8.ofNat (v.toNat / 2 ^ 16),
   UInt8.ofNat (v.toNat / 2 ^ 8), UInt8.ofNat v.toNat]

/-- The word four bytes spell, most significant first. -/
def ofBe32 (a b c d : UInt8) : UInt32 :=
  UInt32.ofNat (a.toNat * 2 ^ 24 + b.toNat * 2 ^ 16 + c.toNat * 2 ^ 8 + d.toNat)

@[simp] theorem length_be16 (v : UInt16) : (be16 v).length = 2 := rfl

@[simp] theorem length_be32 (v : UInt32) : (be32 v).length = 4 := rfl

/-- Reading a written 16-bit word gives it back. -/
theorem ofBe16_be16 (v : UInt16) :
    ofBe16 (UInt8.ofNat (v.toNat / 2 ^ 8)) (UInt8.ofNat v.toNat) = v := by
  have hv := v.toNat_lt
  apply UInt16.toNat_inj.mp
  simp only [ofBe16, UInt16.toNat_ofNat', UInt8.toNat_ofNat']
  omega

/-- Writing a 16-bit word that was read gives its bytes back. -/
theorem be16_ofBe16 (a b : UInt8) : be16 (ofBe16 a b) = [a, b] := by
  have ha := a.toNat_lt
  have hb := b.toNat_lt
  have hword : (ofBe16 a b).toNat = a.toNat * 2 ^ 8 + b.toNat := by
    simp only [ofBe16, UInt16.toNat_ofNat']
    omega
  have hhigh : UInt8.ofNat ((ofBe16 a b).toNat / 2 ^ 8) = a := by
    apply UInt8.toNat_inj.mp
    rw [UInt8.toNat_ofNat', hword]
    omega
  have hlow : UInt8.ofNat (ofBe16 a b).toNat = b := by
    apply UInt8.toNat_inj.mp
    rw [UInt8.toNat_ofNat', hword]
    omega
  rw [be16, hhigh, hlow]

/-- A mask on the more significant byte. -/
theorem ofBe16_and (a b mask : UInt8) :
    ofBe16 a b &&& ofBe16 mask 0 = ofBe16 (a &&& mask) 0 := by
  have ha := a.toNat_lt
  have hb := b.toNat_lt
  have hm := mask.toNat_lt
  have hand : (a &&& mask).toNat = a.toNat &&& mask.toNat := UInt8.toNat_and ..
  have hle : a.toNat &&& mask.toNat ≤ a.toNat := Nat.and_le_left
  apply UInt16.toNat_inj.mp
  simp only [ofBe16, UInt16.toNat_and, UInt16.toNat_ofNat', hand, UInt8.toNat_zero, Nat.add_zero]
  rw [Nat.mod_eq_of_lt (by omega), Nat.mod_eq_of_lt (by omega), Nat.mod_eq_of_lt (by omega)]
  -- bit by bit: the low byte meets zeros only
  apply Nat.eq_of_testBit_eq
  intro i
  rw [Nat.testBit_and, Nat.mul_comm a.toNat, Nat.testBit_two_pow_mul_add _ hb,
    Nat.testBit_mul_two_pow, Nat.testBit_mul_two_pow, Nat.testBit_and]
  by_cases hi : i < 8
  · have h8 : ¬ 8 ≤ i := by omega
    simp [hi, h8]
  · have h8 : 8 ≤ i := by omega
    simp [hi, h8]

/-- Bits set in the more significant byte. -/
theorem be16_or (v : UInt16) (mask : UInt8) :
    be16 (v ||| ofBe16 mask 0) =
      [UInt8.ofNat (v.toNat / 2 ^ 8) ||| mask, UInt8.ofNat v.toNat] := by
  have hm := mask.toNat_lt
  have hmask : (ofBe16 mask 0).toNat = mask.toNat * 2 ^ 8 := by
    simp only [ofBe16, UInt16.toNat_ofNat', UInt8.toNat_zero, Nat.add_zero]
    omega
  have hhigh : (v ||| ofBe16 mask 0).toNat / 2 ^ 8 = v.toNat / 2 ^ 8 ||| mask.toNat := by
    rw [UInt16.toNat_or, hmask, Nat.or_div_two_pow, Nat.mul_div_cancel _ (by decide)]
  have hlow : (v ||| ofBe16 mask 0).toNat % 2 ^ 8 = v.toNat % 2 ^ 8 := by
    rw [UInt16.toNat_or, hmask, Nat.or_mod_two_pow, Nat.mul_mod_left, Nat.or_zero]
  rw [be16, hhigh, UInt8.ofNat_or, UInt8.ofNat_toNat]
  congr 2
  apply UInt8.toNat_inj.mp
  rw [UInt8.toNat_ofNat', UInt8.toNat_ofNat']
  exact hlow

/-- Reading a written 32-bit word gives it back. -/
theorem ofBe32_be32 (v : UInt32) :
    ofBe32 (UInt8.ofNat (v.toNat / 2 ^ 24)) (UInt8.ofNat (v.toNat / 2 ^ 16))
      (UInt8.ofNat (v.toNat / 2 ^ 8)) (UInt8.ofNat v.toNat) = v := by
  have hv := v.toNat_lt
  apply UInt32.toNat_inj.mp
  simp only [ofBe32, UInt32.toNat_ofNat', UInt8.toNat_ofNat']
  omega

/-! ## Segments -/

/-- The bytes `bs` stand in `buf` at offset `p`. -/
def Segment (buf : List UInt8) (p : Nat) (bs : List UInt8) : Prop := bs <+: buf.drop p

variable {buf bs bs' more : List UInt8} {p : Nat} {b : UInt8}

/-- What stands at the end of a buffer that was extended by `bs` and then by anything. -/
theorem segment_append_right (buf bs more : List UInt8) :
    Segment (buf ++ bs ++ more) buf.length bs := by
  rw [Segment, List.append_assoc, List.drop_left]
  exact List.prefix_append bs more

/-- Two segments, one behind the other. -/
theorem segment_append_iff :
    Segment buf p (bs ++ bs') ↔ Segment buf p bs ∧ Segment buf (p + bs.length) bs' := by
  unfold Segment
  rw [← List.drop_drop]
  constructor
  · intro hparts
    obtain ⟨t, ht⟩ := hparts
    rw [← ht, List.append_assoc]
    exact ⟨List.prefix_append _ _, by rw [List.drop_left]; exact List.prefix_append _ _⟩
  · intro hparts
    obtain ⟨⟨t, ht⟩, h⟩ := hparts
    rw [← ht, List.drop_left] at h
    obtain ⟨t', rfl⟩ := h
    exact ⟨t', by rw [← ht, List.append_assoc]⟩

theorem segment_cons_iff :
    Segment buf p (b :: bs) ↔ buf[p]? = some b ∧ Segment buf (p + 1) bs := by
  rw [show b :: bs = [b] ++ bs from rfl, segment_append_iff]
  refine and_congr_left fun _ => ?_
  unfold Segment
  constructor
  · intro hparts
    obtain ⟨t, ht⟩ := hparts
    have := congrArg (fun l => l[0]?) ht
    simpa using this.symm
  · intro h
    obtain ⟨hp, rfl⟩ := List.getElem?_eq_some_iff.mp h
    rw [List.drop_eq_getElem_cons hp]
    exact List.prefix_append [buf[p]] _

/-- A buffer that grows keeps its segments. -/
theorem Segment.mono {buf' : List UInt8} (h : Segment buf p bs) (hb : buf <+: buf') :
    Segment buf' p bs := by
  obtain ⟨t, rfl⟩ := hb
  rcases Nat.le_total p buf.length with hp | hp
  · rw [Segment, List.drop_append_of_le_length hp]
    exact h.trans (List.prefix_append _ _)
  · have hnil : bs = [] := by
      rw [Segment, List.drop_eq_nil_of_le hp] at h
      exact List.prefix_nil.mp h
    rw [hnil]
    exact List.nil_prefix

/-- A nonempty segment lies inside the buffer. -/
theorem Segment.le_length (h : Segment buf p bs) (hp : p ≤ buf.length) :
    p + bs.length ≤ buf.length := by
  have := h.length_le
  rw [List.length_drop] at this
  omega

/-- A nonempty segment starts inside the buffer. -/
theorem Segment.start_le (h : Segment buf p bs) (hne : bs ≠ []) : p ≤ buf.length := by
  have hpos := List.length_pos_of_ne_nil hne
  have hlen := h.length_le
  rw [List.length_drop] at hlen
  omega

/-- A segment is what the slice of its own extent returns. -/
theorem Segment.take_drop (h : Segment buf p bs) : (buf.drop p).take bs.length = bs :=
  (List.prefix_iff_eq_take.mp h).symm

/-- An offset and a length determine a segment. -/
theorem Segment.unique (h : Segment buf p bs) (h' : Segment buf p bs')
    (hlen : bs.length = bs'.length) : bs = bs' := by
  rw [← h.take_drop, ← h'.take_drop, hlen]

/-! ## Holes -/

/-- Equally long buffers that differ only in the two-byte words at `holes`. -/
structure AgreeOff (holes : List Nat) (buf buf' : List UInt8) : Prop where
  length : buf'.length = buf.length
  getElem? : ∀ i, (∀ pos ∈ holes, i ≠ pos ∧ i ≠ pos + 1) → buf'[i]? = buf[i]?

variable {holes : List Nat} {buf' : List UInt8}

theorem AgreeOff.refl (holes : List Nat) (buf : List UInt8) : AgreeOff holes buf buf :=
  ⟨rfl, fun _ _ => rfl⟩

/-- Filling a byte of a hole does not matter. -/
theorem AgreeOff.of_set {i pos : Nat} (hpos : pos ∈ holes) (hi : i = pos ∨ i = pos + 1)
    (h : AgreeOff holes (buf.set i b) buf') : AgreeOff holes buf buf' := by
  refine ⟨by rw [h.length, List.length_set], fun j hj => ?_⟩
  have hne : i ≠ j := by
    have := hj pos hpos
    omega
  rw [h.getElem? j hj, List.getElem?_set_ne hne]

/-- The front of a buffer has the holes that are in it. -/
theorem AgreeOff.take {holes' : List Nat} (h : AgreeOff holes' (buf ++ bs) buf')
    (hsub : ∀ pos ∈ holes', pos ∈ holes ∨ buf.length ≤ pos) :
    AgreeOff holes buf (buf'.take buf.length) := by
  refine ⟨by rw [List.length_take, h.length, List.length_append]; omega, fun i hi => ?_⟩
  rw [List.getElem?_take]
  split
  · rename_i hlt
    rw [h.getElem? i, List.getElem?_append_left hlt]
    intro pos hpos
    rcases hsub pos hpos with hpos | hge
    · exact hi pos hpos
    · omega
  · rw [List.getElem?_eq_none (by omega)]

/-- Behind the last hole there is no difference. -/
theorem AgreeOff.drop (h : AgreeOff holes (buf ++ bs) buf')
    (hin : ∀ pos ∈ holes, pos + 2 ≤ buf.length) : buf'.drop buf.length = bs := by
  refine List.ext_getElem? fun i => ?_
  rw [List.getElem?_drop, h.getElem? (buf.length + i), List.getElem?_append_right (by omega),
    Nat.add_sub_cancel_left]
  intro pos hpos
  have := hin pos hpos
  omega

theorem segment_take_drop (buf : List UInt8) (p n : Nat) : Segment buf p ((buf.drop p).take n) :=
  List.take_prefix _ _

end Bytes
