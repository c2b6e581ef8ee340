import Dnser.Proof.Size
import Dnser.Proof.Wire

/-!
# Length fields

A record says how long its data is in two bytes, and an EDNS option does so again. Both lengths are
counted in full and then narrowed to what two bytes hold, after the data is out. So they are right
exactly if the data fits, and nothing checks that it does.

How long the data gets is known beforehand: `ResourceRecord.rdataSize` works it out from the record
and from what the writer can point to.
-/

namespace Dnser

open Utf8 (Str)
open Bytes Abort

/--
The length fields of a record in `buf` whose owner name ends before `stop`, and which is the last
thing in `buf`: RDLENGTH is the number of bytes behind it, and OPTION-LENGTH that of every option's
data.
-/
structure HonestLengths (rd : RData) (buf : List UInt8) (stop : Nat) : Prop where
  rdlength : (u16At buf (stop + 8)).toNat = buf.length - (stop + 10)
  options : ∀ before o after, rd = .opt (before ++ o :: after) →
    (u16At buf (stop + 10 + (before.flatMap encodeOption).length + 2)).toNat = o.data.length ∧
      Segment buf (stop + 10 + (before.flatMap encodeOption).length + 4) o.data

/-- A record, written: eight bytes behind the name, the length of the data and the data. -/
structure RecordWritten (rr : ResourceRecord) (w₁ w' : Writer) (numbers data : List UInt8) :
    Prop where
  length_numbers : numbers.length = 8
  buf : w'.buf = w₁.buf ++ numbers ++ be16 (UInt16.ofNat data.length) ++ data
  rdata : rr.rdata.write ⟨w₁.buf ++ numbers ++ be16 (UInt16.ofNat data.length), w₁.nameOffsets⟩ =
    .ok ((), w')

theorem recordWritten_of_write {rr : ResourceRecord} {w w₁ w' : Writer}
    (hname : writeName rr.name w = .ok ((), w₁)) (h : rr.write w = .ok ((), w')) :
    ∃ numbers data, RecordWritten rr w₁ w' numbers data := by
  rw [rrWrite_eq, stateT_bind_of_ok hname] at h
  obtain ⟨⟨⟩, w₂, h₂, h⟩ := stateT_bind_eq_ok_iff.mp h
  obtain ⟨⟨⟩, w₃, h₃, h⟩ := stateT_bind_eq_ok_iff.mp h
  obtain ⟨⟨⟩, w₄, h₄, h⟩ := stateT_bind_eq_ok_iff.mp h
  cases h₂
  cases h₃
  cases h₄
  obtain ⟨data, t', hdata, hw'⟩ := writeTail_eq_ok_iff.mp h
  cases hw'
  refine ⟨be16 rr.typeNumber ++ be16 rr.cls.value ++ be32 rr.ttl, data, rfl, ?_, ?_⟩
  · simp only [List.append_assoc]
  · simpa only [List.append_assoc] using hdata

section
variable {rr : ResourceRecord} {w₁ w' : Writer} {numbers data : List UInt8}

theorem RecordWritten.segments (h : RecordWritten rr w₁ w' numbers data) :
    Segment w'.buf (w₁.buf.length + 8) (be16 (UInt16.ofNat data.length)) ∧
      Segment w'.buf (w₁.buf.length + 10) data ∧
      w'.buf.length = w₁.buf.length + 10 + data.length := by
  have hlen := h.length_numbers
  have hfront : (w₁.buf ++ numbers).length = w₁.buf.length + 8 := by
    rw [List.length_append, hlen]
  have hboth := segment_append_right (w₁.buf ++ numbers) (be16 (UInt16.ofNat data.length) ++ data) []
  rw [List.append_nil, ← List.append_assoc, ← h.buf, hfront, segment_append_iff, length_be16] at hboth
  refine ⟨hboth.1, hboth.2, ?_⟩
  rw [h.buf, List.length_append, List.length_append, hfront, length_be16]

/-- The options of an OPT record are its data. -/
theorem RecordWritten.options (h : RecordWritten rr w₁ w' numbers data) {options : List EdnsOption}
    (hopt : rr.rdata = .opt options) : data = options.flatMap encodeOption := by
  have hrun := h.rdata
  rw [hopt, write_opt] at hrun
  cases hrun
  exact (List.append_cancel_left h.buf).symm

/-- **The lengths are right exactly if the data is at most 65535 bytes.** -/
theorem RecordWritten.honest_iff (h : RecordWritten rr w₁ w' numbers data) :
    HonestLengths rr.rdata w'.buf w₁.buf.length ↔ data.length ≤ 65535 := by
  obtain ⟨hsegLen, hsegData, hlen⟩ := h.segments
  have hfield : (u16At w'.buf (w₁.buf.length + 8)).toNat = data.length % 2 ^ 16 := by
    rw [u16At_of_segment hsegLen, UInt16.toNat_ofNat']
  constructor
  · intro hhonest
    have hrd := hhonest.rdlength
    rw [hfield, hlen] at hrd
    omega
  · intro hle
    refine ⟨by rw [hfield, hlen]; omega, fun before o after hopt => ?_⟩
    have hdata := h.options hopt
    have hsize : o.data.length ≤ data.length := by
      rw [hdata, List.flatMap_append, List.flatMap_cons, List.length_append, List.length_append,
        length_encodeOption]
      omega
    rw [hdata, List.flatMap_append, List.flatMap_cons, segment_append_iff, segment_append_iff]
      at hsegData
    -- the option behind those before it: code, length, data
    obtain ⟨-, hoption, -⟩ := hsegData
    rw [encodeOption, segment_append_iff, segment_append_iff] at hoption
    obtain ⟨⟨-, hoptionLen⟩, hoptionData⟩ := hoption
    rw [length_be16] at hoptionLen
    refine ⟨?_, hoptionData⟩
    rw [u16At_of_segment hoptionLen, UInt16.toNat_ofNat']
    omega

end

/-! ## How long the data gets -/

/-- The bytes the data of a record takes when the record is written next: its pieces, measured from
behind the owner name and the ten bytes that follow it. -/
def ResourceRecord.rdataSize (rr : ResourceRecord) (w : Writer) : Nat :=
  let (n, seen) := nameSize w.seen w.buf.length rr.name
  (piecesSize seen (w.buf.length + n + 10) rr.rdata.pieces).1

theorem RecordWritten.length_eq {rr : ResourceRecord} {w w₁ w' : Writer} {numbers data : List UInt8}
    (h : RecordWritten rr w₁ w' numbers data) (hname : writeName rr.name w = .ok ((), w₁)) :
    data.length = rr.rdataSize w := by
  obtain ⟨hsize, hle⟩ := writeName_size hname
  obtain ⟨hlen, -⟩ := Measures.rdata rr.rdata _ _ h.rdata
  obtain ⟨-, -, hlen'⟩ := h.segments
  have hfront : (w₁.buf ++ numbers ++ be16 (UInt16.ofNat data.length)).length =
      w₁.buf.length + 10 := by
    rw [List.length_append, List.length_append, h.length_numbers, length_be16]
  have hseen : (⟨w₁.buf ++ numbers ++ be16 (UInt16.ofNat data.length), w₁.nameOffsets⟩ :
      Writer).seen = w₁.seen := rfl
  dsimp only at hlen
  rw [hseen, hfront, hlen'] at hlen
  rw [ResourceRecord.rdataSize, hsize]
  dsimp only
  rw [Nat.add_sub_cancel' hle]
  omega

/--
**Length fields are right exactly if the data fits.** When a record has been written, to any writer,
its RDLENGTH is the number of bytes of data behind it, and every OPTION-LENGTH the number of bytes of
that option, if and only if the data takes at most 65535 bytes.
-/
theorem lengths_honest_iff (rr : ResourceRecord) (w w₁ w' : Writer)
    (hname : writeName rr.name w = .ok ((), w₁)) (h : rr.write w = .ok ((), w')) :
    HonestLengths rr.rdata w'.buf w₁.buf.length ↔ rr.rdataSize w ≤ 65535 := by
  obtain ⟨numbers, data, hwritten⟩ := recordWritten_of_write hname h
  rw [hwritten.honest_iff, hwritten.length_eq hname]

/-- A record of type 99 for the root. -/
def rawRecord (data : List UInt8) : ResourceRecord :=
  { name := Str.empty, cls := Class.IN, ttl := 0, rdata := .unknown 99 data }

/-- Its type, its class and its TTL. -/
def rawNumbers : List UInt8 := be16 99 ++ be16 1 ++ be32 0

/-- The writer that has written it. -/
def rawWritten (data : List UInt8) : Writer :=
  ⟨[0] ++ rawNumbers ++ be16 (UInt16.ofNat data.length) ++ data, []⟩

theorem write_rawRecord (data : List UInt8) :
    (rawRecord data).write Writer.new = .ok ((), rawWritten data) := by
  have hname : writeName (rawRecord data).name Writer.new = .ok ((), ⟨[0], []⟩) := rfl
  have hdata : (rawRecord data).rdata.write ⟨[0] ++ rawNumbers ++ be16 0, []⟩ =
      .ok ((), ⟨[0] ++ rawNumbers ++ be16 0 ++ data, []⟩) := rfl
  rw [rrWrite_eq, stateT_bind_of_ok hname]
  exact writeTail_of_ok hdata

theorem rawRecord_honest : HonestLengths (rawRecord [7]).rdata (rawWritten [7]).buf 1 :=
  (lengths_honest_iff (rawRecord [7]) Writer.new ⟨[0], []⟩ (rawWritten [7]) rfl
    (write_rawRecord [7])).mpr (by decide)

/-- One byte more than a length field can count. -/
def longData : List UInt8 := List.replicate 65536 0

/-- Its RDLENGTH comes out as zero. -/
theorem rawRecord_dishonest :
    writeName (rawRecord longData).name Writer.new = .ok ((), ⟨[0], []⟩) ∧
      (rawRecord longData).write Writer.new = .ok ((), rawWritten longData) ∧
      ¬ HonestLengths (rawRecord longData).rdata (rawWritten longData).buf 1 := by
  refine ⟨rfl, write_rawRecord longData, fun hhonest => ?_⟩
  have hwritten : RecordWritten (rawRecord longData) ⟨[0], []⟩ (rawWritten longData) rawNumbers
      longData := ⟨rfl, rfl, rfl⟩
  have hle := hwritten.honest_iff.mp hhonest
  rw [longData, List.length_replicate] at hle
  omega

end Dnser
