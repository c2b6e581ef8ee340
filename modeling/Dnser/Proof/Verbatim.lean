import Dnser.Proof.Wire

/-!
# Record data without names

What a record of a type without names holds is read and written byte for byte. For addresses and for
types nobody knows this is plain. TXT and OPT take their data apart, in a loop that counts down what
is left of the record while the cursor moves on by itself, and `readItems_eq_ok_iff` says what comes
of the two together: the loop accepts the data exactly if it splits into items without remainder, and
returns these items.
-/

namespace Dnser

open Utf8 (Str)
open Bytes Abort Loop

/-! ## Items -/

section
variable {η ι : Type} {headLen : Nat} {head : ReadM (η × Nat)} {mk : η → List UInt8 → ι}
  {encode : ι → List UInt8} {Fits : ι → Prop} {hpos : 0 < headLen}

/-- **Record data made of items is accepted exactly if it splits without remainder.** -/
theorem ItemFormat.measured_eq_ok_iff (F : ItemFormat headLen head mk encode Fits)
    {f : List ι → RData} {buf : List UInt8} {q rdlen : Nat} {rd : RData} {r : Reader} :
    measured rdlen (readItems headLen head mk hpos rdlen >>= fun items => pure (f items)) ⟨buf, q⟩ =
        .ok (rd, r) ↔
      ∃ items, rd = f items ∧ Segment buf q (items.flatMap encode) ∧
        (items.flatMap encode).length = rdlen ∧ (∀ x ∈ items, Fits x) ∧ r = ⟨buf, q + rdlen⟩ := by
  rw [Dnser.measured_eq_ok_iff, stateT_bind_eq_ok_iff]
  constructor
  · intro hrun
    obtain ⟨⟨items, r₁, hitems, hpure⟩, -⟩ := hrun
    cases hpure
    exact ⟨items, rfl, F.readItems_eq_ok_iff.mp hitems⟩
  · intro hparts
    obtain ⟨items, rfl, hseg, hlen, hall, rfl⟩ := hparts
    exact ⟨⟨items, _, F.readItems_eq_ok_iff.mpr ⟨hseg, hlen, hall, rfl⟩, rfl⟩, rfl⟩

end

/-! ## Record data -/

section
variable {rdlen : UInt16} {buf : List UInt8} {q : Nat} {rd : RData} {r : Reader}

theorem parse_txt_eq_ok_iff :
    RData.parse RecordType.txt.toU16 rdlen ⟨buf, q⟩ = .ok (rd, r) ↔
      ∃ chunks, rd = .txt chunks ∧ Segment buf q (chunks.flatMap encodeChunk) ∧
        (chunks.flatMap encodeChunk).length = rdlen.toNat ∧ (∀ c ∈ chunks, c.length ≤ 255) ∧
        r = ⟨buf, q + rdlen.toNat⟩ :=
  txtFormat.measured_eq_ok_iff

theorem parse_opt_eq_ok_iff :
    RData.parse RecordType.opt.toU16 rdlen ⟨buf, q⟩ = .ok (rd, r) ↔
      ∃ options, rd = .opt options ∧ Segment buf q (options.flatMap encodeOption) ∧
        (options.flatMap encodeOption).length = rdlen.toNat ∧
        (∀ o ∈ options, o.data.length ≤ 65535) ∧ r = ⟨buf, q + rdlen.toNat⟩ :=
  optFormat.measured_eq_ok_iff

/-- Record data stands in the buffer as `data`, and is written as `data`. -/
def Verbatim (buf : List UInt8) (q n : Nat) (rd : RData) : Prop :=
  ∃ data, Segment buf q data ∧ data.length = n ∧
    ∀ w, rd.write w = .ok ((), { w with buf := w.buf ++ data })

/-- An address. -/
theorem verbatim_address {n : Nat} (m : UInt16) (hm : m.toNat = n) (mk : Octets n → RData)
    (hwrite : ∀ addr, (mk addr).write = writeBytes addr.bytes)
    (h : (if rdlen ≠ m then readErr .rdataLengthMismatch
      else do
        let b ← readBytes n
        let addr ← toOctets n b
        pure (mk addr) : ReadM RData) ⟨buf, q⟩ = .ok (rd, r)) : Verbatim buf q rdlen.toNat rd := by
  split at h
  · cases h
  rename_i hrdlen
  obtain rfl : rdlen = m := by simpa using hrdlen
  obtain ⟨bs, r₁, hbs, h⟩ := stateT_bind_eq_ok_iff.mp h
  obtain ⟨hseg, hlen, rfl⟩ := segment_of_readBytes hbs
  obtain ⟨addr, r₂, haddr, h⟩ := stateT_bind_eq_ok_iff.mp h
  unfold toOctets at haddr
  rw [dif_pos hlen] at haddr
  cases haddr
  cases h
  exact ⟨bs, hseg, hlen.trans hm.symm, fun w => by rw [hwrite]; rfl⟩

/-- **Record data of a type without names is written as it was read.** -/
theorem verbatim_of_parse {t : UInt16} (ht : t ∉ namedTypes)
    (h : RData.parse t rdlen ⟨buf, q⟩ = .ok (rd, r)) : Verbatim buf q rdlen.toNat rd := by
  by_cases hm : t ∈ modelledTypes
  · have hcases : t = 1 ∨ t = 16 ∨ t = 28 ∨ t = 41 := by
      simp only [modelledTypes, namedTypes, List.mem_cons, List.not_mem_nil, or_false, not_or]
        at hm ht
      tauto
    rcases hcases with rfl | rfl | rfl | rfl
    · exact verbatim_address 4 rfl .a (fun _ => rfl) (measured_eq_ok_iff.mp h).1
    · obtain ⟨chunks, rfl, hseg, hlen, hall, -⟩ := parse_txt_eq_ok_iff.mp h
      exact ⟨_, hseg, hlen, write_txt hall⟩
    · exact verbatim_address 16 rfl .aaaa (fun _ => rfl) (measured_eq_ok_iff.mp h).1
    · obtain ⟨options, rfl, hseg, hlen, -, -⟩ := parse_opt_eq_ok_iff.mp h
      exact ⟨_, hseg, hlen, write_opt options⟩
  · obtain ⟨hinner, -⟩ := measured_eq_ok_iff.mp h
    rw [parseInner_unknown hm] at hinner
    obtain ⟨data, r₁, hdata, hinner⟩ := stateT_bind_eq_ok_iff.mp hinner
    cases hinner
    obtain ⟨hseg, hlen, -⟩ := segment_of_readBytes hdata
    exact ⟨data, hseg, hlen, fun w => rfl⟩

end

/--
**Record data without names survives byte for byte.** For every type but NS, CNAME, SOA, PTR, MX and
SRV, what was parsed is written as the `rdlen` bytes it was read from, to any writer. And the data of
a TXT or an OPT record is accepted exactly if these bytes are there and split without remainder: into
chunks with their length in one byte, or into options with a code and their length in two bytes.
-/
theorem rdata_verbatim (rdlen : UInt16) (buf : List UInt8) (q : Nat) :
    (∀ t rd r, t ∉ namedTypes → RData.parse t rdlen ⟨buf, q⟩ = .ok (rd, r) →
      ((buf.drop q).take rdlen.toNat).length = rdlen.toNat ∧ ∀ w, rd.write w =
        .ok ((), { w with buf := w.buf ++ (buf.drop q).take rdlen.toNat })) ∧
    ((∃ rd r, RData.parse RecordType.txt.toU16 rdlen ⟨buf, q⟩ = .ok (rd, r)) ↔
      ∃ chunks : List (List UInt8), Segment buf q (chunks.flatMap encodeChunk) ∧
        (chunks.flatMap encodeChunk).length = rdlen.toNat ∧ ∀ c ∈ chunks, c.length ≤ 255) ∧
    ((∃ rd r, RData.parse RecordType.opt.toU16 rdlen ⟨buf, q⟩ = .ok (rd, r)) ↔
      ∃ options : List EdnsOption, Segment buf q (options.flatMap encodeOption) ∧
        (options.flatMap encodeOption).length = rdlen.toNat ∧
        ∀ o ∈ options, o.data.length ≤ 65535) := by
  refine ⟨fun t rd r ht h => ?_, ?_, ?_⟩
  · obtain ⟨data, hseg, hlen, hwrite⟩ := verbatim_of_parse ht h
    rw [← hlen, hseg.take_drop]
    exact ⟨rfl, hwrite⟩
  · constructor
    · intro hrun
      obtain ⟨rd, r, hrun⟩ := hrun
      obtain ⟨chunks, -, hseg, hlen, hall, -⟩ := parse_txt_eq_ok_iff.mp hrun
      exact ⟨chunks, hseg, hlen, hall⟩
    · intro hparts
      obtain ⟨chunks, hseg, hlen, hall⟩ := hparts
      exact ⟨_, _, parse_txt_eq_ok_iff.mpr ⟨chunks, rfl, hseg, hlen, hall, rfl⟩⟩
  · constructor
    · intro hrun
      obtain ⟨rd, r, hrun⟩ := hrun
      obtain ⟨options, -, hseg, hlen, hall, -⟩ := parse_opt_eq_ok_iff.mp hrun
      exact ⟨options, hseg, hlen, hall⟩
    · intro hparts
      obtain ⟨options, hseg, hlen, hall⟩ := hparts
      exact ⟨_, _, parse_opt_eq_ok_iff.mpr ⟨options, rfl, hseg, hlen, hall, rfl⟩⟩

end Dnser
