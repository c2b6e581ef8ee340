import Dnser.Proof.Codec

/-!
# Decoding undoes encoding

The round trip of whole messages. The work is done by now: names are read back by
`EncodesIn.name`, sequences by `EncodesIn.bind`. What is left is the record data, whose
parser is told the length of what it reads, and the assembly.

Everything is first stated for messages that may carry trailing dots in their names, which
the writer drops; a `WellFormedName` then leaves nothing to drop.
-/

namespace Dnser

open Utf8 (Str)
open Bytes Abort

/-! ## The names of a message -/

/-- The names inside record data. -/
def RData.names : RData → List Str
  | .ns name => [name]
  | .cname name => [name]
  | .ptr name => [name]
  | .mx _ exchange => [exchange]
  | .soa mname rname _ _ _ _ _ => [mname, rname]
  | .srv _ _ _ target => [target]
  | _ => []

/-- The owner name of a record, and the names inside its data. -/
def ResourceRecord.names (rr : ResourceRecord) : List Str := rr.name :: rr.rdata.names

/-- The records of a message, section by section. -/
def Message.records (m : Message) : List ResourceRecord := m.answers ++ m.authority ++ m.additional

/-- Every name of a message. -/
def Message.names (m : Message) : List Str :=
  m.questions.map Question.name ++ m.records.flatMap ResourceRecord.names

/-- Record data with `f` applied to its names. -/
def RData.mapNames (f : Str → Str) : RData → RData
  | .ns name => .ns (f name)
  | .cname name => .cname (f name)
  | .ptr name => .ptr (f name)
  | .mx preference exchange => .mx preference (f exchange)
  | .soa mname rname serial refresh retry expire minimum =>
      .soa (f mname) (f rname) serial refresh retry expire minimum
  | .srv priority weight port target => .srv priority weight port (f target)
  | rd => rd

/-- A record with `f` applied to its names. -/
def ResourceRecord.mapNames (f : Str → Str) (rr : ResourceRecord) : ResourceRecord :=
  { rr with name := f rr.name, rdata := rr.rdata.mapNames f }

/-- A question with `f` applied to its name. -/
def Question.mapNames (f : Str → Str) (q : Question) : Question := { q with name := f q.name }

/-- A message with `f` applied to all its names. -/
def Message.mapNames (f : Str → Str) (m : Message) : Message :=
  { m with
    questions := m.questions.map (Question.mapNames f)
    answers := m.answers.map (ResourceRecord.mapNames f)
    authority := m.authority.map (ResourceRecord.mapNames f)
    additional := m.additional.map (ResourceRecord.mapNames f) }

theorem RData.mapNames_eq_self {f : Str → Str} {rd : RData} (h : ∀ n ∈ rd.names, f n = n) :
    rd.mapNames f = rd := by
  cases rd <;> simp_all [RData.mapNames, RData.names]

theorem ResourceRecord.mapNames_eq_self {f : Str → Str} {rr : ResourceRecord}
    (h : ∀ n ∈ rr.names, f n = n) : rr.mapNames f = rr := by
  have hname := h rr.name List.mem_cons_self
  have hrd := RData.mapNames_eq_self (fun n hn => h n (List.mem_cons_of_mem _ hn))
  simp [ResourceRecord.mapNames, hname, hrd]

theorem Message.mapNames_eq_self {f : Str → Str} {m : Message} (h : ∀ n ∈ m.names, f n = n) :
    m.mapNames f = m := by
  have hrr : ∀ rr ∈ m.records, rr.mapNames f = rr := fun rr hmem =>
    ResourceRecord.mapNames_eq_self fun n hn =>
      h n (List.mem_append_right _ (List.mem_flatMap.mpr ⟨rr, hmem, hn⟩))
  have hq : ∀ q ∈ m.questions, q.mapNames f = q := by
    intro q hmem
    have hname := h q.name (List.mem_append_left _ (List.mem_map_of_mem hmem))
    simp only [Question.mapNames, hname]
  have hmap : ∀ {α : Type} {g : α → α} {xs : List α}, (∀ x ∈ xs, g x = x) → xs.map g = xs :=
    fun h => (List.map_congr_left h).trans (List.map_id _)
  simp only [Message.records, List.mem_append] at hrr
  simp only [Message.mapNames]
  rw [hmap hq, hmap fun rr hr => hrr rr (.inl (.inl hr)), hmap fun rr hr => hrr rr (.inl (.inr hr)),
    hmap fun rr hr => hrr rr (.inr hr)]

/-! ## What can be transmitted -/

/-- The type numbers `RData` has a constructor for. -/
def modelledTypes : List UInt16 := [1, 2, 5, 6, 12, 15, 16, 28, 33, 41]

/-- The sizes record data may have: what its length fields can hold, and no type number that
would be read as something else. -/
def RData.SizesOk : RData → Prop
  | .txt chunks =>
      (∀ c ∈ chunks, c.length ≤ 255) ∧ (chunks.map fun c => 1 + c.length).sum ≤ 65535
  | .opt options =>
      (∀ o ∈ options, o.data.length ≤ 65535) ∧
        (options.map fun o => 4 + o.data.length).sum ≤ 65535
  | .unknown rtype data => data.length ≤ 65535 ∧ rtype ∉ modelledTypes
  | _ => True

instance : (rd : RData) → Decidable rd.SizesOk
  | .txt _ => inferInstanceAs (Decidable (_ ∧ _))
  | .opt _ => inferInstanceAs (Decidable (_ ∧ _))
  | .unknown _ _ => inferInstanceAs (Decidable (_ ∧ _))
  | .a _ | .aaaa _ | .ns _ | .cname _ | .ptr _ | .mx _ _ | .soa _ _ _ _ _ _ _ | .srv _ _ _ _ =>
      inferInstanceAs (Decidable True)

/-- A name the reader gives back as it was, up to trailing dots. -/
def Transmissible (name : Str) : Prop := Encodable name ∧ (trimName name).len ≤ maxNameLen

/-- A name that is empty, or labels of 1 to 63 bytes joined by dots, of at most 253 bytes. -/
def WellFormedName (name : Str) : Prop :=
  (∀ l ∈ labelsOf name.bytes, ValidLabel l) ∧ name.len ≤ maxNameLen

instance (name : Str) : Decidable (WellFormedName name) := inferInstanceAs (Decidable (_ ∧ _))

/-- Everything the parser insists on, with `NameOk` for what it may ask of names. -/
structure Message.Fits (NameOk : Str → Prop) (m : Message) : Prop where
  qdCount : m.header.qdCount.toNat = m.questions.length
  anCount : m.header.anCount.toNat = m.answers.length
  nsCount : m.header.nsCount.toNat = m.authority.length
  arCount : m.header.arCount.toNat = m.additional.length
  reserved : m.header.flags &&& Header.Z = 0
  classes : ∀ q ∈ m.questions, q.qclass.isKnown = true
  sizes : ∀ rr ∈ m.records, rr.rdata.SizesOk
  names : ∀ n ∈ m.names, NameOk n

/-- A well-formed message. -/
def Message.WellFormed (m : Message) : Prop := m.Fits WellFormedName

theorem Message.Fits.imp {P Q : Str → Prop} {m : Message} (h : m.Fits P)
    (hPQ : ∀ n ∈ m.names, P n → Q n) : m.Fits Q :=
  { h with names := fun n hn => hPQ n hn (h.names n hn) }

/-! ## Record data -/

/-- The type number record data is written under. -/
def RData.typeNumber (rd : RData) : UInt16 :=
  ResourceRecord.typeNumber { name := Str.empty, cls := ⟨0⟩, ttl := 0, rdata := rd }

theorem typeNumber_eq (rr : ResourceRecord) : rr.typeNumber = rr.rdata.typeNumber := rfl

/-- `RData::write` against `RData::parse`, which is told how many bytes there are. -/
def RDataEncodes (rd rd' : RData) : Prop :=
  ∀ w, TableOk w → ∃ bs table,
    rd.write w = .ok ((), ⟨w.buf ++ bs, table⟩) ∧ TableOk ⟨w.buf ++ bs, table⟩ ∧
      bs.length ≤ 65535 ∧ ∀ buf, w.buf ++ bs <+: buf →
        RData.parse rd.typeNumber (UInt16.ofNat bs.length) ⟨buf, w.buf.length⟩ =
          .ok (rd', ⟨buf, w.buf.length + bs.length⟩)

/-- The length check at the end of `RData::parse` passes when the data was read exactly. -/
theorem rdataParse_of_inner {rtype rdlen : UInt16} {buf : List UInt8} {p : Nat} {rd : RData}
    (h : RData.parseInner rtype rdlen ⟨buf, p⟩ = .ok (rd, ⟨buf, p + rdlen.toNat⟩)) :
    RData.parse rtype rdlen ⟨buf, p⟩ = .ok (rd, ⟨buf, p + rdlen.toNat⟩) := by
  have hlift : (StateT.lift (sub (p + rdlen.toNat) p) : ReadM Nat) ⟨buf, p + rdlen.toNat⟩ =
      .ok (rdlen.toNat, ⟨buf, p + rdlen.toNat⟩) := by
    unfold StateT.lift
    rw [sub_of_le (by omega), Nat.add_sub_cancel_left]
    rfl
  unfold RData.parse
  rw [stateT_bind_of_ok (show readerPos ⟨buf, p⟩ = .ok (p, _) from rfl), stateT_bind_of_ok h,
    stateT_bind_of_ok (show readerPos ⟨buf, p + rdlen.toNat⟩ = .ok (p + rdlen.toNat, _) from rfl),
    stateT_bind_of_ok hlift, if_neg (by simp)]
  rfl

theorem toNat_ofNat_of_le {n : Nat} (h : n ≤ 65535) : (UInt16.ofNat n).toNat = n := by
  rw [UInt16.toNat_ofNat']
  omega

/-- Data whose parser does not look at the length. -/
theorem RDataEncodes.of_anyLength {n : Nat} {rd rd' : RData} (hn : n ≤ 65535)
    (h : ∀ len, EncodesIn n rd.write (RData.parseInner rd.typeNumber len) rd') :
    RDataEncodes rd rd' := by
  intro w hT
  obtain ⟨bs, table, hw, hT', hle, -⟩ := h 0 w hT
  refine ⟨bs, table, hw, hT', by omega, fun buf hbuf => ?_⟩
  -- the bytes do not depend on the length the parser is told, so tell it the right one
  obtain ⟨bs', table', hw', -, -, hp⟩ := h (UInt16.ofNat bs.length) w hT
  obtain ⟨rfl, rfl⟩ := written_unique hw hw'
  have hlen := toNat_ofNat_of_le (show bs.length ≤ 65535 by omega)
  have := rdataParse_of_inner (by rw [hlen]; exact hp buf hbuf)
  rwa [hlen] at this

/-- Data that is plain bytes. -/
theorem RDataEncodes.of_bytes {rd rd' : RData} {bs : List UInt8} (hlen : bs.length ≤ 65535)
    (hm : ∀ w, rd.write w = .ok ((), { w with buf := w.buf ++ bs }))
    (hp : ∀ buf q, Segment buf q bs → q ≤ buf.length →
      RData.parseInner rd.typeNumber (UInt16.ofNat bs.length) ⟨buf, q⟩ =
        .ok (rd', ⟨buf, q + bs.length⟩)) : RDataEncodes rd rd' := by
  intro w hT
  refine ⟨bs, w.nameOffsets, hm w, hT.append bs, hlen, fun buf hbuf => ?_⟩
  obtain ⟨hseg, hq⟩ := segment_of_prefix hbuf
  have hnat := toNat_ofNat_of_le hlen
  have := rdataParse_of_inner (by rw [hnat]; exact hp buf _ hseg hq)
  rwa [hnat] at this

theorem txtHead_segment {buf : List UInt8} {q n : Nat} (hn : n ≤ 255)
    (h : Segment buf q [UInt8.ofNat n]) :
    txtHead ⟨buf, q⟩ = .ok (((), n), ⟨buf, q + 1⟩) := by
  rw [txtHead, stateT_bind_of_ok (readU8_segment h), stateT_pure_apply, UInt8.toNat_ofNat',
    Nat.mod_eq_of_lt (by omega)]

theorem optHead_segment {buf : List UInt8} {q n : Nat} {code : UInt16} (hn : n ≤ 65535)
    (h : Segment buf q (be16 code ++ be16 (UInt16.ofNat n))) (hq : q ≤ buf.length) :
    optHead ⟨buf, q⟩ = .ok ((code, n), ⟨buf, q + 4⟩) := by
  obtain ⟨h1, h2⟩ := segment_append_iff.mp h
  have hq1 := h1.le_length hq
  rw [length_be16] at h2 hq1
  rw [optHead, stateT_bind_of_ok (readU16_segment h1 hq),
    stateT_bind_of_ok (readU16_segment h2 hq1), stateT_pure_apply, toNat_ofNat_of_le hn]

/-- The bytes of a TXT chunk. -/
def encodeChunk (c : List UInt8) : List UInt8 := UInt8.ofNat c.length :: c

/-- The bytes of an EDNS option. -/
def encodeOption (o : EdnsOption) : List UInt8 :=
  be16 o.code ++ be16 (UInt16.ofNat o.data.length) ++ o.data

theorem length_encodeOption (o : EdnsOption) : (encodeOption o).length = 4 + o.data.length := by
  simp only [encodeOption, List.length_append, length_be16]

theorem length_flatMap_encodeChunk (chunks : List (List UInt8)) :
    (chunks.flatMap encodeChunk).length = (chunks.map (fun c => 1 + c.length)).sum := by
  simp [List.length_flatMap, encodeChunk, Nat.add_comm]

theorem length_flatMap_encodeOption (options : List EdnsOption) :
    (options.flatMap encodeOption).length =
      (options.map (fun o => 4 + o.data.length)).sum := by
  simp only [List.length_flatMap, length_encodeOption]

theorem txtFormat : ItemFormat 1 txtHead (fun _ data => data) encodeChunk (·.length ≤ 255) where
  pos := by decide
  sound := by
    intro buf q h len r data hrun hlen
    obtain ⟨v, r₁, hv, hrun⟩ := stateT_bind_eq_ok_iff.mp hrun
    obtain ⟨hseg, rfl⟩ := segment_of_readU8 hv
    cases hrun
    have hlt := v.toNat_lt
    refine ⟨by omega, rfl, [v], hseg, rfl, ?_⟩
    rw [encodeChunk, hlen, UInt8.ofNat_toNat]
    rfl
  complete := by
    intro c hc
    exact ⟨(), [UInt8.ofNat c.length], c, rfl, rfl, rfl, fun hseg _ => txtHead_segment hc hseg⟩

theorem optFormat : ItemFormat 4 optHead EdnsOption.mk encodeOption (·.data.length ≤ 65535) where
  pos := by decide
  sound := by
    intro buf q code len r data hrun hlen
    obtain ⟨c, r₁, hc, hrun⟩ := stateT_bind_eq_ok_iff.mp hrun
    obtain ⟨hsegCode, rfl⟩ := segment_of_readU16 hc
    obtain ⟨v, r₂, hv, hrun⟩ := stateT_bind_eq_ok_iff.mp hrun
    obtain ⟨hsegLen, rfl⟩ := segment_of_readU16 hv
    cases hrun
    have hlt := v.toNat_lt
    refine ⟨by dsimp only; omega, rfl, be16 code ++ be16 v,
      segment_append_iff.mpr ⟨hsegCode, hsegLen⟩, rfl, ?_⟩
    rw [encodeOption, hlen, UInt16.ofNat_toNat]
  complete := by
    intro o ho
    exact ⟨o.code, be16 o.code ++ be16 (UInt16.ofNat o.data.length), o.data, rfl, rfl, rfl,
      fun hseg hle => optHead_segment ho hseg hle⟩

theorem write_txt {chunks : List (List UInt8)} (hc : ∀ c ∈ chunks, c.length ≤ 255) (w : Writer) :
    (RData.txt chunks).write w = .ok ((), { w with buf := w.buf ++ chunks.flatMap encodeChunk }) := by
  refine writeAll_bytes (fun c hmem w => ?_) w
  rw [writeChunk, if_neg (by have := hc c hmem; omega)]
  simp [writeU8, writeBytes, bind, StateT.bind, Except.bind, encodeChunk]

theorem write_opt (options : List EdnsOption) (w : Writer) :
    (RData.opt options).write w =
      .ok ((), { w with buf := w.buf ++ options.flatMap encodeOption }) := by
  refine writeAll_bytes (fun o hmem w => ?_) w
  simp [EdnsOption.write, writeU16, writeBytes, bind, StateT.bind, Except.bind, encodeOption]

theorem rdataEncodes_txt {chunks : List (List UInt8)} (h : (RData.txt chunks).SizesOk) :
    RDataEncodes (.txt chunks) (.txt chunks) := by
  obtain ⟨hc, hsum⟩ := h
  have hlen : (chunks.flatMap encodeChunk).length ≤ 65535 := by
    rwa [length_flatMap_encodeChunk]
  refine .of_bytes hlen (write_txt hc) (fun buf q hseg hq => ?_)
  have htxt : readTxt (UInt16.ofNat (chunks.flatMap encodeChunk).length).toNat ⟨buf, q⟩ =
      .ok (chunks, ⟨buf, q + (chunks.flatMap encodeChunk).length⟩) := by
    rw [toNat_ofNat_of_le hlen]
    exact txtFormat.readItems_eq_ok_iff.mpr ⟨hseg, rfl, hc, rfl⟩
  show (readTxt _ >>= fun chunks => pure (RData.txt chunks)) _ = _
  rw [stateT_bind_of_ok htxt]
  rfl

theorem rdataEncodes_opt {options : List EdnsOption} (h : (RData.opt options).SizesOk) :
    RDataEncodes (.opt options) (.opt options) := by
  obtain ⟨ho, hsum⟩ := h
  have hlen : (options.flatMap encodeOption).length ≤ 65535 := by
    rwa [length_flatMap_encodeOption]
  refine .of_bytes hlen (write_opt options) (fun buf q hseg hq => ?_)
  have hopt : readOpt (UInt16.ofNat (options.flatMap encodeOption).length).toNat ⟨buf, q⟩ =
      .ok (options, ⟨buf, q + (options.flatMap encodeOption).length⟩) := by
    rw [toNat_ofNat_of_le hlen]
    exact optFormat.readItems_eq_ok_iff.mpr ⟨hseg, rfl, ho, rfl⟩
  show (readOpt _ >>= fun options => pure (RData.opt options)) _ = _
  rw [stateT_bind_of_ok hopt]
  rfl

/-- A type number without a constructor of its own is read as unknown. -/
theorem parseInner_unknown {t : UInt16} (h : t ∉ modelledTypes) (rdlen : UInt16) :
    RData.parseInner t rdlen = (readBytes rdlen.toNat >>= fun data => pure (.unknown t data)) := by
  unfold RData.parseInner
  cases ht : RecordType.tryFrom t with
  | error e => rfl
  | ok rt =>
      have htn := RecordType.toU16_of_tryFrom ht
      cases rt <;> first | rfl | exact absurd (htn ▸ (by decide)) h

theorem rdataEncodes_unknown {t : UInt16} {data : List UInt8} (h : (RData.unknown t data).SizesOk) :
    RDataEncodes (.unknown t data) (.unknown t data) := by
  refine .of_bytes h.1 (fun w => rfl) (fun buf q hseg hq => ?_)
  show RData.parseInner t _ _ = _
  rw [parseInner_unknown h.2, toNat_ofNat_of_le h.1, stateT_bind_of_ok (readBytes_segment hseg hq)]
  rfl

/-- Addresses are read back octet by octet. -/
theorem readOctets_segment {n : Nat} (addr : Octets n) {buf : List UInt8} {q : Nat}
    (hseg : Segment buf q addr.bytes) (hq : q ≤ buf.length) (f : Octets n → RData) :
    (do let b ← readBytes n; let addr ← toOctets n b; pure (f addr) : ReadM RData) ⟨buf, q⟩ =
      .ok (f addr, ⟨buf, q + addr.bytes.length⟩) := by
  obtain ⟨bytes, rfl⟩ := addr
  have hoctets : ∀ r : Reader, toOctets bytes.length bytes r = .ok (⟨bytes, rfl⟩, r) := by
    intro r
    rw [toOctets, dif_pos rfl]
  rw [stateT_bind_of_ok (readBytes_segment hseg hq), stateT_bind_of_ok (hoctets _)]
  rfl

/-- **Record data of every type is read back.** -/
theorem rdata_encodes {rd : RData} (hs : rd.SizesOk) (hn : ∀ n ∈ rd.names, Transmissible n) :
    RDataEncodes rd (rd.mapNames trimName) := by
  cases rd with
  | a addr =>
      refine .of_bytes (by rw [addr.size]; decide) (fun w => rfl) (fun buf q hseg hq => ?_)
      rw [addr.size]
      exact (readOctets_segment addr hseg hq _).trans (by rw [addr.size]; rfl)
  | aaaa addr =>
      refine .of_bytes (by rw [addr.size]; decide) (fun w => rfl) (fun buf q hseg hq => ?_)
      rw [addr.size]
      exact (readOctets_segment addr hseg hq _).trans (by rw [addr.size]; rfl)
  | ns name =>
      obtain ⟨hv, hlen⟩ := hn name (by simp [RData.names])
      exact .of_anyLength (by decide) (fun _ => (EncodesIn.name hv hlen).map RData.ns)
  | cname name =>
      obtain ⟨hv, hlen⟩ := hn name (by simp [RData.names])
      exact .of_anyLength (by decide) (fun _ => (EncodesIn.name hv hlen).map RData.cname)
  | ptr name =>
      obtain ⟨hv, hlen⟩ := hn name (by simp [RData.names])
      exact .of_anyLength (by decide) (fun _ => (EncodesIn.name hv hlen).map RData.ptr)
  | mx preference exchange =>
      obtain ⟨hv, hlen⟩ := hn exchange (by simp [RData.names])
      exact .of_anyLength (by decide) (fun _ =>
        (EncodesIn.u16 preference).bind ((EncodesIn.name hv hlen).map _))
  | txt chunks => exact rdataEncodes_txt hs
  | soa mname rname serial refresh retry expire minimum =>
      obtain ⟨hv, hlen⟩ := hn mname (by simp [RData.names])
      obtain ⟨hv', hlen'⟩ := hn rname (by simp [RData.names])
      exact .of_anyLength (by decide) (fun _ =>
        (EncodesIn.name hv hlen).bind <| (EncodesIn.name hv' hlen').bind <|
          (EncodesIn.u32 serial).bind <| (EncodesIn.u32 refresh).bind <|
            (EncodesIn.u32 retry).bind <| (EncodesIn.u32 expire).bind <|
              (EncodesIn.u32 minimum).map _)
  | srv priority weight port target =>
      obtain ⟨hv, hlen⟩ := hn target (by simp [RData.names])
      exact .of_anyLength (by decide) (fun _ =>
        (EncodesIn.u16 priority).bind <| (EncodesIn.u16 weight).bind <|
          (EncodesIn.u16 port).bind <| (EncodesIn.name hv hlen).map _)
  | opt options => exact rdataEncodes_opt hs
  | unknown rtype data => exact rdataEncodes_unknown hs

/-! ## Records, questions, headers -/

/--
The length and the data of a record. The data is written behind a placeholder; it is
read behind its length, so the data's own round trip is used on the buffer that has
the length in it.
-/
theorem EncodesIn.tail {rr : ResourceRecord} {rd : RData} {β : Type} (f : RData → β)
    (h : RDataEncodes rr.rdata rd) :
    EncodesIn 65537 rr.writeTail
      (do let rdlen ← readU16; let rdata ← RData.parse rr.typeNumber rdlen; Pure.pure (f rdata))
      (f rd) := by
  rintro ⟨b, t⟩ hT
  obtain ⟨d, t', hrun, -⟩ := h ⟨b ++ be16 0, t⟩ (hT.append _)
  obtain ⟨d', hd', happ⟩ := Appends.rdataWrite rr.rdata _ _ _ _ hrun
  obtain rfl : d = d' := List.append_cancel_left hd'
  -- the same data, behind its length
  obtain ⟨d', t'', hrun', hT', hle, hp⟩ := h ⟨b ++ be16 (UInt16.ofNat d.length), t⟩ (hT.append _)
  obtain ⟨rfl, rfl⟩ := written_unique (happ (b ++ be16 (UInt16.ofNat d.length)) (by simp)) hrun'
  refine ⟨be16 (UInt16.ofNat d.length) ++ d, t', ?_, ?_, ?_, fun buf hbuf => ?_⟩
  · rw [← List.append_assoc]
    exact writeTail_eq_ok_iff.mpr ⟨d, t', hrun', rfl⟩
  · rw [← List.append_assoc]
    exact hT'
  · rw [List.length_append, length_be16]
    omega
  · obtain ⟨hseg, hq⟩ := segment_of_prefix hbuf
    have hdata := hp buf (by rw [List.append_assoc]; exact hbuf)
    rw [List.length_append, length_be16] at hdata
    rw [stateT_bind_of_ok (readU16_segment (segment_append_iff.mp hseg).1 hq), typeNumber_eq,
      stateT_bind_of_ok hdata, List.length_append, length_be16, ← Nat.add_assoc]
    rfl

theorem resourceRecord_encodes {rr : ResourceRecord} (hs : rr.rdata.SizesOk)
    (hn : ∀ n ∈ rr.names, Transmissible n) :
    EncodesIn 65800 rr.write ResourceRecord.parse (rr.mapNames trimName) := by
  obtain ⟨hv, hlen⟩ := hn rr.name List.mem_cons_self
  have hrd := rdata_encodes hs (fun n hn' => hn n (List.mem_cons_of_mem _ hn'))
  rw [rrWrite_eq]
  exact ((EncodesIn.name hv hlen).bind <| (EncodesIn.u16 _).bind <| (EncodesIn.u16 _).bind <|
    (EncodesIn.u32 _).bind <| EncodesIn.tail
      (fun rdata => ({ name := trimName rr.name, cls := rr.cls, ttl := rr.ttl, rdata } :
        ResourceRecord)) hrd).mono (by decide)

theorem question_encodes {q : Question} (hc : q.qclass.isKnown = true)
    (hn : Transmissible q.name) :
    EncodesIn 259 q.write Question.parse (q.mapNames trimName) := by
  obtain ⟨hv, hlen⟩ := hn
  unfold Question.write Question.parse
  refine (EncodesIn.name hv hlen).bind (l := 4) ((EncodesIn.u16 _).bind (l := 2) ?_)
  rw [RecordType.tryFrom_toU16]
  intro w hT
  obtain ⟨bs, t, h1, h2, h3, h4⟩ := EncodesIn.u16 q.qclass.value w hT
  refine ⟨bs, t, h1, h2, h3, fun buf hbuf => ?_⟩
  show (readU16 >>= _) _ = _
  rw [stateT_bind_of_ok (h4 buf hbuf)]
  have hcls : (⟨q.qclass.value⟩ : Class).isKnown = true := hc
  simp only [hcls]
  rfl

theorem header_encodes {h : Header} (hz : h.flags &&& Header.Z = 0) :
    EncodesIn 12 h.write Header.parse h := by
  unfold Header.write Header.parse
  refine (EncodesIn.u16 _).bind (l := 10) ((EncodesIn.u16 _).bind (l := 8) ?_)
  rw [if_neg (by simpa using hz)]
  exact (EncodesIn.u16 _).bind (l := 6) <| (EncodesIn.u16 _).bind (l := 4) <|
    (EncodesIn.u16 _).bind (l := 2) <| (EncodesIn.u16 _).map _

/-! ## Messages -/

theorem message_encodes {m : Message} (h : m.Fits Transmissible) :
    ∃ n, EncodesIn n m.writeM Message.parseM (m.mapNames trimName) := by
  have hrr : ∀ rr ∈ m.records,
      ∃ n, EncodesIn n rr.write ResourceRecord.parse (rr.mapNames trimName) := by
    intro rr hmem
    refine ⟨_, resourceRecord_encodes (h.sizes rr hmem) fun n hn => h.names n ?_⟩
    exact List.mem_append_right _ (List.mem_flatMap.mpr ⟨rr, hmem, hn⟩)
  have hq : ∀ q ∈ m.questions, ∃ n, EncodesIn n q.write Question.parse (q.mapNames trimName) := by
    intro q hmem
    refine ⟨_, question_encodes (h.classes q hmem) (h.names _ ?_)⟩
    exact List.mem_append_left _ (List.mem_map_of_mem hmem)
  obtain ⟨n₁, h₁⟩ := EncodesIn.section hq
  obtain ⟨n₂, h₂⟩ := EncodesIn.section fun rr (hmem : rr ∈ m.answers) => hrr rr (by
    simp [Message.records, hmem])
  obtain ⟨n₃, h₃⟩ := EncodesIn.section fun rr (hmem : rr ∈ m.authority) => hrr rr (by
    simp [Message.records, hmem])
  obtain ⟨n₄, h₄⟩ := EncodesIn.section fun rr (hmem : rr ∈ m.additional) => hrr rr (by
    simp [Message.records, hmem])
  rw [← h.qdCount] at h₁
  rw [← h.anCount] at h₂
  rw [← h.nsCount] at h₃
  rw [← h.arCount] at h₄
  exact ⟨_, (header_encodes h.reserved).bind <| h₁.bind <| h₂.bind <| h₃.bind <| h₄.map _⟩

/-- What fits is encoded, and the parser goes through all of it. -/
theorem parseM_toBytes_of_fits {m : Message} (h : m.Fits Transmissible) :
    ∃ b, m.toBytes = .ok b ∧ Message.parseM ⟨b, 0⟩ = .ok (m.mapNames trimName, ⟨b, b.length⟩) := by
  obtain ⟨n, hm⟩ := message_encodes h
  obtain ⟨bs, t, hw, -, -, hp⟩ := hm Writer.new tableOk_new
  refine ⟨bs, ?_, ?_⟩
  · rw [Message.toBytes, hw]
    simp [Writer.new, Functor.map, Except.map]
  · have := hp bs (by simp [Writer.new])
    rwa [show Writer.new.buf.length = 0 from rfl, Nat.zero_add] at this

/-- **What fits is encoded, and decoded up to trailing dots.** -/
theorem parse_toBytes_of_fits {m : Message} (h : m.Fits Transmissible) :
    ∃ b, m.toBytes = .ok b ∧ Message.parse b = .ok (m.mapNames trimName) := by
  obtain ⟨b, hb, hp⟩ := parseM_toBytes_of_fits h
  exact ⟨b, hb, by rw [Message.parse, hp]; rfl⟩

/-! ## Well-formed names -/

theorem WellFormedName.trimName_eq {name : Str} (h : WellFormedName name) : trimName name = name :=
  Str.ext (trimEndDots_of_labels fun l hl hnil => by
    have := (h.1 l hl).1
    simp [hnil] at this)

theorem WellFormedName.transmissible {name : Str} (h : WellFormedName name) :
    Transmissible name := by
  unfold Transmissible Encodable
  rw [h.trimName_eq]
  exact h

/-- **Decode undoes encode.** Every well-formed message is encoded, and decoding what was
encoded gives the message back. -/
theorem message_roundtrip (m : Message) (h : m.WellFormed) :
    ∃ b, m.toBytes = .ok b ∧ Message.parse b = .ok m := by
  obtain ⟨b, hb, hp⟩ := parse_toBytes_of_fits (h.imp fun n _ hn => hn.transmissible)
  rw [Message.mapNames_eq_self fun n hn => (h.names n hn).trimName_eq] at hp
  exact ⟨b, hb, hp⟩

/-- A question for `a.b`, answered with the mail exchange `m.b`. -/
def sampleReply : Message :=
  { header := { id := 7, flags := Header.QR, qdCount := 1, anCount := 1 }
    questions := [{ name := ⟨[97, dot, 98], by decide⟩, qtype := .mx, qclass := Class.IN }]
    answers :=
      [{ name := ⟨[97, dot, 98], by decide⟩, cls := Class.IN, ttl := 60
         rdata := .mx 10 ⟨[109, dot, 98], by decide⟩ }] }

theorem sampleReply_wellFormed : sampleReply.WellFormed :=
  ⟨by decide, by decide, by decide, by decide, by decide, by decide, by decide, by decide⟩

theorem sampleReply_roundtrip :
    ∃ b, sampleReply.toBytes = .ok b ∧ Message.parse b = .ok sampleReply :=
  message_roundtrip sampleReply sampleReply_wellFormed

end Dnser
