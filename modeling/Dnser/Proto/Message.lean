import Dnser.Proto.Writer

/-!
# Messages on the wire

Parsing and writing of headers, questions, record data, records and messages, in
the order the source has them. `Message.parseM` is the parser as it moves through
the buffer; `Message.parse` is what callers see, from the start of a buffer and
without the final cursor.
-/

namespace Dnser

open Utf8 (Str)
open Bytes Abort Loop

/-- `return Err(e)`. -/
def readErr {α : Type} (e : ParseError) : ReadM α := fun _ => .error (.err e)

/-- `Reader::pos`. -/
def readerPos : ReadM Nat := fun r => .ok (r.pos, r)

/-! ## Headers -/

/-- `Header::parse`. -/
def Header.parse : ReadM Header := do
  let id ← readU16
  let flags ← readU16
  if flags &&& Header.Z ≠ 0 then readErr .reservedBitSet
  else
    let qdCount ← readU16
    let anCount ← readU16
    let nsCount ← readU16
    let arCount ← readU16
    pure { id, flags, qdCount, anCount, nsCount, arCount }

/-- `Header::write`. -/
def Header.write (h : Header) : WriteM Unit := do
  writeU16 h.id
  writeU16 h.flags
  writeU16 h.qdCount
  writeU16 h.anCount
  writeU16 h.nsCount
  writeU16 h.arCount

/-! ## Questions -/

/-- `Question::parse`. -/
def Question.parse : ReadM Question := do
  let name ← readName
  let t ← readU16
  -- records of unknown types are kept, questions for them are not
  match RecordType.tryFrom t with
  | .error n => readErr (.unknownRecordType n)
  | .ok qtype =>
      let qclassRaw ← readU16
      let qclass : Class := ⟨qclassRaw⟩
      if !qclass.isKnown then readErr (.unknownClass qclassRaw)
      else pure { name, qtype, qclass }

/-- `Question::write`. -/
def Question.write (q : Question) : WriteM Unit := do
  writeName q.name
  writeU16 q.qtype.toU16
  writeU16 q.qclass.value

/-! ## Record data -/

/-- The locals of a `while remaining > 0` loop over length-prefixed items. -/
structure ItemLoop (ι : Type) where
  items : List ι
  remaining : Nat
  reader : Reader

section
variable {η ι : Type} (headLen : Nat) (head : ReadM (η × Nat)) (mk : η → List UInt8 → ι)

/--
One turn of a loop over length-prefixed items, as the TXT and OPT branches of
`RData::parse_inner` have it: `head` reads what precedes the data and the data's
length, `headLen` is how many bytes that takes, and the item is taken off
`remaining` (`checked_sub`) before its data is read.
-/
def readItemsBody (s : ItemLoop ι) :
    Except (Abort ParseError) (Turn (ItemLoop ι) (List ι × Reader)) :=
  if s.remaining = 0 then .ok (.done (s.items, s.reader))
  else do
    let ((h, len), r) ← head s.reader
    -- an item that reaches past the record's end is refused, not cut
    if headLen + len ≤ s.remaining then
      let (data, r) ← readBytes len r
      .ok (.again
        { items := s.items ++ [mk h data]
          remaining := s.remaining - (headLen + len)
          reader := r })
    else .error (.err .rdataLengthMismatch)

variable {headLen head mk}

/-- A turn that goes round again read one item that still fitted. -/
theorem readItemsBody_again_iff {s s' : ItemLoop ι} :
    readItemsBody headLen head mk s = .ok (.again s') ↔
      s.remaining ≠ 0 ∧ ∃ h len data r r', head s.reader = .ok ((h, len), r) ∧
        headLen + len ≤ s.remaining ∧ readBytes len r = .ok (data, r') ∧
        s' = ⟨s.items ++ [mk h data], s.remaining - (headLen + len), r'⟩ := by
  unfold readItemsBody
  constructor
  · intro h
    split at h
    · cases h
    rename_i h0
    obtain ⟨⟨⟨x, len⟩, r⟩, hhead, h⟩ := bind_eq_ok_iff.mp h
    dsimp only at h
    split at h
    · obtain ⟨⟨data, r'⟩, hdata, h⟩ := bind_eq_ok_iff.mp h
      cases h
      exact ⟨h0, x, len, data, r, r', hhead, by assumption, hdata, rfl⟩
    · cases h
  · intro hparts
    obtain ⟨h0, x, len, data, r, r', hhead, hle, hdata, rfl⟩ := hparts
    rw [if_neg h0]
    refine bind_eq_ok_iff.mpr ⟨((x, len), r), hhead, ?_⟩
    dsimp only
    rw [if_pos hle]
    exact bind_eq_ok_iff.mpr ⟨(data, r'), hdata, rfl⟩

theorem readItemsBody_done_iff {s : ItemLoop ι} {x : List ι × Reader} :
    readItemsBody headLen head mk s = .ok (.done x) ↔
      s.remaining = 0 ∧ x = (s.items, s.reader) := by
  unfold readItemsBody
  constructor
  · intro h
    split at h
    · cases h; exact ⟨by assumption, rfl⟩
    · obtain ⟨⟨⟨y, len⟩, r⟩, -, h⟩ := bind_eq_ok_iff.mp h
      dsimp only at h
      split at h
      · obtain ⟨⟨data, r'⟩, -, h⟩ := bind_eq_ok_iff.mp h
        cases h
      · cases h
  · intro hparts
    obtain ⟨h0, rfl⟩ := hparts
    rw [if_pos h0]

theorem readItemsBody_decreases (hpos : 0 < headLen) :
    Decreases (readItemsBody headLen head mk) ItemLoop.remaining := by
  intro s s' h
  obtain ⟨h0, _, _, _, _, _, _, _, _, rfl⟩ := readItemsBody_again_iff.mp h
  show s.remaining - _ < s.remaining
  omega

variable (headLen head mk)

/-- Items until `rdlen` bytes are used up. -/
def readItems (hpos : 0 < headLen) (rdlen : Nat) : ReadM (List ι) := fun r =>
  loop (readItemsBody headLen head mk) ItemLoop.remaining (readItemsBody_decreases hpos)
    ⟨[], rdlen, r⟩

end

/-- The length byte of a TXT chunk. -/
def txtHead : ReadM (Unit × Nat) := do
  let len ← readU8
  pure ((), len.toNat)

/-- The chunk loop of a TXT record. -/
def readTxt (rdlen : Nat) : ReadM (List (List UInt8)) :=
  readItems 1 txtHead (fun _ data => data) (by decide) rdlen

/-- The code and the length of an EDNS option. -/
def optHead : ReadM (UInt16 × Nat) := do
  let code ← readU16
  let len ← readU16
  pure (code, len.toNat)

/-- The option loop of an OPT record. -/
def readOpt (rdlen : Nat) : ReadM (List EdnsOption) :=
  readItems 4 optHead EdnsOption.mk (by decide) rdlen

/-- `<[u8; N]>::try_from(b).unwrap()`. -/
def toOctets (n : Nat) (bs : List UInt8) : ReadM (Octets n) := fun r =>
  if h : bs.length = n then .ok (⟨bs, h⟩, r) else .error .panic

/-- `RData::parse_inner`. -/
def RData.parseInner (rtype rdlen : UInt16) : ReadM RData :=
  match RecordType.tryFrom rtype with
  | .ok .a =>
      if rdlen ≠ 4 then readErr .rdataLengthMismatch
      else do
        let b ← readBytes 4
        let addr ← toOctets 4 b
        pure (.a addr)
  | .ok .aaaa =>
      if rdlen ≠ 16 then readErr .rdataLengthMismatch
      else do
        let b ← readBytes 16
        let addr ← toOctets 16 b
        pure (.aaaa addr)
  | .ok .ns => do
      let name ← readName
      pure (.ns name)
  | .ok .cname => do
      let name ← readName
      pure (.cname name)
  | .ok .ptr => do
      let name ← readName
      pure (.ptr name)
  | .ok .mx => do
      let preference ← readU16
      let exchange ← readName
      pure (.mx preference exchange)
  | .ok .txt => do
      let chunks ← readTxt rdlen.toNat
      pure (.txt chunks)
  | .ok .soa => do
      let mname ← readName
      let rname ← readName
      let serial ← readU32
      let refresh ← readU32
      let retry ← readU32
      let expire ← readU32
      let minimum ← readU32
      pure (.soa mname rname serial refresh retry expire minimum)
  | .ok .srv => do
      let priority ← readU16
      let weight ← readU16
      let port ← readU16
      let target ← readName
      pure (.srv priority weight port target)
  | .ok .opt => do
      let options ← readOpt rdlen.toNat
      pure (.opt options)
  -- known or not: a type without a constructor of its own keeps its bytes
  | _ => do
      let data ← readBytes rdlen.toNat
      pure (.unknown rtype data)

/-- `RData::parse`. -/
def RData.parse (rtype rdlen : UInt16) : ReadM RData := do
  let start ← readerPos
  let rdata ← RData.parseInner rtype rdlen
  let pos ← readerPos
  let used ← StateT.lift (sub pos start)
  -- a name may be longer or shorter than its record says, so this is checked afterwards
  if used ≠ rdlen.toNat then readErr .rdataLengthMismatch
  else pure rdata

/-- `for x in xs { write(x)? }`. -/
def writeAll {α : Type} (write : α → WriteM Unit) : List α → WriteM Unit
  | [] => pure ()
  | x :: xs => do
      write x
      writeAll write xs

/-- One chunk of a TXT record. -/
def writeChunk (chunk : List UInt8) : WriteM Unit :=
  if chunk.length > 255 then writeErr .txtChunkTooLong
  else do
    writeU8 (UInt8.ofNat chunk.length)
    writeBytes chunk

/-- One EDNS option. -/
def EdnsOption.write (o : EdnsOption) : WriteM Unit := do
  writeU16 o.code
  writeU16 (UInt16.ofNat o.data.length)
  writeBytes o.data

/-- `RData::write`. -/
def RData.write : RData → WriteM Unit
  | .a addr => writeBytes addr.bytes
  | .aaaa addr => writeBytes addr.bytes
  | .ns name => writeName name
  | .cname name => writeName name
  | .ptr name => writeName name
  | .mx preference exchange => do
      writeU16 preference
      writeName exchange
  | .txt chunks => writeAll writeChunk chunks
  | .soa mname rname serial refresh retry expire minimum => do
      writeName mname
      writeName rname
      writeU32 serial
      writeU32 refresh
      writeU32 retry
      writeU32 expire
      writeU32 minimum
  | .srv priority weight port target => do
      writeU16 priority
      writeU16 weight
      writeU16 port
      writeName target
  | .opt options => writeAll EdnsOption.write options
  | .unknown _ data => writeBytes data

/-! ## Resource records -/

/-- `ResourceRecord::parse`. -/
def ResourceRecord.parse : ReadM ResourceRecord := do
  let name ← readName
  let rtype ← readU16
  let cls ← readU16
  let ttl ← readU32
  let rdlen ← readU16
  let rdata ← RData.parse rtype rdlen
  pure { name, cls := ⟨cls⟩, ttl, rdata }

/-- The type number a record is written with. -/
def ResourceRecord.typeNumber (rr : ResourceRecord) : UInt16 :=
  match rr.recordType with
  | .ok rt => rt.toU16
  | .error n => n

/-- `ResourceRecord::write`. -/
def ResourceRecord.write (rr : ResourceRecord) : WriteM Unit := do
  writeName rr.name
  writeU16 rr.typeNumber
  writeU16 rr.cls.value
  writeU32 rr.ttl
  let rdlenPos ← reserveU16
  let rdataStart ← writerPos
  rr.rdata.write
  let pos ← writerPos
  let rdlen ← StateT.lift (sub pos rdataStart)
  -- `as u16`
  backfillU16 rdlenPos (UInt16.ofNat rdlen)

/-! ## Messages -/

/-- `parse_section`. -/
def parseSection {α : Type} (parse : ReadM α) : Nat → ReadM (List α)
  | 0 => pure []
  | n + 1 => do
      let x ← parse
      let xs ← parseSection parse n
      pure (x :: xs)

/-- `Message::parse`, with the reader it ends with. -/
def Message.parseM : ReadM Message := do
  let header ← Header.parse
  let questions ← parseSection Question.parse header.qdCount.toNat
  let answers ← parseSection ResourceRecord.parse header.anCount.toNat
  let authority ← parseSection ResourceRecord.parse header.nsCount.toNat
  let additional ← parseSection ResourceRecord.parse header.arCount.toNat
  pure { header, questions, answers, authority, additional }

/-- `Message::parse`. -/
def Message.parse (buf : List UInt8) : Except (Abort ParseError) Message :=
  Prod.fst <$> Message.parseM ⟨buf, 0⟩

/-- `Message::build_writer`, from an arbitrary writer on. -/
def Message.writeM (m : Message) : WriteM Unit := do
  m.header.write
  writeAll Question.write m.questions
  writeAll ResourceRecord.write m.answers
  writeAll ResourceRecord.write m.authority
  writeAll ResourceRecord.write m.additional

/-- `Message::to_bytes`. -/
def Message.toBytes (m : Message) : Except (Abort WriteError) (List UInt8) :=
  (fun r => r.2.buf) <$> m.writeM Writer.new

/-- `Message::to_bytes_mut`, for callers that patch the bytes before they send them. -/
def Message.toBytesMut (m : Message) : Except (Abort WriteError) (List UInt8) :=
  (fun r => r.2.buf) <$> m.writeM Writer.new

end Dnser
