import Dnser.Proof.WriteName
import Dnser.Proto.Message

/-!
# Writing is appending

Nothing the writer does looks at a byte it has already written: names look at the
table and at the length of the buffer, everything else at neither. So a write that
succeeds on one buffer succeeds on every buffer of the same length, and appends the
same bytes (`Appends`).

That is what makes the backfilled RDLENGTH harmless. `ResourceRecord::write` puts a
placeholder, writes the data, and overwrites the placeholder; the result is the same
as if the right length had stood there from the start (`writeTail_eq_ok_iff`), so
whatever was proved about writing the data holds of the buffer that is sent.
-/

namespace Dnser

open Utf8 (Str)
open Bytes Abort

/-- A write that appends bytes which depend only on the length of the buffer and the table. -/
def Appends {α : Type} (m : WriteM α) : Prop :=
  ∀ b table a w, m ⟨b, table⟩ = .ok (a, w) →
    ∃ bs, w.buf = b ++ bs ∧
      ∀ b' : List UInt8, b'.length = b.length → m ⟨b', table⟩ = .ok (a, ⟨b' ++ bs, w.nameOffsets⟩)

namespace Appends

variable {α β : Type}

theorem pure (a : α) : Appends (Pure.pure a : WriteM α) := by
  intro b table a' w h
  cases h
  exact ⟨[], by simp, fun b' _ => by simp⟩

/-- Two writes, one after the other. -/
theorem bind {m : WriteM α} {k : α → WriteM β} (hm : Appends m) (hk : ∀ a, Appends (k a)) :
    Appends (m >>= k) := by
  intro b table c w h
  obtain ⟨a, w₁, h₁, h₂⟩ := stateT_bind_eq_ok_iff.mp h
  obtain ⟨bs₁, hb₁, hm'⟩ := hm b table a w₁ h₁
  have hw₁ : w₁ = ⟨b ++ bs₁, w₁.nameOffsets⟩ := by
    cases w₁
    simp only at hb₁
    rw [hb₁]
  rw [hw₁] at h₂
  obtain ⟨bs₂, hb₂, hk'⟩ := hk a _ _ c w h₂
  refine ⟨bs₁ ++ bs₂, by rw [hb₂, List.append_assoc], fun b' hb' => ?_⟩
  rw [stateT_bind_of_ok (hm' b' hb'), hk' (b' ++ bs₁) (by simp [hb']), List.append_assoc]

theorem writeBytes (bs : List UInt8) : Appends (writeBytes bs) := by
  intro b table a w h
  cases h
  exact ⟨bs, rfl, fun b' _ => rfl⟩

theorem writeErr (e : WriteError) : Appends (writeErr e : WriteM α) := by
  intro b table a w h
  cases h

theorem sliceFrom (name : List UInt8) (offset : Nat) : Appends (sliceFrom name offset) := by
  intro b table a w h
  unfold Dnser.sliceFrom at h
  split at h
  · rename_i hc
    cases h
    refine ⟨[], by simp, fun b' _ => ?_⟩
    rw [Dnser.sliceFrom, if_pos hc, List.append_nil]
  · cases h

theorem getOffset (suffix : List UInt8) : Appends (getOffset suffix) := by
  intro b table a w h
  cases h
  exact ⟨[], by simp, fun b' _ => by simp [Dnser.getOffset]⟩

theorem recordOffset (suffix : List UInt8) : Appends (recordOffset suffix) := by
  intro b table a w h
  rw [recordOffset_eq] at h
  cases h
  refine ⟨[], by simp, fun b' hb' => ?_⟩
  rw [recordOffset_eq]
  simp [recorded, hb']

/-- The label loop, by induction on the labels. -/
theorem writeLabels (name : List UInt8) (labels : List (List UInt8)) (offset : Nat) :
    Appends (writeLabels name offset labels) := by
  induction labels generalizing offset with
  | nil => exact writeBytes [0]
  | cons l ls ih =>
      rw [Dnser.writeLabels]
      refine bind (sliceFrom name offset) fun suffix => bind (getOffset suffix) fun ptr => ?_
      cases ptr with
      | some ptr => exact writeBytes _
      | none =>
          refine bind (recordOffset suffix) fun _ => ?_
          split
          · exact writeErr _
          split
          · exact writeErr _
          · exact bind (writeBytes _) fun _ => bind (writeBytes _) fun _ => ih _

theorem writeName (name : Str) : Appends (writeName name) := by
  unfold Dnser.writeName
  dsimp only
  split
  · exact writeBytes _
  · exact writeLabels _ _ _

theorem writeAll {write : α → WriteM Unit} (h : ∀ x, Appends (write x)) (xs : List α) :
    Appends (writeAll write xs) := by
  induction xs with
  | nil => exact pure ()
  | cons x xs ih => exact bind (h x) fun _ => ih

theorem writeChunk (chunk : List UInt8) : Appends (writeChunk chunk) := by
  unfold Dnser.writeChunk
  split
  · exact writeErr _
  · exact bind (writeBytes _) fun _ => writeBytes _

theorem writeOption (o : EdnsOption) : Appends o.write :=
  bind (writeBytes _) fun _ => bind (writeBytes _) fun _ => writeBytes _

/-- Record data of every type is appended. -/
theorem rdataWrite (rd : RData) : Appends rd.write := by
  cases rd with
  | a addr => exact writeBytes _
  | aaaa addr => exact writeBytes _
  | ns name => exact writeName _
  | cname name => exact writeName _
  | ptr name => exact writeName _
  | mx preference exchange => exact bind (writeBytes _) fun _ => writeName _
  | txt chunks => exact writeAll writeChunk _
  | soa mname rname serial refresh retry expire minimum =>
      exact bind (writeName _) fun _ => bind (writeName _) fun _ => bind (writeBytes _) fun _ =>
        bind (writeBytes _) fun _ => bind (writeBytes _) fun _ => bind (writeBytes _) fun _ =>
          writeBytes _
  | srv priority weight port target =>
      exact bind (writeBytes _) fun _ => bind (writeBytes _) fun _ => bind (writeBytes _) fun _ =>
        writeName _
  | opt options => exact writeAll writeOption _
  | unknown rtype data => exact writeBytes _

end Appends

/-! ## Resource records -/

theorem backfillU16_append (x y : List UInt8) (u v : UInt16) (table : NameOffsets) :
    backfillU16 x.length v ⟨x ++ be16 u ++ y, table⟩ = .ok ((), ⟨x ++ be16 v ++ y, table⟩) := by
  have h1 : setByte x.length (UInt8.ofNat (v.toNat / 2 ^ 8)) ⟨x ++ be16 u ++ y, table⟩ =
      .ok ((), ⟨x ++ UInt8.ofNat (v.toNat / 2 ^ 8) :: UInt8.ofNat u.toNat :: y, table⟩) := by
    have hlt : x.length < (x ++ be16 u ++ y).length := by
      rw [List.length_append, List.length_append, length_be16]
      omega
    rw [setByte, if_pos hlt]
    simp [be16]
  rw [backfillU16, stateT_bind_of_ok h1, setByte, if_pos (by simp)]
  simp [be16]

/-- The placeholder, the data, and the length of the data over the placeholder. -/
def ResourceRecord.writeTail (rr : ResourceRecord) : WriteM Unit := do
  let rdlenPos ← reserveU16
  let rdataStart ← writerPos
  rr.rdata.write
  let pos ← writerPos
  let rdlen ← StateT.lift (sub pos rdataStart)
  backfillU16 rdlenPos (UInt16.ofNat rdlen)

theorem rrWrite_eq (rr : ResourceRecord) :
    rr.write = (do
      writeName rr.name
      writeU16 rr.typeNumber
      writeU16 rr.cls.value
      writeU32 rr.ttl
      rr.writeTail) := rfl

/-- **Backfilling is as good as knowing the length beforehand.** -/
theorem writeTail_of_ok {rr : ResourceRecord} {b d : List UInt8} {t t' : NameOffsets}
    (hd : rr.rdata.write ⟨b ++ be16 0, t⟩ = .ok ((), ⟨b ++ be16 0 ++ d, t'⟩)) :
    rr.writeTail ⟨b, t⟩ = .ok ((), ⟨b ++ be16 (UInt16.ofNat d.length) ++ d, t'⟩) := by
  have hsub : sub (b ++ be16 0 ++ d).length (b ++ be16 0).length =
      (.ok d.length : Except (Abort WriteError) Nat) := by
    rw [sub_of_le (by simp), List.length_append, Nat.add_sub_cancel_left]
  have hlift : (StateT.lift (sub (b ++ be16 0 ++ d).length (b ++ be16 0).length) : WriteM Nat)
      ⟨b ++ be16 0 ++ d, t'⟩ = .ok (d.length, ⟨b ++ be16 0 ++ d, t'⟩) := by
    unfold StateT.lift
    rw [hsub]
    rfl
  unfold ResourceRecord.writeTail
  rw [stateT_bind_of_ok (show reserveU16 ⟨b, t⟩ = .ok (b.length, ⟨b ++ be16 0, t⟩) from rfl),
    stateT_bind_of_ok (show writerPos ⟨b ++ be16 0, t⟩ = .ok ((b ++ be16 0).length, _) from rfl),
    stateT_bind_of_ok hd,
    stateT_bind_of_ok (show writerPos ⟨b ++ be16 0 ++ d, t'⟩ =
      .ok ((b ++ be16 0 ++ d).length, _) from rfl),
    stateT_bind_of_ok hlift]
  exact backfillU16_append b d 0 _ t'

theorem writeTail_eq_ok_iff {rr : ResourceRecord} {b : List UInt8} {t : NameOffsets}
    {r : Unit × Writer} :
    rr.writeTail ⟨b, t⟩ = .ok r ↔ ∃ d t',
      rr.rdata.write ⟨b ++ be16 (UInt16.ofNat d.length), t⟩ =
        .ok ((), ⟨b ++ be16 (UInt16.ofNat d.length) ++ d, t'⟩) ∧
      r = ((), ⟨b ++ be16 (UInt16.ofNat d.length) ++ d, t'⟩) := by
  constructor
  · intro hrun
    obtain ⟨p, w₁, hp, h⟩ := stateT_bind_eq_ok_iff.mp hrun
    cases hp
    obtain ⟨q, w₂, hq, h⟩ := stateT_bind_eq_ok_iff.mp h
    cases hq
    obtain ⟨⟨⟩, w₃, hd, -⟩ := stateT_bind_eq_ok_iff.mp h
    obtain ⟨d, hw₃, happ⟩ := Appends.rdataWrite rr.rdata _ _ _ _ hd
    refine ⟨d, w₃.nameOffsets, happ _ (by simp), ?_⟩
    -- the data comes out the same behind any two bytes, the placeholder or the length
    have hok := writeTail_of_ok (happ (b ++ be16 0) rfl)
    rw [hrun] at hok
    exact Except.ok.inj hok
  · intro hparts
    obtain ⟨d, t', hd, rfl⟩ := hparts
    obtain ⟨d', hd', happ⟩ := Appends.rdataWrite rr.rdata _ _ _ _ hd
    obtain rfl : d' = d := (List.append_cancel_left hd').symm
    exact writeTail_of_ok (happ (b ++ be16 0) (by simp))

theorem Appends.writeTail (rr : ResourceRecord) : Appends rr.writeTail := by
  intro b table a w h
  obtain ⟨d, t', hd, hr⟩ := writeTail_eq_ok_iff.mp h
  cases hr
  refine ⟨be16 (UInt16.ofNat d.length) ++ d, List.append_assoc _ _ _, fun b' hb' => ?_⟩
  -- the data behind a buffer of the same length, and its length in front of it
  obtain ⟨d', hd', happ⟩ := rdataWrite rr.rdata _ _ _ _ hd
  obtain rfl : d' = d := (List.append_cancel_left hd').symm
  exact writeTail_eq_ok_iff.mpr ⟨d', t', happ _ (by simp [hb']), by rw [← List.append_assoc]⟩

theorem Appends.resourceRecord (rr : ResourceRecord) : Appends rr.write := by
  rw [rrWrite_eq]
  exact bind (writeName _) fun _ => bind (writeBytes _) fun _ => bind (writeBytes _) fun _ =>
    bind (writeBytes _) fun _ => writeTail rr

theorem Appends.question (q : Question) : Appends q.write :=
  bind (writeName _) fun _ => bind (writeBytes _) fun _ => writeBytes _

/-! ## Headers come first -/

/-- The twelve bytes of a header. -/
def Header.bytes (h : Header) : List UInt8 :=
  be16 h.id ++ be16 h.flags ++ be16 h.qdCount ++ be16 h.anCount ++ be16 h.nsCount ++ be16 h.arCount

/-- What is written behind the header. -/
def Message.writeSections (m : Message) : WriteM Unit := do
  writeAll Question.write m.questions
  writeAll ResourceRecord.write m.answers
  writeAll ResourceRecord.write m.authority
  writeAll ResourceRecord.write m.additional

theorem Appends.sections (m : Message) : Appends m.writeSections :=
  bind (writeAll question _) fun _ => bind (writeAll resourceRecord _) fun _ =>
    bind (writeAll resourceRecord _) fun _ => writeAll resourceRecord _

/-- A write that leaves what was there, and adds to it. -/
def Extends {α : Type} (m : WriteM α) : Prop := ∀ w a w', m w = .ok (a, w') → w.buf <+: w'.buf

theorem Extends.of_appends {α : Type} {m : WriteM α} (h : Appends m) : Extends m := by
  intro w a w' hrun
  obtain ⟨bs, hbs, -⟩ := h w.buf w.nameOffsets a w' hrun
  exact ⟨bs, hbs.symm⟩

/-- The header is twelve bytes, whatever is in it. -/
theorem toBytes_eq (m : Message) :
    m.toBytes = (fun r => r.2.buf) <$> m.writeSections ⟨m.header.bytes, []⟩ := rfl

/-- **An encoded message is its header, and then the same whatever the header is.** -/
theorem toBytes_with_header {m : Message} {bytes : List UInt8} (h : m.toBytes = .ok bytes) :
    ∃ rest, bytes = m.header.bytes ++ rest ∧
      ∀ header : Header, { m with header }.toBytes = .ok (header.bytes ++ rest) := by
  rw [toBytes_eq] at h
  obtain ⟨⟨⟨⟩, w⟩, hrun, rfl⟩ := map_eq_ok_iff.mp h
  obtain ⟨rest, hbuf, happ⟩ := Appends.sections m _ _ _ _ hrun
  refine ⟨rest, hbuf, fun header => ?_⟩
  have hsections : m.writeSections ⟨header.bytes, []⟩ =
      .ok ((), ⟨header.bytes ++ rest, w.nameOffsets⟩) := happ header.bytes rfl
  exact map_eq_ok_iff.mpr ⟨_, hsections, rfl⟩

/-- **An encoded message starts with its header.** -/
theorem header_prefix_toBytes {m : Message} {bytes : List UInt8} (h : m.toBytes = .ok bytes) :
    m.header.bytes <+: bytes := by
  rw [toBytes_eq] at h
  obtain ⟨⟨⟨⟩, w⟩, hrun, rfl⟩ := map_eq_ok_iff.mp h
  exact Extends.of_appends (.sections m) _ _ _ hrun

end Dnser
