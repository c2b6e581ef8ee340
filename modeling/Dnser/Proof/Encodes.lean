import Dnser.Proof.RoundTrip

/-!
# When encoding succeeds

Writing fails for two reasons only: a name with a label that is empty or too long, and
a TXT chunk of more than 255 bytes. `Writes m P` says that `m` succeeds exactly when `P`
holds, whatever was written before; sequencing is conjunction, so the condition for a
whole message is read off its syntax.

The compression table is what makes this less than obvious: a name whose suffix is
already filed is written without looking at its labels. The table invariant says that
what is filed has been spelled, and what has been spelled has good labels.
-/

namespace Dnser

open Utf8 (Str IsUtf8)
open Bytes Abort

/-- The label loop slices on character boundaries only. -/
theorem writeLabels_no_panic : ∀ (ls : List (List UInt8)) (l pre : List UInt8) (w : Writer),
    IsUtf8 (joinDots (l :: ls)) →
    writeLabels (pre ++ joinDots (l :: ls)) pre.length (l :: ls) w ≠ .error .panic := by
  intro ls
  induction ls with
  | nil =>
      intro l pre w hu
      cases hget : w.nameOffsets.lookup (joinDots [l]) with
      | some ptr => rw [writeLabels_hit hu hget]; simp
      | none =>
          rw [writeLabels_miss hu hget]
          split
          · simp
          split
          · simp
          · exact fun h => nomatch h
  | cons l' ls ih =>
      intro l pre w hu
      cases hget : w.nameOffsets.lookup (joinDots (l :: l' :: ls)) with
      | some ptr => rw [writeLabels_hit hu hget]; simp
      | none =>
          rw [writeLabels_miss hu hget]
          split
          · simp
          split
          · simp
          · rw [writeLabels_next]
            exact ih l' _ _ (isUtf8_joinDots_tail hu)

theorem writeName_no_panic (name : Str) (w : Writer) : writeName name w ≠ .error .panic := by
  rcases writeName_cases name w with ⟨-, hrun⟩ | ⟨l, ls, -, hjoin, -, hrun⟩
  · rw [hrun]
    exact fun h => nomatch h
  · rw [hrun]
    exact writeLabels_no_panic ls l [] w (hjoin ▸ (trimName name).utf8)

/-! ## Writing exactly when -/

/-- The write succeeds exactly when `P` holds, and fails with an error otherwise. -/
def Writes (m : WriteM Unit) (P : Prop) : Prop :=
  ∀ w, TableOk w →
    (P ∧ ∃ w', m w = .ok ((), w') ∧ TableOk w') ∨ (¬ P ∧ ∃ e, m w = .error (.err e))

namespace Writes

variable {m m' : WriteM Unit} {P Q : Prop}

theorem congr (h : Writes m P) (hPQ : P ↔ Q) : Writes m Q := by
  intro w hT
  rw [← hPQ]
  exact h w hT

theorem pure : Writes (Pure.pure ()) True :=
  fun w hT => .inl ⟨trivial, w, rfl, hT⟩

/-- **Sequencing is conjunction.** -/
theorem bind (h : Writes m P) (h' : Writes m' Q) : Writes (m >>= fun _ => m') (P ∧ Q) := by
  intro w hT
  rcases h w hT with ⟨hP, w₁, hm, hT₁⟩ | ⟨hP, e, hm⟩
  · rw [stateT_bind_of_ok hm]
    rcases h' w₁ hT₁ with ⟨hQ, hok⟩ | ⟨hQ, herr⟩
    · exact .inl ⟨⟨hP, hQ⟩, hok⟩
    · exact .inr ⟨fun hPQ => hQ hPQ.2, herr⟩
  · rw [stateT_bind_of_error hm]
    exact .inr ⟨fun hPQ => hP hPQ.1, e, rfl⟩

theorem writeBytes (bs : List UInt8) : Writes (writeBytes bs) True :=
  fun _ hT => .inl ⟨trivial, _, rfl, hT.append bs⟩

/-- A plain write in front changes nothing. -/
theorem bytes_bind {bs : List UInt8} (h : Writes m P) :
    Writes (Dnser.writeBytes bs >>= fun _ => m) P :=
  ((writeBytes bs).bind h).congr (by simp)

theorem name (name : Str) : Writes (writeName name) (Encodable name) := by
  intro w hT
  by_cases hv : Encodable name
  · obtain ⟨bs, table, hw, hn⟩ := writeName_spec hT hv
    exact .inl ⟨hv, _, hw, hn.table⟩
  · refine .inr ⟨hv, ?_⟩
    cases hrun : writeName name w with
    | ok r => exact absurd (encodable_of_writeName hT hrun) hv
    | error e =>
        cases e with
        | err e => exact ⟨e, rfl⟩
        | panic => exact absurd hrun (writeName_no_panic name w)

theorem writeAll {α : Type} {write : α → WriteM Unit} {P : α → Prop}
    (h : ∀ x, Writes (write x) (P x)) (xs : List α) :
    Writes (writeAll write xs) (∀ x ∈ xs, P x) := by
  induction xs with
  | nil => exact pure.congr (by simp)
  | cons x xs ih => exact ((h x).bind ih).congr (by simp)

theorem chunk (c : List UInt8) : Writes (writeChunk c) (c.length ≤ 255) := by
  unfold writeChunk
  split
  · exact fun w _ => .inr ⟨by omega, _, rfl⟩
  · exact (writeBytes _).bytes_bind.congr (by simp; omega)

theorem option (o : EdnsOption) : Writes o.write True :=
  (writeBytes _).bytes_bind.bytes_bind

end Writes

/-- TXT chunks have one byte for their length. -/
def RData.ChunksOk : RData → Prop
  | .txt chunks => ∀ c ∈ chunks, c.length ≤ 255
  | _ => True

/-- What record data needs to be encodable. -/
def RData.Encodes (rd : RData) : Prop := (∀ n ∈ rd.names, Encodable n) ∧ rd.ChunksOk

theorem Writes.rdata (rd : RData) : Writes rd.write rd.Encodes := by
  cases rd with
  | a addr => exact (writeBytes _).congr (by simp [RData.Encodes, RData.names, RData.ChunksOk])
  | aaaa addr => exact (writeBytes _).congr (by simp [RData.Encodes, RData.names, RData.ChunksOk])
  | ns n => exact (name n).congr (by simp [RData.Encodes, RData.names, RData.ChunksOk])
  | cname n => exact (name n).congr (by simp [RData.Encodes, RData.names, RData.ChunksOk])
  | ptr n => exact (name n).congr (by simp [RData.Encodes, RData.names, RData.ChunksOk])
  | mx preference exchange =>
      exact (name exchange).bytes_bind.congr (by simp [RData.Encodes, RData.names, RData.ChunksOk])
  | txt chunks => exact (writeAll chunk chunks).congr (by simp [RData.Encodes, RData.names, RData.ChunksOk])
  | soa mname rname serial refresh retry expire minimum =>
      exact ((name mname).bind ((name rname).bind
        (writeBytes _).bytes_bind.bytes_bind.bytes_bind.bytes_bind)).congr
        (by simp [RData.Encodes, RData.names, RData.ChunksOk])
  | srv priority weight port target =>
      exact (name target).bytes_bind.bytes_bind.bytes_bind.congr
        (by simp [RData.Encodes, RData.names, RData.ChunksOk])
  | opt options => exact (writeAll option options).congr (by simp [RData.Encodes, RData.names, RData.ChunksOk])
  | unknown rtype data => exact (writeBytes _).congr (by simp [RData.Encodes, RData.names, RData.ChunksOk])

/-- The placeholder and its backfilling cannot fail. -/
theorem Writes.tail (rr : ResourceRecord) : Writes rr.writeTail rr.rdata.Encodes := by
  rintro ⟨b, t⟩ hT
  rcases Writes.rdata rr.rdata ⟨b ++ be16 0, t⟩ (hT.append _) with ⟨hE, w', hok, -⟩ | ⟨hE, e, herr⟩
  · obtain ⟨d, hd, happ⟩ := Appends.rdataWrite rr.rdata _ _ _ _ hok
    have hrun := happ (b ++ be16 (UInt16.ofNat d.length)) (by simp)
    refine .inl ⟨hE, _, writeTail_eq_ok_iff.mpr ⟨d, _, hrun, rfl⟩, ?_⟩
    rcases Writes.rdata rr.rdata _ (hT.append (be16 (UInt16.ofNat d.length))) with
      ⟨-, w'', hok', hT'⟩ | ⟨hE', -⟩
    · simp only [hrun, Except.ok.injEq, Prod.mk.injEq, true_and] at hok'
      rwa [hok']
    · exact absurd hE hE'
  · refine .inr ⟨hE, e, ?_⟩
    rw [ResourceRecord.writeTail,
      stateT_bind_of_ok (show reserveU16 ⟨b, t⟩ = .ok (b.length, ⟨b ++ be16 0, t⟩) from rfl),
      stateT_bind_of_ok (show writerPos ⟨b ++ be16 0, t⟩ = .ok ((b ++ be16 0).length, _) from rfl),
      stateT_bind_of_error herr]

theorem Writes.resourceRecord (rr : ResourceRecord) :
    Writes rr.write (Encodable rr.name ∧ rr.rdata.Encodes) := by
  rw [rrWrite_eq]
  exact (name rr.name).bind (tail rr).bytes_bind.bytes_bind.bytes_bind

theorem Writes.question (q : Question) : Writes q.write (Encodable q.name) :=
  ((name q.name).bind (writeBytes _).bytes_bind).congr (by simp)

theorem Writes.header (h : Header) : Writes h.write True :=
  (writeBytes _).bytes_bind.bytes_bind.bytes_bind.bytes_bind.bytes_bind

/-- What a message needs to be encodable. -/
def Message.Encodes (m : Message) : Prop :=
  (∀ n ∈ m.names, Encodable n) ∧ ∀ rr ∈ m.records, rr.rdata.ChunksOk

theorem Message.encodes_iff (m : Message) :
    m.Encodes ↔ (∀ q ∈ m.questions, Encodable q.name) ∧
      ∀ rr ∈ m.records, Encodable rr.name ∧ rr.rdata.Encodes := by
  unfold Message.Encodes Message.names RData.Encodes
  constructor
  · intro hparts
    obtain ⟨hn, hc⟩ := hparts
    refine ⟨fun q hq => hn _ (List.mem_append_left _ (List.mem_map_of_mem hq)), fun rr hrr => ?_⟩
    have hrn : ∀ n ∈ rr.names, Encodable n := fun n hmem =>
      hn n (List.mem_append_right _ (List.mem_flatMap.mpr ⟨rr, hrr, hmem⟩))
    exact ⟨hrn _ List.mem_cons_self, fun n hmem => hrn n (List.mem_cons_of_mem _ hmem), hc rr hrr⟩
  · intro hparts
    obtain ⟨hq, hrr⟩ := hparts
    refine ⟨fun n hn => ?_, fun rr hmem => (hrr rr hmem).2.2⟩
    rcases List.mem_append.mp hn with hn | hn
    · obtain ⟨q, hmem, rfl⟩ := List.mem_map.mp hn
      exact hq q hmem
    · obtain ⟨rr, hmem, hn⟩ := List.mem_flatMap.mp hn
      rcases List.mem_cons.mp hn with rfl | hn
      · exact (hrr rr hmem).1
      · exact (hrr rr hmem).2.1 n hn

theorem Writes.message (m : Message) : Writes m.writeM m.Encodes := by
  have hrr := writeAll Writes.resourceRecord
  refine ((header m.header).bind <| (writeAll question m.questions).bind <|
    (hrr m.answers).bind <| (hrr m.authority).bind (hrr m.additional)).congr ?_
  rw [Message.encodes_iff, Message.records]
  simp only [List.forall_mem_append, true_and, and_assoc]

/-- **Encoding succeeds exactly on encodable content**, and fails with an error otherwise. -/
theorem toBytes_cases (m : Message) :
    (m.Encodes ∧ ∃ b, m.toBytes = .ok b) ∨ (¬ m.Encodes ∧ ∃ e, m.toBytes = .error (.err e)) := by
  rcases Writes.message m Writer.new tableOk_new with ⟨hE, w, hw, -⟩ | ⟨hE, e, hw⟩
  · exact .inl ⟨hE, w.buf, by rw [Message.toBytes, hw]; rfl⟩
  · exact .inr ⟨hE, e, by rw [Message.toBytes, hw]; rfl⟩

theorem encodes_of_toBytes {m : Message} {b : List UInt8} (h : m.toBytes = .ok b) : m.Encodes := by
  rcases toBytes_cases m with ⟨hE, -⟩ | ⟨-, e, herr⟩
  · exact hE
  · rw [h] at herr
    cases herr

theorem encodable_iff (name : Str) :
    Encodable name ↔ trimEndDots name.bytes = [] ∨
      ∀ l ∈ splitDots (trimEndDots name.bytes), 1 ≤ l.length ∧ l.length ≤ 63 := by
  have htrim : (trimName name).bytes = trimEndDots name.bytes := rfl
  unfold Encodable labelsOf
  rw [htrim]
  by_cases hnil : trimEndDots name.bytes = []
  · simp [hnil]
  · simp [hnil, ValidLabel]

theorem RData.chunksOk_iff (rd : RData) :
    rd.ChunksOk ↔ ∀ chunks, rd = .txt chunks → ∀ c ∈ chunks, c.length ≤ 255 := by
  cases rd with
  | txt chunks => simp [RData.ChunksOk]
  | _ => simp [RData.ChunksOk]

/--
**Encoding fails on unencodable content and on nothing else.** A message is encoded if and only
if every name in it, in a question, in front of a record or in record data, is empty without its
trailing dots or splits at dots into labels of 1 to 63 bytes, and no TXT chunk has more than 255
bytes. Otherwise there is an error.
-/
theorem toBytes_ok_iff (m : Message) :
    ((∃ b, m.toBytes = .ok b) ↔
      (∀ n ∈ m.names, trimEndDots n.bytes = [] ∨
        ∀ l ∈ splitDots (trimEndDots n.bytes), 1 ≤ l.length ∧ l.length ≤ 63) ∧
      ∀ rr ∈ m.records, ∀ chunks, rr.rdata = .txt chunks → ∀ c ∈ chunks, c.length ≤ 255) ∧
    ((∃ b, m.toBytes = .ok b) ∨ ∃ e, m.toBytes = .error (.err e)) := by
  simp only [← encodable_iff, ← RData.chunksOk_iff]
  rcases toBytes_cases m with ⟨hE, hok⟩ | ⟨hE, e, herr⟩
  · exact ⟨iff_of_true hok hE, .inl hok⟩
  · refine ⟨iff_of_false (fun hok => ?_) hE, .inr ⟨e, herr⟩⟩
    obtain ⟨b, hb⟩ := hok
    rw [herr] at hb
    cases hb

end Dnser
