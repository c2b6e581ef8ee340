import Dnser.Lib.Steps
import Dnser.Proof.Append

/-!
# The writer over whole runs

`writeName_spec` is about one name, written behind whatever is there. Here the writer is used in
any order, and bytes that were written before change: `backfill_u16` overwrites the words that
`reserve_u16` left open. Neither the table nor the names may depend on those words, and the
invariant says so by quantifying over what is in them: **whatever is filled into the reserved
words, every table entry and every name so far is spelled correctly** (`Session.Inv`). Filling a
word in then changes nothing, and every other operation appends.
-/

namespace Dnser

open Utf8 (Str IsUtf8)
open Bytes Abort

/-! ## Operations -/

/-- An operation on a writer. -/
inductive WriterOp where
  | writeU8 (v : UInt8)
  | writeU16 (v : UInt16)
  | writeU32 (v : UInt32)
  | writeBytes (bs : List UInt8)
  | writeName (name : Str)
  | reserveU16
  | backfillU16 (pos : Nat) (v : UInt16)

/-- A writer, and what was done with it. -/
structure Session where
  writer : Writer
  /-- The positions `reserve_u16` returned. -/
  reserved : List Nat
  /-- The names written so far, each with the position it starts at. -/
  names : List (Nat × Str)

/-- `Writer::new`, before anything is written. -/
def Session.new : Session := ⟨Writer.new, [], []⟩

/-- A successful operation. Only reserved words are backfilled. -/
inductive Session.Step : Session → WriterOp → Session → Prop where
  | writeU8 {s : Session} {v : UInt8} {w : Writer} : Dnser.writeU8 v s.writer = .ok ((), w) →
      Step s (.writeU8 v) { s with writer := w }
  | writeU16 {s : Session} {v : UInt16} {w : Writer} : Dnser.writeU16 v s.writer = .ok ((), w) →
      Step s (.writeU16 v) { s with writer := w }
  | writeU32 {s : Session} {v : UInt32} {w : Writer} : Dnser.writeU32 v s.writer = .ok ((), w) →
      Step s (.writeU32 v) { s with writer := w }
  | writeBytes {s : Session} {bs : List UInt8} {w : Writer} :
      Dnser.writeBytes bs s.writer = .ok ((), w) → Step s (.writeBytes bs) { s with writer := w }
  | writeName {s : Session} {name : Str} {w : Writer} :
      Dnser.writeName name s.writer = .ok ((), w) →
      Step s (.writeName name)
        { s with writer := w, names := (s.writer.buf.length, name) :: s.names }
  | reserveU16 {s : Session} {pos : Nat} {w : Writer} :
      Dnser.reserveU16 s.writer = .ok (pos, w) →
      Step s .reserveU16 { s with writer := w, reserved := pos :: s.reserved }
  | backfillU16 {s : Session} {pos : Nat} {v : UInt16} {w : Writer} : pos ∈ s.reserved →
      Dnser.backfillU16 pos v s.writer = .ok ((), w) →
      Step s (.backfillU16 pos v) { s with writer := w }

/-- What a writer can have been through. -/
def Session.Reachable (s : Session) : Prop :=
  Steps.Reachable Session.new Session.Step (fun _ _ => True) s

/-! ## A name's own pointer -/

/-- The labels at `p` lead to a pointer at `q`, which decodes to `target`. -/
inductive OwnPointer (buf : List UInt8) : Nat → Nat → Nat → Prop where
  | here {p : Nat} {byte low : UInt8} : buf[p]? = some byte → 192 ≤ byte.toNat →
      buf[p + 1]? = some low → OwnPointer buf p p (pointerOffset byte low)
  | label {p q target : Nat} {n : UInt8} : buf[p]? = some n → 1 ≤ n.toNat → n.toNat ≤ 63 →
      OwnPointer buf (p + 1 + n.toNat) q target → OwnPointer buf p q target

/-- A name at `start` points back, however the buffer goes on. -/
def PointsBack (buf : List UInt8) (start : Nat) : Prop :=
  ∀ buf', buf <+: buf' → ∀ q target, OwnPointer buf' start q target → target < q

theorem PointsBack.mono {buf buf' : List UInt8} {start : Nat} (h : PointsBack buf start)
    (hb : buf <+: buf') : PointsBack buf' start :=
  fun buf'' hb' => h buf'' (hb.trans hb')

/-- A terminating zero is no pointer. -/
theorem pointsBack_zero {buf : List UInt8} {start : Nat} (h : buf[start]? = some 0) :
    PointsBack buf start := by
  intro buf' hb q target hown
  have h0 : buf'[start]? = some 0 := by
    obtain ⟨hlt, -⟩ := List.getElem?_eq_some_iff.mp h
    obtain ⟨t, rfl⟩ := hb
    rw [List.getElem?_append_left hlt, h]
  cases hown with
  | here hbyte h192 _ =>
      rw [h0] at hbyte
      cases hbyte
      exact absurd h192 (by decide)
  | label hn h1 _ _ =>
      rw [h0] at hn
      cases hn
      exact absurd h1 (by decide)

/-- A pointer to a place before it points back. -/
theorem pointsBack_pointer {buf : List UInt8} {start : Nat} {ptr : UInt16}
    (hp : ptr.toNat ≤ maxPointer) (hseg : Segment buf start (be16 (0b1100000000000000 ||| ptr)))
    (hlt : ptr.toNat < start) : PointsBack buf start := by
  intro buf' hb q target hown
  obtain ⟨hi, low, hbytes, h192, ho⟩ := pointer_bytes hp
  rw [hbytes] at hseg
  obtain ⟨h1, h2⟩ := segment_cons_iff.mp (hseg.mono hb)
  obtain ⟨h2, -⟩ := segment_cons_iff.mp h2
  cases hown with
  | here hbyte _ hlow =>
      rw [h1] at hbyte
      rw [h2] at hlow
      cases hbyte
      cases hlow
      rwa [ho]
  | label hn _ h63 _ =>
      rw [h1] at hn
      cases hn
      omega

/-- A label points back if what follows it does. -/
theorem pointsBack_label {buf l : List UInt8} {start : Nat} (hl : ValidLabel l)
    (hseg : Segment buf start (UInt8.ofNat l.length :: l))
    (h : PointsBack buf (start + 1 + l.length)) : PointsBack buf start := by
  intro buf' hb q target hown
  have hlen : (UInt8.ofNat l.length).toNat = l.length := by
    have := hl.2
    rw [UInt8.toNat_ofNat']
    omega
  obtain ⟨h1, -⟩ := segment_cons_iff.mp (hseg.mono hb)
  cases hown with
  | here hbyte h192 _ =>
      rw [h1] at hbyte
      cases hbyte
      have := hl.2
      omega
  | label hn _ _ hrest =>
      rw [h1] at hn
      cases hn
      rw [hlen] at hrest
      exact h buf' hb q target hrest

/-- What the table is asked for is spelled before the end of the buffer, where the pointer goes. -/
theorem pointsBack_hit {l : List UInt8} {ls : List (List UInt8)} {w : Writer} {ptr : UInt16}
    (hT : TableOkUpTo w (joinDots (l :: ls)).length)
    (hget : w.nameOffsets.lookup (joinDots (l :: ls)) = some ptr) :
    PointsBack (w.buf ++ be16 (0b1100000000000000 ||| ptr)) w.buf.length := by
  obtain ⟨hmax, jumps, stop, hsp, -⟩ := hT _ ptr hget (Nat.le_refl _)
  have hb := hsp.bounds
  have hseg := segment_append_right w.buf (be16 (0b1100000000000000 ||| ptr)) []
  rw [List.append_nil] at hseg
  exact pointsBack_pointer hmax hseg (by omega)

/-- **The label loop only points back.** Induction on the labels, as the loop goes. -/
theorem writeLabels_pointsBack : ∀ (ls : List (List UInt8)) (l pre : List UInt8) (w w' : Writer),
    IsUtf8 (joinDots (l :: ls)) → TableOkUpTo w (joinDots (l :: ls)).length →
    writeLabels (pre ++ joinDots (l :: ls)) pre.length (l :: ls) w = .ok ((), w') →
    PointsBack w'.buf w.buf.length := by
  intro ls
  induction ls with
  | nil =>
      intro l pre w w' hu hT h
      cases hget : w.nameOffsets.lookup (joinDots [l]) with
      | some ptr =>
          rw [writeLabels_hit hu hget] at h
          cases h
          exact pointsBack_hit hT hget
      | none =>
          obtain ⟨hl, h⟩ := valid_of_miss hu hget h
          cases h
          have hseg := segment_append_right w.buf (UInt8.ofNat l.length :: l) [0]
          refine pointsBack_label hl hseg (pointsBack_zero ?_)
          simp [afterLabel, Nat.add_assoc, Nat.add_comm 1]
  | cons l' ls ih =>
      intro l pre w w' hu hT h
      cases hget : w.nameOffsets.lookup (joinDots (l :: l' :: ls)) with
      | some ptr =>
          rw [writeLabels_hit hu hget] at h
          cases h
          exact pointsBack_hit hT hget
      | none =>
          obtain ⟨hl, h⟩ := valid_of_miss hu hget h
          rw [writeLabels_next] at h
          have hrest := ih l' _ _ w' (isUtf8_joinDots_tail hu) hT.afterLabel h
          obtain ⟨bs, hbs, -⟩ := Appends.writeLabels _ _ _ _ _ _ _ h
          have hbuf : w'.buf = w.buf ++ UInt8.ofNat l.length :: l ++ bs := hbs
          have hlen : (afterLabel w (joinDots (l :: l' :: ls)) l).buf.length =
              w.buf.length + 1 + l.length := by
            simp [afterLabel]
            omega
          rw [hlen] at hrest
          refine pointsBack_label hl ?_ hrest
          rw [hbuf]
          exact segment_append_right _ _ _

theorem writeName_pointsBack {name : Str} {w w' : Writer} (hT : TableOk w)
    (h : writeName name w = .ok ((), w')) : PointsBack w'.buf w.buf.length := by
  rcases writeName_cases name w with ⟨-, hrun⟩ | ⟨l, ls, -, hjoin, -, hrun⟩
  · rw [hrun] at h
    cases h
    exact pointsBack_zero (by simp)
  · have hu : IsUtf8 (joinDots (l :: ls)) := hjoin ▸ (trimName name).utf8
    exact writeLabels_pointsBack ls l [] w w' hu (hT.upTo _) (hrun ▸ h)

/-! ## The invariant -/

/-- A name at `start` is spelled there, and points back. -/
structure NameGood (buf : List UInt8) (start : Nat) (name : Str) : Prop where
  spells : ∃ jumps stop, Spells buf start (labelsOf (trimName name).bytes) jumps stop
  back : PointsBack buf start

theorem NameGood.mono {buf buf' : List UInt8} {start : Nat} {name : Str}
    (h : NameGood buf start name) (hb : buf <+: buf') : NameGood buf' start name := by
  obtain ⟨⟨jumps, stop, hsp⟩, hback⟩ := h
  exact ⟨⟨jumps, stop, hsp.mono hb⟩, hback.mono hb⟩

/-- The table and the names of a session are right in a buffer. -/
structure Good (names : List (Nat × Str)) (w : Writer) : Prop where
  table : TableOk w
  names : ∀ p ∈ names, NameGood w.buf p.1 p.2

theorem Good.append {names : List (Nat × Str)} {w : Writer} (h : Good names w) (bs : List UInt8) :
    Good names { w with buf := w.buf ++ bs } :=
  ⟨h.table.append bs, fun p hp => (h.names p hp).mono (List.prefix_append _ _)⟩

/-- A name that was written joins the others. -/
theorem Good.writeName {names : List (Nat × Str)} {w w' : Writer} {name : Str} (h : Good names w)
    (hrun : Dnser.writeName name w = .ok ((), w')) : Good ((w.buf.length, name) :: names) w' := by
  obtain ⟨bs, table, hok, hwritten⟩ := writeName_spec h.table (encodable_of_writeName h.table hrun)
  have hback := writeName_pointsBack h.table hrun
  rw [hok] at hrun
  cases hrun
  obtain ⟨jumps, -, hsp⟩ := hwritten.spells
  refine ⟨hwritten.table, fun p hp => ?_⟩
  rcases List.mem_cons.mp hp with rfl | hp
  · exact ⟨⟨jumps, _, hsp⟩, hback⟩
  · exact (h.names p hp).mono (List.prefix_append _ _)

/-- **The invariant**: whatever stands in the reserved words, the table and the names are right. -/
structure Session.Inv (s : Session) : Prop where
  reserved : ∀ pos ∈ s.reserved, pos + 2 ≤ s.writer.buf.length
  good : ∀ buf, AgreeOff s.reserved s.writer.buf buf → Good s.names ⟨buf, s.writer.nameOffsets⟩

theorem Session.inv_new : Session.new.Inv := by
  refine ⟨fun pos hpos => ?_, fun buf hbuf => ⟨fun s off hs => ?_, fun p hp => ?_⟩⟩
  · cases hpos
  · cases hs
  · cases hp

/-- An operation that appends keeps the invariant if it is right behind any filling. -/
theorem Session.Inv.append {s : Session} (h : s.Inv) {bs : List UInt8} {table : NameOffsets}
    {names : List (Nat × Str)}
    (hgood : ∀ buf, buf.length = s.writer.buf.length → Good s.names ⟨buf, s.writer.nameOffsets⟩ →
      Good names ⟨buf ++ bs, table⟩) :
    Session.Inv ⟨⟨s.writer.buf ++ bs, table⟩, s.reserved, names⟩ := by
  refine ⟨fun pos hpos => ?_, fun buf hbuf => ?_⟩
  · have := h.reserved pos hpos
    simp only [List.length_append]
    omega
  · have htake : AgreeOff s.reserved s.writer.buf (buf.take s.writer.buf.length) :=
      hbuf.take fun pos hpos => .inl hpos
    have hsplit := List.take_append_drop s.writer.buf.length buf
    rw [hbuf.drop h.reserved] at hsplit
    have := hgood _ htake.length (h.good _ htake)
    rwa [hsplit] at this

theorem Session.Inv.writeBytes {s : Session} (h : s.Inv) (bs : List UInt8) :
    Session.Inv { s with writer := { s.writer with buf := s.writer.buf ++ bs } } :=
  h.append fun _ _ hg => hg.append bs

theorem Session.Inv.writeName {s : Session} (h : s.Inv) {name : Str} {w : Writer}
    (hrun : Dnser.writeName name s.writer = .ok ((), w)) :
    Session.Inv { s with writer := w, names := (s.writer.buf.length, name) :: s.names } := by
  obtain ⟨bs, hbs, happ⟩ := Appends.writeName name _ _ _ _ hrun
  have hinv : Session.Inv ⟨⟨s.writer.buf ++ bs, w.nameOffsets⟩, s.reserved,
      (s.writer.buf.length, name) :: s.names⟩ := by
    refine h.append fun buf hlen hg => ?_
    -- the same bytes come out behind any other filling
    have hg' := hg.writeName (happ buf hlen)
    rwa [hlen] at hg'
  rw [← hbs] at hinv
  exact hinv

theorem Session.Inv.reserveU16 {s : Session} (h : s.Inv) :
    Session.Inv { s with
      writer := { s.writer with buf := s.writer.buf ++ be16 0 }
      reserved := s.writer.buf.length :: s.reserved } := by
  refine ⟨fun pos hpos => ?_, fun buf hbuf => ?_⟩
  · rcases List.mem_cons.mp hpos with rfl | hpos
    · simp
    · have := h.reserved pos hpos
      simp only [List.length_append]
      omega
  · have htake : AgreeOff s.reserved s.writer.buf (buf.take s.writer.buf.length) := by
      refine hbuf.take fun pos hpos => ?_
      rcases List.mem_cons.mp hpos with rfl | hpos
      · exact .inr (Nat.le_refl _)
      · exact .inl hpos
    have := (h.good _ htake).append (buf.drop s.writer.buf.length)
    rwa [List.take_append_drop] at this

/-- Backfilling changes two bytes of a reserved word. -/
theorem backfillU16_eq {pos : Nat} {v : UInt16} {w w' : Writer}
    (h : backfillU16 pos v w = .ok ((), w')) :
    w' = { w with
      buf := (w.buf.set pos (UInt8.ofNat (v.toNat / 2 ^ 8))).set (pos + 1) (UInt8.ofNat v.toNat) } := by
  obtain ⟨⟨⟩, w₁, h₁, h₂⟩ := stateT_bind_eq_ok_iff.mp h
  unfold setByte at h₁ h₂
  split at h₁
  · cases h₁
    split at h₂
    · cases h₂
      rfl
    · cases h₂
  · cases h₁

theorem Session.Inv.backfillU16 {s : Session} (h : s.Inv) {pos : Nat} (hpos : pos ∈ s.reserved)
    (hi lo : UInt8) :
    Session.Inv { s with
      writer := { s.writer with buf := (s.writer.buf.set pos hi).set (pos + 1) lo } } := by
  refine ⟨fun p hp => ?_, fun buf hbuf => ?_⟩
  · simp only [List.length_set]
    exact h.reserved p hp
  · exact h.good buf ((hbuf.of_set hpos (.inr rfl)).of_set hpos (.inl rfl))

/-- One operation keeps the invariant. -/
theorem Session.Inv.step {s s' : Session} {op : WriterOp} (h : s.Inv) (hs : Session.Step s op s') :
    s'.Inv := by
  cases hs with
  | writeU8 hrun =>
      cases hrun
      exact h.writeBytes _
  | writeU16 hrun =>
      cases hrun
      exact h.writeBytes _
  | writeU32 hrun =>
      cases hrun
      exact h.writeBytes _
  | writeBytes hrun =>
      cases hrun
      exact h.writeBytes _
  | writeName hrun => exact h.writeName hrun
  | reserveU16 hrun =>
      cases hrun
      exact h.reserveU16
  | backfillU16 hpos hrun =>
      rw [backfillU16_eq hrun]
      exact h.backfillU16 hpos _ _

/--
**The compression-table invariant.** After every sequence of successful operations: every
entry of the table is an offset a pointer can hold, at which the buffer spells the labels of
the suffix it is filed under; every pointer that `write_name` emitted leads to a place before
it; and every name that was written is still spelled where it starts.
-/
theorem writer_invariant (s : Session) (h : s.Reachable) :
    (∀ suffix off, s.writer.nameOffsets.lookup suffix = some off → off.toNat ≤ 0x3FFF ∧
      ∃ jumps stop, Spells s.writer.buf off.toNat (splitDots suffix) jumps stop) ∧
    (∀ start name, (start, name) ∈ s.names →
      ∀ q target, OwnPointer s.writer.buf start q target → target < q) ∧
    (∀ start name, (start, name) ∈ s.names →
      ∃ jumps stop, Spells s.writer.buf start (labelsOf (trimName name).bytes) jumps stop) := by
  have hinv : s.Inv := Steps.Reachable.invariant Session.inv_new (fun _ _ _ h hs => h.step hs) h
  have hgood := hinv.good _ (AgreeOff.refl _ _)
  refine ⟨fun suffix off hs => ?_, fun start name hmem q target hown => ?_,
    fun start name hmem => (hgood.names _ hmem).spells⟩
  · obtain ⟨hmax, jumps, stop, hsp, -⟩ := hgood.table suffix off hs
    exact ⟨hmax, jumps, stop, hsp⟩
  · exact (hgood.names _ hmem).back _ (List.prefix_refl _) q target hown

/-- The name `a`, a reserved word, the same name again, and the word filled in. -/
def sampleSession : Session :=
  ⟨⟨[1, 97, 0, 0, 7, 0xC0, 0], [([97], 0)]⟩, [3], [(5, Str.a), (0, Str.a)]⟩

theorem sampleSession_reachable : sampleSession.Reachable := by
  have hname : Session.Step Session.new (.writeName Str.a)
      ⟨⟨[1, 97, 0], [([97], 0)]⟩, [], [(0, Str.a)]⟩ := .writeName (by decide +kernel)
  have hreserve : Session.Step ⟨⟨[1, 97, 0], [([97], 0)]⟩, [], [(0, Str.a)]⟩ .reserveU16
      ⟨⟨[1, 97, 0, 0, 0], [([97], 0)]⟩, [3], [(0, Str.a)]⟩ := .reserveU16 rfl
  have hagain : Session.Step ⟨⟨[1, 97, 0, 0, 0], [([97], 0)]⟩, [3], [(0, Str.a)]⟩
      (.writeName Str.a)
      { sampleSession with writer := ⟨[1, 97, 0, 0, 0, 0xC0, 0], [([97], 0)]⟩ } :=
    .writeName (by decide +kernel)
  have hfill : Session.Step
      { sampleSession with writer := ⟨[1, 97, 0, 0, 0, 0xC0, 0], [([97], 0)]⟩ }
      (.backfillU16 3 7) sampleSession := .backfillU16 List.mem_cons_self (by decide +kernel)
  exact .step (.step (.step (.step .init trivial hname) trivial hreserve) trivial hagain) trivial hfill

theorem sampleSession_spelled :
    ∃ jumps stop, Spells sampleSession.writer.buf 5 [[97]] jumps stop :=
  (writer_invariant sampleSession sampleSession_reachable).2.2 5 Str.a List.mem_cons_self

end Dnser
