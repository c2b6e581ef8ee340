import Dnser.Proof.Encodes

/-!
# The size of a message

How many bytes a message takes, worked out from its names and from how long everything else is.
What the writer needs to know about the past is which suffixes it has filed and where it stands;
`labelsSize` keeps track of just that. A message is a sequence of pieces, each a name or a number
of bytes, and `Measures m ps` says that `m` writes the pieces `ps`; sequencing is concatenation, so
the pieces of a whole message are read off its syntax.
-/

namespace Dnser

open Utf8 (Str IsUtf8)
open Bytes Abort

/--
The bytes that labels take at position `pos`, when the suffixes in `seen` can be pointed to,
and the suffixes that can be pointed to afterwards.
-/
def labelsSize (seen : List (List UInt8)) (pos : Nat) :
    List (List UInt8) → Nat × List (List UInt8)
  | [] => (1, seen)
  | l :: ls =>
      if joinDots (l :: ls) ∈ seen then (2, seen)
      else
        let seen := if pos ≤ maxPointer then joinDots (l :: ls) :: seen else seen
        let (n, seen) := labelsSize seen (pos + 1 + l.length) ls
        (1 + l.length + n, seen)

/-- The bytes a name takes. -/
def nameSize (seen : List (List UInt8)) (pos : Nat) (name : Str) : Nat × List (List UInt8) :=
  labelsSize seen pos (labelsOf (trimName name).bytes)

/-- The bytes the questions of a message take, name by name, each with its type and class. -/
def questionsSize (seen : List (List UInt8)) (pos : Nat) : List Question → Nat
  | [] => 0
  | q :: qs =>
      let (n, seen) := nameSize seen pos q.name
      n + 4 + questionsSize seen (pos + n + 4) qs

/-- The suffixes a writer can point to. -/
def Writer.seen (w : Writer) : List (List UInt8) := w.nameOffsets.map Prod.fst

theorem lookup_eq_none_iff_seen {w : Writer} {s : List UInt8} :
    w.nameOffsets.lookup s = none ↔ s ∉ w.seen := by
  unfold Writer.seen
  rw [List.lookup_eq_none_iff]
  simp only [List.mem_map, not_exists, not_and, ne_eq, bne_iff_ne]
  constructor
  · rintro h p hp rfl
    exact h p hp rfl
  · rintro h p hp rfl
    exact h p hp rfl

theorem seen_afterLabel (w : Writer) (suffix l : List UInt8) :
    (afterLabel w suffix l).seen =
      if w.buf.length ≤ maxPointer then suffix :: w.seen else w.seen := by
  unfold afterLabel recorded Writer.seen
  split <;> rfl

/-- A suffix that is filed takes the two bytes of a pointer. -/
theorem writeLabels_size_hit {ls : List (List UInt8)} {l pre : List UInt8} {w w' : Writer}
    {ptr : UInt16} (hu : IsUtf8 (joinDots (l :: ls)))
    (hget : w.nameOffsets.lookup (joinDots (l :: ls)) = some ptr)
    (h : writeLabels (pre ++ joinDots (l :: ls)) pre.length (l :: ls) w = .ok ((), w')) :
    labelsSize w.seen w.buf.length (l :: ls) = (w'.buf.length - w.buf.length, w'.seen) ∧
      w.buf.length ≤ w'.buf.length := by
  rw [writeLabels_hit hu hget] at h
  cases h
  have hmem : joinDots (l :: ls) ∈ w.seen := by
    by_contra hn
    rw [lookup_eq_none_iff_seen.mpr hn] at hget
    cases hget
  rw [labelsSize, if_pos hmem]
  simp [Writer.seen]

/-- **The label loop writes as many bytes as `labelsSize` says.** -/
theorem writeLabels_size : ∀ (ls : List (List UInt8)) (l pre : List UInt8) (w w' : Writer),
    IsUtf8 (joinDots (l :: ls)) →
    writeLabels (pre ++ joinDots (l :: ls)) pre.length (l :: ls) w = .ok ((), w') →
    labelsSize w.seen w.buf.length (l :: ls) = (w'.buf.length - w.buf.length, w'.seen) ∧
      w.buf.length ≤ w'.buf.length := by
  intro ls
  induction ls with
  | nil =>
      intro l pre w w' hu h
      cases hget : w.nameOffsets.lookup (joinDots [l]) with
      | some ptr => exact writeLabels_size_hit hu hget h
      | none =>
          obtain ⟨-, h⟩ := valid_of_miss hu hget h
          cases h
          rw [labelsSize, if_neg (lookup_eq_none_iff_seen.mp hget), ← seen_afterLabel w _ l]
          simp [labelsSize, afterLabel, Writer.seen]
          omega
  | cons l' ls ih =>
      intro l pre w w' hu h
      cases hget : w.nameOffsets.lookup (joinDots (l :: l' :: ls)) with
      | some ptr => exact writeLabels_size_hit hu hget h
      | none =>
          obtain ⟨-, h⟩ := valid_of_miss hu hget h
          rw [writeLabels_next] at h
          obtain ⟨hsize, hle⟩ := ih l' _ _ w' (isUtf8_joinDots_tail hu) h
          have hlen : (afterLabel w (joinDots (l :: l' :: ls)) l).buf.length =
              w.buf.length + 1 + l.length := by
            simp [afterLabel]
            omega
          -- the rest is measured from where this label ends, with its suffix filed
          rw [hlen] at hsize hle
          rw [labelsSize, if_neg (lookup_eq_none_iff_seen.mp hget), ← seen_afterLabel w _ l]
          dsimp only
          rw [hsize]
          exact ⟨by dsimp only; congr 1; omega, by omega⟩

theorem writeName_size {name : Str} {w w' : Writer} (h : writeName name w = .ok ((), w')) :
    nameSize w.seen w.buf.length name = (w'.buf.length - w.buf.length, w'.seen) ∧
      w.buf.length ≤ w'.buf.length := by
  unfold nameSize
  rcases writeName_cases name w with ⟨hnil, hrun⟩ | ⟨l, ls, hlabels, hjoin, -, hrun⟩
  · rw [hrun] at h
    cases h
    rw [show labelsOf (trimName name).bytes = [] by simp [labelsOf, hnil], labelsSize]
    simp [Writer.seen]
  · rw [hrun] at h
    rw [hlabels]
    exact writeLabels_size ls l [] w w' (hjoin ▸ (trimName name).utf8) h

/-! ## Pieces -/

/-- A piece of a message: a name, or bytes that are what they are. -/
inductive Piece where
  | name (n : Str)
  | bytes (k : Nat)

/-- The bytes that pieces take, and the suffixes that can be pointed to afterwards. -/
def piecesSize (seen : List (List UInt8)) (pos : Nat) : List Piece → Nat × List (List UInt8)
  | [] => (0, seen)
  | .name name :: ps =>
      let (n, seen) := nameSize seen pos name
      let (rest, seen) := piecesSize seen (pos + n) ps
      (n + rest, seen)
  | .bytes k :: ps =>
      let (rest, seen) := piecesSize seen (pos + k) ps
      (k + rest, seen)

theorem piecesSize_append (seen : List (List UInt8)) (pos : Nat) (ps ps' : List Piece) :
    piecesSize seen pos (ps ++ ps') =
      let (n, seen) := piecesSize seen pos ps
      let (n', seen) := piecesSize seen (pos + n) ps'
      (n + n', seen) := by
  induction ps generalizing seen pos with
  | nil => simp [piecesSize]
  | cons p ps ih =>
      cases p with
      | name n => simp [piecesSize, ih, Nat.add_assoc]
      | bytes k => simp [piecesSize, ih, Nat.add_assoc]

/-- The write adds these pieces. -/
def Measures (m : WriteM Unit) (ps : List Piece) : Prop :=
  ∀ w w', m w = .ok ((), w') → w'.buf.length = w.buf.length + (piecesSize w.seen w.buf.length ps).1 ∧
    w'.seen = (piecesSize w.seen w.buf.length ps).2

namespace Measures

variable {m m' : WriteM Unit} {ps ps' : List Piece}

theorem pure : Measures (Pure.pure ()) [] := by
  intro w w' h
  cases h
  exact ⟨rfl, rfl⟩

/-- **Sequencing is concatenation.** -/
theorem bind (h : Measures m ps) (h' : Measures m' ps') :
    Measures (m >>= fun _ => m') (ps ++ ps') := by
  intro w w' hrun
  obtain ⟨⟨⟩, w₁, h₁, h₂⟩ := stateT_bind_eq_ok_iff.mp hrun
  obtain ⟨hlen, hseen⟩ := h w w₁ h₁
  obtain ⟨hlen', hseen'⟩ := h' w₁ w' h₂
  rw [hseen, hlen] at hlen' hseen'
  rw [piecesSize_append]
  dsimp only
  exact ⟨by rw [hlen', Nat.add_assoc], hseen'⟩

theorem writeBytes {bs : List UInt8} {k : Nat} (hk : bs.length = k) :
    Measures (writeBytes bs) [.bytes k] := by
  intro w w' h
  cases h
  subst hk
  exact ⟨List.length_append, rfl⟩

/-- A plain write in front makes the first piece longer. -/
theorem bytes_bind {bs : List UInt8} {j k : Nat} (hj : bs.length = j)
    (h : Measures m (.bytes k :: ps)) :
    Measures (Dnser.writeBytes bs >>= fun _ => m) (.bytes (j + k) :: ps) := by
  intro w w' hrun
  obtain ⟨hlen, hseen⟩ := (writeBytes hj).bind h w w' hrun
  simpa [piecesSize, Nat.add_assoc] using And.intro hlen hseen

theorem name (name : Str) : Measures (writeName name) [.name name] := by
  intro w w' h
  obtain ⟨hsize, hle⟩ := writeName_size h
  simp only [piecesSize, hsize, Nat.add_zero, and_true]
  omega

theorem writeAll {α : Type} {write : α → WriteM Unit} {pieces : α → List Piece}
    (h : ∀ x, Measures (write x) (pieces x)) (xs : List α) :
    Measures (writeAll write xs) (xs.flatMap pieces) := by
  induction xs with
  | nil => exact pure
  | cons x xs ih =>
      rw [List.flatMap_cons]
      exact (h x).bind ih

theorem chunk (c : List UInt8) : Measures (writeChunk c) [.bytes (1 + c.length)] := by
  unfold writeChunk
  split
  · intro w w' h
    cases h
  · exact (writeBytes rfl).bytes_bind rfl

theorem option (o : EdnsOption) : Measures o.write [.bytes (4 + o.data.length)] := by
  have h : Measures o.write [.bytes (2 + (2 + o.data.length))] :=
    ((writeBytes rfl).bytes_bind (length_be16 _)).bytes_bind (length_be16 _)
  rwa [← Nat.add_assoc] at h

end Measures

/-! ## Whole messages -/

/-- The pieces of record data. -/
def RData.pieces : RData → List Piece
  | .a _ => [.bytes 4]
  | .aaaa _ => [.bytes 16]
  | .ns name => [.name name]
  | .cname name => [.name name]
  | .ptr name => [.name name]
  | .mx _ exchange => [.bytes 2, .name exchange]
  | .txt chunks => chunks.flatMap fun c => [.bytes (1 + c.length)]
  | .soa mname rname _ _ _ _ _ => [.name mname, .name rname, .bytes 20]
  | .srv _ _ _ target => [.bytes 6, .name target]
  | .opt options => options.flatMap fun o => [.bytes (4 + o.data.length)]
  | .unknown _ data => [.bytes data.length]

/-- The pieces of a record: the name, the four numbers and the data. -/
def ResourceRecord.pieces (rr : ResourceRecord) : List Piece :=
  .name rr.name :: .bytes 10 :: rr.rdata.pieces

/-- The pieces of a question. -/
def Question.pieces (q : Question) : List Piece := [.name q.name, .bytes 4]

/-- The pieces of a message behind its header. -/
def Message.pieces (m : Message) : List Piece :=
  m.questions.flatMap Question.pieces ++ m.records.flatMap ResourceRecord.pieces

/-- The bytes a message takes. -/
def Message.size (m : Message) : Nat := 12 + (piecesSize [] 12 m.pieces).1

theorem Measures.rdata (rd : RData) : Measures rd.write rd.pieces := by
  cases rd with
  | a addr => exact writeBytes addr.size
  | aaaa addr => exact writeBytes addr.size
  | ns n => exact name n
  | cname n => exact name n
  | ptr n => exact name n
  | mx preference exchange => exact (writeBytes (length_be16 _)).bind (name exchange)
  | txt chunks => exact writeAll chunk chunks
  | soa mname rname serial refresh retry expire minimum =>
      have hnumbers := (writeBytes (length_be32 minimum)).bytes_bind (length_be32 expire)
        |>.bytes_bind (length_be32 retry) |>.bytes_bind (length_be32 refresh)
        |>.bytes_bind (length_be32 serial)
      exact (name mname).bind ((name rname).bind hnumbers)
  | srv priority weight port target =>
      have hport := (writeBytes (length_be16 port)).bind (name target)
      exact (hport.bytes_bind (length_be16 weight)).bytes_bind (length_be16 priority)
  | opt options => exact writeAll option options
  | unknown rtype data => exact writeBytes rfl

/-- The placeholder counts, and backfilling it does not. -/
theorem Measures.tail (rr : ResourceRecord) : Measures rr.writeTail (.bytes 2 :: rr.rdata.pieces) := by
  intro w w' h
  obtain ⟨d, t', hd, hr⟩ := writeTail_eq_ok_iff.mp h
  cases hr
  obtain ⟨hlen, hseen⟩ := Measures.rdata rr.rdata _ _ hd
  have hpos : (w.buf ++ be16 (UInt16.ofNat d.length)).length = w.buf.length + 2 := by
    rw [List.length_append, length_be16]
  dsimp only at hlen hseen
  rw [hpos] at hlen hseen
  refine ⟨?_, hseen⟩
  rw [hlen, Nat.add_assoc]
  rfl

theorem Measures.resourceRecord (rr : ResourceRecord) : Measures rr.write rr.pieces := by
  have hnumbers := (tail rr).bytes_bind (length_be32 rr.ttl)
    |>.bytes_bind (length_be16 rr.cls.value) |>.bytes_bind (length_be16 rr.typeNumber)
  rw [rrWrite_eq]
  exact (name rr.name).bind hnumbers

theorem Measures.question (q : Question) : Measures q.write q.pieces :=
  (name q.name).bind ((writeBytes (length_be16 _)).bytes_bind (length_be16 _))

/-- **An encoded message takes as many bytes as its size says.** -/
theorem length_toBytes_eq {m : Message} {b : List UInt8} (h : m.toBytes = .ok b) :
    b.length = m.size := by
  obtain ⟨⟨⟨⟩, w⟩, hrun, rfl⟩ := map_eq_ok_iff.mp h
  obtain ⟨⟨⟩, w₀, hheader, hsections⟩ := stateT_bind_eq_ok_iff.mp hrun
  have hrecords := Measures.writeAll Measures.resourceRecord
  have hmeasures := (Measures.writeAll Measures.question m.questions).bind
    ((hrecords m.answers).bind ((hrecords m.authority).bind (hrecords m.additional)))
  have hpieces : m.pieces = m.questions.flatMap Question.pieces ++
      (m.answers.flatMap ResourceRecord.pieces ++ (m.authority.flatMap ResourceRecord.pieces ++
        m.additional.flatMap ResourceRecord.pieces)) := by
    rw [Message.pieces, Message.records, List.flatMap_append, List.flatMap_append, List.append_assoc]
  -- the header is twelve bytes, and files no suffix
  cases hheader
  rw [Message.size, hpieces]
  exact (hmeasures _ _ hsections).1

theorem questionsSize_eq (seen : List (List UInt8)) (pos : Nat) (qs : List Question) :
    questionsSize seen pos qs = (piecesSize seen pos (qs.flatMap Question.pieces)).1 := by
  induction qs generalizing seen pos with
  | nil => rfl
  | cons q qs ih =>
      rw [List.flatMap_cons, Question.pieces]
      simp [questionsSize, piecesSize, ih, Nat.add_assoc]

/-- **An encoded message is a header, its questions, and its records if it has any.** -/
theorem length_toBytes {m : Message} {b : List UInt8} (h : m.toBytes = .ok b) :
    12 + questionsSize [] 12 m.questions ≤ b.length ∧
      (m.answers = [] → m.authority = [] → m.additional = [] →
        b.length = 12 + questionsSize [] 12 m.questions) := by
  rw [length_toBytes_eq h, Message.size, Message.pieces, piecesSize_append, questionsSize_eq]
  refine ⟨by dsimp only; omega, fun ha hn hr => ?_⟩
  rw [show m.records = [] by simp [Message.records, ha, hn, hr]]
  rfl

end Dnser
