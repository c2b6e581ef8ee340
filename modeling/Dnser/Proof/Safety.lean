import Dnser.Proof.Grammar
import Dnser.Proof.Parsed

/-!
# Parsing is safe and makes progress

Everything the parser does is put together from a few reads, and `Built` says how. It is shown of
the whole parser once; what holds of every read and survives sequencing then holds of the parser,
by induction on how it is built.

Two things hold of it here. It moves the cursor forward and keeps it inside the buffer (`Advances`).
And it never reaches an index out of bounds, a failed `unwrap` or a subtraction below zero
(`NoPanic`), which rests on the first: a record's data is measured by where the cursor was and where
it is. What a message is made of then stands in the buffer row upon row, each question and each
record where the one before it ended.
-/

namespace Dnser

open Utf8 (Str)
open Bytes Abort Loop

/-! ## How parsers are built -/

/-- So many bytes, as an address: `read_bytes(N)?`, and `<[u8; N]>::try_from(b).unwrap()`. -/
def readOctets (n : Nat) : ReadM (Octets n) := do
  let b ← readBytes n
  toOctets n b

/-- A parser that is put together from reads. -/
inductive Built : {α : Type} → ReadM α → Prop where
  | pure {α : Type} (a : α) : Built (Pure.pure a)
  | readErr {α : Type} (e : ParseError) : Built (readErr e : ReadM α)
  | readU8 : Built readU8
  | readU16 : Built readU16
  | readU32 : Built readU32
  | readBytes (n : Nat) : Built (readBytes n)
  | readOctets (n : Nat) : Built (readOctets n)
  | readName : Built readName
  | bind {α β : Type} {p : ReadM α} {k : α → ReadM β} : Built p → (∀ a, Built (k a)) →
      Built (p >>= k)
  | readItems {η ι : Type} {headLen : Nat} {head : ReadM (η × Nat)} {mk : η → List UInt8 → ι}
      {hpos : 0 < headLen} {rdlen : Nat} : Built head → Built (readItems headLen head mk hpos rdlen)
  | measured {α : Type} {p : ReadM α} (n : Nat) : Built p → Built (measured n p)

namespace Built

/-- A name, and record data made of it. -/
theorem readName_pure (mk : Str → RData) :
    Built (Dnser.readName >>= fun name => Pure.pure (mk name)) :=
  readName.bind fun _ => pure _

theorem readTxt (rdlen : Nat) : Built (readTxt rdlen) :=
  readItems (readU8.bind fun _ => pure _)

theorem readOpt (rdlen : Nat) : Built (readOpt rdlen) :=
  readItems (readU16.bind fun _ => readU16.bind fun _ => pure _)

/-- An address, if the length is right. -/
theorem address {n : Nat} (rdlen m : UInt16) (mk : Octets n → RData) :
    Built (if rdlen ≠ m then Dnser.readErr .rdataLengthMismatch
      else do
        let b ← Dnser.readBytes n
        let addr ← toOctets n b
        Pure.pure (mk addr)) := by
  split
  · exact readErr _
  · have hassoc : (Dnser.readOctets n >>= fun addr => Pure.pure (mk addr)) = (do
        let b ← Dnser.readBytes n
        let addr ← toOctets n b
        Pure.pure (mk addr)) := bind_assoc _ _ _
    rw [← hassoc]
    exact (readOctets n).bind fun _ => pure _

theorem parseInner (t rdlen : UInt16) : Built (RData.parseInner t rdlen) := by
  unfold RData.parseInner
  split
  · exact address rdlen 4 .a
  · exact address rdlen 16 .aaaa
  · exact readName_pure .ns
  · exact readName_pure .cname
  · exact readName_pure .ptr
  · exact readU16.bind fun _ => readName_pure _
  · exact (readTxt _).bind fun _ => pure _
  · exact readName.bind fun _ => readName.bind fun _ => readU32.bind fun _ => readU32.bind fun _ =>
      readU32.bind fun _ => readU32.bind fun _ => readU32.bind fun _ => pure _
  · exact readU16.bind fun _ => readU16.bind fun _ => readU16.bind fun _ => readName_pure _
  · exact (readOpt _).bind fun _ => pure _
  · exact (readBytes _).bind fun _ => pure _

theorem rdata (t rdlen : UInt16) : Built (RData.parse t rdlen) :=
  measured rdlen.toNat (parseInner t rdlen)

theorem resourceRecord : Built ResourceRecord.parse :=
  readName.bind fun _ => readU16.bind fun _ => readU16.bind fun _ => readU32.bind fun _ =>
    readU16.bind fun _ => (rdata _ _).bind fun _ => pure _

theorem question : Built Question.parse := by
  refine readName.bind fun name => readU16.bind fun t => ?_
  split
  · exact readErr _
  · refine readU16.bind fun cls => ?_
    dsimp only
    split
    · exact readErr _
    · exact pure _

theorem header : Built Header.parse := by
  refine readU16.bind fun id => readU16.bind fun flags => ?_
  split
  · exact readErr _
  · exact readU16.bind fun _ => readU16.bind fun _ => readU16.bind fun _ => readU16.bind fun _ =>
      pure _

theorem parseSection {α : Type} {p : ReadM α} (h : Built p) (k : Nat) :
    Built (parseSection p k) := by
  induction k with
  | zero => exact pure _
  | succ k ih => exact h.bind fun _ => ih.bind fun _ => pure _

/-- **The parser is built from reads.** -/
theorem message : Built Message.parseM :=
  header.bind fun _ => (question.parseSection _).bind fun _ =>
    (resourceRecord.parseSection _).bind fun _ => (resourceRecord.parseSection _).bind fun _ =>
      (resourceRecord.parseSection _).bind fun _ => pure _

end Built

/-! ## The cursor moves forward -/

/-- A successful read leaves the cursor inside the buffer, and not behind where it was. -/
def Advances {α : Type} (p : ReadM α) : Prop := Reads p fun _ _ => True

/-- The loop over items goes forward if its turns do. -/
theorem Advances.readItems {η ι : Type} {headLen : Nat} {head : ReadM (η × Nat)}
    {mk : η → List UInt8 → ι} {hpos : 0 < headLen} (hhead : Advances head) (rdlen : Nat) :
    Advances (readItems headLen head mk hpos rdlen) := by
  let P (s : ItemLoop ι) (x : List ι × Reader) : Prop := s.reader.pos ≤ s.reader.buf.length →
    ∃ n, x.2 = ⟨s.reader.buf, s.reader.pos + n⟩ ∧ s.reader.pos + n ≤ s.reader.buf.length ∧ True
  intro r items r' hitems
  refine loop_induct_ok (P := P) ?_ ?_ hitems
  · intro s x hbody hle
    obtain ⟨-, rfl⟩ := readItemsBody_done_iff.mp hbody
    exact ⟨0, rfl, hle, trivial⟩
  · intro s s' x hbody ih hle
    obtain ⟨-, h, len, data, r₁, r₂, hrun, -, hdata, rfl⟩ := readItemsBody_again_iff.mp hbody
    obtain ⟨n₁, rfl, hn₁, -⟩ := hhead _ _ _ hrun hle
    obtain ⟨n₂, rfl, hn₂, -⟩ := Reads.readBytes len _ _ _ hdata hn₁
    obtain ⟨n₃, hx, hn₃, -⟩ := ih hn₂
    dsimp only at hx hn₃
    exact ⟨n₁ + n₂ + n₃, by rw [hx]; simp only [Nat.add_assoc], by omega, trivial⟩

/-- **Every parser goes forward.** -/
theorem Built.advances {α : Type} {p : ReadM α} (h : Built p) : Advances p := by
  induction h with
  | pure a => exact Reads.pure trivial
  | readErr e => exact Reads.readErr e
  | readU8 => exact Reads.readU8.mono fun _ _ _ => trivial
  | readU16 => exact Reads.readU16.mono fun _ _ _ => trivial
  | readU32 => exact Reads.readU32.mono fun _ _ _ => trivial
  | readBytes n => exact (Reads.readBytes n).mono fun _ _ _ => trivial
  | readOctets n =>
      exact (Reads.readBytes n).bind fun _ _ _ => Reads.toOctets.mono fun _ _ _ => trivial
  | readName => exact Reads.readName.mono fun _ _ _ => trivial
  | bind _ _ ih ihk => exact Reads.bind ih fun a _ _ => ihk a
  | readItems _ ih => exact ih.readItems _
  | measured n _ ih => exact (Reads.measured ih n).mono fun _ _ _ => trivial

/-! ## No panic -/

/-- From a cursor inside its buffer, the parse does not panic. -/
def NoPanic {α : Type} (p : ReadM α) : Prop := ∀ r, r.pos ≤ r.buf.length → p r ≠ .error .panic

namespace NoPanic

variable {α β : Type} {p : ReadM α}

theorem bind {k : α → ReadM β} (h : NoPanic p) (hf : Advances p) (hk : ∀ a, NoPanic (k a)) :
    NoPanic (p >>= k) := by
  intro r hle
  cases hp : p r with
  | error e =>
      rw [stateT_bind_of_error hp]
      intro hpanic
      cases hpanic
      exact h r hle hp
  | ok x =>
      obtain ⟨a, r₁⟩ := x
      obtain ⟨n, rfl, hn, -⟩ := hf r a r₁ hp hle
      rw [stateT_bind_of_ok hp]
      exact hk a _ hn

theorem readU8 : NoPanic readU8 := by
  intro r _
  unfold Dnser.readU8
  split <;> simp

/-- A range that `get` returns is as long as it was asked for. -/
theorem length_of_getRange {buf bs : List UInt8} {i k : Nat}
    (h : getRange buf i (i + k) = some bs) : bs.length = k := by
  unfold getRange at h
  split at h
  · cases h
    simp
    omega
  · cases h

theorem readU16 : NoPanic readU16 := by
  intro r _
  unfold Dnser.readU16
  split
  · simp
  · simp
  · -- two bytes were asked for, so the pattern before this one matched
    rename_i bs hne hrange
    have hlen := length_of_getRange hrange
    match bs, hlen with
    | [a, b], _ => exact absurd rfl (hne a b)

theorem readU32 : NoPanic readU32 := by
  intro r _
  unfold Dnser.readU32
  split
  · simp
  · simp
  · rename_i bs hne hrange
    have hlen := length_of_getRange hrange
    match bs, hlen with
    | [a, b, c, d], _ => exact absurd rfl (hne a b c d)

theorem readBytes (n : Nat) : NoPanic (readBytes n) := by
  intro r _
  simp only [Dnser.readBytes]
  split
  · simp
  · rw [slice_of_le (by omega) (by omega)]
    intro hpanic
    cases hpanic

/-- There are as many bytes as the `unwrap` expects. -/
theorem readOctets (n : Nat) : NoPanic (readOctets n) := by
  intro r hle
  cases hb : Dnser.readBytes n r with
  | error e =>
      rw [Dnser.readOctets, stateT_bind_of_error hb]
      intro hpanic
      cases hpanic
      exact readBytes n r hle hb
  | ok x =>
      obtain ⟨bs, r₁⟩ := x
      obtain ⟨-, -, -, -, hlen⟩ := Reads.readBytes n r bs r₁ hb hle
      rw [Dnser.readOctets, stateT_bind_of_ok hb, toOctets, dif_pos hlen]
      simp

section
variable {η ι : Type} {headLen : Nat} {head : ReadM (η × Nat)} {mk : η → List UInt8 → ι}

/-- A turn of the item loop reads a head and data, and neither panics. -/
theorem readItemsBody (hhead : NoPanic head) (hf : Advances head) {s : ItemLoop ι}
    (hle : s.reader.pos ≤ s.reader.buf.length) : readItemsBody headLen head mk s ≠ .error .panic := by
  unfold Dnser.readItemsBody
  split
  · simp
  cases hh : head s.reader with
  | error e =>
      intro hpanic
      cases hpanic
      exact hhead _ hle hh
  | ok x =>
      obtain ⟨⟨h, len⟩, r⟩ := x
      obtain ⟨n, rfl, hn, -⟩ := hf _ _ _ hh hle
      simp only [Except.bind, Bind.bind]
      split
      · cases hdata : Dnser.readBytes len ⟨s.reader.buf, s.reader.pos + n⟩ with
        | error e =>
            intro hpanic
            cases hpanic
            exact readBytes len _ hn hdata
        | ok y => simp
      · simp

/-- The item loop, turn by turn. -/
theorem readItems {hpos : 0 < headLen} (hhead : NoPanic head) (hf : Advances head) (rdlen : Nat) :
    NoPanic (readItems headLen head mk hpos rdlen) := by
  let P (s : ItemLoop ι) (out : Except (Abort ParseError) (List ι × Reader)) : Prop :=
    s.reader.pos ≤ s.reader.buf.length → out ≠ .error .panic
  suffices hloop : ∀ s, P s (loop (Dnser.readItemsBody headLen head mk) ItemLoop.remaining
      (readItemsBody_decreases hpos) s) from fun r hle => hloop ⟨[], rdlen, r⟩ hle
  refine loop_induct ?_ ?_ ?_
  · intro s e hbody hle hpanic
    cases hpanic
    exact readItemsBody hhead hf hle hbody
  · intro s x _ _
    simp
  · intro s s' out hbody ih hle
    obtain ⟨-, h, len, data, r₁, r₂, hrun, -, hdata, rfl⟩ := readItemsBody_again_iff.mp hbody
    obtain ⟨n, rfl, hn, -⟩ := hf _ _ _ hrun hle
    obtain ⟨n', rfl, hn', -⟩ := Reads.readBytes len _ _ _ hdata hn
    exact ih hn'

end

/-- The subtraction does not go below zero. -/
theorem measured (h : NoPanic p) (hf : Advances p) (n : Nat) : NoPanic (measured n p) := by
  intro r hle
  cases hp : p r with
  | error e =>
      rw [measured_of_error hp]
      intro hpanic
      cases hpanic
      exact h r hle hp
  | ok x =>
      obtain ⟨a, r₁⟩ := x
      obtain ⟨k, rfl, -, -⟩ := hf r a r₁ hp hle
      rw [measured_of_ok hp (Nat.le_add_right _ _)]
      split <;> simp

end NoPanic

/-- **No parser panics.** -/
theorem Built.noPanic {α : Type} {p : ReadM α} (h : Built p) : NoPanic p := by
  induction h with
  | pure a =>
      intro r _ hpanic
      cases hpanic
  | readErr e =>
      intro r _ hpanic
      cases hpanic
  | readU8 => exact .readU8
  | readU16 => exact .readU16
  | readU32 => exact .readU32
  | readBytes n => exact .readBytes n
  | readOctets n => exact .readOctets n
  | readName => exact fun r _ => readName_no_panic r
  | bind hp _ ih ihk => exact ih.bind hp.advances ihk
  | readItems hhead ih => exact ih.readItems hhead.advances _
  | measured n hp ih => exact ih.measured hp.advances n

/-- Parsing returns a message or an error. -/
theorem parse_cases (buf : List UInt8) :
    (∃ m, Message.parse buf = .ok m) ∨ ∃ e, Message.parse buf = .error (.err e) := by
  have hsafe := Built.message.noPanic ⟨buf, 0⟩ (Nat.zero_le _)
  unfold Message.parse
  cases hrun : Message.parseM ⟨buf, 0⟩ with
  | ok x => exact .inl ⟨x.1, rfl⟩
  | error e =>
      cases e with
      | err e => exact .inr ⟨e, rfl⟩
      | panic => exact absurd hrun hsafe

/-! ## Row upon row -/

/-- Items that stand one behind the other from `p` on, and the bytes each takes, from where to
where. -/
inductive Rows {α : Type} (parse : ReadM α) (buf : List UInt8) :
    Nat → List α → List (Nat × Nat) → Nat → Prop where
  | nil {p : Nat} : Rows parse buf p [] [] p
  | cons {p q stop : Nat} {x : α} {xs : List α} {ranges : List (Nat × Nat)} :
      parse ⟨buf, p⟩ = .ok (x, ⟨buf, q⟩) → p < q → q ≤ buf.length →
      Rows parse buf q xs ranges stop → Rows parse buf p (x :: xs) ((p, q) :: ranges) stop

/-- Ranges between `p` and `stop` that do not overlap. -/
structure Apart (p : Nat) (ranges : List (Nat × Nat)) (stop : Nat) : Prop where
  le : p ≤ stop
  within : ∀ a ∈ ranges, p ≤ a.1 ∧ a.2 ≤ stop
  pairwise : ranges.Pairwise fun a b => a.2 ≤ b.1

theorem Apart.append {p q stop : Nat} {ranges ranges' : List (Nat × Nat)} (h : Apart p ranges q)
    (h' : Apart q ranges' stop) : Apart p (ranges ++ ranges') stop := by
  have hq := h.le
  have hstop := h'.le
  refine ⟨by omega, fun a ha => ?_, List.pairwise_append.mpr ⟨h.pairwise, h'.pairwise, ?_⟩⟩
  · rcases List.mem_append.mp ha with ha | ha
    · have := h.within a ha
      omega
    · have := h'.within a ha
      omega
  · intro a ha b hb
    have := h.within a ha
    have := h'.within b hb
    omega

theorem Rows.apart {α : Type} {parse : ReadM α} {buf : List UInt8} {p stop : Nat} {xs : List α}
    {ranges : List (Nat × Nat)} (h : Rows parse buf p xs ranges stop) : Apart p ranges stop := by
  induction h with
  | nil => exact ⟨Nat.le_refl _, by simp, .nil⟩
  | @cons p q stop x xs ranges _ hlt _ _ ih =>
      have hfirst : Apart p [(p, q)] q := ⟨by omega, by simp, List.pairwise_singleton _ _⟩
      exact hfirst.append ih

/-- A section is read row upon row. -/
theorem rows_of_parseSection {α : Type} {parse : ReadM α} {P : α → Nat → Prop}
    (hreads : Reads parse P) (hpos : ∀ a n, P a n → 1 ≤ n) {k p : Nat} {buf : List UInt8}
    {xs : List α} {r : Reader} (hrun : parseSection parse k ⟨buf, p⟩ = .ok (xs, r))
    (hle : p ≤ buf.length) :
    ∃ stop ranges, r = ⟨buf, stop⟩ ∧ stop ≤ buf.length ∧ Rows parse buf p xs ranges stop := by
  induction k generalizing p xs r with
  | zero =>
      cases hrun
      exact ⟨p, [], rfl, hle, .nil⟩
  | succ k ih =>
      obtain ⟨x, r₁, hx, hrun⟩ := stateT_bind_eq_ok_iff.mp hrun
      obtain ⟨xs', r₂, hxs, hrun⟩ := stateT_bind_eq_ok_iff.mp hrun
      cases hrun
      obtain ⟨n, rfl, hn, hP⟩ := hreads _ _ _ hx hle
      have := hpos x n hP
      obtain ⟨stop, ranges, rfl, hend, hrows⟩ := ih hxs hn
      exact ⟨stop, (p, p + n) :: ranges, rfl, hend, .cons hx (by omega) hn hrows⟩

/-- The four sections of a message, behind its twelve bytes of header. -/
structure Layout (buf : List UInt8) (m : Message) (stop : Nat) (qd an ns ar : List (Nat × Nat)) :
    Prop where
  rows : ∃ p₁ p₂ p₃, Rows Question.parse buf 12 m.questions qd p₁ ∧
    Rows ResourceRecord.parse buf p₁ m.answers an p₂ ∧
    Rows ResourceRecord.parse buf p₂ m.authority ns p₃ ∧
    Rows ResourceRecord.parse buf p₃ m.additional ar stop
  apart : Apart 12 (qd ++ an ++ ns ++ ar) stop
  inside : stop ≤ buf.length

theorem layout_of_parse {buf : List UInt8} {m : Message} {r : Reader}
    (h : Message.parseM ⟨buf, 0⟩ = .ok (m, r)) : ∃ qd an ns ar, Layout buf m r.pos qd an ns ar := by
  obtain ⟨header, r₀, hheader, h⟩ := stateT_bind_eq_ok_iff.mp h
  obtain ⟨n, rfl, hn, rfl, -⟩ := Reads.header _ _ _ hheader (Nat.zero_le _)
  have hquestions : ∀ (q : Question) n, (5 ≤ n ∧ q.qclass.isKnown = true ∧ ReadableName q.name) →
      1 ≤ n := fun _ n hn => by omega
  have hrecords : ∀ (rr : ResourceRecord) n, (11 ≤ n ∧ rr.rdata.SizesOk ∧
      ∀ name ∈ rr.names, ReadableName name) → 1 ≤ n := fun _ n hn => by omega
  obtain ⟨questions, r₁, hqd, h⟩ := stateT_bind_eq_ok_iff.mp h
  obtain ⟨p₁, qd, rfl, hp₁, rows₁⟩ := rows_of_parseSection Reads.question hquestions hqd hn
  obtain ⟨answers, r₂, han, h⟩ := stateT_bind_eq_ok_iff.mp h
  obtain ⟨p₂, an, rfl, hp₂, rows₂⟩ := rows_of_parseSection Reads.resourceRecord hrecords han hp₁
  obtain ⟨authority, r₃, hns, h⟩ := stateT_bind_eq_ok_iff.mp h
  obtain ⟨p₃, ns, rfl, hp₃, rows₃⟩ := rows_of_parseSection Reads.resourceRecord hrecords hns hp₂
  obtain ⟨additional, r₄, har, h⟩ := stateT_bind_eq_ok_iff.mp h
  obtain ⟨p₄, ar, rfl, hp₄, rows₄⟩ := rows_of_parseSection Reads.resourceRecord hrecords har hp₃
  cases h
  exact ⟨qd, an, ns, ar, ⟨p₁, p₂, p₃, rows₁, rows₂, rows₃, rows₄⟩,
    ((rows₁.apart.append rows₂.apart).append rows₃.apart).append rows₄.apart, hp₄⟩

/--
**Parsing is safe and makes progress.** `Message::parse` returns a message or an error for every
buffer. Every read that succeeds leaves the cursor inside the buffer and takes the bytes it says:
one, two, four or as many as asked for, at least one for a name, a question or a record, and just
`rdlen` for record data. And the questions and records of a message stand in the buffer one behind
the other, in ranges that do not overlap.
-/
theorem parse_safe (buf : List UInt8) :
    ((∃ m, Message.parse buf = .ok m) ∨ ∃ e, Message.parse buf = .error (.err e)) ∧
    (Reads readU8 (fun _ n => n = 1) ∧ Reads readU16 (fun _ n => n = 2) ∧
      Reads readU32 (fun _ n => n = 4) ∧ (∀ k, Reads (readBytes k) fun _ n => n = k) ∧
      Reads readName (fun _ n => 1 ≤ n)) ∧
    (Reads Question.parse (fun _ n => 1 ≤ n) ∧ Reads ResourceRecord.parse (fun _ n => 1 ≤ n) ∧
      ∀ t rdlen, Reads (RData.parse t rdlen) fun _ n => n = rdlen.toNat) ∧
    ∀ m r, Message.parseM ⟨buf, 0⟩ = .ok (m, r) → ∃ qd an ns ar, Layout buf m r.pos qd an ns ar := by
  refine ⟨parse_cases buf, ⟨.readU8, .readU16, .readU32, fun k => ?_, ?_⟩, ⟨?_, ?_, ?_⟩,
    fun m r => layout_of_parse⟩
  · exact (Reads.readBytes k).mono fun _ _ h => h.1
  · exact Reads.readName.mono fun _ _ h => h.1
  · exact Reads.question.mono fun _ _ h => by omega
  · exact Reads.resourceRecord.mono fun _ _ h => by omega
  · exact fun t rdlen => (Reads.rdataParse t rdlen).mono fun _ _ h => h.1

end Dnser
