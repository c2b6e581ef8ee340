import Dnser.Proof.Names
import Mathlib.Logic.Relation

/-!
# The compressed-name grammar

`readName_eq_ok_iff` says what `read_name` accepts, in terms of the strings it joins. Here it is
said in terms of the bytes alone, and the other half is added: what is not accepted is an error
and never a panic. In particular a name whose pointers lead round in a circle is an error. A
derivation of `Spells` is finite and follows the chase step by step, so it cannot exist for one.
-/

namespace Dnser

open Utf8 (Str IsUtf8)
open Bytes Abort Loop

/-! ## The chase -/

/-- From `p`, a name goes on at `q`: behind a label, or where a pointer leads. -/
inductive Chase (buf : List UInt8) : Nat → Nat → Prop where
  | label {p : Nat} {n : UInt8} : buf[p]? = some n → 1 ≤ n.toNat → n.toNat ≤ 63 →
      p + 1 + n.toNat ≤ buf.length → Chase buf p (p + 1 + n.toNat)
  | pointer {p : Nat} {byte low : UInt8} : buf[p]? = some byte → 192 ≤ byte.toNat →
      buf[p + 1]? = some low → pointerOffset byte low < buf.length →
      Chase buf p (pointerOffset byte low)

/-- There is one way on at most. -/
theorem Chase.unique {buf : List UInt8} {p q q' : Nat} (h : Chase buf p q) (h' : Chase buf p q') :
    q = q' := by
  cases h with
  | label hn _ h63 _ =>
      cases h' with
      | label hn' _ _ _ =>
          rw [hn] at hn'
          rw [Option.some.inj hn']
      | pointer hb' h192 _ _ =>
          rw [hn] at hb'
          have := Option.some.inj hb'
          subst this
          omega
  | pointer hb h192 hlow _ =>
      cases h' with
      | label hn' _ h63 _ =>
          rw [hb] at hn'
          have := Option.some.inj hn'
          subst this
          omega
      | pointer hb' _ hlow' _ =>
          rw [hb] at hb'
          rw [hlow] at hlow'
          rw [Option.some.inj hb', Option.some.inj hlow']

/-- A terminating zero leads nowhere. -/
theorem Chase.not_zero {buf : List UInt8} {p q : Nat} (h : Chase buf p q) : buf[p]? ≠ some 0 := by
  intro h0
  cases h with
  | label hn h1 _ _ =>
      rw [h0] at hn
      have := Option.some.inj hn
      subst this
      exact absurd h1 (by decide)
  | pointer hb h192 _ _ =>
      rw [h0] at hb
      have := Option.some.inj hb
      subst this
      exact absurd h192 (by decide)

/-- The chase from `p` comes back to a place it has been to. -/
def Cyclic (buf : List UInt8) (p : Nat) : Prop :=
  ∃ q, Relation.ReflTransGen (Chase buf) p q ∧ Relation.TransGen (Chase buf) q q

/-- A circle that is reached from `p` is reached from where `p` leads. -/
theorem Cyclic.next {buf : List UInt8} {p p' : Nat} (h : Cyclic buf p) (hp : Chase buf p p') :
    Cyclic buf p' := by
  obtain ⟨q, hreach, hcycle⟩ := h
  rcases Relation.ReflTransGen.cases_head hreach with rfl | ⟨p₁, hp₁, hreach⟩
  · -- the circle starts at `p` itself, and goes through `p'`
    obtain ⟨p₁, hp₁, hback⟩ := Relation.TransGen.head'_iff.mp hcycle
    obtain rfl := hp₁.unique hp
    exact ⟨p₁, .refl, Relation.TransGen.tail' hback hp₁⟩
  · obtain rfl := hp₁.unique hp
    exact ⟨q, hreach, hcycle⟩

/-- **What the buffer spells goes round in no circle.** -/
theorem Spells.not_cyclic {buf : List UInt8} {p jumps stop : Nat} {ls : List (List UInt8)}
    (h : Spells buf p ls jumps stop) : ¬ Cyclic buf p := by
  induction h with
  | @root p h0 =>
      intro hparts
      obtain ⟨q, hreach, hcycle⟩ := hparts
      rcases Relation.ReflTransGen.cases_head hreach with rfl | ⟨p₁, hp₁, -⟩
      · obtain ⟨p₁, hp₁, -⟩ := Relation.TransGen.head'_iff.mp hcycle
        exact hp₁.not_zero h0
      · exact hp₁.not_zero h0
  | label hn h1 h63 hl hseg hrest ih =>
      intro hc
      have hb := hrest.bounds
      rw [hl] at ih hb
      exact ih (hc.next (.label hn h1 h63 (by omega)))
  | pointer hbyte h192 hlow ho _ ih =>
      intro hc
      exact ih (hc.next (.pointer hbyte h192 hlow ho))

/-! ## Errors, not panics -/

theorem readPointer_no_panic (buf : List UInt8) (s : NameLoop) (byte : UInt8) :
    readPointer buf s byte ≠ .error .panic := by
  unfold readPointer
  split
  · simp
  · rename_i hlt
    obtain ⟨low, hlow⟩ : ∃ low, buf[s.pos + 1]? = some low :=
      ⟨_, List.getElem?_eq_getElem (by omega)⟩
    have hindex : (index buf (s.pos + 1) : Except (Abort ParseError) UInt8) = .ok low :=
      index_eq_ok_iff.mpr hlow
    rw [hindex]
    simp only [bind, Except.bind]
    split <;> simp

theorem readLabel_no_panic (buf : List UInt8) (s : NameLoop) (byte : UInt8) :
    readLabel buf s byte ≠ .error .panic := by
  unfold readLabel
  split
  · simp
  · split
    · simp
    · rw [slice_of_le (by omega) (by omega)]
      simp only [bind, Except.bind]
      cases Utf8.fromUtf8 ((buf.drop (s.pos + 1)).take (s.pos + 1 + byte.toNat - (s.pos + 1))) with
      | error e => simp [mapErr]
      | ok label =>
          simp only [mapErr]
          split <;> simp

theorem readNameBody_no_panic (buf : List UInt8) (s : NameLoop) :
    readNameBody buf s ≠ .error .panic := by
  unfold readNameBody
  split
  · simp
  · split
    · simp
    · rename_i hlt
      obtain ⟨byte, hbyte⟩ : ∃ byte, buf[s.pos]? = some byte :=
        ⟨_, List.getElem?_eq_getElem (by omega)⟩
      have hindex : (index buf s.pos : Except (Abort ParseError) UInt8) = .ok byte :=
        index_eq_ok_iff.mpr hbyte
      have hmap : ∀ m : Except (Abort ParseError) NameLoop, m ≠ .error .panic →
          (Turn.again <$> m : Except (Abort ParseError) (Turn NameLoop (Str × Nat))) ≠
            .error .panic := by
        intro m hm
        cases m with
        | error e => simpa using hm
        | ok s' => simp
      rw [hindex]
      simp only [bind, Except.bind]
      split
      · simp
      · split
        · exact hmap _ (readPointer_no_panic buf s byte)
        · exact hmap _ (readLabel_no_panic buf s byte)

theorem nameLoop_no_panic (buf : List UInt8) (s : NameLoop) : nameLoop buf s ≠ .error .panic := by
  refine loop_induct (P := fun _ (out : Except (Abort ParseError) (Str × Nat)) =>
    out ≠ .error .panic) ?_ ?_ ?_ s
  · intro s e hbody hpanic
    cases hpanic
    exact readNameBody_no_panic buf s hbody
  · intro s a _
    simp
  · intro s s' out _ h
    exact h

/-- `read_name` never panics. -/
theorem readName_no_panic (r : Reader) : readName r ≠ .error .panic := by
  have hloop := nameLoop_no_panic r.buf
    { name := Str.empty, pos := r.pos, jumped := false, jumps := 0, cursor := r.pos }
  unfold readName
  unfold nameLoop at hloop
  cases hrun : loop (readNameBody r.buf) (readNameVariant r.buf) (readNameBody_decreases r.buf)
      { name := Str.empty, pos := r.pos, jumped := false, jumps := 0, cursor := r.pos } with
  | ok a => simp [bind, Except.bind]
  | error e =>
      rw [hrun] at hloop
      simpa [bind, Except.bind] using hloop

/-! ## The grammar -/

/-- What `read_name` returns, in terms of bytes. -/
theorem readName_iff_spells {buf : List UInt8} {p : Nat} {name : Str} {r : Reader} :
    readName ⟨buf, p⟩ = .ok (name, r) ↔
      ∃ labels jumps stop, Spells buf p labels jumps stop ∧ jumps ≤ 127 ∧
        (∀ l ∈ labels, IsUtf8 l) ∧ name.bytes = joinDots labels ∧ name.len ≤ 253 ∧
        r = ⟨buf, stop⟩ := by
  rw [readName_eq_ok_iff]
  constructor
  · intro hparts
    obtain ⟨labels, jumps, stop, hsp, hj, rfl, hlen, rfl⟩ := hparts
    refine ⟨labels.map Str.bytes, jumps, stop, hsp, Nat.le_of_lt_succ hj, ?_, ?_, hlen, rfl⟩
    · intro l hl
      obtain ⟨x, -, rfl⟩ := List.mem_map.mp hl
      exact x.utf8
    · refine bytes_joinLabels fun l hl => ?_
      exact List.ne_nil_of_length_pos (hsp.label_length l.bytes (List.mem_map_of_mem hl)).1
  · intro hparts
    obtain ⟨ls, jumps, stop, hsp, hj, hutf8, hname, hlen, rfl⟩ := hparts
    obtain ⟨labels, rfl⟩ := exists_str_labels hutf8
    refine ⟨labels, jumps, stop, hsp, Nat.lt_succ_of_le hj, Str.ext ?_, hlen, rfl⟩
    rw [hname, bytes_joinLabels fun l hl =>
      List.ne_nil_of_length_pos (hsp.label_length l.bytes (List.mem_map_of_mem hl)).1]

/--
**`read_name` accepts exactly the compressed-name grammar.** From any position it returns a
name, and moves the cursor, if and only if the bytes there spell a list of labels through at
most 127 pointers, every label is UTF-8, the name is the labels with dots between them and at
most 253 bytes long, and the cursor ends up behind the name's own bytes: behind its first
pointer if it has one, else behind the terminating zero. Where the chase is cyclic, it returns
an error.
-/
theorem readName_grammar (buf : List UInt8) (p : Nat) :
    (∀ (name : Str) (r : Reader), readName ⟨buf, p⟩ = .ok (name, r) ↔
      ∃ labels jumps stop, Spells buf p labels jumps stop ∧ jumps ≤ 127 ∧
        (∀ l ∈ labels, IsUtf8 l) ∧ name.bytes = joinDots labels ∧ name.len ≤ 253 ∧
        r = ⟨buf, stop⟩) ∧
      (Cyclic buf p → ∃ e, readName ⟨buf, p⟩ = .error (.err e)) := by
  refine ⟨fun name r => readName_iff_spells, fun hcyclic => ?_⟩
  cases hrun : readName ⟨buf, p⟩ with
  | ok nr =>
      obtain ⟨labels, jumps, stop, hsp, -⟩ := readName_iff_spells.mp hrun
      exact absurd hcyclic hsp.not_cyclic
  | error e =>
      cases e with
      | err e => exact ⟨e, rfl⟩
      | panic => exact absurd hrun (readName_no_panic _)

/-- A pointer at itself. -/
example : readName ⟨[0xC0, 0], 0⟩ = .error (.err .pointerLoop) := by decide +kernel

end Dnser
