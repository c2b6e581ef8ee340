import Dnser.Proto.Reader

/-!
# What `read_name` accepts

The compressed-name grammar, as a relation that knows nothing of loops, budgets or
strings: `Spells buf p labels jumps stop` says that the bytes from `p` on spell
`labels`, through `jumps` pointers, and that the name's own bytes end at `stop`.

`readName_eq_ok_iff` ties the loop to the grammar in both directions. The writer's
proofs only ever build `Spells` derivations, and never look at the loop again.
-/

namespace Dnser

open Utf8 (Str)
open Bytes Abort Loop

/-! ## The grammar -/

/--
`Spells buf p labels jumps stop`: the bytes at `p` spell `labels`, following `jumps`
pointers on the way, and what belongs to this name at `p` itself ends before `stop`.
-/
inductive Spells (buf : List UInt8) : Nat → List (List UInt8) → Nat → Nat → Prop where
  /-- A zero byte ends the name. -/
  | root {p : Nat} : buf[p]? = some 0 → Spells buf p [] 0 (p + 1)
  /-- A length byte in `1..=63` and that many bytes are a label. -/
  | label {p : Nat} {n : UInt8} {l : List UInt8} {ls : List (List UInt8)} {jumps stop : Nat} :
      buf[p]? = some n → 1 ≤ n.toNat → n.toNat ≤ 63 → l.length = n.toNat →
      Segment buf (p + 1) l → Spells buf (p + 1 + l.length) ls jumps stop →
      Spells buf p (l :: ls) jumps stop
  /-- Two bytes with the top bits set continue the name elsewhere in the buffer. -/
  | pointer {p : Nat} {byte low : UInt8} {ls : List (List UInt8)} {jumps stop : Nat} :
      buf[p]? = some byte → 192 ≤ byte.toNat → buf[p + 1]? = some low →
      pointerOffset byte low < buf.length →
      Spells buf (pointerOffset byte low) ls jumps stop →
      Spells buf p ls (jumps + 1) (p + 2)

/-- What a buffer spells, every extension of it spells too. -/
theorem Spells.mono {buf buf' : List UInt8} {p jumps stop : Nat} {ls : List (List UInt8)}
    (h : Spells buf p ls jumps stop) (hb : buf <+: buf') : Spells buf' p ls jumps stop := by
  have hget : ∀ {i : Nat} {b : UInt8}, buf[i]? = some b → buf'[i]? = some b := by
    intro i b hi
    obtain ⟨hlt, -⟩ := List.getElem?_eq_some_iff.mp hi
    obtain ⟨t, rfl⟩ := hb
    rw [List.getElem?_append_left hlt, hi]
  induction h with
  | root h0 => exact .root (hget h0)
  | label hn h1 h63 hl hseg _ ih => exact .label (hget hn) h1 h63 hl (hseg.mono hb) ih
  | pointer hbyte h192 hlow ho _ ih =>
      exact .pointer (hget hbyte) h192 (hget hlow) (Nat.lt_of_lt_of_le ho hb.length_le) ih

/-- Every label the grammar spells has between 1 and 63 bytes. -/
theorem Spells.label_length {buf : List UInt8} {p jumps stop : Nat} {ls : List (List UInt8)}
    (h : Spells buf p ls jumps stop) : ∀ l ∈ ls, 1 ≤ l.length ∧ l.length ≤ 63 := by
  induction h with
  | root _ => simp
  | label _ h1 h63 hl _ _ ih =>
      intro l hmem
      rcases List.mem_cons.mp hmem with rfl | hmem
      · omega
      · exact ih l hmem
  | pointer _ _ _ _ _ ih => exact ih

/-- A name starts inside the buffer, and its own bytes end inside it, further on. -/
theorem Spells.bounds {buf : List UInt8} {p jumps stop : Nat} {ls : List (List UInt8)}
    (h : Spells buf p ls jumps stop) : p < stop ∧ stop ≤ buf.length := by
  induction h with
  | root h0 =>
      have := (List.getElem?_eq_some_iff.mp h0).1
      omega
  | label _ _ _ _ _ _ ih => omega
  | pointer _ _ hlow _ _ _ =>
      have := (List.getElem?_eq_some_iff.mp hlow).1
      omega

/-! ## The top bits of a byte -/

/-- Both top bits are set exactly in the bytes from 192 on. -/
theorem topBits_iff (b : UInt8) : b &&& 0b11000000 = 0b11000000 ↔ 192 ≤ b.toNat := by
  have h : ∀ n : Fin 256, UInt8.ofFin n &&& 0b11000000 = 0b11000000 ↔ 192 ≤ n.val := by
    decide +kernel
  exact h b.toFin

/-! ## Joining labels -/

/-- The string `read_name` builds out of labels, starting from what it already has. -/
def joinOnto (name : Str) (labels : List Str) : Str := labels.foldl appendLabel name

/-- The labels, joined by dots. -/
def joinLabels (labels : List Str) : Str := joinOnto Str.empty labels

@[simp] theorem joinOnto_nil (name : Str) : joinOnto name [] = name := rfl

@[simp] theorem joinOnto_cons (name l : Str) (ls : List Str) :
    joinOnto name (l :: ls) = joinOnto (appendLabel name l) ls := rfl

theorem len_appendLabel_ge (name l : Str) : name.len ≤ (appendLabel name l).len := by
  unfold appendLabel
  split
  · simp [Str.pushStr, Str.len]
  · simp only [Str.pushStr, Str.pushAscii, Str.len, List.length_append]
    omega

theorem len_joinOnto_ge (name : Str) (ls : List Str) : name.len ≤ (joinOnto name ls).len := by
  induction ls generalizing name with
  | nil => exact Nat.le_refl _
  | cons l ls ih => exact Nat.le_trans (len_appendLabel_ge name l) (ih _)

/-! ## The loop and the grammar -/

/-- The loop of `read_name`, with its variant. -/
def nameLoop (buf : List UInt8) (s : NameLoop) : Except (Abort ParseError) (Str × Nat) :=
  loop (readNameBody buf) (readNameVariant buf) (readNameBody_decreases buf) s

/-- The outcome `out` of a loop from `s` on is what the grammar allows there. -/
def SpelledFrom (buf : List UInt8) (s : NameLoop) (out : Except (Abort ParseError) (Str × Nat)) :
    Prop :=
  ∀ r, out = .ok r → s.name.len ≤ maxNameLen →
    ∃ (labels : List Str) (jumps stop : Nat),
      Spells buf s.pos (labels.map Str.bytes) jumps stop ∧ s.jumps + jumps < maxJumps ∧
        r = (joinOnto s.name labels, s.settle stop) ∧ r.1.len ≤ maxNameLen

/--
**What the loop accepts is spelled by the buffer.** The invariant speaks of the
labels still to come: they are what the grammar spells from the current position,
and the jumps they need are within what is left of the budget.
-/
theorem nameLoop_sound (buf : List UInt8) (s : NameLoop) : SpelledFrom buf s (nameLoop buf s) := by
  refine loop_induct (P := SpelledFrom buf) ?_ ?_ ?_ s
  · intro s e _ r hr
    cases hr
  · intro s a hbody r hr hs
    cases hr
    obtain ⟨hj, h0, rfl⟩ := readNameBody_done_iff.mp hbody
    exact ⟨[], 0, s.pos + 1, .root h0, by omega, rfl, hs⟩
  · intro s s' out hbody ih r hr hs
    obtain ⟨hj, byte, hb, h0, ⟨hc, hp⟩ | ⟨hc, hl⟩⟩ := readNameBody_again_iff.mp hbody
    · -- a pointer: the same labels, one jump more, and the name's own bytes end here
      obtain ⟨low, hlow, ho, rfl⟩ := readPointer_eq_ok_iff.mp hp
      obtain ⟨labels, jumps, stop, hsp, hjs, hr', hlen⟩ := ih r hr hs
      refine ⟨labels, jumps + 1, s.pos + 2,
        .pointer hb ((topBits_iff byte).mp hc) hlow ho hsp, ?_, ?_, hlen⟩
      · simp only at hjs
        omega
      · rw [hr']
        simp [NameLoop.settle]
    · obtain ⟨h63, hle, label, hbytes, hname, rfl⟩ := readLabel_eq_ok_iff.mp hl
      obtain ⟨labels, jumps, stop, hsp, hjs, hr', hlen⟩ := ih r hr hname
      have hlenl : label.bytes.length = byte.toNat := by
        rw [hbytes, List.length_take, List.length_drop]
        omega
      have hpos : 1 ≤ byte.toNat := by
        rcases Nat.eq_zero_or_pos byte.toNat with hz | hz
        · exact absurd (UInt8.toNat_inj.mp hz) h0
        · exact hz
      refine ⟨label :: labels, jumps, stop, ?_, hjs, hr', hlen⟩
      refine .label hb hpos h63 hlenl ?_ (by rw [hlenl]; exact hsp)
      rw [hbytes]
      exact segment_take_drop _ _ _

/--
**What the buffer spells, the loop accepts**, if the jumps are within the budget and
the joined name within its bound. Induction on the derivation: each of its steps is
one turn.
-/
theorem nameLoop_complete {buf : List UInt8} {p jumps stop : Nat} {ls : List (List UInt8)}
    (h : Spells buf p ls jumps stop) : ∀ (labels : List Str) (s : NameLoop),
    labels.map Str.bytes = ls → s.pos = p → s.jumps + jumps < maxJumps →
    (joinOnto s.name labels).len ≤ maxNameLen →
    nameLoop buf s = .ok (joinOnto s.name labels, s.settle stop) := by
  induction h with
  | root h0 =>
      rintro labels s hls rfl hj -
      cases List.map_eq_nil_iff.mp hls
      exact loop_of_done (readNameBody_done_iff.mpr ⟨by omega, h0, rfl⟩)
  | @label p n l ls jumps stop hn h1 h63 hl hseg hrest ih =>
      rintro labels s hls rfl hj hlen
      obtain ⟨label, labels, rfl, rfl, hls'⟩ := List.map_eq_cons_iff.mp hls
      have hc : ¬ n &&& 0b11000000 = 0b11000000 := by
        rw [topBits_iff]
        omega
      have hn0 : n ≠ 0 := by
        intro hsame
        subst hsame
        exact absurd h1 (by decide)
      have hbound : s.pos + 1 + n.toNat ≤ buf.length := by
        have := hrest.bounds
        omega
      rw [joinOnto_cons] at hlen ⊢
      have hbody : readNameBody buf s = .ok (.again
          { s with name := appendLabel s.name label, pos := s.pos + 1 + n.toNat }) := by
        refine readNameBody_again_iff.mpr ⟨by omega, n, hn, hn0, .inr ⟨hc, ?_⟩⟩
        refine readLabel_eq_ok_iff.mpr ⟨h63, hbound, label, ?_, ?_, rfl⟩
        · rw [← hl]
          exact hseg.take_drop.symm
        · exact Nat.le_trans (len_joinOnto_ge _ _) hlen
      rw [nameLoop, loop_of_again hbody]
      exact ih labels _ hls' (by rw [hl]) hj hlen
  | @pointer p byte low ls jumps stop hbyte h192 hlow ho _ ih =>
      rintro labels s hls rfl hj hlen
      have hb0 : byte ≠ 0 := by
        intro hsame
        subst hsame
        exact absurd h192 (by decide)
      have hbody : readNameBody buf s = .ok (.again
          { s with
            pos := pointerOffset byte low
            jumped := true
            jumps := s.jumps + 1
            cursor := s.settle (s.pos + 2) }) := by
        refine readNameBody_again_iff.mpr ⟨by omega, byte, hbyte, hb0,
          .inl ⟨(topBits_iff byte).mpr h192, ?_⟩⟩
        exact readPointer_eq_ok_iff.mpr ⟨low, hlow, ho, rfl⟩
      rw [nameLoop, loop_of_again hbody]
      refine Eq.trans (ih labels _ hls rfl ?_ hlen) (by simp [NameLoop.settle])
      show s.jumps + 1 + jumps < maxJumps
      omega

/-- **`read_name` accepts exactly the compressed names within its two bounds.** -/
theorem readName_eq_ok_iff {r r' : Reader} {name : Str} :
    readName r = .ok (name, r') ↔
      ∃ (labels : List Str) (jumps stop : Nat),
        Spells r.buf r.pos (labels.map Str.bytes) jumps stop ∧ jumps < maxJumps ∧
          name = joinLabels labels ∧ name.len ≤ maxNameLen ∧ r' = ⟨r.buf, stop⟩ := by
  unfold readName
  rw [bind_eq_ok_iff]
  constructor
  · intro hparts
    obtain ⟨⟨n, c⟩, hloop, h⟩ := hparts
    cases h
    obtain ⟨labels, jumps, stop, hsp, hj, hr, hlen⟩ :=
      nameLoop_sound r.buf _ _ hloop (by simp [Str.empty, Str.len])
    cases hr
    exact ⟨labels, jumps, stop, hsp, by omega, rfl, hlen, rfl⟩
  · intro hparts
    obtain ⟨labels, jumps, stop, hsp, hj, rfl, hlen, rfl⟩ := hparts
    refine ⟨(joinLabels labels, stop), ?_, rfl⟩
    exact nameLoop_complete hsp labels _ rfl rfl (by simp only; omega) hlen

end Dnser
