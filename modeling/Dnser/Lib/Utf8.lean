import Mathlib.Data.List.Basic

/-!
# Strings as byte sequences

A `Str` is what Rust calls a `String` (and, borrowed, a `str`): a sequence of
bytes together with the guarantee that it is well-formed UTF-8. The guarantee is
a field, so a value that is not a string cannot be built, and every operation
below has to say why its result is one.

Well-formedness is decided by a scanner that looks at one byte at a time and
remembers what the character it is inside of still owes: how many bytes, and the
range the next one must lie in. The ranges are the standard's table of well-formed
byte sequences, which is also the table `core::str::from_utf8` is written from.

What the rest of a development needs is how the guarantee interacts with ASCII:
an ASCII byte is never part of a longer character, so a string can be cut at one
(`isUtf8_append_cons`) and put together again with one.
-/

namespace Utf8

/-- Where the scanner stands between two bytes. -/
inductive Scan where
  /-- Between characters. -/
  | boundary
  /-- Inside one: the next byte must lie in `lo..=hi`, and `owed` more follow it. -/
  | inside (owed : Nat) (lo hi : UInt8)
  deriving DecidableEq, Repr

/-- The scanner after one more byte, or nothing if no character continues so. -/
def Scan.next : Scan → UInt8 → Option Scan
  | .boundary, b =>
      if b < 0x80 then some .boundary
      -- continuations, and the two bytes that could only start overlong characters
      else if b < 0xC2 then none
      else if b < 0xE0 then some (.inside 0 0x80 0xBF)
      else if b = 0xE0 then some (.inside 1 0xA0 0xBF)
      -- no surrogates
      else if b = 0xED then some (.inside 1 0x80 0x9F)
      else if b < 0xF0 then some (.inside 1 0x80 0xBF)
      else if b = 0xF0 then some (.inside 2 0x90 0xBF)
      else if b < 0xF4 then some (.inside 2 0x80 0xBF)
      -- nothing above U+10FFFF
      else if b = 0xF4 then some (.inside 2 0x80 0x8F)
      else none
  | .inside owed lo hi, b =>
      if lo ≤ b ∧ b ≤ hi then
        match owed with
        | 0 => some .boundary
        | owed + 1 => some (.inside owed 0x80 0xBF)
      else none

/-- The scanner after a whole sequence. -/
def Scan.run : Scan → List UInt8 → Option Scan
  | s, [] => some s
  | s, b :: bs => (s.next b).bind (fun s' => s'.run bs)

/-- Well-formed UTF-8: scanned from between characters to between characters. -/
def IsUtf8 (bs : List UInt8) : Prop := Scan.run .boundary bs = some .boundary

instance (bs : List UInt8) : Decidable (IsUtf8 bs) := inferInstanceAs (Decidable (_ = _))

/-- A state the scanner can be in: only bytes above ASCII continue a character. -/
def Scan.Proper : Scan → Prop
  | .boundary => True
  | .inside _ lo _ => 0x80 ≤ lo

theorem Scan.proper_boundary : Scan.boundary.Proper := trivial

theorem Scan.next_proper {s s' : Scan} {b : UInt8} (h : s.next b = some s') (hs : s.Proper) :
    s'.Proper := by
  cases s with
  | boundary =>
      simp only [Scan.next] at h
      repeat' split at h
      all_goals cases h <;> simp [Scan.Proper]
  | inside owed lo hi =>
      simp only [Scan.next] at h
      split at h
      · cases owed with
        | zero => cases h; trivial
        | succ n => cases h; simp [Scan.Proper]
      · exact absurd h (by simp)

/-- An ASCII byte is a character of its own, and occurs nowhere else. -/
theorem Scan.next_ascii {s s' : Scan} {b : UInt8} (hs : s.Proper) (hb : b < 0x80) :
    s.next b = some s' ↔ s = .boundary ∧ s' = .boundary := by
  cases s with
  | boundary => simp [Scan.next, hb, eq_comm]
  | inside owed lo hi =>
      have hlo : ¬ lo ≤ b := UInt8.not_le.mpr (UInt8.lt_of_lt_of_le hb hs)
      simp [Scan.next, hlo]

theorem Scan.run_append (s : Scan) (as bs : List UInt8) :
    s.run (as ++ bs) = (s.run as).bind (fun s' => s'.run bs) := by
  induction as generalizing s with
  | nil => rfl
  | cons a as ih =>
      simp only [List.cons_append, Scan.run]
      cases s.next a with
      | none => rfl
      | some s' => exact ih s'

theorem Scan.run_proper {s s' : Scan} {bs : List UInt8} (h : s.run bs = some s')
    (hs : s.Proper) : s'.Proper := by
  induction bs generalizing s with
  | nil => cases h; exact hs
  | cons b bs ih =>
      obtain ⟨t, ht, h'⟩ := Option.bind_eq_some_iff.mp h
      exact ih h' (Scan.next_proper ht hs)

/-! ## What is and what stays UTF-8 -/

theorem isUtf8_nil : IsUtf8 [] := rfl

theorem IsUtf8.append {as bs : List UInt8} (ha : IsUtf8 as) (hb : IsUtf8 bs) :
    IsUtf8 (as ++ bs) := by
  unfold IsUtf8 at *
  rw [Scan.run_append, ha]
  exact hb

/-- **A string can be cut at an ASCII byte**, and only into strings. -/
theorem isUtf8_append_cons {as bs : List UInt8} {b : UInt8} (hb : b < 0x80) :
    IsUtf8 (as ++ b :: bs) ↔ IsUtf8 as ∧ IsUtf8 bs := by
  unfold IsUtf8
  rw [Scan.run_append]
  constructor
  · intro h
    obtain ⟨s, hs, h⟩ := Option.bind_eq_some_iff.mp h
    obtain ⟨t, ht, h⟩ := Option.bind_eq_some_iff.mp h
    obtain ⟨rfl, rfl⟩ := (Scan.next_ascii (Scan.run_proper hs Scan.proper_boundary) hb).mp ht
    exact ⟨hs, h⟩
  · intro hparts
    obtain ⟨ha, hb'⟩ := hparts
    rw [ha, Option.bind_some, Scan.run, (Scan.next_ascii Scan.proper_boundary hb).mpr ⟨rfl, rfl⟩]
    exact hb'

/-- A byte that only ever continues a character. -/
def isContinuation (b : UInt8) : Bool := 0x80 ≤ b && b < 0xC0

/-- A string does not start inside a character. -/
theorem IsUtf8.head_not_continuation {b : UInt8} {bs : List UInt8} (h : IsUtf8 (b :: bs)) :
    isContinuation b = false := by
  obtain ⟨s, hs, -⟩ := Option.bind_eq_some_iff.mp h
  simp only [Scan.next] at hs
  by_contra hc
  simp only [isContinuation, Bool.not_eq_false, Bool.and_eq_true, decide_eq_true_eq] at hc
  rw [if_neg (UInt8.not_lt.mpr hc.1),
    if_pos (UInt8.lt_of_lt_of_le hc.2 (by decide))] at hs
  exact absurd hs (by simp)

/-- `u8::to_ascii_lowercase`. -/
def toAsciiLowercase (b : UInt8) : UInt8 :=
  if 0x41 ≤ b ∧ b ≤ 0x5A then b + 0x20 else b

theorem Scan.next_toAsciiLowercase {s : Scan} {b : UInt8} (hs : s.Proper) :
    s.next (toAsciiLowercase b) = s.next b := by
  unfold toAsciiLowercase
  split
  · rename_i h
    have hb : b < 0x80 := UInt8.lt_of_le_of_lt h.2 (by decide)
    have hlow : b + 0x20 < 0x80 := by
      have h2 : b.toNat ≤ 0x5A := h.2
      show (b + 0x20).toNat < 0x80
      rw [UInt8.toNat_add]
      have : (0x20 : UInt8).toNat = 0x20 := rfl
      omega
    apply Option.ext
    intro t
    rw [Scan.next_ascii hs hb, Scan.next_ascii hs hlow]
  · rfl

/-- Lowercasing ASCII letters keeps a string a string. -/
theorem Scan.run_map_toAsciiLowercase {s : Scan} {bs : List UInt8} (hs : s.Proper) :
    s.run (bs.map toAsciiLowercase) = s.run bs := by
  induction bs generalizing s with
  | nil => rfl
  | cons b bs ih =>
      simp only [List.map_cons, Scan.run, Scan.next_toAsciiLowercase hs]
      cases hn : s.next b with
      | none => rfl
      | some t => exact ih (Scan.next_proper hn hs)

/-! ## Strings -/

/-- A sequence of bytes that is well-formed UTF-8. -/
structure Str where
  /-- The bytes of the string. -/
  bytes : List UInt8
  /-- They are UTF-8. -/
  utf8 : IsUtf8 bytes
  deriving DecidableEq

namespace Str

theorem ext {a b : Str} (h : a.bytes = b.bytes) : a = b := by
  cases a; cases b; cases h; rfl

/-- The empty string. -/
def empty : Str := ⟨[], isUtf8_nil⟩

/-- The string of one letter. -/
def a : Str := ⟨[97], by decide⟩

/-- `String::len`, the length in bytes. -/
def len (s : Str) : Nat := s.bytes.length

/-- `String::is_empty`. -/
def isEmpty (s : Str) : Bool := s.bytes.isEmpty

/-- `String::push_str`. -/
def pushStr (s t : Str) : Str := ⟨s.bytes ++ t.bytes, s.utf8.append t.utf8⟩

/-- `String::push` of an ASCII character. -/
def pushAscii (s : Str) (b : UInt8) (hb : b < 0x80) : Str :=
  ⟨s.bytes ++ [b], (isUtf8_append_cons hb).mpr ⟨s.utf8, isUtf8_nil⟩⟩

/-- `str::to_ascii_lowercase`. -/
def toAsciiLowercase (s : Str) : Str :=
  ⟨s.bytes.map Utf8.toAsciiLowercase, (Scan.run_map_toAsciiLowercase Scan.proper_boundary).trans s.utf8⟩

/-- `str::is_char_boundary`: the ends, and every byte that starts a character. -/
def isCharBoundary (bs : List UInt8) (i : Nat) : Bool :=
  i == 0 || match bs[i]? with
    | none => i == bs.length
    | some b => !isContinuation b

end Str

/-! ## Checking bytes that come from outside -/

/-- `core::str::Utf8Error`. -/
structure Utf8Error where
  /-- How many bytes from the start are fine. -/
  validUpTo : Nat
  /-- How many bytes after these are the offending ones, if the input did not just end. -/
  errorLen : Option Nat
  deriving DecidableEq, Repr

/--
The scan of `from_utf8`: `off` bytes are whole characters, and `seen` more belong
to the character the scanner is inside of.
-/
def validate (off seen : Nat) (s : Scan) : List UInt8 → Option Utf8Error
  | [] => if s = .boundary then none else some ⟨off, none⟩
  | b :: bs =>
      match s.next b with
      | none => some ⟨off, some (max 1 seen)⟩
      | some .boundary => validate (off + seen + 1) 0 .boundary bs
      | some s' => validate off (seen + 1) s' bs

theorem validate_eq_none_iff {off seen : Nat} {s : Scan} {bs : List UInt8} :
    validate off seen s bs = none ↔ s.run bs = some .boundary := by
  induction bs generalizing off seen s with
  | nil => simp [validate, Scan.run]
  | cons b bs ih =>
      rw [validate, Scan.run]
      cases s.next b with
      | none => simp
      | some t =>
          cases t with
          | boundary => exact ih
          | inside owed lo hi => exact ih

/-- `core::str::from_utf8`. -/
def fromUtf8 (bs : List UInt8) : Except Utf8Error Str :=
  match h : validate 0 0 .boundary bs with
  | none => .ok ⟨bs, validate_eq_none_iff.mp h⟩
  | some e => .error e

/-- Bytes are accepted exactly when they are a string, and then as that string. -/
theorem fromUtf8_eq_ok_iff {bs : List UInt8} {s : Str} : fromUtf8 bs = .ok s ↔ s.bytes = bs := by
  unfold fromUtf8
  split
  · rename_i h
    constructor
    · intro hs; cases hs; rfl
    · intro hs; exact congrArg Except.ok (Str.ext hs.symm)
  · rename_i e h
    constructor
    · intro hs; exact absurd hs (by simp)
    · intro hsame
      subst hsame
      rw [validate_eq_none_iff.mpr s.utf8] at h
      exact absurd h (by simp)

end Utf8
