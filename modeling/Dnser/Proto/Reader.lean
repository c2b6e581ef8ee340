import Dnser.Lib.Abort
import Dnser.Lib.Bytes
import Dnser.Lib.Loop
import Dnser.Proto.Types

/-!
# The reader

`dnser_proto::Reader`, a cursor over an immutable buffer. Every operation returns
its value and the reader it leaves behind; slices and indices that the source does
not guard panic here as they do there.

`read_name` is the one loop without an evident end: a compression pointer may send
it anywhere in the buffer, as often as `MAX_JUMPS` allows. Its variant is the jump
budget first and the distance to the end of the buffer second.
-/

namespace Dnser

open Utf8 (Str)
open Bytes Abort Loop

/-- `dnser_proto::Reader`. -/
structure Reader where
  buf : List UInt8
  pos : Nat
  deriving DecidableEq

/-- What reading does: it moves the cursor, and returns a value or fails. -/
abbrev ReadM := StateT Reader (Except (Abort ParseError))

/-- `Reader::read_u8`. -/
def readU8 : ReadM UInt8 := fun r =>
  match r.buf[r.pos]? with
  | some b => .ok (b, { r with pos := r.pos + 1 })
  | none => .error (.err .unexpectedEof)

/-- `Reader::read_u16`. -/
def readU16 : ReadM UInt16 := fun r =>
  match getRange r.buf r.pos (r.pos + 2) with
  | none => .error (.err .unexpectedEof)
  | some [a, b] => .ok (ofBe16 a b, { r with pos := r.pos + 2 })
  | some _ => .error .panic

/-- `Reader::read_u32`. -/
def readU32 : ReadM UInt32 := fun r =>
  match getRange r.buf r.pos (r.pos + 4) with
  | none => .error (.err .unexpectedEof)
  | some [a, b, c, d] => .ok (ofBe32 a b c d, { r with pos := r.pos + 4 })
  | some _ => .error .panic

/-- `Reader::read_bytes`. -/
def readBytes (n : Nat) : ReadM (List UInt8) := fun r =>
  if r.pos + n > r.buf.length then .error (.err .unexpectedEof)
  else do
    let bs ← slice r.buf r.pos (r.pos + n)
    .ok (bs, { r with pos := r.pos + n })

/-! ## Names -/

/-- The byte `'.'`. -/
def dot : UInt8 := 0x2E

theorem dot_lt : dot < 0x80 := by decide

/-- `MAX_JUMPS`. -/
def maxJumps : Nat := 128

/-- `MAX_NAME_LEN`. -/
def maxNameLen : Nat := 253

/-- The locals of `read_name`, and the cursor it moves. -/
structure NameLoop where
  name : Str
  pos : Nat
  jumped : Bool
  jumps : Nat
  /-- `self.pos`. -/
  cursor : Nat

/-- The cursor once the name's own bytes end at `stop`: only the first jump, or the end, sets it. -/
def NameLoop.settle (s : NameLoop) (stop : Nat) : Nat := if s.jumped then s.cursor else stop

/-- `name.push('.')` unless it is empty, then `name.push_str(label)`. -/
def appendLabel (name label : Str) : Str :=
  (if name.isEmpty then name else name.pushAscii dot dot_lt).pushStr label

/-- The offset a two-byte compression pointer holds. -/
def pointerOffset (byte low : UInt8) : Nat := ((byte &&& 0b00111111).toNat <<< 8) ||| low.toNat

/-- The pointer branch of `read_name`. -/
def readPointer (buf : List UInt8) (s : NameLoop) (byte : UInt8) :
    Except (Abort ParseError) NameLoop :=
  if s.pos + 1 ≥ buf.length then .error (.err .unexpectedEof)
  else do
    let low ← index buf (s.pos + 1)
    -- a pointer forward, or at itself, passes: the budget catches it
    if pointerOffset byte low ≥ buf.length then .error (.err .invalidPointer)
    else
      .ok { s with
        pos := pointerOffset byte low
        jumped := true
        jumps := s.jumps + 1
        cursor := s.settle (s.pos + 2) }

/-- The label branch of `read_name`. -/
def readLabel (buf : List UInt8) (s : NameLoop) (byte : UInt8) :
    Except (Abort ParseError) NameLoop :=
  if byte.toNat > 63 then .error (.err .labelTooLong)
  else if s.pos + 1 + byte.toNat > buf.length then .error (.err .unexpectedEof)
  else do
    let bytes ← slice buf (s.pos + 1) (s.pos + 1 + byte.toNat)
    let label ← mapErr ParseError.invalidUtf8 (Utf8.fromUtf8 bytes)
    -- measured after every label, separators included
    if (appendLabel s.name label).len > maxNameLen then .error (.err .nameTooLong)
    else .ok { s with name := appendLabel s.name label, pos := s.pos + 1 + byte.toNat }

/-- One turn of the loop of `Reader::read_name`. -/
def readNameBody (buf : List UInt8) (s : NameLoop) :
    Except (Abort ParseError) (Turn NameLoop (Str × Nat)) :=
  -- tested before the byte is looked at, so the 128th jump fails wherever it leads
  if s.jumps ≥ maxJumps then .error (.err .pointerLoop)
  else if s.pos ≥ buf.length then .error (.err .unexpectedEof)
  else do
    let byte ← index buf s.pos
    if byte = 0 then .ok (.done (s.name, s.settle (s.pos + 1)))
    else if byte &&& 0b11000000 = 0b11000000 then .again <$> readPointer buf s byte
    else .again <$> readLabel buf s byte

/-- Jumps left, then bytes left. -/
def readNameVariant (buf : List UInt8) (s : NameLoop) : Nat :=
  (maxJumps - s.jumps) * (buf.length + 1) + (buf.length - s.pos)

/-! ### What a turn can do -/

theorem readPointer_eq_ok_iff {buf : List UInt8} {s s' : NameLoop} {byte : UInt8} :
    readPointer buf s byte = .ok s' ↔
      ∃ low, buf[s.pos + 1]? = some low ∧ pointerOffset byte low < buf.length ∧
        s' = { s with
          pos := pointerOffset byte low
          jumped := true
          jumps := s.jumps + 1
          cursor := s.settle (s.pos + 2) } := by
  unfold readPointer
  constructor
  · intro h
    split at h
    · cases h
    · obtain ⟨low, hl, h⟩ := bind_eq_ok_iff.mp h
      split at h
      · cases h
      · cases h
        exact ⟨low, index_eq_ok_iff.mp hl, by omega, rfl⟩
  · intro hparts
    obtain ⟨low, hl, ho, rfl⟩ := hparts
    have hp := (List.getElem?_eq_some_iff.mp hl).1
    rw [if_neg (by omega)]
    refine bind_eq_ok_iff.mpr ⟨low, index_eq_ok_iff.mpr hl, ?_⟩
    rw [if_neg (by omega)]

theorem readLabel_eq_ok_iff {buf : List UInt8} {s s' : NameLoop} {byte : UInt8} :
    readLabel buf s byte = .ok s' ↔
      byte.toNat ≤ 63 ∧ s.pos + 1 + byte.toNat ≤ buf.length ∧
        ∃ label : Str, label.bytes = (buf.drop (s.pos + 1)).take byte.toNat ∧
          (appendLabel s.name label).len ≤ maxNameLen ∧
          s' = { s with name := appendLabel s.name label, pos := s.pos + 1 + byte.toNat } := by
  unfold readLabel
  constructor
  · intro h
    split at h
    · cases h
    split at h
    · cases h
    rw [slice_of_le (by omega) (by omega), Nat.add_sub_cancel_left] at h
    obtain ⟨bytes, hb, h⟩ := bind_eq_ok_iff.mp h
    cases hb
    obtain ⟨label, hl, h⟩ := bind_eq_ok_iff.mp h
    split at h
    · cases h
    cases h
    exact ⟨by omega, by omega, label, Utf8.fromUtf8_eq_ok_iff.mp (mapErr_eq_ok_iff.mp hl),
      by omega, rfl⟩
  · intro hparts
    obtain ⟨h63, hlen, label, hl, hname, rfl⟩ := hparts
    rw [if_neg (by omega), if_neg (by omega), slice_of_le (by omega) (by omega),
      Nat.add_sub_cancel_left]
    refine bind_eq_ok_iff.mpr ⟨_, rfl, bind_eq_ok_iff.mpr ⟨label, ?_, ?_⟩⟩
    · exact mapErr_eq_ok_iff.mpr (Utf8.fromUtf8_eq_ok_iff.mpr hl)
    · rw [if_neg (by omega)]

/-- A turn leaves the loop only at a terminating zero byte. -/
theorem readNameBody_done_iff {buf : List UInt8} {s : NameLoop} {r : Str × Nat} :
    readNameBody buf s = .ok (.done r) ↔
      s.jumps < maxJumps ∧ buf[s.pos]? = some 0 ∧ r = (s.name, s.settle (s.pos + 1)) := by
  unfold readNameBody
  constructor
  · intro h
    split at h
    · cases h
    split at h
    · cases h
    obtain ⟨byte, hb, h⟩ := bind_eq_ok_iff.mp h
    split at h
    · rename_i h0
      cases h
      exact ⟨by omega, h0 ▸ index_eq_ok_iff.mp hb, rfl⟩
    · split at h <;> obtain ⟨_, _, h⟩ := map_eq_ok_iff.mp h <;> cases h
  · intro hparts
    obtain ⟨hj, hb, rfl⟩ := hparts
    have hp := (List.getElem?_eq_some_iff.mp hb).1
    rw [if_neg (by omega), if_neg (by omega)]
    exact bind_eq_ok_iff.mpr ⟨0, index_eq_ok_iff.mpr hb, rfl⟩

/-- A turn goes round again only by following a pointer or by appending a label. -/
theorem readNameBody_again_iff {buf : List UInt8} {s s' : NameLoop} :
    readNameBody buf s = .ok (.again s') ↔
      s.jumps < maxJumps ∧ ∃ byte, buf[s.pos]? = some byte ∧ byte ≠ 0 ∧
        ((byte &&& 0b11000000 = 0b11000000 ∧ readPointer buf s byte = .ok s') ∨
          (byte &&& 0b11000000 ≠ 0b11000000 ∧ readLabel buf s byte = .ok s')) := by
  unfold readNameBody
  constructor
  · intro h
    split at h
    · cases h
    split at h
    · cases h
    obtain ⟨byte, hb, h⟩ := bind_eq_ok_iff.mp h
    refine ⟨by omega, byte, index_eq_ok_iff.mp hb, ?_⟩
    split at h
    · cases h
    rename_i h0
    refine ⟨h0, ?_⟩
    split at h
    · rename_i hc
      obtain ⟨t, ht, h⟩ := map_eq_ok_iff.mp h
      cases h
      exact .inl ⟨hc, ht⟩
    · rename_i hc
      obtain ⟨t, ht, h⟩ := map_eq_ok_iff.mp h
      cases h
      exact .inr ⟨hc, ht⟩
  · intro hparts
    obtain ⟨hj, byte, hb, h0, h⟩ := hparts
    have hp := (List.getElem?_eq_some_iff.mp hb).1
    rw [if_neg (by omega), if_neg (by omega)]
    refine bind_eq_ok_iff.mpr ⟨byte, index_eq_ok_iff.mpr hb, ?_⟩
    rw [if_neg h0]
    obtain ⟨hc, h⟩ | ⟨hc, h⟩ := h
    · rw [if_pos hc]; exact map_eq_ok_iff.mpr ⟨s', h, rfl⟩
    · rw [if_neg hc]; exact map_eq_ok_iff.mpr ⟨s', h, rfl⟩

theorem readNameBody_decreases (buf : List UInt8) :
    Decreases (readNameBody buf) (readNameVariant buf) := by
  intro s s' h
  obtain ⟨hj, byte, hb, h0, ⟨-, h⟩ | ⟨-, h⟩⟩ := readNameBody_again_iff.mp h
  · -- a jump spends one unit of the budget, which outweighs any position
    obtain ⟨low, -, ho, rfl⟩ := readPointer_eq_ok_iff.mp h
    have hstep : maxJumps - s.jumps = maxJumps - (s.jumps + 1) + 1 := by omega
    simp only [readNameVariant]
    rw [hstep, Nat.add_mul]
    omega
  · obtain ⟨-, hlen, label, -, -, rfl⟩ := readLabel_eq_ok_iff.mp h
    simp only [readNameVariant]
    omega

/-- `Reader::read_name`. -/
def readName : ReadM Str := fun r => do
  let (name, cursor) ← loop (readNameBody r.buf) (readNameVariant r.buf)
    (readNameBody_decreases r.buf)
    { name := Str.empty, pos := r.pos, jumped := false, jumps := 0, cursor := r.pos }
  .ok (name, { r with pos := cursor })

end Dnser
