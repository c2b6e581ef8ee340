import Dnser.Lib.Abort
import Dnser.Lib.Bytes
import Dnser.Proto.Reader
import Mathlib.Data.List.DropRight

/-!
# The writer

`dnser_proto::Writer`: a growing buffer, and a table that remembers at which
offset each name suffix was first written, so that later names can point at it.

The table is a `HashMap<String, u16>` that is only ever probed with `get` and
extended with `insert`. Strings are equal when their bytes are, so it is a list of
bindings from byte strings, the newest first.
-/

namespace Dnser

open Utf8 (Str)
open Bytes Abort

/-- `HashMap<String, u16>`: offsets of name suffixes already written. -/
abbrev NameOffsets := List (List UInt8 × UInt16)

/-- `dnser_proto::Writer`. -/
structure Writer where
  buf : List UInt8
  nameOffsets : NameOffsets
  deriving DecidableEq

/-- What writing does: it changes the writer, and returns a value or fails. -/
abbrev WriteM := StateT Writer (Except (Abort WriteError))

namespace Writer

/-- `Writer::new`. -/
def new : Writer := ⟨[], []⟩

end Writer

/-- `Writer::pos`. -/
def writerPos : WriteM Nat := fun w => .ok (w.buf.length, w)

/-- `Writer::write_bytes`. -/
def writeBytes (bs : List UInt8) : WriteM Unit := fun w => .ok ((), { w with buf := w.buf ++ bs })

/-- `Writer::write_u8`. -/
def writeU8 (v : UInt8) : WriteM Unit := writeBytes [v]

/-- `Writer::write_u16`. -/
def writeU16 (v : UInt16) : WriteM Unit := writeBytes (be16 v)

/-- `Writer::write_u32`. -/
def writeU32 (v : UInt32) : WriteM Unit := writeBytes (be32 v)

/-- `Writer::reserve_u16`: room for a word, and where it is. -/
def reserveU16 : WriteM Nat := fun w => .ok (w.buf.length, { w with buf := w.buf ++ be16 0 })

/-- `self.buf[i] = b`. -/
def setByte (i : Nat) (b : UInt8) : WriteM Unit := fun w =>
  if i < w.buf.length then .ok ((), { w with buf := w.buf.set i b }) else .error .panic

/-- `Writer::backfill_u16`. -/
def backfillU16 (pos : Nat) (v : UInt16) : WriteM Unit := do
  setByte pos (UInt8.ofNat (v.toNat / 2 ^ 8))
  setByte (pos + 1) (UInt8.ofNat v.toNat)

/-- `return Err(e)`. -/
def writeErr {α : Type} (e : WriteError) : WriteM α := fun _ => .error (.err e)

/-! ## Names -/

/-- `str::trim_end_matches('.')`, on the bytes of the string. -/
def trimEndDots (bs : List UInt8) : List UInt8 := bs.rdropWhile (· == dot)

/-- `str::split('.')`, on the bytes of the string. -/
def splitDots (bs : List UInt8) : List (List UInt8) := bs.splitOn dot

/-- `&name[offset..]`, which panics inside a character or past the end. -/
def sliceFrom (name : List UInt8) (offset : Nat) : WriteM (List UInt8) := fun w =>
  if offset ≤ name.length ∧ Str.isCharBoundary name offset then .ok (name.drop offset, w)
  else .error .panic

/-- `self.name_offsets.get(suffix)`. -/
def getOffset (suffix : List UInt8) : WriteM (Option UInt16) := fun w =>
  .ok (w.nameOffsets.lookup suffix, w)

/-- The largest offset a compression pointer can hold. -/
def maxPointer : Nat := 0x3FFF

/-- Remember where `suffix` starts, if a pointer can name the place. -/
def recordOffset (suffix : List UInt8) : WriteM Unit := fun w =>
  if w.buf.length ≤ maxPointer then
    .ok ((), { w with nameOffsets := (suffix, UInt16.ofNat w.buf.length) :: w.nameOffsets })
  else .ok ((), w)

/-- The label loop of `Writer::write_name`, from byte `offset` of the name on. -/
def writeLabels (name : List UInt8) : (offset : Nat) → List (List UInt8) → WriteM Unit
  | _, [] => writeU8 0
  | offset, label :: labels => do
      let suffix ← sliceFrom name offset
      match ← getOffset suffix with
      | some ptr => writeU16 (0b1100000000000000 ||| ptr)
      | none =>
          -- filed before the label is checked: a failed write leaves the entry behind
          recordOffset suffix
          if label.isEmpty then writeErr .emptyLabel
          else if label.length > 63 then writeErr .labelTooLong
          else
            writeU8 (UInt8.ofNat label.length)
            writeBytes label
            writeLabels name (offset + label.length + 1) labels

/-- `Writer::write_name`. -/
def writeName (name : Str) : WriteM Unit :=
  let name := trimEndDots name.bytes
  if name.isEmpty then writeU8 0
  else writeLabels name 0 (splitDots name)

end Dnser
