import Dnser.Proto.Types

/-!
# Cache keys

The owned key an entry is filed under, and the borrowed one a question is looked up by.
What a value feeds to a hasher is a list of writes, so that "these two hash alike, under
any hasher" is an equation between lists.
-/

namespace Dnser

open Utf8 (Str)

/-- One call on a `Hasher`. -/
inductive HashWrite where
  /-- `write`, of a slice. -/
  | bytes (bs : List UInt8)
  | u8 (v : UInt8)
  | u16 (v : UInt16)
  deriving DecidableEq

/-- `MAX_NAME_LEN`, the size of the stack buffer names are lowercased into. -/
def maxLookupName : Nat := 253

/-! ## Owned keys -/

/-- `CacheKey`. -/
structure CacheKey where
  /-- Stored lowercased. -/
  name : Str
  qtype : UInt16
  qclass : UInt16
  deriving DecidableEq

/-- `CacheKey::from_question`. -/
def CacheKey.fromQuestion (q : Question) : CacheKey :=
  { name := q.name.toAsciiLowercase, qtype := q.qtype.toU16, qclass := q.qclass.value }

/-- The derived `Hash` of a key: `str` writes its bytes and a separator, then come the numbers. -/
def CacheKey.hash (k : CacheKey) : List HashWrite :=
  [.bytes k.name.bytes, .u8 0xFF, .u16 k.qtype, .u16 k.qclass]

/-! ## Borrowed keys -/

/-- `Lookup`. -/
structure Lookup where
  name : Str
  qtype : UInt16
  qclass : UInt16

/-- `Lookup::from_question`. -/
def Lookup.fromQuestion (q : Question) : Lookup :=
  { name := q.name, qtype := q.qtype.toU16, qclass := q.qclass.value }

/-- `<Lookup as Hash>::hash`: what fits the buffer in one write, the rest byte by byte. -/
def Lookup.hash (l : Lookup) : List HashWrite :=
  let bytes := l.name.bytes
  let n := min bytes.length maxLookupName
  [.bytes ((bytes.take n).map Utf8.toAsciiLowercase)] ++
    (bytes.drop n).map (fun b => .u8 (Utf8.toAsciiLowercase b)) ++
    [.u8 0xFF, .u16 l.qtype, .u16 l.qclass]

/-- `<Lookup as Equivalent<CacheKey>>::equivalent`. -/
def Lookup.equivalent (l : Lookup) (k : CacheKey) : Bool :=
  l.qtype == k.qtype && l.qclass == k.qclass && l.name.len == k.name.len &&
    (l.name.bytes.zip k.name.bytes).all fun ab => Utf8.toAsciiLowercase ab.1 == ab.2

end Dnser
