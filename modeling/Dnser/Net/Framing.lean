import Dnser.Lib.Bytes

/-!
# Messages on a stream

`dnser_net::framing`: a message on a TCP stream stands behind two bytes with its length. What a
reader has before it is the list of the bytes that are still to come before the peer closes the
connection. I/O errors of the network are not modelled.
-/

namespace Dnser

open Bytes

/-- `read_exact`: so many bytes, or what there is and `UnexpectedEof`. -/
def readExact (n : Nat) (stream : List UInt8) : Option (List UInt8) × List UInt8 :=
  if n ≤ stream.length then (some (stream.take n), stream.drop n) else (none, [])

/-- `read_framed`, and what it leaves of the stream. -/
def readFramed (stream : List UInt8) : Option (List UInt8) × List UInt8 :=
  match readExact 2 stream with
  | (none, stream) => (none, stream)
  | (some lenBuf, stream) =>
      let len := (ofBe16 (lenBuf.getD 0 0) (lenBuf.getD 1 0)).toNat
      -- an empty frame ends the conversation
      if len = 0 then (none, stream) else readExact len stream

/-- `ErrorKind::InvalidData`, the one error that is not the network's. -/
inductive FrameError where
  | invalidData
  deriving DecidableEq

/-- `write_framed`: the stream with a message added to it. -/
def writeFramed (stream msg : List UInt8) : Except FrameError (List UInt8) :=
  if msg.length ≤ 65535 then .ok (stream ++ be16 (UInt16.ofNat msg.length) ++ msg)
  else .error .invalidData

/-- What the next `n` calls of `read_framed` return. -/
def readFrames : Nat → List UInt8 → List (Option (List UInt8))
  | 0, _ => []
  | n + 1, stream => (readFramed stream).1 :: readFrames n (readFramed stream).2

end Dnser
