import Dnser.Lib.Utf8

/-!
# The DNS data model

The types of `dnser-proto`: the header with its flag masks, record types, classes,
questions, resource records and whole messages, with the accessors that only look
at a value. Parsing and writing are in `Dnser.Proto.Reader`, `Dnser.Proto.Writer`
and `Dnser.Proto.Message`.

A `Vec` or `Bytes` is a list, a `String` is a `Utf8.Str`, and `u8`, `u16` and `u32`
are Lean's words of the same width.
-/

namespace Dnser

open Utf8 (Str)

/-- Maximum DNS message size over UDP. -/
def maxUdpSize : Nat := 4096

/-- `dnser_proto::ParseError`. -/
inductive ParseError where
  | unexpectedEof
  | invalidPointer
  | pointerLoop
  | labelTooLong
  | nameTooLong
  | rdataLengthMismatch
  | unknownRecordType (t : UInt16)
  | unknownClass (c : UInt16)
  | invalidUtf8 (e : Utf8.Utf8Error)
  | reservedBitSet
  deriving DecidableEq, Repr

/-- `dnser_proto::WriteError`. -/
inductive WriteError where
  | labelTooLong
  | emptyLabel
  | txtChunkTooLong
  deriving DecidableEq, Repr

/-! ## Record types, classes and codes -/

/-- The record types the program knows by name. -/
inductive RecordType where
  | a | ns | cname | soa | ptr | mx | txt | aaaa | srv | opt | ixfr | axfr | any
  deriving DecidableEq, Repr

namespace RecordType

/-- `rt as u16`. -/
def toU16 : RecordType → UInt16
  | a => 1
  | ns => 2
  | cname => 5
  | soa => 6
  | ptr => 12
  | mx => 15
  | txt => 16
  | aaaa => 28
  | srv => 33
  | opt => 41
  | ixfr => 251
  | axfr => 252
  | any => 255

/-- `RecordType::try_from`. -/
def tryFrom (v : UInt16) : Except UInt16 RecordType :=
  match v with
  | 1 => .ok a
  | 2 => .ok ns
  | 5 => .ok cname
  | 6 => .ok soa
  | 12 => .ok ptr
  | 15 => .ok mx
  | 16 => .ok txt
  | 28 => .ok aaaa
  | 33 => .ok srv
  | 41 => .ok opt
  | 251 => .ok ixfr
  | 252 => .ok axfr
  | 255 => .ok any
  | n => .error n

@[simp] theorem tryFrom_toU16 (t : RecordType) : tryFrom t.toU16 = .ok t := by
  cases t <;> rfl

theorem toU16_injective {t t' : RecordType} (h : t.toU16 = t'.toU16) : t = t' := by
  have ht := tryFrom_toU16 t
  rw [h, tryFrom_toU16] at ht
  exact (Except.ok.inj ht).symm

/-- A type number is recognised only as the type that has it. -/
theorem toU16_of_tryFrom {v : UInt16} {t : RecordType} (h : tryFrom v = .ok t) : t.toU16 = v := by
  unfold tryFrom at h
  split at h <;> cases h <;> rfl

end RecordType

/-- A class number, known or not. -/
@[ext]
structure Class where
  /-- The number on the wire. -/
  value : UInt16
  deriving DecidableEq, Repr

namespace Class

/-- The Internet class. -/
def IN : Class := ⟨1⟩

/-- `Class::is_known`. -/
def isKnown (c : Class) : Bool :=
  match c.value with
  | 1 | 2 | 3 | 4 | 255 => true
  | _ => false

end Class

/-- Response codes. -/
inductive Rcode where
  | noError | formErr | servFail | nxDomain | notImp | refused
  deriving DecidableEq, Repr

namespace Rcode

/-- `rcode as u16`. -/
def toU16 : Rcode → UInt16
  | noError => 0
  | formErr => 1
  | servFail => 2
  | nxDomain => 3
  | notImp => 4
  | refused => 5

/-- `Rcode::try_from`. -/
def tryFrom (v : UInt8) : Except UInt8 Rcode :=
  match v with
  | 0 => .ok noError
  | 1 => .ok formErr
  | 2 => .ok servFail
  | 3 => .ok nxDomain
  | 4 => .ok notImp
  | 5 => .ok refused
  | n => .error n

end Rcode

/-! ## The header -/

/-- The twelve bytes every message starts with. -/
structure Header where
  id : UInt16 := 0
  flags : UInt16 := 0
  qdCount : UInt16 := 0
  anCount : UInt16 := 0
  nsCount : UInt16 := 0
  arCount : UInt16 := 0
  deriving DecidableEq, Repr

namespace Header

/-- `Header::QR`: set in a response. -/
def QR : UInt16 := 0x8000
/-- `Header::OPCODE`. -/
def OPCODE : UInt16 := 0x7800
/-- `Header::TC`: the message was cut to fit. -/
def TC : UInt16 := 0x0200
/-- `Header::RD`: recursion desired. -/
def RD : UInt16 := 0x0100
/-- `Header::Z`: reserved. -/
def Z : UInt16 := 0x0040
/-- `Header::RCODE`. -/
def RCODE : UInt16 := 0x000F

/-- `Header::is_response`. -/
def isResponse (h : Header) : Bool := h.flags &&& QR != 0

/-- `Header::is_truncated`. -/
def isTruncated (h : Header) : Bool := h.flags &&& TC != 0

/-- `Header::rcode`. -/
def rcode (h : Header) : Except UInt8 Rcode := Rcode.tryFrom (h.flags &&& RCODE).toUInt8

/-- `Header::reply_to`. -/
def replyTo (query : Header) (extraFlags : UInt16) : Header :=
  { id := query.id
    flags := QR ||| extraFlags ||| (query.flags &&& RD)
    qdCount := query.qdCount }

end Header

/-! ## Records -/

/-- A fixed number of bytes. -/
structure Octets (n : Nat) where
  /-- The bytes, in order. -/
  bytes : List UInt8
  /-- There are exactly `n` of them. -/
  size : bytes.length = n
  deriving DecidableEq

/-- `Ipv4Addr`, as its octets. -/
abbrev Ipv4Addr := Octets 4

/-- `Ipv6Addr`, as its octets. -/
abbrev Ipv6Addr := Octets 16

/-- A single EDNS(0) option. -/
structure EdnsOption where
  code : UInt16
  data : List UInt8
  deriving DecidableEq

/-- Record data, decoded for the ten types that are modelled. -/
inductive RData where
  | a (addr : Ipv4Addr)
  | aaaa (addr : Ipv6Addr)
  | ns (name : Str)
  | cname (name : Str)
  | soa (mname rname : Str) (serial refresh retry expire minimum : UInt32)
  | ptr (name : Str)
  | mx (preference : UInt16) (exchange : Str)
  | txt (chunks : List (List UInt8))
  | srv (priority weight port : UInt16) (target : Str)
  | opt (options : List EdnsOption)
  | unknown (rtype : UInt16) (data : List UInt8)
  deriving DecidableEq

/-- A resource record. -/
structure ResourceRecord where
  name : Str
  cls : Class
  ttl : UInt32
  rdata : RData
  deriving DecidableEq

namespace ResourceRecord

/-- `ResourceRecord::edns_opt`: an OPT pseudo-record advertising `udpSize`, without options. -/
def ednsOpt (udpSize : UInt16) : ResourceRecord :=
  { name := Str.empty, cls := ⟨udpSize⟩, ttl := 0, rdata := .opt [] }

/-- `ResourceRecord::is_opt`. -/
def isOpt (rr : ResourceRecord) : Bool :=
  match rr.rdata with
  | .opt _ => true
  | _ => false

/-- `ResourceRecord::edns_udp_size`: the class field of an OPT record. -/
def ednsUdpSize (rr : ResourceRecord) : Option UInt16 :=
  if rr.isOpt then some rr.cls.value else none

/-- `ResourceRecord::edns_version`: byte 1 of the TTL field of an OPT record. -/
def ednsVersion (rr : ResourceRecord) : Option UInt8 :=
  if rr.isOpt then some ((rr.ttl >>> 16) &&& (0xFF : UInt32)).toUInt8 else none

/-- `ResourceRecord::set_edns_extended_rcode`: byte 0 of the TTL field of an OPT record. -/
def setEdnsExtendedRcode (rr : ResourceRecord) (extRcode : UInt8) : ResourceRecord :=
  if rr.isOpt then
    { rr with ttl := (rr.ttl &&& (0x00FFFFFF : UInt32)) ||| (extRcode.toUInt32 <<< 24) }
  else rr

/-- `ResourceRecord::record_type`: the type number, by name where the data is modelled. -/
def recordType (rr : ResourceRecord) : Except UInt16 RecordType :=
  match rr.rdata with
  | .a _ => .ok .a
  | .aaaa _ => .ok .aaaa
  | .ns _ => .ok .ns
  | .cname _ => .ok .cname
  | .soa .. => .ok .soa
  | .ptr _ => .ok .ptr
  | .mx .. => .ok .mx
  | .txt _ => .ok .txt
  | .srv .. => .ok .srv
  | .opt _ => .ok .opt
  | .unknown rtype _ => .error rtype

end ResourceRecord

/-- A question. -/
structure Question where
  name : Str
  qtype : RecordType
  qclass : Class
  deriving DecidableEq

/-- A whole message. -/
structure Message where
  header : Header := {}
  questions : List Question := []
  answers : List ResourceRecord := []
  authority : List ResourceRecord := []
  additional : List ResourceRecord := []
  deriving DecidableEq

/-- `Message::opt`: the first OPT record of the additional section. -/
def Message.opt (m : Message) : Option ResourceRecord :=
  m.additional.find? ResourceRecord.isOpt

end Dnser
