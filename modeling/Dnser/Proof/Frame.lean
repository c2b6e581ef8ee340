import Dnser.Net.Framing
import Dnser.Proof.Edns
import Dnser.Proof.Size

/-!
# Relayed answers and the size of a frame

A response that came in a frame need not fit one when it is passed on. Its names are compressed
anew, by a writer that points at whole names of its own only; and a client with EDNS gets an OPT
record of eleven bytes that the response may not have had. Nothing measures the reply before it is
written to a TCP stream, and one that is too long costs the client its connection.

How long it gets is known beforehand: `Message.size` of what is passed on, and the eleven bytes.
Neither the age of a cached response nor the client's header makes a difference.
-/

namespace Dnser

open Utf8 (Str)
open Bytes Abort

/-! ## What decides the size -/

/-- The parts of a record that are not of a fixed size. -/
def ResourceRecord.body (rr : ResourceRecord) : Str × RData := (rr.name, rr.rdata)

/-- Two messages with the same questions, and with records that differ in classes and TTLs only. -/
structure SameLayout (m m' : Message) : Prop where
  questions : m'.questions = m.questions
  records : m'.records.map ResourceRecord.body = m.records.map ResourceRecord.body

theorem SameLayout.size {m m' : Message} (h : SameLayout m m') : m'.size = m.size := by
  have hpieces : ∀ rrs : List ResourceRecord, rrs.flatMap ResourceRecord.pieces =
      (rrs.map ResourceRecord.body).flatMap fun b => .name b.1 :: .bytes 10 :: b.2.pieces := by
    intro rrs
    rw [List.flatMap_map]
    rfl
  rw [Message.size, Message.size, Message.pieces, Message.pieces, h.questions, hpieces, hpieces,
    h.records]

theorem SameLayout.encodes {m m' : Message} (h : SameLayout m m') : m'.Encodes ↔ m.Encodes := by
  have hbodies : ∀ rrs : List ResourceRecord,
      (∀ rr ∈ rrs, Encodable rr.name ∧ rr.rdata.Encodes) ↔
        ∀ b ∈ rrs.map ResourceRecord.body, Encodable b.1 ∧ b.2.Encodes := by
    intro rrs
    rw [List.forall_mem_map]
    rfl
  rw [Message.encodes_iff, Message.encodes_iff, h.questions, hbodies, hbodies, h.records]

theorem map_body_rewriteTtls (rrs : List ResourceRecord) (elapsed : UInt32) :
    (Cache.rewriteTtls rrs elapsed).map ResourceRecord.body = rrs.map ResourceRecord.body := by
  unfold Cache.rewriteTtls
  rw [List.map_map]
  rfl

/-- Ageing makes no OPT record of a record, and no other record of an OPT record. -/
theorem filter_rewriteTtls (rrs : List ResourceRecord) (elapsed : UInt32) :
    (Cache.rewriteTtls rrs elapsed).filter (fun rr => !rr.isOpt) =
      Cache.rewriteTtls (rrs.filter fun rr => !rr.isOpt) elapsed := by
  unfold Cache.rewriteTtls
  rw [List.filter_map]
  rfl

/-! ## What is passed on -/

/-- What a client gets of a response: all of it, or all but its OPT records if it has EDNS. -/
def passedOn (query msg : Message) : Message :=
  if query.opt.isSome then { msg with additional := msg.additional.filter fun rr => !rr.isOpt }
  else msg

/-- The size of the OPT record it gets in their place. -/
def addedBytes (query : Message) : Nat := if query.opt.isSome then 11 else 0

/-- The response a reply is made from: a live one from the cache, or what the resolver returned. -/
inductive RelayedFrom (c : Cache) (query : Message) (now : Nat) (w : Awaited) : Message → Prop where
  | cached {question : Question} {e : CacheEntry} : ¬ BadVersion query →
      query.questions = [question] → c.probe (Lookup.fromQuestion question) = some e →
      now < e.expiresAt → RelayedFrom c query now w e.response
  | fresh {msg : Message} : ¬ BadVersion query → cacheHit c query now = none →
      w.outcome = .ok msg → RelayedFrom c query now w msg

/-- A reply that is relayed is laid out like the response, with our OPT record for its own. -/
theorem RelayedFrom.layout {c : Cache} {query : Message} {now : Nat} {w : Awaited} {msg : Message}
    (h : RelayedFrom c query now w msg) :
    SameLayout (if query.opt.isSome then addEdnsOpt msg else msg) (processQuery c query now w).1 := by
  cases h with
  | @cached question e hgood hq hprobe hlive =>
      have hget := Cache.get_eq_some_iff.mpr ⟨e, hprobe, hlive, rfl⟩
      rw [processQuery, localReply_of_good hgood, cacheHit, hq]
      dsimp only
      rw [hget, Option.map_some]
      unfold cachedReply
      dsimp only
      split
      · refine ⟨rfl, ?_⟩
        simp only [Message.records, addEdnsOpt, filter_rewriteTtls, List.map_append,
          map_body_rewriteTtls]
      · refine ⟨rfl, ?_⟩
        simp only [Message.records, List.map_append, map_body_rewriteTtls]
  | fresh hgood hmiss hout =>
      rw [processQuery, localReply_of_good hgood, hmiss]
      simp only [resolvedReply, hout]
      exact ⟨rfl, rfl⟩

/-- Our OPT record takes eleven bytes. -/
theorem size_relayed (query msg : Message) :
    (if query.opt.isSome then addEdnsOpt msg else msg).size =
      (passedOn query msg).size + addedBytes query := by
  unfold passedOn addedBytes
  split
  · have hpieces : (addEdnsOpt msg).pieces =
        Message.pieces { msg with additional := msg.additional.filter fun rr => !rr.isOpt } ++
          [.name Str.empty, .bytes 10] := by
      simp only [Message.pieces, Message.records, addEdnsOpt, List.flatMap_append, List.append_assoc]
      rfl
    rw [Message.size, Message.size, hpieces, piecesSize_append]
    rfl
  · rfl

/-- It can always be encoded. -/
theorem encodes_relayed (query msg : Message) :
    (if query.opt.isSome then addEdnsOpt msg else msg).Encodes ↔ (passedOn query msg).Encodes := by
  unfold passedOn
  split
  · have hopt : Encodable (ResourceRecord.ednsOpt serverUdpPayload).name ∧
        (ResourceRecord.ednsOpt serverUdpPayload).rdata.Encodes := by
      refine ⟨fun l hl => ?_, ⟨fun n hn => ?_, trivial⟩⟩
      · cases hl
      · cases hn
    rw [Message.encodes_iff, Message.encodes_iff]
    simp only [Message.records, addEdnsOpt, List.forall_mem_append, List.forall_mem_singleton, hopt,
      and_true, and_assoc]
  · rfl

/--
**A relayed answer fits a frame exactly if what is passed on does, with an OPT record added to it.**
Whatever is in the cache, and whatever the resolver returned: the reply that is made from a response
can be written to a TCP stream if it can be encoded, if and only if the response without its OPT
records and our own take no more than 65535 bytes.
-/
theorem relayed_fits_iff (c : Cache) (query : Message) (now : Nat) (w : Awaited) (msg : Message)
    (h : RelayedFrom c query now w msg) :
    (∀ bytes, (processQuery c query now w).1.toBytes = .ok bytes →
        bytes.length ≤ 65535 ∧ ∀ stream, writeFramed stream bytes ≠ .error .invalidData) ↔
      ((passedOn query msg).Encodes → (passedOn query msg).size + addedBytes query ≤ 65535) := by
  rw [← size_relayed, ← encodes_relayed, ← h.layout.size, ← h.layout.encodes]
  constructor
  · intro hfits hencodes
    rcases toBytes_cases (processQuery c query now w).1 with ⟨-, bytes, hbytes⟩ | ⟨hnot, -⟩
    · rw [← length_toBytes_eq hbytes]
      exact (hfits bytes hbytes).1
    · exact absurd hencodes hnot
  · intro hsize bytes hbytes
    have hle : bytes.length ≤ 65535 := by
      rw [length_toBytes_eq hbytes]
      exact hsize (encodes_of_toBytes hbytes)
    refine ⟨hle, fun stream => ?_⟩
    rw [writeFramed, if_pos hle]
    simp

/-- An answer to the query for the root with `n` bytes of data of some type that is not modelled. -/
def rawAnswer (n : Nat) : Message :=
  { header := { id := 7, flags := Header.QR, qdCount := 1, anCount := 1 }
    questions := [{ name := Str.empty, qtype := .a, qclass := Class.IN }]
    answers := [{ name := Str.empty, cls := Class.IN, ttl := 60,
                  rdata := .unknown 99 (List.replicate n 0) }] }

theorem size_rawAnswer (n : Nat) : (rawAnswer n).size = 28 + n := by
  have hpieces : (rawAnswer n).pieces =
      [.name Str.empty, .bytes 4, .name Str.empty, .bytes 10, .bytes n] := by
    simp [rawAnswer, Message.pieces, Message.records, Question.pieces, ResourceRecord.pieces,
      RData.pieces]
  rw [Message.size, hpieces]
  show 12 + (1 + (4 + (1 + (10 + (n + 0))))) = _
  omega

theorem rawAnswer_fits {n : Nat} (h : n ≤ 65535) : (rawAnswer n).Fits Transmissible := by
  have hreserved : Header.QR &&& Header.Z = 0 := by decide
  refine ⟨rfl, rfl, rfl, rfl, hreserved, fun q hq => ?_, fun rr hrr => ?_, fun name hname => ?_⟩
  · rw [List.mem_singleton.mp hq]
    rfl
  · rw [List.mem_singleton.mp hrr]
    exact ⟨by rwa [List.length_replicate], by decide⟩
  · obtain rfl : name = Str.empty := by
      simpa [rawAnswer, Message.names, Message.records, ResourceRecord.names, RData.names]
        using hname
    exact ⟨by decide, by decide⟩

/-- The resolver accepts it, off a buffer of its size. -/
theorem rawAnswer_validated {n : Nat} (h : 28 + n ≤ 65535) :
    (rawAnswer n).Encodes ∧ Validated ednsQuery (rawAnswer n) := by
  obtain ⟨bytes, hbytes, hparse⟩ := parse_toBytes_of_fits (rawAnswer_fits (n := n) (by omega))
  refine ⟨encodes_of_toBytes hbytes, bytes, ?_, ?_⟩
  · rw [length_toBytes_eq hbytes, size_rawAnswer]
    exact h
  · have hqr : (Header.QR &&& Header.QR != 0) = true := by decide
    exact parseValidatedResponse_eq_ok_iff.mpr ⟨_, hparse, hqr, rfl, rfl⟩

/-- The resolver comes back with it. -/
def rawAwaited (n : Nat) : Awaited :=
  { outcome := .ok (rawAnswer n), now := 1, order := fun _ => .asStored }

theorem rawAnswer_relayed (n : Nat) :
    RelayedFrom (Cache.new Cache.plainHashing 10 300) ednsQuery 0 (rawAwaited n)
      (rawAnswer n) := by
  refine .fresh (fun hbad => ?_) rfl rfl
  obtain ⟨o, ho, hv⟩ := hbad
  cases ho
  exact hv (by decide)

theorem size_passedOn_rawAnswer (n : Nat) :
    (passedOn ednsQuery (rawAnswer n)).size + addedBytes ednsQuery = 39 + n := by
  have hsame : passedOn ednsQuery (rawAnswer n) = rawAnswer n := rfl
  have hadded : addedBytes ednsQuery = 11 := rfl
  rw [hsame, hadded, size_rawAnswer]
  omega

/-- The reply that is made from it can be encoded, and has the OPT record in it. -/
theorem rawReply_encoded {n : Nat} (h : 28 + n ≤ 65535) :
    ∃ bytes, (processQuery (Cache.new Cache.plainHashing 10 300) ednsQuery 0 (rawAwaited n)).1.toBytes =
      .ok bytes ∧ bytes.length = 39 + n := by
  have hlayout := (rawAnswer_relayed n).layout
  have hencodes := hlayout.encodes.mpr ((encodes_relayed _ _).mpr (rawAnswer_validated h).1)
  rcases toBytes_cases (processQuery (Cache.new Cache.plainHashing 10 300) ednsQuery 0
    (rawAwaited n)).1 with ⟨-, bytes, hbytes⟩ | ⟨hnot, -⟩
  · refine ⟨bytes, hbytes, ?_⟩
    rw [length_toBytes_eq hbytes, hlayout.size, size_relayed, size_passedOn_rawAnswer]
  · exact absurd hencodes hnot

/-- With room for the OPT record, it is passed on. -/
theorem rawAnswer_passed : ∃ bytes,
    (processQuery (Cache.new Cache.plainHashing 10 300) ednsQuery 0 (rawAwaited 65496)).1.toBytes =
        .ok bytes ∧
      bytes.length ≤ 65535 ∧ ∀ stream, writeFramed stream bytes ≠ .error .invalidData := by
  obtain ⟨bytes, hbytes, -⟩ := rawReply_encoded (n := 65496) (by decide)
  have hsize : (passedOn ednsQuery (rawAnswer 65496)).size + addedBytes ednsQuery ≤ 65535 := by
    rw [size_passedOn_rawAnswer]
  exact ⟨bytes, hbytes, (relayed_fits_iff _ _ _ _ _ (rawAnswer_relayed 65496)).mpr
    (fun _ => hsize) bytes hbytes⟩

/-- A response that fills a frame is accepted, and does not fit one when it is passed on. -/
theorem rawAnswer_too_long :
    (∃ bytes, Message.parse bytes = .ok ednsQuery) ∧
    Validated ednsQuery (rawAnswer 65507) ∧
    ∃ bytes, (processQuery (Cache.new Cache.plainHashing 10 300) ednsQuery 0
        (rawAwaited 65507)).1.toBytes = .ok bytes ∧
      bytes.length = 65546 ∧ ∀ stream, writeFramed stream bytes = .error .invalidData := by
  obtain ⟨bytes, hbytes, hlen⟩ := rawReply_encoded (n := 65507) (by decide)
  refine ⟨ednsEvent_valid.1, (rawAnswer_validated (n := 65507) (by decide)).2, bytes, hbytes, hlen,
    fun stream => ?_⟩
  rw [writeFramed, if_neg (by omega)]

end Dnser
