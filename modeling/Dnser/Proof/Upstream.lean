import Dnser.Proof.InFlight
import Dnser.Proof.Tcp
import Dnser.Proof.Wire
import Dnser.Resolver.Upstream

/-!
# What an upstream is asked, and what is taken for its answer

A query goes out in a datagram, and once more over TCP if the answer comes back cut. The two
requests are made by different code: the datagram is patched, with an id of its own and with RD,
and what goes out over TCP is the query as the client sent it. So they ask the same only if the
client asked for recursion.

And the two answers are matched by different code. A datagram has found its query by its id
(`sent_id`). A TCP answer is not asked for its id at all, and what comes back on a connection is
taken for the answer if only the question is right.
-/

namespace Dnser

open Utf8 (Str)
open Bytes Abort

/-! ## Requests and answers -/

/-- The datagram a query goes out in. -/
def UdpRequest (query : Message) (id : UInt16) (request : List UInt8) : Prop :=
  ∃ bytes, query.toBytes = .ok bytes ∧ patchQuery bytes id = .ok request

/-- The message a query goes out in over TCP, unless it does not fit a frame. -/
def TcpRequest (query : Message) (request : List UInt8) : Prop :=
  query.toBytes = .ok request ∧ request.length ≤ 65535

/-- The message that comes back on the connection. -/
def TcpAnswer (tcp : List UInt8 → TcpReceived) (request answer : List UInt8) : Prop :=
  ∃ received, tcp (frame request) = .stream received ∧ (readFramed received).1 = some answer

/-- A message that was sent to an upstream, the one that was taken for its answer, and what was
decoded from that. -/
inductive Exchange (peer : Peer) (id : UInt16) (query : Message) :
    List UInt8 → List UInt8 → Message → Prop where
  | udp {request wire : List UInt8} {m : Message} : UdpRequest query id request →
      peer.udp request = some (.datagram wire) →
      parseValidatedResponse wire query query.header.id = .ok m → m.header.isTruncated = false →
      Exchange peer id query request wire m
  | tcp {datagram response request wire : List UInt8} {cut m : Message} :
      UdpRequest query id datagram → peer.udp datagram = some (.datagram response) →
      parseValidatedResponse response query query.header.id = .ok cut →
      cut.header.isTruncated = true → TcpRequest query request →
      TcpAnswer peer.tcp request wire →
      parseValidatedResponse wire query query.header.id = .ok m →
      Exchange peer id query request wire m

/-- What is made of what comes back on the connection. -/
def TcpReceived.answerTo (query : Message) : TcpReceived → Except (Abort ResolveError) Message
  | .ioError => .error (.err .io)
  | .timeout => .error (.err .timeout)
  | .stream received =>
      match (readFramed received).1 with
      | none => .error (.err .invalidResponse)
      | some body => parseValidatedResponse body query query.header.id

theorem tcpQuery_of_request {peer : Peer} {query : Message} {request : List UInt8}
    (h : TcpRequest query request) : tcpQuery peer query = (peer.tcp (frame request)).answerTo query := by
  have hwrite : writeFramed [] request = .ok (frame request) := by
    rw [writeFramed, if_pos h.2]
    rfl
  unfold tcpQuery
  simp only [h.1, liftAbort, bind, Except.bind, hwrite]
  rfl

theorem tcpQuery_eq_ok_iff {peer : Peer} {query m : Message} :
    tcpQuery peer query = .ok m ↔ ∃ request answer, TcpRequest query request ∧
      TcpAnswer peer.tcp request answer ∧
      parseValidatedResponse answer query query.header.id = .ok m := by
  constructor
  · intro h
    obtain ⟨request, hbytes, hsent⟩ := bind_eq_ok_iff.mp h
    have hbytes := liftAbort_eq_ok_iff.mp hbytes
    by_cases hle : request.length ≤ 65535
    · rw [tcpQuery_of_request ⟨hbytes, hle⟩] at h
      unfold TcpReceived.answerTo at h
      split at h
      · cases h
      · cases h
      · rename_i received hreceived
        split at h
        · cases h
        · rename_i answer hanswer
          exact ⟨request, answer, ⟨hbytes, hle⟩, ⟨received, hreceived, hanswer⟩, h⟩
    · rw [writeFramed, if_neg hle] at hsent
      cases hsent
  · intro h
    obtain ⟨request, answer, hrequest, ⟨received, hreceived, hanswer⟩, hm⟩ := h
    rw [tcpQuery_of_request hrequest, hreceived, TcpReceived.answerTo, hanswer]
    exact hm

/-- What a query makes of the datagram it is woken with. -/
def onDatagram (peer : Peer) (query : Message) (response : List UInt8) :
    Except (Abort ResolveError) Message := do
  let msg ← parseValidatedResponse response query query.header.id
  if msg.header.isTruncated then tcpQuery peer query else .ok msg

theorem query_of_datagram {peer : Peer} {id : UInt16} {query : Message}
    {request response : List UInt8} (hrequest : UdpRequest query id request)
    (hudp : peer.udp request = some (.datagram response)) :
    UpstreamSocket.query peer (some id) query = onDatagram peer query response := by
  obtain ⟨bytes, hbytes, hpatch⟩ := hrequest
  unfold UpstreamSocket.query
  simp only [hbytes, liftAbort, bind, Except.bind, hpatch, hudp]
  rfl

/-- **A query returns a message exactly if there was an exchange that gave it.** -/
theorem query_eq_ok_iff {peer : Peer} {id : UInt16} {query m : Message} :
    UpstreamSocket.query peer (some id) query = .ok m ↔
      ∃ request wire, Exchange peer id query request wire m := by
  constructor
  · intro h
    obtain ⟨bytes, hbytes, hsent⟩ := bind_eq_ok_iff.mp h
    obtain ⟨request, hpatch, hsent⟩ := bind_eq_ok_iff.mp hsent
    have hrequest : UdpRequest query id request := ⟨bytes, liftAbort_eq_ok_iff.mp hbytes, hpatch⟩
    split at hsent
    · cases hsent
    · cases hsent
    · cases hsent
    · rename_i response hresponse
      rw [query_of_datagram hrequest hresponse] at h
      obtain ⟨msg, hmsg, h⟩ := bind_eq_ok_iff.mp h
      split at h
      · rename_i htc
        obtain ⟨again, answer, hagain, hanswer, hm⟩ := tcpQuery_eq_ok_iff.mp h
        exact ⟨again, answer, .tcp hrequest hresponse hmsg htc hagain hanswer hm⟩
      · rename_i htc
        cases h
        exact ⟨request, response, .udp hrequest hresponse hmsg (Bool.eq_false_iff.mpr htc)⟩
  · intro h
    obtain ⟨request, wire, h⟩ := h
    cases h with
    | udp hrequest hwire hm htc =>
        rw [query_of_datagram hrequest hwire]
        exact bind_eq_ok_iff.mpr ⟨m, hm, by simp [htc]⟩
    | tcp hdatagram hresponse hcut htc hrequest hanswer hm =>
        rw [query_of_datagram hdatagram hresponse]
        refine bind_eq_ok_iff.mpr ⟨_, hcut, ?_⟩
        rw [if_pos htc]
        exact tcpQuery_eq_ok_iff.mpr ⟨request, wire, hrequest, hanswer, hm⟩

/-! ## The two requests -/

/-- The OPCODE of a word of flags is in its high byte, and so is the RD bit. -/
theorem and_opcode (a b : UInt8) : ofBe16 a b &&& Header.OPCODE = ofBe16 (a &&& 0x78) 0 :=
  ofBe16_and a b 0x78

theorem and_rd (a b : UInt8) : ofBe16 a b &&& Header.RD = ofBe16 (a &&& 1) 0 :=
  ofBe16_and a b 1

/-- Forcing the lowest bit of a byte on changes nothing if it is on. -/
theorem or_one_eq_self_iff (a : UInt8) : a ||| 1 = a ↔ a &&& 1 ≠ 0 := by
  have h : ∀ n : Fin 256, UInt8.ofFin n ||| 1 = UInt8.ofFin n ↔ UInt8.ofFin n &&& 1 ≠ 0 := by
    decide +kernel
  exact h a.toFin

/-- The byte of a message that RD is in. -/
def Header.high (h : Header) : UInt8 := UInt8.ofNat (h.flags.toNat / 2 ^ 8)

theorem Header.high_and_one_ne_zero_iff (h : Header) : h.high &&& 1 ≠ 0 ↔ h.flags &&& Header.RD ≠ 0 := by
  have hflags : h.flags = ofBe16 h.high _ := (ofBe16_be16 h.flags).symm
  rw [hflags, and_rd]
  have hbit : ∀ n : Fin 256, UInt8.ofFin n &&& 1 ≠ 0 ↔ ofBe16 (UInt8.ofFin n &&& 1) 0 ≠ 0 := by
    decide +kernel
  exact hbit h.high.toFin

/-- **The datagram is the encoded query with another id and with RD.** -/
theorem UdpRequest.shape {query : Message} {id : UInt16} {request : List UInt8}
    (h : UdpRequest query id request) : ∃ bytes rest, query.toBytes = .ok bytes ∧
      bytes = be16 query.header.id ++ query.header.high :: rest ∧
      request = be16 id ++ (query.header.high ||| 1) :: rest := by
  obtain ⟨bytes, hbytes, hrequest⟩ := h
  obtain ⟨tail, rfl⟩ := header_prefix_toBytes hbytes
  cases hrequest
  exact ⟨_, _, hbytes, rfl, rfl⟩

/-- The query as it goes upstream: with the id it was assigned, and asking for recursion. -/
def Message.recursive (query : Message) (id : UInt16) : Message :=
  { query with header := { query.header with id, flags := query.header.flags ||| Header.RD } }

/-- Patching a header gives the header of the query as it goes upstream. -/
theorem patchQuery_header (header : Header) (rest : List UInt8) (id : UInt16) :
    patchQuery (header.bytes ++ rest) id =
      .ok ({ header with id, flags := header.flags ||| Header.RD : Header }.bytes ++ rest) := by
  have hflags : be16 (header.flags ||| Header.RD) = _ := be16_or header.flags 1
  simp only [Header.bytes, hflags]
  rfl

/--
**Patching is as good as encoding again.** The query fails to be encoded exactly when the query as
it goes upstream does; otherwise the id and the RD bit can be patched into the encoded query, and
what that gives is the query as it goes upstream, encoded.
-/
theorem patch_eq_encode (query : Message) (id : UInt16) :
    ((∃ e, query.toBytesMut = .error (.err e)) ↔
        ∃ e, (query.recursive id).toBytes = .error (.err e)) ∧
      ∀ bytes, query.toBytesMut = .ok bytes → ∃ patched, patchQuery bytes id = .ok patched ∧
        (query.recursive id).toBytes = .ok patched := by
  have hmut : query.toBytesMut = query.toBytes := rfl
  have hpatched : ∀ bytes, query.toBytes = .ok bytes → ∃ patched,
      patchQuery bytes id = .ok patched ∧ (query.recursive id).toBytes = .ok patched := by
    intro bytes hbytes
    obtain ⟨rest, rfl, hrest⟩ := toBytes_with_header hbytes
    exact ⟨_, patchQuery_header query.header rest id, hrest _⟩
  rw [hmut]
  refine ⟨?_, hpatched⟩
  rcases toBytes_cases query with ⟨-, bytes, hquery⟩ | ⟨-, e, hquery⟩
  · obtain ⟨patched, -, hrecursive⟩ := hpatched bytes hquery
    rw [hquery, hrecursive]
    simp
  · rcases toBytes_cases (query.recursive id) with ⟨-, bytes, hrecursive⟩ | ⟨-, e', hrecursive⟩
    · -- the two differ in their headers only, and so does what comes of them
      obtain ⟨rest, -, hrest⟩ := toBytes_with_header hrecursive
      have hsame : query.toBytes = .ok (query.header.bytes ++ rest) := hrest query.header
      rw [hquery] at hsame
      cases hsame
    · exact iff_of_true ⟨e, hquery⟩ ⟨e', hrecursive⟩

theorem TcpRequest.framable {query : Message} {request : List UInt8} (h : TcpRequest query request) :
    Framable request := by
  have hlen := (header_prefix_toBytes h.1).length_le
  have h12 : query.header.bytes.length = 12 := rfl
  exact ⟨by omega, h.2⟩

/-- Validation rewrites the id and leaves the flags. -/
theorem flags_of_validated {bytes : List UInt8} {query msg : Message} {id : UInt16}
    (h : parseValidatedResponse bytes query id = .ok msg) : msg.header.flags = u16At bytes 2 := by
  obtain ⟨wire, hwire, -, -, rfl⟩ := parseValidatedResponse_eq_ok_iff.mp h
  exact (header_of_parse hwire).2

/-- A query whose answer comes back cut, the datagram it went out in and the message it goes out in
once more. -/
structure Fallback (peer : Peer) (id : UInt16) (query : Message) (datagram body : List UInt8) :
    Prop where
  sent : UdpRequest query id datagram
  cut : ∃ response msg, peer.udp datagram = some (.datagram response) ∧
    parseValidatedResponse response query query.header.id = .ok msg ∧ msg.header.isTruncated = true
  written : TcpRequest query body

/-- Then what the query returns is what comes of the second message. -/
theorem Fallback.query_eq {peer : Peer} {id : UInt16} {query : Message} {datagram body : List UInt8}
    (h : Fallback peer id query datagram body) :
    UpstreamSocket.query peer (some id) query = (peer.tcp (frame body)).answerTo query := by
  obtain ⟨response, msg, hudp, hmsg, htc⟩ := h.cut
  rw [query_of_datagram h.sent hudp, onDatagram, hmsg, ← tcpQuery_of_request h.written]
  exact if_pos htc

/--
**The fallback asks the same exactly if the client asked for recursion.** What a query whose answer
came back cut returns is what comes of the message it is asked again with over TCP; and that message
is the datagram but for its id, if and only if the query has the RD bit.
-/
theorem fallback_same_iff (peer : Peer) (id : UInt16) (query : Message)
    (datagram body : List UInt8) (h : Fallback peer id query datagram body) :
    UpstreamSocket.query peer (some id) query = (peer.tcp (frame body)).answerTo query ∧
    (body.drop 2 = datagram.drop 2 ↔ query.header.flags &&& Header.RD ≠ 0) := by
  refine ⟨h.query_eq, ?_⟩
  obtain ⟨bytes, rest, hbytes, hshape, hdatagram⟩ := h.sent.shape
  obtain rfl : bytes = body := by
    have hbody := h.written.1
    rw [hbytes] at hbody
    exact Except.ok.inj hbody
  have hleft : bytes.drop 2 = query.header.high :: rest := by
    rw [hshape]
    rfl
  have hright : datagram.drop 2 = (query.header.high ||| 1) :: rest := by
    rw [hdatagram]
    rfl
  rw [hleft, hright, List.cons.injEq, and_iff_left rfl, eq_comm, or_one_eq_self_iff,
    Header.high_and_one_ne_zero_iff]

/-- A query for the root, with flags of the client's choice. -/
def flaggedQuery (flags : UInt16) : Message :=
  { queryFor Str.empty with header := { id := 7, flags, qdCount := 1 } }

/-- An answer to it with id 7, cut down to the question. -/
def cutAnswer : List UInt8 := [0, 7, 0x82, 0, 0, 1, 0, 0, 0, 0, 0, 0, 0, 0, 1, 0, 1]

/-- An upstream that cuts every answer. -/
def cutPeer : Peer := { udp := fun _ => some (.datagram cutAnswer), tcp := fun _ => .timeout }

/-- With RD, it is asked the same twice. -/
theorem fallback_same_recursion : ∃ datagram body,
    Fallback cutPeer 9 (flaggedQuery Header.RD) datagram body ∧ body.drop 2 = datagram.drop 2 := by
  have h : Fallback cutPeer 9 (flaggedQuery Header.RD)
      [0, 9, 1, 0, 0, 1, 0, 0, 0, 0, 0, 0, 0, 0, 1, 0, 1]
      [0, 7, 1, 0, 0, 1, 0, 0, 0, 0, 0, 0, 0, 0, 1, 0, 1] :=
    ⟨⟨_, rfl, rfl⟩, ⟨_, _, rfl, rfl, rfl⟩, ⟨rfl, by decide⟩⟩
  exact ⟨_, _, h, (fallback_same_iff _ _ _ _ _ h).2.mpr (by decide)⟩

/-- Without, it is asked to recurse in the datagram only. -/
theorem fallback_differs : ∃ datagram body,
    Fallback cutPeer 9 (flaggedQuery 0) datagram body ∧ body.drop 2 ≠ datagram.drop 2 :=
  ⟨[0, 9, 1, 0, 0, 1, 0, 0, 0, 0, 0, 0, 0, 0, 1, 0, 1],
    [0, 7, 0, 0, 0, 1, 0, 0, 0, 0, 0, 0, 0, 0, 1, 0, 1],
    ⟨⟨_, rfl, rfl⟩, ⟨_, _, rfl, rfl, rfl⟩, ⟨rfl, by decide⟩⟩, by decide⟩

/-! ## The two answers -/

open InFlight (datagramId)

/-- A message that was taken for the answer to a request answers it: it has the id that was sent,
it is a response, and it repeats the question; and what is returned has the client's id. -/
structure Transaction (query : Message) (request wire : List UInt8) (m : Message) : Prop where
  wire : ∃ w, Message.parse wire = .ok w ∧ w.header.id = datagramId request ∧
    w.header.isResponse = true ∧ w.questions = query.questions
  id : m.header.id = query.header.id

/-- Validation sees to all of this but the id. -/
theorem transaction_iff {query m : Message} {request wire : List UInt8}
    (h : parseValidatedResponse wire query query.header.id = .ok m) :
    Transaction query request wire m ↔ datagramId wire = datagramId request := by
  obtain ⟨w, hw, hqr, hquestions, rfl⟩ := parseValidatedResponse_eq_ok_iff.mp h
  have hid : w.header.id = datagramId wire := (header_of_parse hw).1
  constructor
  · intro htrans
    obtain ⟨w', hw', hid', -⟩ := htrans.wire
    rw [hw] at hw'
    cases hw'
    exact hid.symm.trans hid'
  · intro hsame
    exact ⟨⟨w, hw, hid.trans hsame, hqr, hquestions⟩, rfl⟩

theorem UdpRequest.id {query : Message} {id : UInt16} {request : List UInt8}
    (h : UdpRequest query id request) : datagramId request = id := by
  obtain ⟨bytes, rest, -, -, rfl⟩ := h.shape
  exact ofBe16_be16 id

theorem TcpRequest.id {query : Message} {request : List UInt8} (h : TcpRequest query request) :
    datagramId request = query.header.id := by
  obtain ⟨rest, rfl⟩ := header_prefix_toBytes h.1
  exact ofBe16_be16 query.header.id

theorem TcpRequest.unique {query : Message} {request request' : List UInt8}
    (h : TcpRequest query request) (h' : TcpRequest query request') : request = request' := by
  have hsame := h.1
  rw [h'.1] at hsame
  exact (Except.ok.inj hsame).symm

theorem TcpAnswer.unique {tcp : List UInt8 → TcpReceived} {request answer answer' : List UInt8}
    (h : TcpAnswer tcp request answer) (h' : TcpAnswer tcp request answer') : answer = answer' := by
  obtain ⟨received, hreceived, hanswer⟩ := h
  obtain ⟨received', hreceived', hanswer'⟩ := h'
  rw [hreceived] at hreceived'
  cases hreceived'
  rw [hanswer] at hanswer'
  exact Option.some.inj hanswer'

/--
**What is accepted answers the query, unless it came over TCP with another id.** Whatever was sent
to the socket, in whatever order: if a query returns a message from the datagram in its channel, or
from the connection it makes then, the message that was decoded has the id that was sent in the
request, QR and the question of the query, and what is returned has the client's id, if and only if
the datagram was not cut or what came back on the connection has the query's id.
-/
theorem accepted_answers_iff (s : InFlight.State) (hreach : InFlight.Reachable s) (q : Nat)
    (qu : InFlight.Query) (hq : s.queries q = some qu) (response : List UInt8)
    (hchan : qu.chan = .sent response) (tcp : List UInt8 → TcpReceived) (query m : Message)
    (h : UpstreamSocket.query { udp := fun _ => some (.datagram response), tcp } (some qu.id) query =
      .ok m) :
    (∃ request wire,
      Exchange { udp := fun _ => some (.datagram response), tcp } qu.id query request wire m ∧
        Transaction query request wire m) ↔
      (u16At response 2 &&& Header.TC = 0 ∨ ∀ request answer, TcpRequest query request →
        TcpAnswer tcp request answer → datagramId answer = query.header.id) := by
  have hcut : ∀ msg, parseValidatedResponse response query query.header.id = .ok msg →
      (msg.header.isTruncated = true ↔ u16At response 2 &&& Header.TC ≠ 0) := by
    intro msg hmsg
    rw [← flags_of_validated hmsg, Header.isTruncated, bne_iff_ne]
  constructor
  · intro htrans
    obtain ⟨request, wire, hexchange, htrans⟩ := htrans
    cases hexchange with
    | udp _ hwire hm htc =>
        cases hwire
        refine .inl ?_
        by_contra hne
        rw [(hcut m hm).mpr hne] at htc
        cases htc
    | tcp _ _ _ _ hrequest hanswer hm =>
        refine .inr fun request' answer' hrequest' hanswer' => ?_
        -- there is one request, and one answer to it
        obtain rfl := hrequest.unique hrequest'
        obtain rfl := hanswer.unique hanswer'
        rw [(transaction_iff hm).mp htrans, hrequest.id]
  · intro hcond
    obtain ⟨request, wire, hexchange⟩ := query_eq_ok_iff.mp h
    refine ⟨request, wire, hexchange, ?_⟩
    cases hexchange with
    | udp hrequest hwire hm _ =>
        cases hwire
        -- the datagram has found the query by its id
        rw [transaction_iff hm, InFlight.sent_id hreach hq hchan, hrequest.id]
    | tcp _ hresponse hmsg htc hrequest hanswer hm =>
        cases hresponse
        rcases hcond with hzero | hid
        · exact absurd hzero ((hcut _ hmsg).mp htc)
        · rw [transaction_iff hm, hid request wire hrequest hanswer, hrequest.id]

/-- An answer to the query for the root with no records and an id of `low`. -/
def bareAnswer (low : UInt8) : List UInt8 := [0, low, 0x80, 0, 0, 1, 0, 0, 0, 0, 0, 0, 0, 0, 1, 0, 1]

/-- The first query's datagram, taken out of the map and passed on. -/
def woken (response : List UInt8) : InFlight.State :=
  (InFlight.asked.receive response).send ⟨0, response⟩ 0

/-- The first query after that. -/
def wokenQuery (response : List UInt8) : InFlight.Query :=
  { id := 7, guard := some 7, chan := .sent response, phase := .waiting }

theorem reachable_woken {response : List UInt8} (hlen : response.length ≤ maxUdpSize)
    (h : (InFlight.asked.receive response).held = some (⟨0, response⟩, 0)) :
    InFlight.Reachable (woken response) := by
  have hasked : InFlight.Reachable InFlight.asked := .step .init trivial (.allocate rfl rfl)
  exact .step (.step hasked trivial (.receive hlen rfl)) trivial (.send h)

/-- A whole answer over UDP has the id the query was assigned. -/
theorem bareAnswer_accepted : ∃ request wire,
    Exchange { cutPeer with udp := fun _ => some (.datagram (bareAnswer 7)) } 7 (flaggedQuery 0)
      request wire (flaggedQuery Header.QR) ∧
    Transaction (flaggedQuery 0) request wire (flaggedQuery Header.QR) :=
  (accepted_answers_iff (woken (bareAnswer 7)) (reachable_woken (by decide) rfl) 0
    (wokenQuery (bareAnswer 7)) rfl (bareAnswer 7) rfl cutPeer.tcp (flaggedQuery 0)
    (flaggedQuery Header.QR) rfl).mpr
    (.inl (by decide))

/-- An upstream that cuts its answer, and has 8 for an id when it is asked again. -/
def strangePeer : Peer := { cutPeer with tcp := fun _ => .stream (frame (bareAnswer 8)) }

/-- A whole answer over TCP is accepted with whatever id it has. -/
theorem bareAnswer_mismatched :
    InFlight.Reachable (woken cutAnswer) ∧
    (woken cutAnswer).queries 0 = some (wokenQuery cutAnswer) ∧
    UpstreamSocket.query strangePeer (some 7) (flaggedQuery 0) = .ok (flaggedQuery Header.QR) ∧
    ∀ request wire, Exchange strangePeer 7 (flaggedQuery 0) request wire (flaggedQuery Header.QR) →
      ¬ Transaction (flaggedQuery 0) request wire (flaggedQuery Header.QR) := by
  refine ⟨reachable_woken (by decide) rfl, rfl, by decide +kernel, fun request wire hexchange htrans => ?_⟩
  cases hexchange with
  | udp _ hwire hm htc =>
      cases hwire
      have hflags := flags_of_validated hm
      exact absurd hflags (by decide)
  | tcp _ _ _ _ hrequest hanswer hm =>
      obtain rfl : bareAnswer 8 = wire := TcpAnswer.unique ⟨_, rfl, by decide +kernel⟩ hanswer
      have hid := (transaction_iff hm).mp htrans
      rw [hrequest.id] at hid
      exact absurd hid (by decide)

end Dnser
