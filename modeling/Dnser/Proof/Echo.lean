import Dnser.Lib.Steps
import Dnser.Proof.Upstream
import Dnser.Proof.Wire

/-!
# What a reply echoes

A reply repeats its query's question, and a client that varies the case of letters to tell
its replies from forged ones compares it byte for byte. Locally built replies copy the
question, and validation compares an upstream's with the query's. A cache hit does neither:
names are looked up in lower case, and what is served is the question of whoever asked first.
So a reply echoes its question exactly when the cache does not hold it in another spelling.
-/

namespace Dnser

open Utf8 (Str)
open Bytes Abort

/-! ## Questions -/

/-- The cache holds no live response to the query under another spelling of its question. -/
def SameSpelling (c : Cache) (query : Message) (now : Nat) : Prop :=
  ∀ question e, query.questions = [question] →
    c.lookup (CacheKey.fromQuestion question) = some e → now < e.expiresAt →
      e.response.questions = [question]

/-- A call is refused for its EDNS version, or finds its question spelled as it spells it. -/
def CallEvent.Spelled (s : Calls) : CallEvent → Prop
  | .arrive query now => BadVersion query ∨ SameSpelling s.cache query now
  | _ => True

/-- What a hit repeats is the stored question. -/
theorem questions_of_cacheHit {c : Cache} (h : c.Placed) {query reply : Message} {now : Nat}
    (hhit : cacheHit c query now = some reply) :
    ∃ question e, query.questions = [question] ∧
      c.lookup (CacheKey.fromQuestion question) = some e ∧ now < e.expiresAt ∧
      reply.questions = e.response.questions := by
  unfold cacheHit at hhit
  split at hhit
  · rename_i question hq
    obtain ⟨cached, hget, rfl⟩ := Option.map_eq_some_iff.mp hhit
    obtain ⟨e, hprobe, hlive, rfl⟩ := Cache.get_eq_some_iff.mp hget
    exact ⟨question, e, hq, Cache.lookup_of_probe h hprobe, hlive, (sections_cachedReply _ _).1⟩
  · cases hhit

/-- A question off the wire is short enough to be found if it is there. -/
theorem cacheHit_of_lookup {c : Cache} (h : c.Placed) {query : Message} {now : Nat}
    {bytes : List UInt8} (hp : Message.parse bytes = .ok query) {question : Question}
    (hq : query.questions = [question]) {e : CacheEntry}
    (hl : c.lookup (CacheKey.fromQuestion question) = some e) (hlive : now < e.expiresAt) :
    ∃ reply, cacheHit c query now = some reply ∧ reply.questions = e.response.questions := by
  have hname : ReadableName question.name := by
    refine (fits_of_parse hp).1.names _ (List.mem_append_left _ ?_)
    rw [hq]
    exact List.mem_singleton.mpr rfl
  have hprobe := Cache.probe_of_lookup hname.1 h hl
  obtain ⟨cached, hget, hcached⟩ :
      ∃ cached, c.get question now = some cached ∧ cached.questions = e.response.questions :=
    ⟨_, Cache.get_eq_some_iff.mpr ⟨e, hprobe, hlive, rfl⟩, rfl⟩
  refine ⟨cachedReply query cached, ?_, (sections_cachedReply query cached).1.trans hcached⟩
  unfold cacheHit
  rw [hq]
  exact Option.map_eq_some_iff.mpr ⟨cached, hget, rfl⟩

/-- **A hit echoes exactly when the stored question is spelled like the query's.** -/
theorem cacheHit_echoes_iff {c : Cache} (h : c.Placed) {query : Message} {now : Nat}
    {bytes : List UInt8} (hp : Message.parse bytes = .ok query) :
    (∀ reply, cacheHit c query now = some reply → reply.questions = query.questions) ↔
      SameSpelling c query now := by
  constructor
  · intro hecho question e hq hl hlive
    obtain ⟨reply, hhit, hreply⟩ := cacheHit_of_lookup h hp hq hl hlive
    rw [← hreply, hecho reply hhit, hq]
  · intro hsame reply hhit
    obtain ⟨question, e, hq, hl, hlive, hreply⟩ := questions_of_cacheHit h hhit
    rw [hreply, hq, hsame question e hq hl hlive]

/-- The same of the first half of a call. -/
theorem localReply_echoes_iff {s : Calls} (h : s.cache.Placed) {query : Message} {now : Nat}
    (hvalid : (CallEvent.arrive query now).Valid) :
    (∀ reply, localReply s.cache query now = some reply → reply.questions = query.questions) ↔
      (CallEvent.arrive query now).Spelled s := by
  obtain ⟨bytes, hp⟩ := hvalid
  by_cases hbad : BadVersion query
  · simp only [localReply_of_bad hbad, Option.some.injEq, forall_eq', CallEvent.Spelled]
    exact iff_of_true rfl (.inl hbad)
  · rw [localReply_of_good hbad, cacheHit_echoes_iff h hp]
    exact (or_iff_right hbad).symm

/-- The second half echoes whatever the resolver returned. -/
theorem resolvedReply_echoes {c : Cache} {query : Message} {w : Awaited}
    (hvalid : ∀ msg, w.outcome = .ok msg → Validated query msg) :
    (resolvedReply c query w).1.questions = query.questions := by
  unfold resolvedReply
  cases hout : w.outcome with
  | error e => rfl
  | ok msg =>
      have hq := (hvalid msg hout).upstream.questions
      dsimp only
      split
      · exact hq
      · exact hq

/-! ### Runs -/

/-- Every reply so far repeats its query's question. -/
def Calls.Echoed (s : Calls) : Prop := ∀ p ∈ s.replies, p.2.questions = p.1.questions

theorem Calls.step_arrive (s : Calls) (query : Message) (now : Nat) :
    (s.step (.arrive query now)).cache = s.cache ∧
      (s.step (.arrive query now)).replies =
        ((localReply s.cache query now).map (query, ·)).toList ++ s.replies := by
  rw [Calls.step]
  cases localReply s.cache query now with
  | none => exact ⟨rfl, rfl⟩
  | some reply => exact ⟨rfl, rfl⟩

theorem Calls.placed_step {s : Calls} (h : s.cache.Placed) (ev : CallEvent) :
    (s.step ev).cache.Placed := by
  cases ev with
  | arrive query now =>
      rw [(s.step_arrive query now).1]
      exact h
  | evictExpired now => exact h.evictExpired now
  | resolved query outcome order now =>
      unfold Calls.step
      dsimp only
      split
      · unfold resolvedReply
        cases outcome with
        | ok msg => exact h.insert _ _ _
        | error e => exact h
      · exact h

/-- One event keeps the replies true to their queries exactly when it finds its question spelled
as it spells it. -/
theorem Calls.echoed_step_iff {s : Calls} (h : s.cache.Placed) {ev : CallEvent} (hvalid : ev.Valid) :
    (s.step ev).Echoed ↔ s.Echoed ∧ ev.Spelled s := by
  cases ev with
  | evictExpired now => exact (and_iff_left trivial).symm
  | arrive query now =>
      rw [← localReply_echoes_iff h hvalid, Calls.Echoed, (s.step_arrive query now).2,
        List.forall_mem_append, and_comm, Calls.Echoed]
      cases localReply s.cache query now with
      | none => simp
      | some reply => simp
  | resolved query outcome order now =>
      have hecho := resolvedReply_echoes (c := s.cache) (w := { outcome, now, order }) hvalid
      refine Iff.trans ?_ (and_iff_left trivial).symm
      unfold Calls.step Calls.Echoed
      dsimp only
      split
      · rw [List.forall_mem_cons]
        exact and_iff_right hecho
      · exact Iff.rfl

/--
**Replies echo their questions exactly in the runs that never look a question up in another
spelling.** However the calls are interleaved, all replies repeat the question of the query
they answer, byte for byte, if and only if every call of the run either was refused for its
EDNS version or found no live response that was stored under another spelling of its question.
-/
theorem question_echo_iff (hashing : Hashing) (capacity : UInt64) (cap : UInt32)
    (events : List CallEvent) (hvalid : ∀ ev ∈ events, ev.Valid) :
    (∀ p ∈ (Calls.run { cache := Cache.new hashing capacity cap } events).replies,
        p.2.questions = p.1.questions) ↔
      Steps.Along Calls.step (fun s ev => ev.Spelled s) { cache := Cache.new hashing capacity cap }
        events := by
  have hrun := Steps.foldl_iff_along (P := Calls.Echoed) (I := fun s => s.cache.Placed)
    (V := CallEvent.Valid) (fun s ev h _ => Calls.placed_step h ev)
    (fun s ev h hev => Calls.echoed_step_iff h hev) events
    { cache := Cache.new hashing capacity cap } (Cache.placed_new _ _ _) hvalid
  exact hrun.trans (and_iff_right fun p hp => nomatch hp)

/-- The name `a`, and the same in capitals. -/
def lowerName : Str := Str.a
def upperName : Str := ⟨[65], by decide⟩

/-- A client asks for `a`, and the answer is stored. -/
def lowerCall : List CallEvent :=
  [.arrive (queryFor lowerName) 0,
    .resolved (queryFor lowerName) (.ok (Cache.answerFor lowerName 60)) (fun _ => .asStored) 1]

theorem lowerCall_valid : ∀ ev ∈ lowerCall, ev.Valid := by
  intro ev hev
  rcases List.mem_pair.mp hev with rfl | rfl
  · exact ⟨[0, 7, 0, 0, 0, 1, 0, 0, 0, 0, 0, 0, 1, 97, 0, 0, 1, 0, 1], by decide +kernel⟩
  · intro msg hmsg
    cases hmsg
    exact ⟨[0, 7, 0x80, 0, 0, 1, 0, 1, 0, 0, 0, 0, 1, 97, 0, 0, 1, 0, 1,
      1, 97, 0, 0, 1, 0, 1, 0, 0, 0, 60, 0, 4, 127, 0, 0, 1], by decide, by decide +kernel⟩

theorem lowerCall_again_valid :
    ∀ ev ∈ lowerCall ++ [.arrive (queryFor lowerName) 2], ev.Valid := by
  intro ev hev
  rcases List.mem_append.mp hev with hev | hev
  · exact lowerCall_valid ev hev
  · rw [List.mem_singleton.mp hev]
    exact lowerCall_valid (.arrive (queryFor lowerName) 0) List.mem_cons_self

/-- Asked again in the same spelling, the question is echoed from the cache. -/
theorem question_echo_again :
    Steps.Along Calls.step (fun s ev => ev.Spelled s) { cache := Cache.new Cache.plainHashing 10 300 }
      (lowerCall ++ [.arrive (queryFor lowerName) 2]) :=
  (question_echo_iff Cache.plainHashing 10 300 _ lowerCall_again_valid).mp (by decide +kernel)

/-- Asked again in capitals, it is answered in small letters. -/
theorem question_not_echoed :
    (∀ ev ∈ lowerCall ++ [.arrive (queryFor upperName) 2], ev.Valid) ∧
      ¬ ∀ p ∈ (Calls.run { cache := Cache.new Cache.plainHashing 10 300 }
        (lowerCall ++ [.arrive (queryFor upperName) 2])).replies, p.2.questions = p.1.questions := by
  constructor
  · intro ev hev
    rcases List.mem_append.mp hev with hev | hev
    · exact lowerCall_valid ev hev
    · rw [List.mem_singleton.mp hev]
      exact ⟨[0, 7, 0, 0, 0, 1, 0, 0, 0, 0, 0, 0, 1, 65, 0, 0, 1, 0, 1], by decide +kernel⟩
  · decide +kernel

/-! ## RD and OPCODE -/

/-- The bits of a message's third byte that hold the OPCODE and RD. -/
def echoedBits : UInt8 := 0x79

/-- A message has the OPCODE and the RD bit of another, on the wire. -/
def EchoesFlags (sent received : List UInt8) : Prop :=
  received.getD 2 0 &&& echoedBits = sent.getD 2 0 &&& echoedBits

/-- An upstream that answers with the OPCODE and the RD bit it was sent. -/
structure Peer.Echoes (peer : Peer) : Prop where
  udp : ∀ sent received, peer.udp sent = some (.datagram received) → EchoesFlags sent received
  tcp : ∀ stream answer sent received, (readFramed stream).1 = some sent →
    peer.tcp stream = .stream answer → (readFramed answer).1 = some received →
    EchoesFlags sent received

/-- What the resolver returns, it has from an upstream that echoes. -/
def EchoedBy (query msg : Message) : Prop :=
  ∃ upstreams : List (Peer × Option UInt16), (∀ u ∈ upstreams, u.1.Echoes) ∧
    resolve (upstreams.map fun u => UpstreamSocket.query u.1 u.2 query) = .ok msg

/-- What an upstream makes of the flags it is sent: the same OPCODE, and RD if it was sent. -/
structure FlagsEchoed (query msg : Message) : Prop where
  opcode : msg.header.flags &&& Header.OPCODE = query.header.flags &&& Header.OPCODE
  rd : query.header.flags &&& Header.RD ≠ 0 →
    msg.header.flags &&& Header.RD = query.header.flags &&& Header.RD

/-- Forcing the lowest bit on leaves the OPCODE alone. -/
theorem or_one_and (a : UInt8) : (a ||| 1) &&& 0x78 = a &&& 0x78 := by
  have h : ∀ n : Fin 256, (UInt8.ofFin n ||| 1) &&& 0x78 = UInt8.ofFin n &&& 0x78 := by
    decide +kernel
  exact h a.toFin

/-- The same, from the third bytes of what was sent and received. -/
theorem flagsEchoed_of_bytes {query msg : Message} {sent : UInt8} {received : List UInt8}
    (hmsg : msg.header.flags = u16At received 2)
    (hsent : sent = UInt8.ofNat (query.header.flags.toNat / 2 ^ 8) ∨
      sent = UInt8.ofNat (query.header.flags.toNat / 2 ^ 8) ||| 1)
    (hecho : received.getD 2 0 &&& echoedBits = sent &&& echoedBits) : FlagsEchoed query msg := by
  have hquery := (ofBe16_be16 query.header.flags).symm
  generalize UInt8.ofNat (query.header.flags.toNat / 2 ^ 8) = high at hsent hquery
  -- the two fields are within the bits that are echoed
  have hfield : ∀ mask, echoedBits &&& mask = mask → received.getD 2 0 &&& mask = sent &&& mask := by
    intro mask hmask
    have := congrArg (· &&& mask) hecho
    simpa only [UInt8.and_assoc, hmask] using this
  constructor
  · rw [hmsg, hquery, u16At, and_opcode, and_opcode, hfield 0x78 (by decide)]
    rcases hsent with rfl | rfl
    · rfl
    · rw [or_one_and]
  · intro hrd
    rw [hquery, and_rd] at hrd
    rw [hmsg, hquery, u16At, and_rd, and_rd, hfield 1 (by decide)]
    rcases hsent with rfl | rfl
    · rfl
    · have hbit : high &&& 1 ≠ 0 := by
        intro h0
        rw [h0] at hrd
        exact hrd rfl
      rw [(or_one_eq_self_iff high).mpr hbit]

/-- **An upstream that echoes answers with the query's OPCODE, and with RD if the query has it.** -/
theorem upstreamQuery_flags {peer : Peer} {assigned : Option UInt16} {query msg : Message}
    (hpeer : peer.Echoes) (h : UpstreamSocket.query peer assigned query = .ok msg) :
    FlagsEchoed query msg := by
  cases assigned with
  | none =>
      obtain ⟨bytes, -, h⟩ := bind_eq_ok_iff.mp h
      cases h
  | some id =>
      obtain ⟨request, wire, hexchange⟩ := query_eq_ok_iff.mp h
      cases hexchange with
      | udp hrequest hwire hmsg _ =>
          obtain ⟨bytes, rest, hbytes, -, rfl⟩ := hrequest.shape
          exact flagsEchoed_of_bytes (flags_of_validated hmsg) (.inr rfl)
            (hpeer.udp _ wire hwire)
      | tcp _ _ _ _ hrequest hanswer hmsg =>
          -- the answer was cut, and is asked for again with the flags of the client
          obtain ⟨received, hreceived, hwire⟩ := hanswer
          have hread : (readFramed (frame request)).1 = some request := by
            have hwhole : readFramed (frame request ++ []) = (some request, []) :=
              readFramed_frame hrequest.framable
            rw [List.append_nil] at hwhole
            rw [hwhole]
          obtain ⟨rest, hrest⟩ := header_prefix_toBytes hrequest.1
          exact flagsEchoed_of_bytes (flags_of_validated hmsg) (.inl (by rw [← hrest]; rfl))
            (hpeer.tcp (frame request) received request wire hread hreceived hwire)

theorem mem_of_firstOk {results : List (Except (Abort ResolveError) Message)} {msg : Message}
    (h : firstOk results = .ok msg) : .ok msg ∈ results := by
  fun_induction firstOk results with
  | case1 => cases h
  | case2 msg' results =>
      cases h
      exact List.mem_cons_self
  | case3 e results ih => exact List.mem_cons_of_mem _ (ih h)
  | case4 results => cases h

theorem EchoedBy.flags {query msg : Message} (h : EchoedBy query msg) : FlagsEchoed query msg := by
  obtain ⟨upstreams, hecho, hres⟩ := h
  unfold resolve at hres
  split at hres
  · cases hres
  · obtain ⟨u, hu, hquery⟩ := List.mem_map.mp (mem_of_firstOk hres)
    exact upstreamQuery_flags (hecho u hu) hquery

/-! ### Replies -/

/-- The RD bit of a reply is the client's. -/
def SameRd (query reply : Message) : Prop :=
  reply.header.flags &&& Header.RD = query.header.flags &&& Header.RD

/-- A locally built reply forwards RD and nothing else. -/
theorem replyTo_echoes (h : Header) {extra : UInt16} (hrd : extra &&& Header.RD = 0)
    (hop : extra &&& Header.OPCODE = 0) :
    (Header.replyTo h extra).flags &&& Header.RD = h.flags &&& Header.RD ∧
      (Header.replyTo h extra).flags &&& Header.OPCODE = 0 := by
  have hqr : Header.QR &&& Header.RD = 0 := by decide
  have hqo : Header.QR &&& Header.OPCODE = 0 := by decide
  have hro : Header.RD &&& Header.OPCODE = 0 := by decide
  unfold Header.replyTo
  simp [or_and_distrib, UInt16.and_assoc, hqr, hqo, hro, hrd, hop]

/-- A hit has the client's RD bit, and the OPCODE that was stored. -/
theorem flags_hit (query cached : Message) :
    SameRd query (cachedReply query cached) ∧
      (cachedReply query cached).header.flags &&& Header.OPCODE =
        cached.header.flags &&& Header.OPCODE := by
  have hnr : ~~~Header.RD &&& Header.RD = 0 := by decide
  refine ⟨?_, and_cachedReply (by decide) query cached⟩
  rw [SameRd, (header_cachedReply query cached).2]
  simp [or_and_distrib, UInt16.and_assoc, hnr]

theorem cacheHit_of_miss {c : Cache} {query : Message} {now : Nat}
    (h : ∀ question, query.questions = [question] → c.get question now = none) :
    cacheHit c query now = none := by
  unfold cacheHit
  split
  · rename_i question hq
    rw [h question hq]
    rfl
  · rfl

/--
**What becomes of RD and OPCODE.** If every upstream echoes what it is sent: a reply to a query
with another EDNS version, and one to a query the resolver failed, has the client's RD bit and
OPCODE 0; one from the cache has the client's RD bit and the OPCODE of the stored response; and
one from an upstream has the client's OPCODE, and its RD bit if that was set.
-/
theorem rd_opcode_echo (c : Cache) (query : Message) (now : Nat) (w : Awaited)
    (hecho : ∀ msg, w.outcome = .ok msg → EchoedBy query msg) :
    let reply := (processQuery c query now w).1
    (BadVersion query → SameRd query reply ∧ reply.header.flags &&& Header.OPCODE = 0) ∧
    (¬ BadVersion query →
      (∀ question cached, query.questions = [question] → c.get question now = some cached →
        SameRd query reply ∧
          reply.header.flags &&& Header.OPCODE = cached.header.flags &&& Header.OPCODE) ∧
      ((∀ question, query.questions = [question] → c.get question now = none) →
        (∀ e, w.outcome = .error e →
          SameRd query reply ∧ reply.header.flags &&& Header.OPCODE = 0) ∧
        ∀ msg, w.outcome = .ok msg →
          reply.header.flags &&& Header.OPCODE = query.header.flags &&& Header.OPCODE ∧
            (query.header.flags &&& Header.RD ≠ 0 → SameRd query reply))) := by
  intro reply
  refine ⟨fun hbad => ?_, fun hgood => ⟨fun question cached hq hget => ?_, fun hmiss => ⟨?_, ?_⟩⟩⟩
  · have hreply : reply = buildBadvers query := by
      simp only [reply, processQuery, localReply_of_bad hbad]
    rw [hreply]
    exact replyTo_echoes query.header (by decide) (by decide)
  · have hreply : reply = cachedReply query cached := by
      have hhit : cacheHit c query now = some (cachedReply query cached) := by
        rw [cacheHit, hq]
        exact Option.map_eq_some_iff.mpr ⟨cached, hget, rfl⟩
      simp only [reply, processQuery, localReply_of_good hgood, hhit]
    rw [hreply]
    exact flags_hit query cached
  · intro e he
    have hreply : reply = buildServfail query := by
      simp only [reply, processQuery, localReply_of_good hgood, cacheHit_of_miss hmiss,
        resolvedReply, he]
    rw [hreply]
    exact replyTo_echoes query.header (by decide) (by decide)
  · intro msg hout
    have hflags : reply.header.flags = msg.header.flags := by
      simp only [reply, processQuery, localReply_of_good hgood, cacheHit_of_miss hmiss,
        resolvedReply, hout]
      split
      · rfl
      · rfl
    rw [SameRd, hflags]
    exact ⟨(hecho msg hout).flags.opcode, (hecho msg hout).flags.rd⟩

/-- An upstream that answers queries for the root, and echoes. -/
def rootPeer : Peer :=
  { udp := fun sent => some (.datagram
      ([0, 7, (sent.getD 2 0 &&& echoedBits) ||| 0x80, 0] ++ rootAnswer.drop 4))
    tcp := fun _ => .ioError }

theorem rootPeer_echoes : rootPeer.Echoes := by
  refine ⟨?_, ?_⟩
  · intro sent received h
    cases h
    have hbits : ∀ n : Fin 256,
        ((UInt8.ofFin n &&& echoedBits) ||| 0x80) &&& echoedBits = UInt8.ofFin n &&& echoedBits := by
      decide +kernel
    exact hbits (sent.getD 2 0).toFin
  · intro stream answer sent received _ h
    cases h

/-- A query for the root that asks for recursion, and the answer to it. -/
def rdQuery : Message :=
  { queryFor Str.empty with header := { id := 7, flags := Header.RD, qdCount := 1 } }

def rdAwaited : Awaited :=
  { rootAwaited with
    outcome := .ok { Cache.answerFor Str.empty 60 with
      header := { id := 7, flags := Header.QR ||| Header.RD, qdCount := 1, anCount := 1 } } }

theorem rdQuery_echoed :
    SameRd rdQuery (processQuery (Cache.new Cache.plainHashing 10 300) rdQuery 0 rdAwaited).1 := by
  obtain ⟨-, h⟩ := rd_opcode_echo (Cache.new Cache.plainHashing 10 300) rdQuery 0 rdAwaited (by
    intro msg hmsg
    cases hmsg
    refine ⟨[(rootPeer, some 7)], ?_, by decide +kernel⟩
    intro u hu
    rw [List.mem_singleton.mp hu]
    exact rootPeer_echoes)
  have hgood : ¬ BadVersion rdQuery := by
    intro hparts
    obtain ⟨o, ho, -⟩ := hparts
    cases ho
  exact (((h hgood).2 fun _ _ => rfl).2 _ rfl).2 (by decide)

/-- A query with OPCODE 2, as bytes. -/
def statusBytes : List UInt8 := [0, 7, 0x10, 0, 0, 1, 0, 0, 0, 0, 0, 0, 0, 0, 1, 0, 1]

/-- The resolver fails it, and the reply has another OPCODE. -/
theorem statusQuery_opcode_lost :
    ∃ query, Message.parse statusBytes = .ok query ∧
      (processQuery (Cache.new Cache.plainHashing 10 300) query 0
        { rootAwaited with outcome := .error .allFailed }).1.header.flags &&& Header.OPCODE ≠
          query.header.flags &&& Header.OPCODE :=
  ⟨{ queryFor Str.empty with header := { id := 7, flags := 0x1000, qdCount := 1 } }, rfl, by decide⟩

end Dnser
