import Dnser.Proof.Program

/-!
# Where answers come from

A forwarder must not make anything up. Between the socket on which an upstream's datagram comes in and
the one on which a client's reply goes out there are the receive task, a channel, a future that may
lose its race, the cache, and a task that has waited for any of these. Whatever comes out at one end
has come in at the other: a message that is sent to a client is made out of its query alone, or carries
the records of a message that an upstream has sent **in this run**, in answer to the same question, and
as fresh as its TTLs say.

What has happened in a run can be told from its labels (`Past`), so that no history has to be kept in
the state. Every step is asked to fit in with the labels of the whole run.
-/

namespace Dnser

open Steps (Reachable Run)

/-! ## Upstreams and calls -/

/-- What is taken for the answer to a query after this datagram: its message, or if that is cut off,
one that comes over TCP. -/
inductive AnsweredBy (query : Message) (datagram : List UInt8) : Message → Prop where
  | udp {msg : Message} : parseValidatedResponse datagram query query.header.id = .ok msg →
      msg.header.isTruncated = false → AnsweredBy query datagram msg
  | tcp {cut msg : Message} {wire : List UInt8} :
      parseValidatedResponse datagram query query.header.id = .ok cut → cut.header.isTruncated = true →
      wire.length ≤ 65535 → parseValidatedResponse wire query query.header.id = .ok msg →
      AnsweredBy query datagram msg

theorem AnsweredBy.questions {query msg : Message} {datagram : List UInt8}
    (h : AnsweredBy query datagram msg) : msg.questions = query.questions := by
  cases h with
  | udp hmsg _ | tcp _ _ _ hmsg =>
      obtain ⟨wire, -, -, hquestions, rfl⟩ := parseValidatedResponse_eq_ok_iff.mp hmsg
      exact hquestions

namespace Race

variable {m : Nat} {s s' : State m} {a : Act m} {R : Message → Message → Prop}

/-- A future returns what its channel had for it. -/
theorem answeredBy_of_returns {query msg : Message} {qu : InFlight.Query}
    (h : Returns query qu (.ok msg)) :
    ∃ datagram, qu.chan = .sent datagram ∧ AnsweredBy query datagram msg := by
  obtain ⟨peer, received, hfinds, hudp, hrun⟩ := h
  obtain ⟨request, wire, hexchange⟩ := query_eq_ok_iff.mp hrun
  cases hexchange with
  | udp _ hwire hmsg hwhole =>
      rw [hudp] at hwire
      subst hwire
      exact ⟨wire, hfinds.2, .udp hmsg hwhole⟩
  | @tcp _ response _ _ _ _ _ hwire hcut htruncated _ hanswer hmsg =>
      rw [hudp] at hwire
      subst hwire
      obtain ⟨stream, -, hread⟩ := hanswer
      have hframe : readFramed stream = (some wire, (readFramed stream).2) := by
        rw [← hread]
      exact ⟨response, hfinds.2, .tcp hcut htruncated (frame_of_readFramed hframe).2.2 hmsg⟩

/-- A future that has come to a message has one with this property. -/
def Fut.Yields (P : Message → Prop) : Fut → Prop
  | leaving (some (.ok msg)) | ready (.ok msg) => P msg
  | _ => True

/-- The same of a call, and of its result. -/
structure Call.Yields (R : Message → Message → Prop) (c : Call m) : Prop where
  futs : ∀ u, (c.futs u).Yields (R c.query)
  result : ∀ msg, c.phase = .ending (some (.ok msg)) → R c.query msg

theorem yields_begin (query : Message) : (Call.begin query : Call m).Yields R := by
  unfold Call.begin
  split
  · refine ⟨fun _ => trivial, fun msg hmsg => ?_⟩
    cases hmsg
  · refine ⟨fun _ => trivial, fun msg hmsg => ?_⟩
    cases hmsg

theorem Call.Yields.setFut {c : Call m} (h : c.Yields R) {u : Fin m} {fut : Fut}
    (hfut : fut.Yields (R c.query)) : (c.setFut u fut).Yields R := by
  refine ⟨fun v => ?_, h.result⟩
  by_cases hv : v = u
  · rw [hv, Call.futs_setFut_self]
    exact hfut
  · rw [Call.futs_setFut_of_ne c hv]
    exact h.futs v

theorem Call.Yields.next {c : Call m} (h : c.Yields R) {u : Fin m} {r : Outcome}
    (hr : c.futs u = .ready r) : (c.next u r).Yields R := by
  have hfut := h.futs u
  rw [hr] at hfut
  cases r with
  | ok msg =>
      have hgone : (c.setFut u .gone).Yields R := h.setFut trivial
      refine ⟨hgone.futs, fun msg' hmsg => ?_⟩
      cases hmsg
      exact hfut
  | error e =>
      have hset : (c.setFut u (.failed e)).Yields R := h.setFut trivial
      unfold Call.next
      dsimp only
      split
      · refine ⟨hset.futs, fun msg hmsg => ?_⟩
        cases hmsg
      · exact hset

theorem yields_setCall (h : ∀ q c, s.calls q = some c → c.Yields R) {q : Nat} {c : Option (Call m)}
    (hc : ∀ c', c = some c' → c'.Yields R) : ∀ q' c', (s.setCall q c).calls q' = some c' → c'.Yields R := by
  intro q' c' hc'
  by_cases hqq : q' = q
  · rw [hqq, calls_setCall_self] at hc'
    exact hc c' hc'
  · rw [calls_setCall_of_ne s hqq] at hc'
    exact h q' c' hc'

/-- **A call has what its futures have returned**, and nothing else. -/
theorem yields_step (h : ∀ q c, s.calls q = some c → c.Yields R) (hs : Step s a s')
    (hreturns : ∀ u q c qu msg, s.calls q = some c → (s.upstreams u).queries q = some qu →
      Returns c.query qu (.ok msg) → R c.query msg) :
    ∀ q c, s'.calls q = some c → c.Yields R := by
  -- one future of one call goes on
  have hset : ∀ {q : Nat} {c : Call m} {u : Fin m} {fut : Fut}, s.calls q = some c →
      fut.Yields (R c.query) → ∀ q' c', (s.setFut q c u fut).calls q' = some c' → c'.Yields R := by
    intro q c u fut hq hfut
    refine yields_setCall h fun c' hc' => ?_
    cases hc'
    exact (h q c hq).setFut hfut
  cases hs with
  | call =>
      refine yields_setCall h fun c' hc' => ?_
      cases hc'
      exact yields_begin _
  | unwritable hq _ _ _ => exact hset hq trivial
  | exhausted hq _ _ _ _ => exact hset hq trivial
  | asks hq _ _ _ _ => exact hset hq trivial
  | receive _ | send _ | wake _ _ _ _ => exact h
  | @returns q u c qu r up hq _ _ hqu hr _ =>
      refine hset hq ?_
      cases r with
      | ok msg => exact hreturns u q c qu msg hq hqu hr
      | error e => trivial
  | abandoned hq _ _ _ => exact hset hq trivial
  | @dropGuard q u c r up hq hfut _ =>
      have hold := (h q c hq).futs u
      rw [hfut] at hold
      refine hset hq ?_
      cases r with
      | none => trivial
      | some r =>
          cases r with
          | ok msg => exact hold
          | error e => trivial
  | next hq _ hfut =>
      refine yields_setCall h fun c' hc' => ?_
      cases hc'
      exact (h _ _ hq).next hfut
  | cancel hq _ =>
      refine yields_setCall h fun c' hc' => ?_
      cases hc'
      refine ⟨(h _ _ hq).futs, fun msg hmsg => ?_⟩
      cases hmsg
  | discard hq _ _ => exact hset hq trivial
  | ends _ _ _ =>
      refine yields_setCall h fun c' hc' => ?_
      cases hc'

/-- What happens to one upstream when something happens. -/
theorem upstream_step (h : Inv s) (hs : Step s a s') (u : Fin m) :
    s'.upstreams u = s.upstreams u ∨ ∃ act, InFlight.Step (s.upstreams u) act (s'.upstreams u) ∧
      ∀ bytes, act = .receive bytes → a = .receive u bytes := by
  -- it is this one, or it stays as it is
  have hset : ∀ {v : Fin m} {up : InFlight.State} {act : InFlight.Act},
      InFlight.Step (s.upstreams v) act up → (∀ bytes, act = .receive bytes → a = .receive v bytes) →
      Function.update s.upstreams v up u = s.upstreams u ∨
        ∃ act, InFlight.Step (s.upstreams u) act (Function.update s.upstreams v up u) ∧
          ∀ bytes, act = .receive bytes → a = .receive u bytes := by
    intro v up act hup hact
    by_cases hu : u = v
    · subst hu
      rw [Function.update_self]
      exact .inr ⟨act, hup, hact⟩
    · exact .inl (Function.update_of_ne hu ..)
  cases hs with
  | asks hq _ hfut _ halloc =>
      exact hset (InFlight.step_allocateAndInsert (h.idle _ _ _ hq hfut) halloc).1 (by simp)
  | receive hup =>
      refine hset hup fun bytes hb => ?_
      cases hb
      rfl
  | send hup => exact hset hup (by simp)
  | wake _ _ _ hup => exact hset hup (by simp)
  | returns _ _ _ _ _ hup => exact hset hup (by simp)
  | abandoned _ _ _ hup => exact hset hup (by simp)
  | dropGuard _ _ hup => exact hset hup (by simp)
  | call | unwritable _ _ _ _ | exhausted _ _ _ _ _ | next _ _ _ | cancel _ _ | discard _ _ _
  | ends _ _ _ => exact .inl rfl

/-- A message that answers a query was heard from an upstream. -/
def Heard (heard : Fin m → List UInt8 → Prop) (query msg : Message) : Prop :=
  ∃ u datagram, heard u datagram ∧ AnsweredBy query datagram msg

/-- What a resolver has, it has heard. -/
structure Hears (heard : Fin m → List UInt8 → Prop) (s : State m) : Prop where
  upstreams : ∀ u, InFlight.Carries (heard u) (s.upstreams u)
  calls : ∀ q c, s.calls q = some c → c.Yields (Heard heard)

theorem hears_init (heard : Fin m → List UInt8 → Prop) : Hears heard (init m) := by
  refine ⟨fun u => InFlight.carries_init (heard u), fun q c hc => ?_⟩
  cases hc

/-- **A resolver makes nothing up.** -/
theorem Hears.step {heard : Fin m → List UInt8 → Prop} (h : Hears heard s) (hinv : Inv s)
    (hs : Step s a s') (ha : ∀ u bytes, a = .receive u bytes → heard u bytes) : Hears heard s' := by
  constructor
  · intro u
    rcases upstream_step hinv hs u with hsame | ⟨act, hup, hact⟩
    · rw [hsame]
      exact h.upstreams u
    · exact (h.upstreams u).step hup fun bytes hb => ha u bytes (hact bytes hb)
  · refine yields_step h.calls hs fun u q c qu msg _ hqu hr => ?_
    obtain ⟨datagram, hchan, hanswered⟩ := answeredBy_of_returns hr
    exact ⟨u, datagram, (h.upstreams u).chans q qu datagram hqu hchan, hanswered⟩

end Race

/-! ## Replies -/

open AbstractCache (RecordAged)

/-- Records that have not been in the cache. -/
theorem recordAged_zero (rrs : List ResourceRecord) : List.Forall₂ (RecordAged 0) rrs rrs :=
  List.forall₂_same.mpr fun _ _ => ⟨rfl, rfl, rfl, fun _ => rfl⟩

theorem recordAged_filter {secs : Nat} {rrs rrs' : List ResourceRecord}
    (h : List.Forall₂ (RecordAged secs) rrs rrs') :
    List.Forall₂ (RecordAged secs) (rrs.filter fun rr => !rr.isOpt) (rrs'.filter fun rr => !rr.isOpt) := by
  induction h with
  | nil => exact .nil
  | @cons rr rr' _ _ hrr _ ih =>
      have hopt : rr'.isOpt = rr.isOpt := by
        simp only [ResourceRecord.isOpt, hrr.rdata]
      simp only [List.filter_cons, hopt]
      split
      · exact .cons hrr ih
      · exact ih

/-- A reply carries a message: the same rcode and the same records, but for OPT, with their TTLs
reduced by some seconds. -/
structure Conveys (secs : Nat) (msg reply : Message) : Prop where
  rcode : reply.header.rcode = msg.header.rcode
  answers : List.Forall₂ (RecordAged secs) msg.answers reply.answers
  authority : List.Forall₂ (RecordAged secs) msg.authority reply.authority
  additional : List.Forall₂ (RecordAged secs) (msg.additional.filter fun rr => !rr.isOpt)
    (reply.additional.filter fun rr => !rr.isOpt)

theorem conveys_zero (msg : Message) : Conveys 0 msg msg :=
  ⟨rfl, recordAged_zero _, recordAged_zero _, recordAged_zero _⟩

theorem Conveys.addEdnsOpt {secs : Nat} {msg reply : Message} (h : Conveys secs msg reply) :
    Conveys secs msg (addEdnsOpt reply) := by
  refine ⟨h.rcode, h.answers, h.authority, ?_⟩
  have hopt : (ResourceRecord.ednsOpt serverUdpPayload).isOpt = true := rfl
  have hfilter : (Dnser.addEdnsOpt reply).additional.filter (fun rr => !rr.isOpt) =
      reply.additional.filter fun rr => !rr.isOpt := by
    simp [Dnser.addEdnsOpt, List.filter_filter, hopt]
  rw [hfilter]
  exact h.additional

theorem conveys_cachedReply (query : Message) {secs : Nat} {stored cached : Message}
    (h : AbstractCache.Aged secs stored cached) : Conveys secs stored (cachedReply query cached) := by
  have hplain : ∀ header : Header, header.rcode = stored.header.rcode →
      Conveys secs stored { cached with header } := fun header hheader =>
    ⟨hheader, h.answers, h.authority, recordAged_filter h.additional⟩
  have hrcode : (cachedReply query cached).header.rcode = stored.header.rcode := by
    rw [rcode_cachedReply, h.header]
  unfold cachedReply at hrcode ⊢
  dsimp only at hrcode ⊢
  split
  · rename_i hopt
    rw [if_pos hopt] at hrcode
    exact (hplain _ hrcode).addEdnsOpt
  · rename_i hopt
    rw [if_neg hopt] at hrcode
    exact hplain _ hrcode

/-- The questions are the same, up to the case of letters. -/
def SameQuestions (query query' : Message) : Prop :=
  query'.questions.map CacheKey.fromQuestion = query.questions.map CacheKey.fromQuestion

/-- What is known of a run. -/
structure Past where
  /-- What `Cache::new` was called with. -/
  maxNegativeTtl : UInt32
  /-- The resolver came back with a message for a query, at this time. -/
  returned : Message → Message → Nat → Prop
  /-- The cache was looked up at this time. -/
  lookedUp : Nat → Prop

/-- Where a reply comes from. -/
inductive Brings (H : Past) (query : Message) : Message → Prop where
  /-- It is made out of the query. -/
  | made {reply : Message} : IsLocal query reply → Brings H query reply
  /-- It is what the resolver came back with. -/
  | relayed {msg reply : Message} {t : Nat} : H.returned query msg t → Conveys 0 msg reply →
      Brings H query reply
  /-- It is what the resolver came back with for someone who had the same question, and was looked up
  while it was still good. -/
  | cached {query' msg reply : Message} {question : Question} {ttl : UInt32} {t now : Nat} :
      H.returned query' msg t → SameQuestions query query' →
      Cache.admits H.maxNegativeTtl msg = some (question, ttl) → H.lookedUp now →
      now < t + ttl.toNat * nanosPerSec → Conveys ((now - t) / nanosPerSec) msg reply →
      Brings H query reply

/-- The cache holds what was brought in for the question it is filed under, for as long as its TTLs
say. -/
structure CacheFrom (H : Past) (c : Cache) : Prop where
  placed : c.Placed
  maxNegativeTtl : c.maxNegativeTtl = H.maxNegativeTtl
  brought : ∀ k e, c.lookup k = some e → ∃ query question ttl,
    H.returned query e.response e.insertedAt ∧ query.questions = [question] ∧
      CacheKey.fromQuestion question = k ∧
      Cache.admits H.maxNegativeTtl e.response = some (question, ttl) ∧
      e.expiresAt = e.insertedAt + ttl.toNat * nanosPerSec

section Calls

variable {H : Past} {c : Cache} {query reply : Message} {now : Nat}

theorem cacheFrom_new (hashing : Hashing) (capacity : UInt64) :
    CacheFrom H (Cache.new hashing capacity H.maxNegativeTtl) := by
  refine ⟨Cache.placed_new _ _ _, rfl, fun k e he => ?_⟩
  rw [Cache.lookup_new] at he
  cases he

theorem CacheFrom.evictExpired (h : CacheFrom H c) (now : Nat) : CacheFrom H (c.evictExpired now) :=
  ⟨h.placed.evictExpired now, (Cache.sameConfig_evictExpired c now).2.1.trans h.maxNegativeTtl,
    fun k e he => h.brought k e ((Cache.lookup_evictExpired_eq_some_iff h.placed now k e).mp he).1⟩

theorem CacheFrom.insert (h : CacheFrom H c) {msg : Message} (order : Fin numShards → ShardOrder)
    (hmsg : H.returned query msg now) (hquestions : msg.questions = query.questions) :
    CacheFrom H (c.insert order msg now) := by
  refine ⟨h.placed.insert _ _ _, (Cache.sameConfig_insert _ _ _ _).2.1.trans h.maxNegativeTtl,
    fun k e he => ?_⟩
  rcases Cache.lookup_insert_cases h.placed he with he | ⟨question, ttl, hadm, rfl, rfl⟩
  · exact h.brought k e he
  · -- the key is made from the response's question, which is the query's
    rw [Cache.questions_of_admits hadm] at hquestions
    rw [h.maxNegativeTtl] at hadm
    exact ⟨query, question, ttl, hmsg, hquestions.symm, rfl, hadm, rfl⟩

/-- A hit is what is filed under the question's key, aged by the seconds since it was stored. -/
theorem CacheFrom.get (h : CacheFrom H c) {question : Question} {cached : Message}
    (hq : query.questions = [question]) (hlook : H.lookedUp now) (hget : c.get question now = some cached) :
    Brings H query (cachedReply query cached) := by
  obtain ⟨e, hprobe, hlive, rfl⟩ := Cache.get_eq_some_iff.mp hget
  obtain ⟨query', question', ttl, hmsg, hq', hkey, hadm, hexpires⟩ :=
    h.brought _ e (Cache.lookup_of_probe h.placed hprobe)
  -- it is younger than its lifetime, so the seconds do not saturate
  have hsecs : (now - e.insertedAt) / nanosPerSec < 2 ^ 32 := by
    have hn : 0 < nanosPerSec := by decide
    have httl := Nat.mul_lt_mul_of_pos_right ttl.toNat_lt hn
    rw [Nat.div_lt_iff_lt_mul hn]
    omega
  refine .cached hmsg ?_ hadm hlook (hexpires ▸ hlive) (conveys_cachedReply query ?_)
  · rw [SameQuestions, hq, hq', List.map_singleton, List.map_singleton, hkey]
  · rw [← Cache.toNat_elapsedSecs hsecs]
    exact ⟨rfl, rfl, Cache.recordAged_rewriteTtls _ _, Cache.recordAged_rewriteTtls _ _,
      Cache.recordAged_rewriteTtls _ _⟩

/-- The first half of a call takes what is in the cache. -/
theorem CacheFrom.localReply (h : CacheFrom H c) (hlook : H.lookedUp now)
    (hreply : localReply c query now = some reply) : Brings H query reply := by
  rcases localReply_cases c query now with ⟨-, hbad⟩ | hhit
  · rw [hbad] at hreply
    cases hreply
    exact .made (.inr (.inr rfl))
  · rw [hhit] at hreply
    unfold cacheHit at hreply
    split at hreply
    · rename_i question hq
      obtain ⟨cached, hget, rfl⟩ := Option.map_eq_some_iff.mp hreply
      exact h.get hq hlook hget
    · cases hreply

/-- The second half takes what the resolver returned, and leaves it in the cache. -/
theorem CacheFrom.resolved (h : CacheFrom H c) {w : Awaited}
    (hout : ∀ msg, w.outcome = .ok msg →
      H.returned query msg w.now ∧ msg.questions = query.questions) :
    Brings H query (resolvedReply c query w).1 ∧ CacheFrom H (resolvedReply c query w).2 := by
  have hreaped : CacheFrom H (w.reaps.foldl Cache.evictExpired c) :=
    List.foldlRecOn w.reaps _ h fun _ hc t _ => hc.evictExpired t
  unfold resolvedReply
  dsimp only
  cases hoc : w.outcome with
  | error e => exact ⟨.made (.inl rfl), hreaped⟩
  | ok msg =>
      obtain ⟨hmsg, hquestions⟩ := hout msg hoc
      refine ⟨.relayed hmsg ?_, hreaped.insert w.order hmsg hquestions⟩
      dsimp only
      split
      · exact (conveys_zero msg).addEdnsOpt
      · exact conveys_zero msg

end Calls

/-! ## Tasks -/

/-- Bytes that are a reply to a query, and where they come from. -/
def ReplyFrom (H : Past) (data bytes : List UInt8) : Prop :=
  ∃ query reply, Message.parse data = .ok query ∧ reply.toBytes = .ok bytes ∧ Brings H query reply

/-- What is sent in a datagram is the reply, or the truncated one. -/
theorem replyFrom_of_udpDatagram {H : Past} {data bytes : List UInt8}
    {query reply : Message} (hparse : Message.parse data = .ok query) (hreply : Brings H query reply)
    (h : udpDatagram query reply = .ok bytes) : ReplyFrom H data bytes := by
  obtain ⟨b, hb, ⟨-, rfl⟩ | ⟨-, hcut⟩⟩ := udpDatagram_cases h
  · exact ⟨query, reply, hparse, hb, hreply⟩
  · exact ⟨query, buildTruncated query, hparse, hcut, .made (.inr (.inl rfl))⟩

namespace QueryTask

variable {Addr : Type} {t t' : QueryTask Addr} {cache cache' : Cache} {act : QueryAct}
  {taken : List (Addr × List UInt8)} {H : Past}

/-- What a task is about to send comes from somewhere. -/
def From (H : Past) (t : QueryTask Addr) : Prop :=
  ∀ bytes, t.phase = .sending bytes → ReplyFrom H t.data bytes

theorem from_respond {query reply : Message} (hparse : Message.parse t.data = .ok query)
    (hreply : Brings H query reply) : (t.respond query reply).From H := by
  unfold respond
  split
  · rename_i bytes hbytes
    intro bytes' hphase
    cases hphase
    exact replyFrom_of_udpDatagram hparse hreply hbytes
  · intro bytes' hphase
    cases hphase

/-- **A step of a task.** -/
theorem from_step (hsound : t.Sound taken) (hc : CacheFrom H cache) (hm : Moves t cache act t' cache')
    (hlook : ∀ now, act = .start now → H.lookedUp now)
    (hret : ∀ query msg order now, act = .resolved (.ok msg) order now → t.phase = .resolving query →
      H.returned query msg now ∧ msg.questions = query.questions) : t'.From H ∧ CacheFrom H cache' := by
  cases hm with
  | hit _ hparse hlocal => exact ⟨from_respond hparse (hc.localReply (hlook _ rfl) hlocal), hc⟩
  | @resolved outcome order now query hphase =>
      obtain ⟨hparse, -⟩ := hsound.resolving query hphase
      have hout : ∀ msg, outcome = .ok msg →
          H.returned query msg now ∧ msg.questions = query.questions :=
        fun msg hmsg => hret query msg order now (by rw [hmsg]) hphase
      obtain ⟨hreply, hcache⟩ := hc.resolved (w := { outcome, now, order }) hout
      exact ⟨from_respond hparse hreply, hcache⟩
  | unparsable _ _ | miss _ _ _ | send _ | sendFails _ | cancelled _ _ =>
      refine ⟨fun bytes hphase => ?_, hc⟩
      cases hphase

end QueryTask

namespace ConnTask

variable {t t' : ConnTask} {cache cache' : Cache} {act : ConnTaskAct} {H : Past}

/-- What is being done about the next message of a stream, and where the reply comes from. -/
def Pending (H : Past) (t : ConnTask) (rest : List UInt8) : Prop :=
  match t.phase with
  | .reading => rest = t.input
  | .resolving query => ∃ body, rest = frame body ++ t.input ∧ Message.parse body = .ok query
  | .writing bytes => ∃ body, rest = frame body ++ t.input ∧ ReplyFrom H body bytes
  | .closed => True

/-- Every reply on a connection comes from somewhere. -/
structure Relayed (H : Past) (t : ConnTask) (bodies replies : List (List UInt8))
    (rest : List UInt8) : Prop where
  sources : List.Forall₂ (ReplyFrom H) bodies replies
  stream : t.stream = bodies.flatMap frame ++ rest
  output : t.output = replies.flatMap frame
  pending : t.Pending H rest

def From (H : Past) (t : ConnTask) : Prop :=
  ∃ bodies replies rest, t.Relayed H bodies replies rest

theorem from_accepted (stream : List UInt8) : ({ stream } : ConnTask).From H :=
  ⟨[], [], stream, .nil, rfl, rfl, rfl⟩

theorem pending_respond {query response : Message} {body rest : List UInt8}
    (hrest : rest = frame body ++ t.input) (hparse : Message.parse body = .ok query)
    (hreply : Brings H query response) : (t.respond response).Pending H rest := by
  unfold respond
  split
  · rename_i bytes hbytes
    exact ⟨body, hrest, query, response, hparse, hbytes, hreply⟩
  · trivial

theorem respond_same (t : ConnTask) (response : Message) :
    (t.respond response).stream = t.stream ∧ (t.respond response).output = t.output := by
  unfold respond
  split <;> exact ⟨rfl, rfl⟩

/-- **A step of a connection.** -/
theorem from_step (h : t.From H) (hc : CacheFrom H cache) (hs : t.step cache act = some (t', cache'))
    (hlook : ∀ now, act = .frame now → H.lookedUp now)
    (hret : ∀ query msg order now, act = .resolved (.ok msg) order now → t.phase = .resolving query →
      H.returned query msg now ∧ msg.questions = query.questions) : t'.From H ∧ CacheFrom H cache' := by
  obtain ⟨bodies, replies, rest, hreplies, hstream, houtput, hpending⟩ := h
  -- whatever else changes, what was read and written did not
  have hkeep : ∀ t' : ConnTask, t'.stream = t.stream → t'.output = t.output → t'.Pending H rest →
      t'.From H := by
    intro t' hstream' houtput' hpending'
    exact ⟨bodies, replies, rest, hreplies, hstream'.trans hstream, houtput'.trans houtput, hpending'⟩
  cases act with
  | frame now =>
      simp only [step] at hs
      split at hs
      · rename_i hphase
        rw [Pending, hphase] at hpending
        dsimp only at hpending
        split at hs
        · cases hs
          exact ⟨hkeep _ rfl rfl trivial, hc⟩
        · rename_i body input hread
          have hrest : rest = frame body ++ input := hpending.trans (frame_of_readFramed hread).1
          split at hs
          · cases hs
            exact ⟨hkeep _ rfl rfl trivial, hc⟩
          · rename_i query hparse
            split at hs
            · rename_i reply hlocal
              cases hs
              obtain ⟨hsame, hsame'⟩ := respond_same { t with input } reply
              exact ⟨hkeep _ hsame hsame' (pending_respond hrest hparse
                (hc.localReply (hlook now rfl) hlocal)), hc⟩
            · cases hs
              exact ⟨hkeep _ rfl rfl ⟨body, hrest, hparse⟩, hc⟩
      · cases hs
  | resolved outcome order now =>
      simp only [step] at hs
      split at hs
      · rename_i query hphase
        rw [Pending, hphase] at hpending
        obtain ⟨body, hrest, hparse⟩ := hpending
        have hout : ∀ msg, outcome = .ok msg →
            H.returned query msg now ∧ msg.questions = query.questions :=
          fun msg hmsg => hret query msg order now (by rw [hmsg]) hphase
        obtain ⟨hreply, hcache⟩ := hc.resolved (w := { outcome, now, order }) hout
        cases hs
        obtain ⟨hsame, hsame'⟩ := respond_same t (resolvedReply cache query { outcome, now, order }).1
        exact ⟨hkeep _ hsame hsame' (pending_respond hrest hparse hreply), hcache⟩
      · cases hs
  | written =>
      simp only [step] at hs
      split at hs
      · rename_i bytes hphase
        rw [Pending, hphase] at hpending
        obtain ⟨body, hrest, hreply⟩ := hpending
        split at hs
        · rename_i output hwrite
          obtain ⟨rfl, -⟩ := frame_of_writeFramed hwrite
          cases hs
          refine ⟨⟨bodies ++ [body], replies ++ [bytes], t.input, ?_, ?_, ?_, rfl⟩, hc⟩
          · exact List.rel_append hreplies (.cons hreply .nil)
          · rw [List.flatMap_append, List.append_assoc]
            simpa [hrest] using hstream
          · rw [List.flatMap_append]
            simp [houtput]
        · cases hs
          exact ⟨hkeep _ rfl rfl trivial, hc⟩
      · cases hs
  | close =>
      simp only [step] at hs
      split at hs
      · cases hs
      · cases hs
        exact ⟨hkeep _ rfl rfl trivial, hc⟩

end ConnTask

/-! ## The server -/

/-- When something is looked up in the cache. -/
def ServiceAct.looksUp {Addr : Type} {n : Nat} : ServiceAct Addr n → Option Nat
  | .query _ _ (.start now) | .conn _ (.frame now) => some now
  | _ => none

/-- What a task gets from the resolver, and when. -/
def ServiceAct.gets {Addr : Type} {n : Nat} : ServiceAct Addr n → Option (Message × Nat)
  | .query _ _ (.resolved (.ok msg) _ now) | .conn _ (.resolved (.ok msg) _ now) => some (msg, now)
  | _ => none

namespace Service

variable {Addr : Type} {n : Nat} {s s' : Service Addr n} {a : ServiceAct Addr n}
  {H : Past}

/-- Whatever the server holds and has sent comes from somewhere. -/
structure From (H : Past) (s : Service Addr n) : Prop where
  cache : CacheFrom H s.cache
  tasks : ∀ w, ∀ t ∈ (s.workers w).queries, t.From H
  conns : ∀ t ∈ s.conns, t.From H
  sent : ∀ number peer bytes, (number, peer, bytes) ∈ s.sent →
    ∃ data, s.taken[number]? = some (peer, data) ∧ ReplyFrom H data bytes

theorem from_start (hashing : Hashing) (capacity : UInt64) (n udpMaxInflight tcpMaxConnections : Nat) :
    (start (Cache.new hashing capacity H.maxNegativeTtl) n udpMaxInflight tcpMaxConnections :
      Service Addr n).From H := by
  refine ⟨cacheFrom_new hashing capacity, ?_, ?_, ?_⟩
  · intro w t ht
    cases ht
  · intro t ht
    cases ht
  · intro number peer bytes hsent
    cases hsent

/-- **The server makes nothing up**, if the resolver does not. -/
theorem From.step (h : s.From H) (hsound : s.Sound) (hs : s.Step a s')
    (hlook : ∀ now, a.looksUp = some now → H.lookedUp now)
    (hret : ∀ waiter msg query now, s.contact a = some (waiter, .returns (some (.ok msg))) →
      s.Awaits waiter query → a.gets = some (msg, now) →
      H.returned query msg now ∧ msg.questions = query.questions) : s'.From H := by
  cases hs with
  | @spawned w peer bytes permits hstage hpermits =>
      refine ⟨h.cache, tasks_update h.tasks fun t ht => ?_, h.conns, fun number peer' bytes' hsent => ?_⟩
      · rcases List.mem_append.mp ht with ht | ht
        · exact h.tasks w t ht
        · rw [List.mem_singleton.mp ht]
          intro bytes' hphase
          cases hphase
      · obtain ⟨data, hdata, hreply⟩ := h.sent number peer' bytes' hsent
        exact ⟨data, getElem?_append_some hdata _, hreply⟩
  | @query w i act t t' cache ht hstep =>
      have ht_mem := List.mem_of_getElem? ht
      have htask := hsound.tasks w t ht_mem
      obtain ⟨hfrom, hcache⟩ : t'.From H ∧ CacheFrom H cache := by
        refine QueryTask.from_step htask h.cache (QueryTask.moves_of_step hstep) ?_ ?_
        · rintro now rfl
          exact hlook now rfl
        · rintro query msg order now rfl hphase
          obtain ⟨hcontact, hawaits⟩ := contact_resolved ht hphase (.ok msg) order now
          exact hret _ msg query now hcontact hawaits rfl
      refine ⟨hcache, tasks_update h.tasks fun u hu => ?_, h.conns, fun number peer bytes hsent => ?_⟩
      · rcases List.mem_or_eq_of_mem_set hu with hu | rfl
        · exact h.tasks w u hu
        · exact hfrom
      · rcases List.mem_append.mp hsent with hsent | hsent
        · exact h.sent number peer bytes hsent
        · obtain ⟨bytes', hphase, -, hx⟩ := mem_sends hsent
          cases hx
          exact ⟨t.data, htask.taken, h.tasks w t ht_mem bytes hphase⟩
  | @joinNext w i t ht hended =>
      exact ⟨h.cache, tasks_update h.tasks fun u hu => h.tasks w u (List.mem_of_mem_eraseIdx hu),
        h.conns, h.sent⟩
  | @changed w _ _ => exact ⟨h.cache, tasks_update h.tasks (h.tasks w), h.conns, h.sent⟩
  | @drained w _ _ => exact ⟨h.cache, tasks_update h.tasks (h.tasks w), h.conns, h.sent⟩
  | @drainTimeout w _ _ =>
      refine ⟨h.cache, tasks_update h.tasks fun t ht => ?_, h.conns, h.sent⟩
      obtain ⟨t₀, ht₀, rfl⟩ := List.mem_map.mp ht
      exact h.tasks w t₀ ht₀
  | @accepted stream permits _ _ =>
      refine ⟨h.cache, h.tasks, fun t ht => ?_, h.sent⟩
      rcases List.mem_append.mp ht with ht | ht
      · exact h.conns t ht
      · rw [List.mem_singleton.mp ht]
        exact ConnTask.from_accepted stream
  | @conn k act t t' cache ht hstep =>
      obtain ⟨hfrom, hcache⟩ : t'.From H ∧ CacheFrom H cache := by
        refine ConnTask.from_step (h.conns t (List.mem_of_getElem? ht)) h.cache hstep ?_ ?_
        · rintro now rfl
          exact hlook now rfl
        · rintro query msg order now rfl hphase
          obtain ⟨hcontact, hawaits⟩ := contact_conn_resolved ht hphase (.ok msg) order now
          exact hret _ msg query now hcontact hawaits rfl
      refine ⟨hcache, h.tasks, fun u hu => ?_, h.sent⟩
      rcases List.mem_or_eq_of_mem_set hu with hu | rfl
      · exact h.conns u hu
      · exact hfrom
  | reap _ => exact ⟨h.cache.evictExpired _, h.tasks, h.conns, h.sent⟩
  | dropped _ _ | refused _ _ | acceptChanged _ _ | reaperStops _ | shutdown _ | awaited _ _ _
  | returns _ => exact ⟨h.cache, h.tasks, h.conns, h.sent⟩

end Service

/-! ## The program -/

namespace Program

variable {Addr : Type} {n m : Nat} {p p' : Program Addr n m} {a : ProgramAct Addr n m}

/-- What an upstream has sent in a run. -/
def heardIn (as : List (ProgramAct Addr n m)) (u : Fin m) (datagram : List UInt8) : Prop :=
  .resolver (.receive u datagram) ∈ as

/-- What is known of a run. -/
def pastOf (cap : UInt32) (as : List (ProgramAct Addr n m)) : Past :=
  { maxNegativeTtl := cap
    returned := fun query msg now => Race.Heard (heardIn as) query msg ∧
      ∃ a : ServiceAct Addr n, .service a ∈ as ∧ a.gets = some (msg, now)
    lookedUp := fun now => ∃ a : ServiceAct Addr n, .service a ∈ as ∧ a.looksUp = some now }

/-- All that is known about where things come from. -/
structure Traced (cap : UInt32) (as : List (ProgramAct Addr n m)) (p : Program Addr n m) : Prop where
  linked : p.Linked
  sound : p.service.Sound
  resolver : Race.Hears (heardIn as) p.resolver
  service : p.service.From (pastOf cap as)

variable {cap : UInt32} {as : List (ProgramAct Addr n m)}

theorem traced_start (as : List (ProgramAct Addr n m)) (hashing : Hashing) (capacity : UInt64)
    (cap : UInt32) (udpMaxInflight tcpMaxConnections : Nat) :
    (start (Cache.new hashing capacity cap) n m udpMaxInflight tcpMaxConnections).Traced cap as :=
  { linked := linked_start _ udpMaxInflight tcpMaxConnections
    sound := Service.sound_start hashing capacity cap n udpMaxInflight tcpMaxConnections
    resolver := Race.hears_init (heardIn as)
    service := Service.from_start hashing capacity n udpMaxInflight tcpMaxConnections }

/-- **No step makes anything up.** -/
theorem Traced.step (h : p.Traced cap as) (hs : p.Step a p') (ha : a ∈ as) : p'.Traced cap as := by
  have hlinked := h.linked.step hs
  have hsound : p'.service.Sound := by
    rcases service_step h.linked hs with hsame | ⟨b, hhonest, hs'⟩
    · rw [hsame]
      exact h.sound
    · exact h.sound.step hhonest hs'
  -- a step of the server, in which the resolver returns what it has heard
  have hserver : ∀ {act : ServiceAct Addr n} {service : Service Addr n}, .service act ∈ as →
      p.service.Step act service →
      (∀ waiter msg query, p.service.contact act = some (waiter, .returns (some (.ok msg))) →
        p.service.Awaits waiter query → Race.Heard (heardIn as) query msg) →
      service.From (pastOf cap as) := by
    intro act service hact hs hheard
    refine h.service.step h.sound hs (fun now hnow => ⟨act, hact, hnow⟩) ?_
    intro waiter msg query now hcontact hawaits hgets
    have hmsg := hheard waiter msg query hcontact hawaits
    obtain ⟨u, datagram, -, hanswered⟩ := id hmsg
    exact ⟨⟨hmsg, act, hact, hgets⟩, hanswered.questions⟩
  cases hs with
  | serves hs hnone =>
      refine ⟨hlinked, hsound, h.resolver, hserver ha hs fun waiter msg query hcontact => ?_⟩
      rw [hnone] at hcontact
      cases hcontact
  | calls hs hcalls hcall =>
      refine ⟨hlinked, hsound, h.resolver.step h.linked.resolver hcall (by simp),
        hserver ha hs fun waiter msg query hcontact => ?_⟩
      rw [hcalls] at hcontact
      cases hcontact
  | returns hs hreturns hq hends =>
      refine ⟨hlinked, hsound, h.resolver.step h.linked.resolver hends (by simp),
        hserver ha hs fun waiter msg query hcontact hawaits => ?_⟩
      rw [hreturns] at hcontact
      cases hcontact
      have hasked := h.linked.asked hq hawaits
      cases hends with
      | ends hc hphase _ =>
          rw [Race.State.asked, hc] at hasked
          cases hasked
          exact (h.resolver.calls _ _ hc).result msg hphase
  | @resolves act resolver hs _ =>
      refine ⟨hlinked, hsound, h.resolver.step h.linked.resolver hs fun u bytes hact => ?_, h.service⟩
      rw [hact] at ha
      exact ha

/--
**Nothing is made up.** In every run of the program, a reply that was sent to a client, over UDP or
TCP, is one of three. It is made out of its query alone: SERVFAIL, BADVERS or the truncated reply. Or
it carries the records of a message that the resolver came back with for this query, after a datagram
that one of the upstreams has sent in this very run. Or it carries the records of such a message for
another query with the same question, up to the case of letters: then the message was stored when it
came, the cache was looked up before the lifetime it was given was over, and all TTLs are reduced by
the seconds that have passed in between.
-/
theorem nothing_made_up (hashing : Hashing) (capacity : UInt64) (cap : UInt32)
    (n m udpMaxInflight tcpMaxConnections : Nat) (as : List (ProgramAct Addr n m))
    (p : Program Addr n m)
    (h : Run Step (fun _ _ => True)
      (start (Cache.new hashing capacity cap) n m udpMaxInflight tcpMaxConnections) as p) :
    (∀ number peer bytes, (number, peer, bytes) ∈ p.service.sent →
      ∃ data, p.service.taken[number]? = some (peer, data) ∧ ReplyFrom (pastOf cap as) data bytes) ∧
    ∀ conn ∈ p.service.conns, ∃ bodies replies rest, conn.stream = bodies.flatMap frame ++ rest ∧
      conn.output = replies.flatMap frame ∧
      List.Forall₂ (ReplyFrom (pastOf cap as)) bodies replies := by
  have hreach := Reachable.run (P := (· ∈ as)) .init h fun _ ha => ha
  have htraced : p.Traced cap as :=
    hreach.invariant_of_ok (traced_start as hashing capacity cap udpMaxInflight tcpMaxConnections)
      fun _ _ _ hI hok hs => hI.step hs hok.2
  refine ⟨htraced.service.sent, fun conn hconn => ?_⟩
  obtain ⟨bodies, replies, rest, hrelayed⟩ := htraced.service.conns conn hconn
  exact ⟨bodies, replies, rest, hrelayed.stream, hrelayed.output, hrelayed.sources⟩

/-- The query that was relayed. -/
theorem relayed_heard : ∃ (as : List (ProgramAct Nat 1 1)) (p : Program Nat 1 1),
    Run Step (fun _ _ => True) (start (Cache.new Cache.plainHashing 10 300) 1 1 1000 1000) as p ∧
      p.service.sent = [(0, 4, bareAnswer 7)] ∧ ∃ data, p.service.taken[0]? = some (4, data) ∧
        ReplyFrom (pastOf 300 as) data (bareAnswer 7) := by
  obtain ⟨p, hp, hsent⟩ := exists_relayed
  obtain ⟨as, hrun⟩ := hp.exists_run
  obtain ⟨hall, -⟩ := nothing_made_up Cache.plainHashing 10 300 1 1 1000 1000 as p hrun
  exact ⟨as, p, hrun, hsent, hall 0 4 _ (by rw [hsent]; exact List.mem_singleton_self _)⟩

end Program

end Dnser
