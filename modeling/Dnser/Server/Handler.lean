import Dnser.Cache.Store
import Dnser.Resolver.Response

/-!
# Answering queries

`process_query` and the replies it builds, and the UDP path around it. The resolver is
asynchronous; what it came back with, and what happened to the clock and to the cache while
it was away, is an argument (`Awaited`).
-/

namespace Dnser

open Abort

/-- `MAX_UDP_PAYLOAD`. -/
def maxUdpPayload : Nat := 512

/-- `SERVER_UDP_PAYLOAD`. -/
def serverUdpPayload : UInt16 := UInt16.ofNat maxUdpSize

/-- `query_udp_limit`. -/
def queryUdpLimit (query : Message) : Nat :=
  match query.opt.bind ResourceRecord.ednsUdpSize with
  | some advertised => min (max advertised.toNat maxUdpPayload) maxUdpSize
  | none => maxUdpPayload

/-- `add_edns_opt`. -/
def addEdnsOpt (response : Message) : Message :=
  let additional := response.additional.filter (fun rr => !rr.isOpt) ++
    [ResourceRecord.ednsOpt serverUdpPayload]
  { response with
    additional
    header := { response.header with arCount := UInt16.ofNat additional.length } }

/-! ## Local replies -/

/-- `build_servfail`. -/
def buildServfail (query : Message) : Message :=
  { header := Header.replyTo query.header Rcode.servFail.toU16
    questions := query.questions }

/-- `build_truncated`. -/
def buildTruncated (query : Message) : Message :=
  { header := Header.replyTo query.header Header.TC
    questions := query.questions }

/-- `build_badvers`. -/
def buildBadvers (query : Message) : Message :=
  { header := { Header.replyTo query.header 0 with arCount := 1 }
    questions := query.questions
    additional := [(ResourceRecord.ednsOpt serverUdpPayload).setEdnsExtendedRcode 1] }

/-! ## `process_query` -/

/-- What a query finds when the resolver is done with it. -/
structure Awaited where
  /-- When the reaper ran in the meantime. -/
  reaps : List Nat := []
  /-- What `resolve` returned. -/
  outcome : Except ResolveError Message
  /-- The time of the insertion. -/
  now : Nat
  /-- How the hash tables happen to be iterated. -/
  order : Fin numShards → ShardOrder

/-- The reply to a cache hit. -/
def cachedReply (query cached : Message) : Message :=
  let reply := { cached with
    header := { cached.header with
      id := query.header.id
      flags := (cached.header.flags &&& ~~~Header.RD) ||| (query.header.flags &&& Header.RD) } }
  if query.opt.isSome then addEdnsOpt reply else reply

/-- The reply the cache has to a query, if it has one. -/
def cacheHit (cache : Cache) (query : Message) (now : Nat) : Option Message :=
  match query.questions with
  | [question] => (cache.get question now).map (cachedReply query)
  | _ => none

/-- The first half of `process_query`: the reply it has without asking the resolver. -/
def localReply (cache : Cache) (query : Message) (now : Nat) : Option Message :=
  match query.opt with
  | some o =>
      if o.ednsVersion ≠ some 0 then some (buildBadvers query) else cacheHit cache query now
  | none => cacheHit cache query now

/-- The second half: what the resolver returned is stored and passed on. -/
def resolvedReply (cache : Cache) (query : Message) (w : Awaited) : Message × Cache :=
  let cache := w.reaps.foldl Cache.evictExpired cache
  match w.outcome with
  | .ok msg =>
      -- stored as it came, before its OPT record is replaced
      (if query.opt.isSome then addEdnsOpt msg else msg, cache.insert w.order msg w.now)
  | .error _ => (buildServfail query, cache)

/-- `process_query`. -/
def processQuery (cache : Cache) (query : Message) (now : Nat) (w : Awaited) : Message × Cache :=
  match localReply cache query now with
  | some reply => (reply, cache)
  | none => resolvedReply cache query w

/-! ## The UDP path -/

/-- `QueryError`. Sending is taken to succeed, so there is no I/O error. -/
inductive QueryError where
  | parse (e : ParseError)
  | write (e : WriteError)
  deriving DecidableEq

/-- The datagram `handle_query` sends for `query`, given the reply to it. -/
def udpDatagram (query response : Message) : Except (Abort QueryError) (List UInt8) := do
  let bytes ← liftAbort .write response.toBytes
  -- what is sent instead is not measured again
  if bytes.length > queryUdpLimit query then liftAbort .write (buildTruncated query).toBytes
  else .ok bytes

/-- `handle_query`: the datagram it sends, if it gets that far, and what becomes of the cache. -/
def handleQuery (cache : Cache) (data : List UInt8) (now : Nat) (w : Awaited) :
    Except (Abort QueryError) (List UInt8) × Cache :=
  match Message.parse data with
  | .error (.err e) => (.error (.err (.parse e)), cache)
  | .error .panic => (.error .panic, cache)
  | .ok query =>
      -- any message that parses is taken for a query, a response too
      let (response, cache) := processQuery cache query now w
      (udpDatagram query response, cache)

/-! ## Concurrent calls -/

/-- The calls of `process_query` that share a cache. -/
structure Calls where
  cache : Cache
  /-- The queries that are with the resolver. -/
  waiting : List Message := []
  /-- What was returned for which query, the latest first. -/
  replies : List (Message × Message) := []

/-- What happens among them. -/
inductive CallEvent where
  /-- A call is made, and returns at once if it can. -/
  | arrive (query : Message) (now : Nat)
  /-- The resolver is done with a query, and its call returns. -/
  | resolved (query : Message) (outcome : Except ResolveError Message)
      (order : Fin numShards → ShardOrder) (now : Nat)
  /-- The reaper runs. -/
  | evictExpired (now : Nat)

/-- The two halves of every call, in whatever order they get their turn. -/
def Calls.step (s : Calls) : CallEvent → Calls
  | .arrive query now =>
      match localReply s.cache query now with
      | some reply => { s with replies := (query, reply) :: s.replies }
      | none => { s with waiting := query :: s.waiting }
  | .resolved query outcome order now =>
      if query ∈ s.waiting then
        let (reply, cache) := resolvedReply s.cache query { outcome, now, order }
        { cache, waiting := s.waiting.erase query, replies := (query, reply) :: s.replies }
      else s
  | .evictExpired now => { s with cache := s.cache.evictExpired now }

/-- A run of them. -/
def Calls.run (s : Calls) (events : List CallEvent) : Calls := events.foldl Calls.step s

/-! ## Runs -/

/-- What happens to a server's cache: a query is processed, or the reaper runs. -/
inductive Event where
  | query (query : Message) (now : Nat) (w : Awaited)
  | evictExpired (now : Nat)

/-- The cache after an event. -/
def serverStep (cache : Cache) : Event → Cache
  | .query query now w => (processQuery cache query now w).2
  | .evictExpired now => cache.evictExpired now

/-- The cache after a sequence of events. -/
def serverRun (cache : Cache) (events : List Event) : Cache := events.foldl serverStep cache

/-- What `resolve` may return for a query: a response that was accepted for it, off a buffer no
longer than a frame can carry. -/
def Validated (query msg : Message) : Prop :=
  ∃ bytes, bytes.length ≤ 65535 ∧ parseValidatedResponse bytes query query.header.id = .ok msg

/-- Queries come off the wire, and what the resolver returns for them is validated. -/
def CallEvent.Valid : CallEvent → Prop
  | .arrive query _ => ∃ bytes, Message.parse bytes = .ok query
  | .resolved query outcome _ _ => ∀ msg, outcome = .ok msg → Validated query msg
  | .evictExpired _ => True

/-- Queries come off the wire, and responses are validated. -/
def Event.Valid : Event → Prop
  | .query q _ w =>
      (∃ bytes, Message.parse bytes = .ok q) ∧ ∀ msg, w.outcome = .ok msg → Validated q msg
  | .evictExpired _ => True

end Dnser
