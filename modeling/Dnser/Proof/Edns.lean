import Dnser.Proof.Replies

/-!
# EDNS between clients

`process_query` strips an upstream's OPT record only on the way to a client that sent one
itself, and stores the response before it does. So an OPT record that was asked for by one
client is served to the next, who may not know what it is. The leak is exactly there: as long
as no response with an OPT record is stored, none reaches a client that did not ask.

The other way round, a client that sent an OPT record is owed one, and three of the four ways
out of `process_query` provide it. The reply to a failed resolution does not.
-/

namespace Dnser

open Utf8 (Str)
open Abort

/-- The message has an OPT record, in whatever section. -/
def Message.hasOpt (m : Message) : Bool := m.records.any ResourceRecord.isOpt

/-- An upstream sends an OPT record only to a query that has one. -/
def Event.Honest : Event → Prop
  | .query q _ w => ∀ msg, w.outcome = .ok msg → msg.hasOpt → q.hasOpt
  | .evictExpired _ => True

/-- No response with an OPT record is admitted to the cache. -/
def Event.StoresNoOpt (cap : UInt32) : Event → Prop
  | .query _ _ w => ∀ msg, w.outcome = .ok msg → Cache.admits cap msg ≠ none → msg.hasOpt = false
  | .evictExpired _ => True

/-- Ageing a section does not turn its records into OPT records, or back. -/
theorem any_isOpt_of_sameRecords {rrs rrs' : List ResourceRecord} (h : SameRecords rrs rrs') :
    rrs'.any ResourceRecord.isOpt = rrs.any ResourceRecord.isOpt := by
  induction h with
  | nil => rfl
  | cons hrr _ ih =>
      obtain ⟨-, -, hrd⟩ := hrr
      rw [List.any_cons, List.any_cons, ih, ResourceRecord.isOpt, ResourceRecord.isOpt, hrd]

theorem Served.hasOpt {stored cached : Message} (h : Served stored cached) :
    cached.hasOpt = stored.hasOpt := by
  simp only [Message.hasOpt, Message.records, List.any_append,
    any_isOpt_of_sameRecords h.answers, any_isOpt_of_sameRecords h.authority,
    any_isOpt_of_sameRecords h.additional]

/-- `Message::opt` looks in the additional section only. -/
theorem Message.opt_eq_none {m : Message} (h : m.hasOpt = false) : m.opt = none := by
  rw [Message.hasOpt, Message.records, List.any_append, Bool.or_eq_false_iff] at h
  rw [Message.opt, List.find?_eq_none]
  intro rr hrr
  simpa using List.any_eq_false.mp h.2 rr hrr

/-- Nothing in the cache has an OPT record. -/
structure OptFree (cap : UInt32) (c : Cache) : Prop where
  placed : c.Placed
  maxNegativeTtl : c.maxNegativeTtl = cap
  optFree : ∀ k e, c.lookup k = some e → e.response.hasOpt = false

theorem optFree_new (hashing : Hashing) (capacity : UInt64) (cap : UInt32) :
    OptFree cap (Cache.new hashing capacity cap) := by
  refine ⟨Cache.placed_new _ _ _, rfl, fun k e he => ?_⟩
  rw [Cache.lookup_new] at he
  cases he

theorem OptFree.evictExpired {cap : UInt32} {c : Cache} (h : OptFree cap c) (now : Nat) :
    OptFree cap (c.evictExpired now) :=
  ⟨h.placed.evictExpired now, (Cache.sameConfig_evictExpired c now).2.1.trans h.maxNegativeTtl,
    fun k e he =>
      h.optFree k e ((Cache.lookup_evictExpired_eq_some_iff h.placed now k e).mp he).1⟩

theorem OptFree.reaps {cap : UInt32} {c : Cache} (h : OptFree cap c) (reaps : List Nat) :
    OptFree cap (reaps.foldl Cache.evictExpired c) :=
  List.foldlRecOn reaps _ h fun _ hc t _ => hc.evictExpired t

/-- One event keeps the cache free of OPT records, if it stores none. -/
theorem OptFree.step {cap : UInt32} {c : Cache} {ev : Event} (h : OptFree cap c)
    (hev : ev.StoresNoOpt cap) : OptFree cap (serverStep c ev) := by
  cases ev with
  | evictExpired now => exact h.evictExpired now
  | query query now w =>
      have hreaped := h.reaps w.reaps
      show OptFree cap (processQuery c query now w).2
      rcases processQuery_cases c query now w with
        ⟨-, hrun⟩ | ⟨reply, -, hrun⟩ | ⟨msg, hout, hrun⟩ | ⟨e, -, hrun⟩
      · rw [hrun]
        exact h
      · rw [hrun]
        exact h
      · rw [hrun]
        refine ⟨hreaped.placed.insert _ _ _,
          (Cache.sameConfig_insert _ _ _ _).2.1.trans hreaped.maxNegativeTtl, fun k e he => ?_⟩
        rcases Cache.lookup_insert_cases hreaped.placed he with he | ⟨q, ttl, hadm, -, rfl⟩
        · exact hreaped.optFree k e he
        · rw [hreaped.maxNegativeTtl] at hadm
          exact hev msg hout (by rw [hadm]; simp)
      · rw [hrun]
        exact hreaped

theorem OptFree.run {cap : UInt32} {c : Cache} {events : List Event} (h : OptFree cap c)
    (hev : ∀ ev ∈ events, ev.StoresNoOpt cap) : OptFree cap (serverRun c events) := by
  induction events generalizing c with
  | nil => exact h
  | cons ev events ih =>
      exact ih (h.step (hev ev List.mem_cons_self)) fun ev' hev' =>
        hev ev' (List.mem_cons_of_mem _ hev')

/--
**EDNS stays between a client and its upstream as long as no OPT record is stored.** In every
run of honest upstreams in which no response with an OPT record is admitted to the cache, a
query without an OPT record gets a reply without one.
-/
theorem edns_isolated (hashing : Hashing) (capacity : UInt64) (cap : UInt32)
    (events : List Event) (hstores : ∀ ev ∈ events, ev.StoresNoOpt cap) (query : Message)
    (now : Nat) (w : Awaited) (hhonest : (Event.query query now w).Honest)
    (hplain : query.hasOpt = false) :
    (processQuery (serverRun (Cache.new hashing capacity cap) events) query now w).1.hasOpt =
      false := by
  have hinv := (optFree_new hashing capacity cap).run hstores
  have hopt := Message.opt_eq_none hplain
  rcases processQuery_cases (serverRun (Cache.new hashing capacity cap) events) query now w with
    ⟨⟨o, ho, -⟩, -⟩ | ⟨reply, hhit, hrun⟩ | ⟨msg, hout, hrun⟩ | ⟨e, -, hrun⟩
  · rw [hopt] at ho
    cases ho
  · -- a hit is passed on with the OPT records it was stored with: none
    rw [hrun]
    unfold cacheHit at hhit
    split at hhit
    · obtain ⟨cached, hget, rfl⟩ := Option.map_eq_some_iff.mp hhit
      obtain ⟨e, he, hserved⟩ := served_of_get hinv.placed hget
      have hsame : (cachedReply query cached).hasOpt = cached.hasOpt := by
        simp [cachedReply, hopt, Message.hasOpt, Message.records]
      rw [hsame, hserved.hasOpt]
      exact hinv.optFree _ e he
    · cases hhit
  · rw [hrun]
    have hnone : msg.hasOpt = false := by
      rw [← Bool.not_eq_true]
      intro hhas
      have := hhonest msg hout hhas
      rw [hplain] at this
      cases this
    simpa [hopt] using hnone
  · rw [hrun]
    rfl

/-- The plain run of two queries for the root. -/
theorem edns_isolated_plain :
    (processQuery (serverRun (Cache.new Cache.plainHashing 10 300)
      [.query (queryFor Str.empty) 0 rootAwaited]) (queryFor Str.empty) 2 rootAwaited).1.hasOpt =
        false := by
  refine edns_isolated Cache.plainHashing 10 300 _ ?_ _ 2 rootAwaited ?_ rfl
  · intro ev hev
    rw [List.mem_singleton.mp hev]
    intro msg hmsg _
    cases hmsg
    rfl
  · intro msg hmsg hsome
    cases hmsg
    cases hsome

/-! ## The leak -/

/-- A query for the root with an OPT record. -/
def ednsQuery : Message :=
  { header := { id := 7, qdCount := 1, arCount := 1 }
    questions := [{ name := Str.empty, qtype := .a, qclass := Class.IN }]
    additional := [ResourceRecord.ednsOpt 1232] }

/-- An upstream's answer to it, with an OPT record of its own. -/
def ednsAnswer : Message :=
  { Cache.answerFor Str.empty 60 with
    header := { id := 7, flags := Header.QR, qdCount := 1, anCount := 1, arCount := 1 }
    additional := [ResourceRecord.ednsOpt 1232] }

/-- The resolver comes back with that answer. -/
def ednsAwaited : Awaited := { outcome := .ok ednsAnswer, now := 1, order := fun _ => .asStored }

/-- The bytes of the OPT record. -/
def optBytes : List UInt8 := [0, 0, 41, 0x04, 0xD0, 0, 0, 0, 0, 0, 0]

theorem ednsEvent_valid : (Event.query ednsQuery 0 ednsAwaited).Valid := by
  refine ⟨⟨[0, 7, 0, 0, 0, 1, 0, 0, 0, 0, 0, 1, 0, 0, 1, 0, 1] ++ optBytes, by decide +kernel⟩, ?_⟩
  intro msg hmsg
  cases hmsg
  refine ⟨[0, 7, 0x80, 0, 0, 1, 0, 1, 0, 0, 0, 1, 0, 0, 1, 0, 1,
    0, 0, 1, 0, 1, 0, 0, 0, 60, 0, 4, 127, 0, 0, 1] ++ optBytes, by decide,
    by decide +kernel⟩

/-- A client that sent no OPT record gets the one another client's query brought in. -/
theorem edns_leak :
    (Event.query ednsQuery 0 ednsAwaited).Valid ∧ (Event.query ednsQuery 0 ednsAwaited).Honest ∧
      (Event.query (queryFor Str.empty) 2 rootAwaited).Valid ∧
      (Event.query (queryFor Str.empty) 2 rootAwaited).Honest ∧
      (queryFor Str.empty).hasOpt = false ∧
      (processQuery (serverRun (Cache.new Cache.plainHashing 10 300)
        [.query ednsQuery 0 ednsAwaited]) (queryFor Str.empty) 2 rootAwaited).1.hasOpt = true := by
  refine ⟨ednsEvent_valid, fun _ _ _ => rfl, rootEvent_valid, ?_, rfl, by decide +kernel⟩
  intro msg hmsg hsome
  cases hmsg
  cases hsome

/-! ## Replies to queries with EDNS -/

/-- One OPT record in the additional section: our payload size, version 0, no options. -/
def EdnsReply (reply : Message) : Prop :=
  ∃ o, reply.additional.filter ResourceRecord.isOpt = [o] ∧ o.cls.value = 4096 ∧
    o.ednsVersion = some 0 ∧ o.rdata = .opt []

/-- Whatever OPT records there were, our own is left. -/
theorem ednsReply_addEdnsOpt (response : Message) : EdnsReply (addEdnsOpt response) := by
  have hgone : (response.additional.filter fun rr => !rr.isOpt).filter ResourceRecord.isOpt = [] := by
    rw [List.filter_eq_nil_iff]
    intro rr hrr
    simpa using (List.mem_filter.mp hrr).2
  refine ⟨ResourceRecord.ednsOpt serverUdpPayload, ?_, rfl, rfl, rfl⟩
  rw [addEdnsOpt, List.filter_append, hgone]
  rfl

/-- The extended code goes into another byte than the version. -/
theorem ednsReply_buildBadvers (query : Message) : EdnsReply (buildBadvers query) :=
  ⟨(ResourceRecord.ednsOpt serverUdpPayload).setEdnsExtendedRcode 1, rfl, rfl, by decide, rfl⟩

theorem not_ednsReply_buildServfail (query : Message) : ¬ EdnsReply (buildServfail query) := by
  intro hparts
  obtain ⟨o, ho, -⟩ := hparts
  cases ho

/-- The first half of a call answers when the version is not ours, or on a hit. -/
theorem isSome_localReply_iff (c : Cache) (query : Message) (now : Nat) :
    (localReply c query now).isSome ↔ BadVersion query ∨
      ∃ question, query.questions = [question] ∧ (c.get question now).isSome := by
  have hhit : (cacheHit c query now).isSome ↔
      ∃ question, query.questions = [question] ∧ (c.get question now).isSome := by
    unfold cacheHit
    split
    · rename_i question hq
      rw [Option.isSome_map]
      exact ⟨fun h => ⟨question, hq, h⟩, fun ⟨q, hq', h⟩ => by
        rw [hq] at hq'
        rwa [List.singleton_inj.mp hq']⟩
    · rename_i hne
      exact ⟨fun h => (nomatch h), fun ⟨q, hq, _⟩ => absurd hq (hne q)⟩
  rw [← hhit]
  unfold localReply BadVersion
  cases ho : query.opt with
  | none => simp
  | some o =>
      dsimp only
      by_cases hv : o.ednsVersion = some 0
      · simp [hv]
      · simp [hv]

theorem ednsReply_of_localReply {c : Cache} {query reply : Message} {now : Nat}
    (hopt : query.opt.isSome) (h : localReply c query now = some reply) : EdnsReply reply := by
  rcases localReply_cases c query now with ⟨-, hl⟩ | hl
  · rw [hl] at h
    cases h
    exact ednsReply_buildBadvers query
  · rw [hl] at h
    unfold cacheHit at h
    split at h
    · obtain ⟨cached, -, rfl⟩ := Option.map_eq_some_iff.mp h
      unfold cachedReply
      dsimp only
      rw [if_pos hopt]
      exact ednsReply_addEdnsOpt _
    · cases h

/--
**A query with EDNS gets a reply with EDNS unless the resolver fails it.** Whatever is in the
cache and whatever the resolver returns, the reply to a query with an OPT record has exactly
one, with our payload size, version 0 and no options, if and only if the version was not ours,
or the cache had the reply, or the resolver had.
-/
theorem edns_reply_iff (c : Cache) (query : Message) (now : Nat) (w : Awaited)
    (hopt : query.opt.isSome) :
    EdnsReply (processQuery c query now w).1 ↔ BadVersion query ∨
      (∃ question, query.questions = [question] ∧ (c.get question now).isSome) ∨
      ∃ msg, w.outcome = .ok msg := by
  rw [← or_assoc, ← isSome_localReply_iff]
  unfold processQuery
  cases hl : localReply c query now with
  | some reply =>
      have hedns := ednsReply_of_localReply hopt hl
      simpa using hedns
  | none =>
      unfold resolvedReply
      cases w.outcome with
      | ok msg =>
          have hedns := ednsReply_addEdnsOpt msg
          simpa [hopt] using hedns
      | error e =>
          -- the local failure reply has no records at all
          have hnone := not_ednsReply_buildServfail query
          simpa using hnone

theorem ednsQuery_edns_reply :
    EdnsReply (processQuery (Cache.new Cache.plainHashing 10 300) ednsQuery 0 ednsAwaited).1 :=
  (edns_reply_iff _ ednsQuery 0 ednsAwaited rfl).mpr (.inr (.inr ⟨ednsAnswer, rfl⟩))

/-- The resolver fails, and the client that offered EDNS is answered without it. -/
theorem ednsQuery_plain_reply :
    ednsQuery.opt.isSome ∧ ¬ EdnsReply (processQuery (Cache.new Cache.plainHashing 10 300) ednsQuery 0
      { ednsAwaited with outcome := .error .allFailed }).1 :=
  ⟨rfl, not_ednsReply_buildServfail ednsQuery⟩

end Dnser
