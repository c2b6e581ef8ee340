import Dnser.Proof.CacheRefines
import Dnser.Proof.Forward
import Dnser.Server.Handler

/-!
# Replies and where they come from

A reply is built locally, taken from the cache, or passed on from upstream. The second kind
is the delicate one: it answers one client with what another client's query brought in. The
invariant is `Sourced`: **whatever is in the cache was accepted, in this run, as the response
to a query with the very question it is filed under**. Validation establishes it, insertion
keeps it because the key is made from the response's own question, and everything a hit
promises follows from it.
-/

namespace Dnser

open Utf8 (Str)
open Abort

/-! ## What `process_query` can do -/

/-- The version of EDNS the query asks for is not ours. -/
def BadVersion (query : Message) : Prop :=
  ∃ o, query.opt = some o ∧ o.ednsVersion ≠ some 0

theorem localReply_cases (c : Cache) (query : Message) (now : Nat) :
    (BadVersion query ∧ localReply c query now = some (buildBadvers query)) ∨
      localReply c query now = cacheHit c query now := by
  unfold localReply
  cases ho : query.opt with
  | none => exact .inr rfl
  | some o =>
      by_cases hv : o.ednsVersion = some 0
      · exact .inr (if_neg (not_not.mpr hv))
      · exact .inl ⟨⟨o, ho, hv⟩, if_pos hv⟩

theorem localReply_of_bad {query : Message} (h : BadVersion query) (c : Cache) (now : Nat) :
    localReply c query now = some (buildBadvers query) := by
  obtain ⟨o, ho, hv⟩ := h
  rw [localReply, ho]
  exact if_pos hv

theorem localReply_of_good {query : Message} (h : ¬ BadVersion query) (c : Cache) (now : Nat) :
    localReply c query now = cacheHit c query now := by
  rcases localReply_cases c query now with ⟨hbad, -⟩ | hl
  · exact absurd hbad h
  · exact hl

/-- The four ways through `process_query`. -/
theorem processQuery_cases (c : Cache) (query : Message) (now : Nat) (w : Awaited) :
    (BadVersion query ∧ processQuery c query now w = (buildBadvers query, c)) ∨
    (∃ reply, cacheHit c query now = some reply ∧ processQuery c query now w = (reply, c)) ∨
    (∃ msg, w.outcome = .ok msg ∧ processQuery c query now w =
      (if query.opt.isSome then addEdnsOpt msg else msg,
        (w.reaps.foldl Cache.evictExpired c).insert w.order msg w.now)) ∨
    (∃ e, w.outcome = .error e ∧
      processQuery c query now w = (buildServfail query, w.reaps.foldl Cache.evictExpired c)) := by
  unfold processQuery
  rcases localReply_cases c query now with ⟨hbad, hl⟩ | hl
  · rw [hl]
    exact .inl ⟨hbad, rfl⟩
  · rw [hl]
    cases cacheHit c query now with
    | some reply => exact .inr (.inl ⟨reply, rfl, rfl⟩)
    | none =>
        unfold resolvedReply
        cases hout : w.outcome with
        | ok msg => exact .inr (.inr (.inl ⟨msg, rfl, rfl⟩))
        | error e => exact .inr (.inr (.inr ⟨e, rfl, rfl⟩))

/-! ## Upstream responses -/

/-- What validation guarantees of a response. -/
structure Upstream (query msg : Message) : Prop where
  id : msg.header.id = query.header.id
  response : msg.header.isResponse = true
  questions : msg.questions = query.questions
  fits : msg.Fits ReadableName
  /-- There is room for one more record in the additional section's count. -/
  additional : 12 + 11 * msg.additional.length ≤ 65535

theorem Validated.upstream {query msg : Message} (h : Validated query msg) : Upstream query msg := by
  obtain ⟨bytes, hlen, hp⟩ := h
  obtain ⟨wire, hwire, hqr, hquestions, rfl⟩ := parseValidatedResponse_eq_ok_iff.mp hp
  obtain ⟨hfits, hadd⟩ := fits_of_parse hwire
  exact ⟨rfl, hqr, hquestions, ⟨hfits.qdCount, hfits.anCount, hfits.nsCount, hfits.arCount,
    hfits.reserved, hfits.classes, hfits.sizes, hfits.names⟩, Nat.le_trans hadd hlen⟩

/-! ## Replies -/

/-- What every reply owes its query: the id, the response bit, and honest counts. -/
structure Replies (query reply : Message) : Prop where
  id : reply.header.id = query.header.id
  response : reply.header.isResponse = true
  qdCount : reply.header.qdCount.toNat = reply.questions.length
  anCount : reply.header.anCount.toNat = reply.answers.length
  nsCount : reply.header.nsCount.toNat = reply.authority.length
  arCount : reply.header.arCount.toNat = reply.additional.length

theorem or_and_distrib (a b mask : UInt16) : (a ||| b) &&& mask = (a &&& mask) ||| (b &&& mask) := by
  apply UInt16.toNat_inj.mp
  simp only [UInt16.toNat_and, UInt16.toNat_or]
  exact Nat.and_or_distrib_right ..

theorem isResponse_replyTo (h : Header) (extra : UInt16) :
    (Header.replyTo h extra).isResponse = true := by
  have hqr : Header.QR ≠ 0 := by decide
  simp [Header.isResponse, Header.replyTo, or_and_distrib, hqr]

theorem replies_servfail {query : Message} (h : query.Fits ReadableName) :
    Replies query (buildServfail query) :=
  ⟨rfl, isResponse_replyTo _ _, h.qdCount, rfl, rfl, rfl⟩

theorem replies_badvers {query : Message} (h : query.Fits ReadableName) :
    Replies query (buildBadvers query) :=
  ⟨rfl, isResponse_replyTo _ _, h.qdCount, rfl, rfl, rfl⟩

/-- Our own OPT record is counted, as long as the section was not full. -/
theorem Replies.addEdnsOpt {query reply : Message} (h : Replies query reply)
    (hadd : reply.additional.length < 65535) : Replies query (addEdnsOpt reply) := by
  refine ⟨h.id, h.response, h.qdCount, h.anCount, h.nsCount, ?_⟩
  have hle := List.length_filter_le (fun rr => !rr.isOpt) reply.additional
  simp only [Dnser.addEdnsOpt, List.length_append, List.length_singleton]
  rw [toNat_ofNat_of_le (by omega)]

theorem Upstream.replies {query msg : Message} (h : Upstream query msg) : Replies query msg :=
  ⟨h.id, h.response, h.fits.qdCount, h.fits.anCount, h.fits.nsCount, h.fits.arCount⟩

/-! ## Cache hits -/

/-- Records that differ in their TTLs only. -/
def SameRecords (rrs rrs' : List ResourceRecord) : Prop :=
  List.Forall₂ (fun rr rr' => rr'.name = rr.name ∧ rr'.cls = rr.cls ∧ rr'.rdata = rr.rdata) rrs rrs'

theorem sameRecords_rewriteTtls (rrs : List ResourceRecord) (elapsed : UInt32) :
    SameRecords rrs (Cache.rewriteTtls rrs elapsed) :=
  (Cache.recordAged_rewriteTtls rrs elapsed).imp fun _ _ h => ⟨h.name, h.cls, h.rdata⟩

/-- What a hit is, in terms of what was stored. -/
structure Served (stored cached : Message) : Prop where
  header : cached.header = stored.header
  questions : cached.questions = stored.questions
  answers : SameRecords stored.answers cached.answers
  authority : SameRecords stored.authority cached.authority
  additional : SameRecords stored.additional cached.additional

/-- A hit returns the entry filed under the question's key. -/
theorem served_of_get {c : Cache} (h : c.Placed) {q : Question} {now : Nat} {cached : Message}
    (hget : c.get q now = some cached) :
    ∃ e, c.lookup (CacheKey.fromQuestion q) = some e ∧ Served e.response cached := by
  obtain ⟨e, hprobe, -, rfl⟩ := Cache.get_eq_some_iff.mp hget
  exact ⟨e, Cache.lookup_of_probe h hprobe, rfl, rfl, sameRecords_rewriteTtls _ _,
    sameRecords_rewriteTtls _ _, sameRecords_rewriteTtls _ _⟩

/-- The header of a hit: the client's id and RD bit, the rest as stored. -/
theorem header_cachedReply (query cached : Message) :
    (cachedReply query cached).header.id = query.header.id ∧
      (cachedReply query cached).header.flags =
        (cached.header.flags &&& ~~~Header.RD) ||| (query.header.flags &&& Header.RD) := by
  unfold cachedReply
  dsimp only
  split <;> exact ⟨rfl, rfl⟩

theorem sections_cachedReply (query cached : Message) :
    (cachedReply query cached).questions = cached.questions ∧
      (cachedReply query cached).answers = cached.answers ∧
      (cachedReply query cached).authority = cached.authority := by
  unfold cachedReply
  dsimp only
  split <;> exact ⟨rfl, rfl, rfl⟩

/-- The RD bit is the client's; every other flag is the stored one. -/
theorem flags_swapRd (a b : UInt16) :
    ((a &&& ~~~Header.RD) ||| (b &&& Header.RD)) &&& ~~~Header.RD = a &&& ~~~Header.RD := by
  have hne : (b &&& Header.RD) &&& ~~~Header.RD = 0 := by
    rw [UInt16.and_assoc]
    have : Header.RD &&& ~~~Header.RD = 0 := by decide
    rw [this, UInt16.and_zero]
  rw [or_and_distrib, hne, UInt16.or_zero, UInt16.and_assoc, UInt16.and_self]

theorem flags_cachedReply (query cached : Message) :
    (cachedReply query cached).header.flags &&& ~~~Header.RD =
      cached.header.flags &&& ~~~Header.RD := by
  rw [(header_cachedReply query cached).2, flags_swapRd]

/-- A mask without the RD bit reads the same flags off a hit as off what was stored. -/
theorem and_cachedReply {mask : UInt16} (hmask : ~~~Header.RD &&& mask = mask)
    (query cached : Message) :
    (cachedReply query cached).header.flags &&& mask = cached.header.flags &&& mask := by
  have h := congrArg (· &&& mask) (flags_cachedReply query cached)
  simp only [UInt16.and_assoc, hmask] at h
  exact h

theorem rcode_cachedReply (query cached : Message) :
    (cachedReply query cached).header.rcode = cached.header.rcode := by
  unfold Header.rcode
  rw [and_cachedReply (by decide)]

theorem replies_cachedReply {query source stored cached : Message} (hup : Upstream source stored)
    (hserved : Served stored cached) : Replies query (cachedReply query cached) := by
  have hlen : cached.additional.length = stored.additional.length := hserved.additional.length_eq.symm
  have hplain : ∀ flags, flags &&& Header.QR ≠ 0 →
      Replies query { cached with header := { cached.header with id := query.header.id, flags } } := by
    intro flags hqr
    refine ⟨rfl, by simpa [Header.isResponse] using hqr, ?_, ?_, ?_, ?_⟩
    · simp only [hserved.header, hserved.questions, hup.fits.qdCount]
    · simp only [hserved.header, hup.fits.anCount, hserved.answers.length_eq]
    · simp only [hserved.header, hup.fits.nsCount, hserved.authority.length_eq]
    · simp only [hserved.header, hup.fits.arCount, hlen]
  have hqr : (cachedReply query cached).header.flags &&& Header.QR ≠ 0 := by
    rw [and_cachedReply (by decide), hserved.header]
    simpa [Header.isResponse] using hup.response
  rw [(header_cachedReply query cached).2] at hqr
  unfold cachedReply
  dsimp only
  split
  · refine (hplain _ hqr).addEdnsOpt ?_
    have := hup.additional
    dsimp only
    omega
  · exact hplain _ hqr

/-! ## The invariant -/

/-- The response was accepted, in this run, for a query with the question it is filed under. -/
def Sourced (events : List Event) (k : CacheKey) (response : Message) : Prop :=
  ∃ query now w question, Event.query query now w ∈ events ∧ w.outcome = .ok response ∧
    query.questions = [question] ∧ CacheKey.fromQuestion question = k

/-- The cache holds sourced responses only. -/
structure ServerInv (events : List Event) (c : Cache) : Prop where
  placed : c.Placed
  sourced : ∀ k e, c.lookup k = some e → Sourced events k e.response

theorem serverInv_new (hashing : Hashing) (capacity : UInt64) (cap : UInt32) :
    ServerInv [] (Cache.new hashing capacity cap) := by
  refine ⟨Cache.placed_new _ _ _, fun k e he => ?_⟩
  rw [Cache.lookup_new] at he
  cases he

theorem Sourced.mono {events events' : List Event} {k : CacheKey} {r : Message}
    (h : Sourced events k r) (hsub : events ⊆ events') : Sourced events' k r := by
  obtain ⟨query, now, w, question, hmem, hrest⟩ := h
  exact ⟨query, now, w, question, hsub hmem, hrest⟩

theorem ServerInv.mono {events events' : List Event} {c : Cache} (h : ServerInv events c)
    (hsub : events ⊆ events') : ServerInv events' c :=
  ⟨h.placed, fun k e he => (h.sourced k e he).mono hsub⟩

theorem ServerInv.evictExpired {events : List Event} {c : Cache} (h : ServerInv events c)
    (now : Nat) : ServerInv events (c.evictExpired now) :=
  ⟨h.placed.evictExpired now, fun k e he =>
    h.sourced k e ((Cache.lookup_evictExpired_eq_some_iff h.placed now k e).mp he).1⟩

theorem ServerInv.reaps {events : List Event} {c : Cache} (h : ServerInv events c)
    (reaps : List Nat) : ServerInv events (reaps.foldl Cache.evictExpired c) :=
  List.foldlRecOn reaps _ h fun _ hc t _ => hc.evictExpired t

/-- One event keeps the invariant. -/
theorem ServerInv.step {events : List Event} {c : Cache} {ev : Event} (h : ServerInv events c)
    (hvalid : ev.Valid) : ServerInv (events ++ [ev]) (serverStep c ev) := by
  have hsub : events ⊆ events ++ [ev] := List.subset_append_left _ _
  cases ev with
  | evictExpired now => exact (h.evictExpired now).mono hsub
  | query query now w =>
      have hreaped := (h.reaps w.reaps).mono hsub
      show ServerInv _ (processQuery c query now w).2
      rcases processQuery_cases c query now w with
        ⟨-, hrun⟩ | ⟨reply, -, hrun⟩ | ⟨msg, hout, hrun⟩ | ⟨e, -, hrun⟩
      · rw [hrun]
        exact h.mono hsub
      · rw [hrun]
        exact h.mono hsub
      · rw [hrun]
        refine ⟨hreaped.placed.insert _ _ _, fun k e he => ?_⟩
        rcases Cache.lookup_insert_cases hreaped.placed he with he | ⟨q, ttl, hadm, rfl, rfl⟩
        · exact hreaped.sourced k e he
        · -- the key is made from the response's question, which is the query's
          have hq := (hvalid.2 msg hout).upstream.questions
          rw [Cache.questions_of_admits hadm] at hq
          exact ⟨query, now, w, q, by simp, hout, hq.symm, rfl⟩
      · rw [hrun]
        exact hreaped

/-- A whole run keeps it. -/
theorem ServerInv.run {done events : List Event} {c : Cache} (h : ServerInv done c)
    (hvalid : ∀ ev ∈ events, ev.Valid) : ServerInv (done ++ events) (serverRun c events) := by
  induction events generalizing done c with
  | nil => simpa [serverRun] using h
  | cons ev events ih =>
      have hstep := h.step (hvalid ev List.mem_cons_self)
      have := ih hstep fun ev' hev' => hvalid ev' (List.mem_cons_of_mem _ hev')
      rwa [List.append_assoc] at this

/-! ## Integrity and provenance -/

/-- A hit answers with a sourced response. -/
theorem cacheHit_sourced {events : List Event} {c : Cache} {query reply : Message} {now : Nat}
    (h : ServerInv events c) (hhit : cacheHit c query now = some reply) :
    ∃ question stored cached, query.questions = [question] ∧
      Sourced events (CacheKey.fromQuestion question) stored ∧ Served stored cached ∧
      reply = cachedReply query cached := by
  unfold cacheHit at hhit
  split at hhit
  · rename_i question hq
    obtain ⟨cached, hget, rfl⟩ := Option.map_eq_some_iff.mp hhit
    obtain ⟨e, he, hserved⟩ := served_of_get h.placed hget
    exact ⟨question, e.response, cached, hq, h.sourced _ _ he, hserved, rfl⟩
  · cases hhit

theorem Sourced.upstream {events : List Event} (hvalid : ∀ ev ∈ events, ev.Valid) {k : CacheKey}
    {stored : Message} (h : Sourced events k stored) : ∃ source, Upstream source stored := by
  obtain ⟨source, now, w, question, hmem, hout, -⟩ := h
  exact ⟨source, ((hvalid _ hmem).2 stored hout).upstream⟩

/-- **Every reply keeps what it owes its query.** -/
theorem replies_processQuery {events : List Event} {c : Cache} {query : Message} {now : Nat}
    {w : Awaited} (h : ServerInv events c) (hvalid : ∀ ev ∈ events, ev.Valid)
    (hcall : (Event.query query now w).Valid) : Replies query (processQuery c query now w).1 := by
  obtain ⟨⟨bytes, hbytes⟩, houtcome⟩ := hcall
  have hfits := (fits_of_parse hbytes).1
  rcases processQuery_cases c query now w with
    ⟨-, hrun⟩ | ⟨reply, hhit, hrun⟩ | ⟨msg, hout, hrun⟩ | ⟨e, -, hrun⟩
  · rw [hrun]
    exact replies_badvers hfits
  · rw [hrun]
    obtain ⟨question, stored, cached, -, hsrc, hserved, rfl⟩ := cacheHit_sourced h hhit
    obtain ⟨source, hup⟩ := hsrc.upstream hvalid
    exact replies_cachedReply hup hserved
  · rw [hrun]
    have hup := (houtcome msg hout).upstream
    dsimp only
    split
    · -- every record takes eleven bytes or more, so one more can be counted
      have := hup.additional
      exact hup.replies.addEdnsOpt (by omega)
    · exact hup.replies
  · rw [hrun]
    exact replies_servfail hfits

/--
**Reply integrity and provenance.** In every run: a reply has its query's id, the response
bit and counts that match its sections; and one that is served from the cache carries the
rcode, the flags and the records of a response that was validated, earlier in the run, against
a query with the same question up to the case of letters.
-/
theorem reply_integrity (hashing : Hashing) (capacity : UInt64) (cap : UInt32)
    (events : List Event) (hvalid : ∀ ev ∈ events, ev.Valid) (query : Message) (now : Nat)
    (w : Awaited) (hcall : (Event.query query now w).Valid) :
    let c := serverRun (Cache.new hashing capacity cap) events
    let reply := (processQuery c query now w).1
    reply.header.id = query.header.id ∧ reply.header.isResponse = true ∧
    reply.header.qdCount.toNat = reply.questions.length ∧
    reply.header.anCount.toNat = reply.answers.length ∧
    reply.header.nsCount.toNat = reply.authority.length ∧
    reply.header.arCount.toNat = reply.additional.length ∧
    (cacheHit c query now = some reply →
      ∃ query' now' w' upstream question question',
        Event.query query' now' w' ∈ events ∧ w'.outcome = .ok upstream ∧
        Validated query' upstream ∧
        query.questions = [question] ∧ query'.questions = [question'] ∧
        question'.qtype = question.qtype ∧ question'.qclass = question.qclass ∧
        question'.name.toAsciiLowercase = question.name.toAsciiLowercase ∧
        reply.header.rcode = upstream.header.rcode ∧
        reply.header.flags &&& ~~~Header.RD = upstream.header.flags &&& ~~~Header.RD ∧
        SameRecords upstream.answers reply.answers ∧
        SameRecords upstream.authority reply.authority) := by
  intro c reply
  have hinv : ServerInv events c := (serverInv_new hashing capacity cap).run hvalid
  have hrep := replies_processQuery hinv hvalid hcall
  refine ⟨hrep.id, hrep.response, hrep.qdCount, hrep.anCount, hrep.nsCount, hrep.arCount, ?_⟩
  intro hhit
  obtain ⟨question, stored, cached, hq, hsrc, hserved, hreply⟩ := cacheHit_sourced hinv hhit
  obtain ⟨query', now', w', question', hmem, hout, hq', hkey⟩ := hsrc
  obtain ⟨-, hans, hauth⟩ := sections_cachedReply query cached
  -- equal keys: the numbers are the same, the names up to case
  injection hkey with hname htype hclass
  refine ⟨query', now', w', stored, question, question', hmem, hout,
    (hvalid _ hmem).2 stored hout, hq, hq', RecordType.toU16_injective htype, ?_, hname, ?_, ?_, ?_, ?_⟩
  · exact Class.ext hclass
  · rw [hreply, rcode_cachedReply, hserved.header]
  · rw [hreply, flags_cachedReply, hserved.header]
  · rw [hreply, hans]
    exact hserved.answers
  · rw [hreply, hauth]
    exact hserved.authority

/-! ## A run of two queries -/

/-- An answer to the query for the root, as bytes. -/
def rootAnswer : List UInt8 :=
  [0, 7, 0x80, 0, 0, 1, 0, 1, 0, 0, 0, 0, 0, 0, 1, 0, 1,
    0, 0, 1, 0, 1, 0, 0, 0, 60, 0, 4, 127, 0, 0, 1]

/-- The resolver comes back with the answer. -/
def rootAwaited : Awaited :=
  { outcome := .ok (Cache.answerFor Str.empty 60), now := 1, order := fun _ => .asStored }

theorem rootEvent_valid : (Event.query (queryFor Str.empty) 0 rootAwaited).Valid := by
  refine ⟨⟨rootQuery, rfl⟩, ?_⟩
  intro msg hmsg
  cases hmsg
  exact ⟨rootAnswer, by decide, rfl⟩

/-- The same question asked again is answered from the cache, under the new id. -/
theorem reply_integrity_hit :
    (processQuery (serverRun (Cache.new Cache.plainHashing 10 300)
        [.query (queryFor Str.empty) 0 rootAwaited]) (queryFor Str.empty) 2 rootAwaited).1.header.id = 7 ∧
      cacheHit (serverRun (Cache.new Cache.plainHashing 10 300)
        [.query (queryFor Str.empty) 0 rootAwaited]) (queryFor Str.empty) 2 ≠ none := by
  refine ⟨(reply_integrity Cache.plainHashing 10 300 [.query (queryFor Str.empty) 0 rootAwaited] ?_
    (queryFor Str.empty) 2 rootAwaited rootEvent_valid).1, by decide +kernel⟩
  intro ev hev
  rw [List.mem_singleton.mp hev]
  exact rootEvent_valid

end Dnser
