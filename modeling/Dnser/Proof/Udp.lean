import Dnser.Proof.Replies
import Dnser.Proof.Size

/-!
# What goes back over UDP

Two promises of `handle_query` that it does not keep.

It is supposed to send no more than the client can take. A reply that is too long is replaced
by a truncated one, but the truncated one carries the whole question section and is sent
whatever its size. The promise is kept exactly when the questions themselves fit.

It is supposed to answer queries. It never looks at the QR bit, so it answers responses too,
its own included, and two servers can be made to answer each other for good. Every datagram
that is answered at all can start such a loop.
-/

namespace Dnser

open Utf8 (Str)
open Bytes Abort

/-! ## Replies without the cache and the resolver -/

/-- The replies that are made out of the query alone. -/
def IsLocal (query reply : Message) : Prop :=
  reply = buildServfail query ∨ reply = buildTruncated query ∨ reply = buildBadvers query

/-- A resolver that did not get an answer. -/
def failedResolver : Awaited :=
  { outcome := .error .timeout, now := 0, order := fun _ => .asStored }

/-- With nothing in the cache and no answer from upstream, the reply is a local one. -/
theorem isLocal_processQuery (hashing : Hashing) (capacity : UInt64) (cap : UInt32)
    (query : Message) :
    IsLocal query (processQuery (Cache.new hashing capacity cap) query 0 failedResolver).1 := by
  rcases processQuery_cases (Cache.new hashing capacity cap) query 0 failedResolver with
    ⟨-, hrun⟩ | ⟨reply, hhit, -⟩ | ⟨msg, hout, -⟩ | ⟨e, -, hrun⟩
  · rw [hrun]
    exact .inr (.inr rfl)
  · obtain ⟨-, -, -, -, ⟨_, _, _, _, hmem, -⟩, -⟩ :=
      cacheHit_sourced (serverInv_new hashing capacity cap) hhit
    cases hmem
  · cases hout
  · rw [hrun]
    exact .inl rfl

theorem flags_replyTo (h : Header) {extra : UInt16} (hextra : extra &&& Header.Z = 0) :
    (Header.replyTo h extra).flags &&& Header.Z = 0 := by
  have hqr : Header.QR &&& Header.Z = 0 := by decide
  have hrd : Header.RD &&& Header.Z = 0 := by decide
  simp [Header.replyTo, or_and_distrib, hqr, hextra, UInt16.and_assoc, hrd]

theorem transmissible_empty : Transmissible Str.empty := by
  unfold Transmissible
  exact ⟨by decide, by decide⟩

/-- A reply with the query's questions, and with nothing else that could be too long. -/
theorem fits_of_questions {query reply : Message} (h : query.Fits ReadableName)
    (hE : ∀ question ∈ query.questions, Encodable question.name)
    (hq : reply.questions = query.questions) (hqd : reply.header.qdCount = query.header.qdCount)
    (hz : reply.header.flags &&& Header.Z = 0)
    (han : reply.answers = [] ∧ reply.header.anCount = 0)
    (hns : reply.authority = [] ∧ reply.header.nsCount = 0)
    (har : reply.header.arCount.toNat = reply.additional.length)
    (hrr : ∀ rr ∈ reply.additional, rr.rdata.SizesOk ∧ ∀ n ∈ rr.names, Transmissible n) :
    reply.Fits Transmissible := by
  have hrecords : reply.records = reply.additional := by
    rw [Message.records, han.1, hns.1]
    rfl
  refine ⟨by rw [hqd, hq]; exact h.qdCount, by rw [han.1, han.2]; rfl, by rw [hns.1, hns.2]; rfl,
    har, hz, by rw [hq]; exact h.classes, fun rr hmem => (hrr rr (hrecords ▸ hmem)).1, ?_⟩
  refine Message.names_of_sections (fun question hmem => ?_)
    (fun rr hmem => (hrr rr (hrecords ▸ hmem)).2)
  rw [hq] at hmem
  have hread := h.names question.name (List.mem_append_left _ (List.mem_map_of_mem hmem))
  exact hread.transmissible (hE question hmem)

theorem IsLocal.fits {query reply : Message} (h : IsLocal query reply)
    (hfits : query.Fits ReadableName) (hE : ∀ question ∈ query.questions, Encodable question.name) :
    reply.Fits Transmissible := by
  rcases h with rfl | rfl | rfl
  · exact fits_of_questions hfits hE rfl rfl (flags_replyTo _ (by decide)) ⟨rfl, rfl⟩ ⟨rfl, rfl⟩ rfl
      (fun rr hrr => nomatch hrr)
  · exact fits_of_questions hfits hE rfl rfl (flags_replyTo _ (by decide)) ⟨rfl, rfl⟩ ⟨rfl, rfl⟩ rfl
      (fun rr hrr => nomatch hrr)
  · refine fits_of_questions hfits hE rfl rfl (flags_replyTo _ (by decide)) ⟨rfl, rfl⟩ ⟨rfl, rfl⟩
      rfl (fun rr hrr => ?_)
    obtain rfl : rr = (ResourceRecord.ednsOpt serverUdpPayload).setEdnsExtendedRcode 1 := by
      simpa [buildBadvers] using hrr
    refine ⟨by decide, fun n hn => ?_⟩
    obtain rfl : n = Str.empty := by
      simpa [ResourceRecord.names, ResourceRecord.setEdnsExtendedRcode, ResourceRecord.ednsOpt,
        ResourceRecord.isOpt, RData.names] using hn
    exact transmissible_empty

theorem IsLocal.questions {query reply : Message} (h : IsLocal query reply) :
    reply.questions = query.questions := by
  rcases h with rfl | rfl | rfl <;> rfl

theorem handleQuery_of_parse {c : Cache} {data : List UInt8} {query : Message} {now : Nat}
    {w : Awaited} (h : Message.parse data = .ok query) :
    (handleQuery c data now w).1 = udpDatagram query (processQuery c query now w).1 := by
  unfold handleQuery
  rw [h]

/-- Only a message is answered. -/
theorem parse_of_handleQuery {c : Cache} {data d : List UInt8} {now : Nat} {w : Awaited}
    (h : (handleQuery c data now w).1 = .ok d) : ∃ query, Message.parse data = .ok query := by
  cases hparse : Message.parse data with
  | error e => cases e <;> simp [handleQuery, hparse] at h
  | ok query => exact ⟨query, rfl⟩

theorem queryUdpLimit_le (query : Message) : queryUdpLimit query ≤ maxUdpSize := by
  unfold queryUdpLimit
  split
  · exact Nat.min_le_right _ _
  · decide

/-- The datagram is the reply, or the truncated one in its place. -/
theorem udpDatagram_cases {query reply : Message} {d : List UInt8}
    (h : udpDatagram query reply = .ok d) :
    ∃ b, reply.toBytes = .ok b ∧ ((b.length ≤ queryUdpLimit query ∧ d = b) ∨
      (queryUdpLimit query < b.length ∧ (buildTruncated query).toBytes = .ok d)) := by
  obtain ⟨b, hb, h⟩ := bind_eq_ok_iff.mp h
  refine ⟨b, liftAbort_eq_ok_iff.mp hb, ?_⟩
  split at h
  · exact .inr ⟨by assumption, liftAbort_eq_ok_iff.mp h⟩
  · cases h
    exact .inl ⟨by omega, rfl⟩

/-- **A query whose questions can be written is answered**, by a local reply if by nothing else. -/
theorem handleQuery_failed (hashing : Hashing) (capacity : UInt64) (cap : UInt32)
    {data : List UInt8} {query : Message} (h : Message.parse data = .ok query)
    (hE : ∀ question ∈ query.questions, Encodable question.name) :
    ∃ d reply, (handleQuery (Cache.new hashing capacity cap) data 0 failedResolver).1 = .ok d ∧
      IsLocal query reply ∧ reply.toBytes = .ok d := by
  have hfits := (fits_of_parse h).1
  have hlocal := isLocal_processQuery hashing capacity cap query
  obtain ⟨b, hb, -⟩ := parse_toBytes_of_fits (hlocal.fits hfits hE)
  have htrunc : IsLocal query (buildTruncated query) := .inr (.inl rfl)
  obtain ⟨bt, hbt, -⟩ := parse_toBytes_of_fits (htrunc.fits hfits hE)
  rw [handleQuery_of_parse h, udpDatagram, hb]
  by_cases hlen : b.length > queryUdpLimit query
  · exact ⟨bt, _, by simp [liftAbort, bind, Except.bind, hlen, hbt], htrunc, hbt⟩
  · exact ⟨b, _, by simp [liftAbort, bind, Except.bind, hlen], hlocal, hb⟩

/-! ## Size -/

/--
**Replies fit exactly when the questions do.** Everything sent back for a datagram stays within
the client's limit, whatever is cached and whatever upstream answers, if and only if the
questions, behind a header of twelve bytes, do; or cannot be written back at all.
-/
theorem udp_limit_iff (data : List UInt8) (query : Message)
    (h : Message.parse data = .ok query) :
    (∀ c now w d, (handleQuery c data now w).1 = .ok d → d.length ≤ queryUdpLimit query) ↔
      ((∀ question ∈ query.questions, Encodable question.name) →
        12 + questionsSize [] 12 query.questions ≤ queryUdpLimit query) := by
  constructor
  · -- without cache and upstream the reply is a local one, as long as the questions at least
    intro hall hE
    obtain ⟨d, reply, hd, hlocal, hb⟩ := handleQuery_failed Cache.plainHashing 1 0 h hE
    have hlen := (length_toBytes hb).1
    rw [hlocal.questions] at hlen
    exact Nat.le_trans hlen (hall _ _ _ d hd)
  · intro hfit c now w d hd
    rw [handleQuery_of_parse h] at hd
    obtain ⟨b, -, ⟨hle, rfl⟩ | ⟨-, ht⟩⟩ := udpDatagram_cases hd
    · exact hle
    · -- the truncated reply is the header and the questions
      have hE := (encodes_of_toBytes ht).1
      rw [(length_toBytes ht).2 rfl rfl rfl]
      exact hfit fun question hmem =>
        hE question.name (List.mem_append_left _ (List.mem_map_of_mem hmem))

/-- The question of a query for the root fits, and so does everything sent back for it. -/
theorem rootQuery_udp_limit : queryUdpLimit (queryFor Str.empty) = 512 ∧
    ∀ c now w d, (handleQuery c rootQuery now w).1 = .ok d →
      d.length ≤ queryUdpLimit (queryFor Str.empty) :=
  ⟨rfl, (udp_limit_iff rootQuery (queryFor Str.empty) rfl).mpr fun _ => by decide⟩

/-- A query with 101 questions for the addresses of the root, and no OPT record. -/
def crowdedQuery : Message :=
  { header := { id := 7, qdCount := 101 }
    questions := List.replicate 101 { name := Str.empty, qtype := .a, qclass := Class.IN } }

theorem crowdedQuery_names : ∀ n ∈ crowdedQuery.names, n = Str.empty := by
  refine Message.names_of_sections (fun q hq => ?_) (fun rr hrr => nomatch hrr)
  rw [(List.mem_replicate.mp hq).2]

theorem crowdedQuery_fits : crowdedQuery.Fits Transmissible := by
  refine ⟨rfl, rfl, rfl, rfl, by decide, fun q hq => ?_, (fun rr hrr => nomatch hrr),
    fun n hn => ?_⟩
  · rw [(List.mem_replicate.mp hq).2]
    rfl
  · rw [crowdedQuery_names n hn]
    exact transmissible_empty

/-- Its encoding, of 517 bytes, is answered with more than the 512 its sender can take. -/
theorem crowdedQuery_over_limit :
    ∃ data, crowdedQuery.toBytes = .ok data ∧ Message.parse data = .ok crowdedQuery ∧
      ∃ c now w d, (handleQuery c data now w).1 = .ok d ∧
        queryUdpLimit crowdedQuery < d.length := by
  obtain ⟨data, hdata, hparse⟩ := parse_toBytes_of_fits crowdedQuery_fits
  rw [Message.mapNames_eq_self fun n hn => by rw [crowdedQuery_names n hn]; rfl] at hparse
  refine ⟨data, hdata, hparse, Cache.new Cache.plainHashing 1 0, 0, failedResolver, ?_⟩
  obtain ⟨d, reply, hd, hlocal, hb⟩ := handleQuery_failed Cache.plainHashing 1 0 hparse
    fun question hq => (crowdedQuery_fits.names question.name
      (List.mem_append_left _ (List.mem_map_of_mem hq))).1
  have hlen := (length_toBytes hb).1
  rw [hlocal.questions] at hlen
  have hsize : queryUdpLimit crowdedQuery < 12 + questionsSize [] 12 crowdedQuery.questions := by
    decide +kernel
  exact ⟨d, hd, Nat.lt_of_lt_of_le hsize hlen⟩

/-! ## Answering answers -/

/-- A cache as a server may have it. -/
def ReachableCache (c : Cache) : Prop :=
  ∃ hashing capacity cap events, (∀ ev ∈ events, Event.Valid ev) ∧
    c = serverRun (Cache.new hashing capacity cap) events

/-- A server with this cache may answer one datagram with the other. -/
def Sends (c : Cache) (data d : List UInt8) : Prop :=
  ∃ now w, (∀ query msg, Message.parse data = .ok query → w.outcome = .ok msg →
      Validated query msg) ∧ (handleQuery c data now w).1 = .ok d

theorem toAsciiLowercase_beq_dot (b : UInt8) : (Utf8.toAsciiLowercase b == dot) = (b == dot) := by
  have h : ∀ n : Fin 256,
      (Utf8.toAsciiLowercase (UInt8.ofFin n) == dot) = (UInt8.ofFin n == dot) := by
    decide +kernel
  exact h b.toFin

theorem trimEndDots_map (bs : List UInt8) :
    trimEndDots (bs.map Utf8.toAsciiLowercase) = (trimEndDots bs).map Utf8.toAsciiLowercase := by
  have hp : ((· == dot) ∘ Utf8.toAsciiLowercase) = (· == dot) := funext toAsciiLowercase_beq_dot
  rw [trimEndDots, List.rdropWhile, ← List.map_reverse, List.dropWhile_map, hp, ← List.map_reverse]
  rfl

theorem splitDots_map (bs : List UInt8) :
    splitDots (bs.map Utf8.toAsciiLowercase) =
      (splitDots bs).map (List.map Utf8.toAsciiLowercase) := by
  induction bs with
  | nil => rfl
  | cons b bs ih =>
      unfold splitDots at ih ⊢
      obtain ⟨p, ps, hps⟩ := List.exists_cons_of_ne_nil (splitDots_ne_nil bs)
      have hps' : List.splitOn dot bs = p :: ps := hps
      rw [List.map_cons, List.splitOn_cons_eq_if_modifyHead, List.splitOn_cons_eq_if_modifyHead, ih,
        hps']
      rw [toAsciiLowercase_beq_dot]
      split <;> simp

/-- The case of its letters does not decide whether a name can be written. -/
theorem encodable_toAsciiLowercase (name : Str) :
    Encodable name.toAsciiLowercase ↔ Encodable name := by
  have hlabels : labelsOf (trimName name.toAsciiLowercase).bytes =
      (labelsOf (trimName name).bytes).map (List.map Utf8.toAsciiLowercase) := by
    have htrim : (trimName name.toAsciiLowercase).bytes =
        (trimName name).bytes.map Utf8.toAsciiLowercase := trimEndDots_map name.bytes
    unfold labelsOf
    rw [htrim, splitDots_map]
    simp only [List.isEmpty_map]
    split <;> rfl
  unfold Encodable
  rw [hlabels]
  simp [ValidLabel]

theorem encodable_trimName {name : Str} (h : Encodable name) : Encodable (trimName name) := by
  have hidem : trimName (trimName name) = trimName name :=
    Str.ext (List.rdropWhile_idempotent (· == dot) name.bytes)
  unfold Encodable
  rw [hidem]
  exact h

/-- Whatever is sent, the questions of the datagram it answers could be written. -/
theorem encodable_of_sends {c : Cache} (hc : ReachableCache c) {data d : List UInt8}
    (h : Sends c data d) :
    ∃ query, Message.parse data = .ok query ∧
      ∀ question ∈ query.questions, Encodable question.name := by
  obtain ⟨hashing, capacity, cap, events, hvalid, rfl⟩ := hc
  obtain ⟨now, w, houtcome, hsend⟩ := h
  obtain ⟨query, hp⟩ := parse_of_handleQuery hsend
  refine ⟨query, hp, ?_⟩
  rw [handleQuery_of_parse hp] at hsend
  obtain ⟨b, hb, -⟩ := udpDatagram_cases hsend
  have hE : ∀ question ∈ (processQuery (serverRun (Cache.new hashing capacity cap) events)
      query now w).1.questions, Encodable question.name := fun question hmem =>
    (encodes_of_toBytes hb).1 _ (List.mem_append_left _ (List.mem_map_of_mem hmem))
  have hinv := (serverInv_new hashing capacity cap).run hvalid
  rcases processQuery_cases (serverRun (Cache.new hashing capacity cap) events) query now w with
    ⟨-, hrun⟩ | ⟨reply, hhit, hrun⟩ | ⟨msg, hout, hrun⟩ | ⟨e, -, hrun⟩
  · rw [hrun] at hE
    exact hE
  · rw [hrun] at hE
    -- a hit has the question it is filed under, perhaps in other letters
    obtain ⟨question, stored, cached, hq, hsrc, hserved, rfl⟩ := cacheHit_sourced hinv hhit
    obtain ⟨query', now', w', question', hmem, hout, hq', hkey⟩ := hsrc
    have hquestions : (cachedReply query cached).questions = [question'] := by
      rw [(sections_cachedReply query cached).1, hserved.questions,
        ((hvalid _ hmem).2 stored hout).upstream.questions, hq']
    have hname : question'.name.toAsciiLowercase = question.name.toAsciiLowercase :=
      congrArg CacheKey.name hkey
    rw [hquestions] at hE
    rw [hq]
    intro x hx
    rw [List.mem_singleton.mp hx, ← encodable_toAsciiLowercase, ← hname]
    exact (encodable_toAsciiLowercase _).mpr (hE question' List.mem_cons_self)
  · rw [hrun] at hE
    have hquestions := (houtcome query msg hp hout).upstream.questions
    rw [← hquestions]
    dsimp only at hE
    split at hE
    · exact hE
    · exact hE
  · rw [hrun] at hE
    exact hE

/-- **A datagram that can be answered has an answer that can be answered.** -/
theorem sends_of_encodable (hashing : Hashing) (capacity : UInt64) (cap : UInt32)
    {data : List UInt8} {query : Message} (h : Message.parse data = .ok query)
    (hE : ∀ question ∈ query.questions, Encodable question.name) :
    ∃ d reply, Sends (Cache.new hashing capacity cap) data d ∧ Message.parse d = .ok reply ∧
      ∀ question ∈ reply.questions, Encodable question.name := by
  obtain ⟨d, reply, hd, hlocal, hb⟩ := handleQuery_failed hashing capacity cap h hE
  obtain ⟨d', hd', hp⟩ := parse_toBytes_of_fits (hlocal.fits (fits_of_parse h).1 hE)
  rw [hb] at hd'
  cases hd'
  refine ⟨d, _, ⟨0, failedResolver, fun _ _ _ hout => (nomatch hout), hd⟩, hp, ?_⟩
  intro question hmem
  obtain ⟨question', hmem', rfl⟩ := List.mem_map.mp hmem
  exact encodable_trimName (hE question' (hlocal.questions ▸ hmem'))

/--
**A datagram starts no loop exactly when it is not answered at all.** No reply to it is ever
replied to, by any server, if and only if it does not parse or its questions cannot be written
back, in which cases there is no reply.
-/
theorem no_reply_loop_iff (data : List UInt8) :
    (∀ c d, ReachableCache c → Sends c data d → ∀ c' d', ¬ Sends c' d d') ↔
      ¬ ∃ query, Message.parse data = .ok query ∧
        ∀ question ∈ query.questions, Encodable question.name := by
  constructor
  · rintro hloop ⟨query, hp, hE⟩
    obtain ⟨d, reply, hsend, hreply, hE'⟩ := sends_of_encodable Cache.plainHashing 1 0 hp hE
    -- the reply goes to a second server, whose upstream is down as well
    obtain ⟨d', -, hsend', -⟩ := sends_of_encodable Cache.plainHashing 1 0 hreply hE'
    exact hloop _ d ⟨Cache.plainHashing, 1, 0, [], by simp, rfl⟩ hsend _ d' hsend'
  · intro hno c d hc hsend
    exact absurd (encodable_of_sends hc hsend) hno

/-- A query for the root is answered, and so is the answer. -/
theorem rootQuery_reply_loop :
    ∃ c d, ReachableCache c ∧ Sends c rootQuery d ∧ ∃ c' d', Sends c' d d' := by
  have hempty : Encodable Str.empty := transmissible_empty.1
  obtain ⟨d, reply, hsend, hreply, hE⟩ := sends_of_encodable Cache.plainHashing 1 0
    (show Message.parse rootQuery = .ok (queryFor Str.empty) from rfl)
    (by simpa [queryFor] using hempty)
  obtain ⟨d', -, hsend', -⟩ := sends_of_encodable Cache.plainHashing 1 0 hreply hE
  exact ⟨_, d, ⟨Cache.plainHashing, 1, 0, [], by simp, rfl⟩, hsend, _, d', hsend'⟩

end Dnser
