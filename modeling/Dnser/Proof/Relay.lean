import Dnser.Proof.Echo
import Dnser.Proof.Extension
import Dnser.Proof.Program

/-!
# What comes out can be read

A server reads messages and writes others: replies to its clients, and queries to its upstreams. What
it writes it could have read itself. Every reply parses as the message it was made from, up to dots at
the end of names, which the writer takes for decoration; and so does every query that goes upstream.
With the dots gone nothing changes any more, however many servers a message goes through. Which is not
to say that one server takes what another sends: that depends on dots and on the spelling of names.
-/

namespace Dnser

open Utf8 (Str)
open Abort
open Steps (Reachable)

/-! ## The writer does not see trailing dots -/

theorem trimName_trimName (name : Str) : trimName (trimName name) = trimName name :=
  Str.ext (List.rdropWhile_idempotent (· == dot) name.bytes)

theorem writeName_trimName (name : Str) : writeName (trimName name) = writeName name := by
  have htrim : trimEndDots (trimName name).bytes = trimEndDots name.bytes :=
    congrArg Str.bytes (trimName_trimName name)
  simp only [writeName, htrim]

theorem writeAll_map {α : Type} {write : α → WriteM Unit} {f : α → α}
    (h : ∀ x, write (f x) = write x) (xs : List α) : writeAll write (xs.map f) = writeAll write xs := by
  induction xs with
  | nil => rfl
  | cons x xs ih => simp only [List.map_cons, writeAll, h, ih]

theorem RData.write_trimName (rd : RData) : (rd.mapNames trimName).write = rd.write := by
  cases rd <;> simp only [RData.mapNames, RData.write, writeName_trimName]

theorem ResourceRecord.write_trimName (rr : ResourceRecord) :
    (rr.mapNames trimName).write = rr.write := by
  have htype : (rr.mapNames trimName).typeNumber = rr.typeNumber := by
    cases hrd : rr.rdata <;>
      simp [ResourceRecord.mapNames, ResourceRecord.typeNumber, ResourceRecord.recordType, hrd,
        RData.mapNames]
  have hname : writeName (rr.mapNames trimName).name = writeName rr.name := writeName_trimName rr.name
  have hrdata : (rr.mapNames trimName).rdata.write = rr.rdata.write := RData.write_trimName rr.rdata
  simp only [ResourceRecord.write, htype, hname, hrdata]
  rfl

theorem Question.write_trimName (q : Question) : (q.mapNames trimName).write = q.write := by
  simp only [Question.write, Question.mapNames, writeName_trimName]

/-- **A message is written without its trailing dots.** -/
theorem Message.toBytes_trimName (m : Message) : (m.mapNames trimName).toBytes = m.toBytes := by
  simp only [Message.toBytes, Message.writeM, Message.mapNames, writeAll_map Question.write_trimName,
    writeAll_map ResourceRecord.write_trimName]

/-- These bytes are the message, and exactly as it is written. -/
def Canonical (m : Message) (bytes : List UInt8) : Prop :=
  Message.parse bytes = .ok m ∧ m.toBytes = .ok bytes

theorem canonical_of_fits {m : Message} {bytes : List UInt8} (h : m.Fits Transmissible)
    (hb : m.toBytes = .ok bytes) : Canonical (m.mapNames trimName) bytes := by
  obtain ⟨bytes', hbytes', hparse⟩ := parse_toBytes_of_fits h
  rw [hb] at hbytes'
  cases hbytes'
  refine ⟨hparse, ?_⟩
  rw [Message.toBytes_trimName, hb]

theorem Message.Fits.transmissible {m : Message} {bytes : List UInt8} (h : m.Fits ReadableName)
    (hb : m.toBytes = .ok bytes) : m.Fits Transmissible :=
  have hE := (encodes_of_toBytes hb).1
  h.imp fun n hn hr => hr.transmissible (hE n hn)

/-- **One hop is enough.** What is made of parsed parts is written in canonical form, if it can be
written at all: however often it is passed on after that, it does not change any more. -/
theorem Message.Fits.canonical {m : Message} {bytes : List UInt8} (h : m.Fits ReadableName)
    (hb : m.toBytes = .ok bytes) : Canonical (m.mapNames trimName) bytes :=
  canonical_of_fits (h.transmissible hb) hb

/-- What is left when the end is cut off is no message any more. -/
theorem Canonical.length_le {m m' : Message} {bytes : List UInt8} {k : Nat} (h : Canonical m bytes)
    (hcut : Message.parse (bytes.take k) = .ok m') : bytes.length ≤ k := by
  obtain ⟨bytes', hbytes', hparse⟩ := parseM_toBytes_of_fits ((fits_of_parse h.1).1.transmissible h.2)
  rw [h.2] at hbytes'
  cases hbytes'
  exact pos_le_of_parse_take hparse hcut

/-! ## Replies -/

theorem IsLocal.canonical {query reply : Message} {bytes : List UInt8} (h : IsLocal query reply)
    (hfits : query.Fits ReadableName) (hb : reply.toBytes = .ok bytes) :
    Canonical (reply.mapNames trimName) bytes := by
  refine canonical_of_fits (h.fits hfits fun question hmem => ?_) hb
  refine (encodes_of_toBytes hb).1 question.name (List.mem_append_left _ (List.mem_map_of_mem ?_))
  rw [h.questions]
  exact hmem

theorem readableName_empty : ReadableName Str.empty := by
  unfold ReadableName
  exact ⟨by decide, by decide⟩

/-- Our own OPT record can be read. -/
theorem Message.Fits.addEdnsOpt {m : Message} (h : m.Fits ReadableName)
    (hadd : m.additional.length < 65535) : (addEdnsOpt m).Fits ReadableName := by
  have hlen := List.length_filter_le (fun rr => !rr.isOpt) m.additional
  -- a record of the reply was there before, or is the new one
  have hrecords : ∀ rr ∈ (Dnser.addEdnsOpt m).records,
      rr ∈ m.records ∨ rr = ResourceRecord.ednsOpt serverUdpPayload := by
    intro rr hrr
    simp only [Message.records, Dnser.addEdnsOpt, List.mem_append, List.mem_filter,
      List.mem_singleton] at hrr ⊢
    tauto
  refine ⟨h.qdCount, h.anCount, h.nsCount, ?_, h.reserved, h.classes, fun rr hrr => ?_,
    Message.names_of_sections (fun q hq => ?_) fun rr hrr => ?_⟩
  · simp only [Dnser.addEdnsOpt, List.length_append, List.length_singleton]
    rw [toNat_ofNat_of_le (by omega)]
  · rcases hrecords rr hrr with hrr | rfl
    · exact h.sizes rr hrr
    · decide
  · exact h.names q.name (List.mem_append_left _ (List.mem_map_of_mem hq))
  · rcases hrecords rr hrr with hrr | rfl
    · intro n hn
      exact h.names n (List.mem_append_right _ (List.mem_flatMap.mpr ⟨rr, hrr, hn⟩))
    · intro n hn
      obtain rfl : n = Str.empty := by
        simpa [ResourceRecord.names, ResourceRecord.ednsOpt, RData.names] using hn
      exact readableName_empty

/-- Records that differ in their TTLs only have the same names and sizes. -/
theorem SameRecords.exists_mem {rrs rrs' : List ResourceRecord} (h : SameRecords rrs rrs')
    {rr' : ResourceRecord} (hmem : rr' ∈ rrs') : ∃ rr ∈ rrs, rr'.name = rr.name ∧ rr'.rdata = rr.rdata := by
  induction h with
  | nil => cases hmem
  | @cons rr _ _ _ hrr _ ih =>
      rcases List.mem_cons.mp hmem with rfl | hmem
      · exact ⟨rr, List.mem_cons_self, hrr.1, hrr.2.2⟩
      · obtain ⟨rr₂, hrr₂, hsame⟩ := ih hmem
        exact ⟨rr₂, List.mem_cons_of_mem _ hrr₂, hsame⟩

/-- What is served from the cache can be read like what was stored. -/
theorem Served.fits {stored cached : Message} (h : Served stored cached)
    (hfits : stored.Fits ReadableName) : cached.Fits ReadableName := by
  have hrecords : ∀ rr ∈ cached.records, ∃ rr₀ ∈ stored.records, rr.name = rr₀.name ∧
      rr.rdata = rr₀.rdata := by
    have hall : SameRecords stored.records cached.records :=
      List.rel_append (List.rel_append h.answers h.authority) h.additional
    exact fun rr hrr => hall.exists_mem hrr
  refine ⟨?_, ?_, ?_, ?_, ?_, ?_, fun rr hrr => ?_, Message.names_of_sections (fun q hq => ?_)
    fun rr hrr => ?_⟩
  · rw [h.header, h.questions, hfits.qdCount]
  · rw [h.header, hfits.anCount, h.answers.length_eq]
  · rw [h.header, hfits.nsCount, h.authority.length_eq]
  · rw [h.header, hfits.arCount, h.additional.length_eq]
  · rw [h.header, hfits.reserved]
  · rw [h.questions]
    exact hfits.classes
  · obtain ⟨rr₀, hrr₀, -, hrdata⟩ := hrecords rr hrr
    rw [hrdata]
    exact hfits.sizes rr₀ hrr₀
  · rw [h.questions] at hq
    exact hfits.names q.name (List.mem_append_left _ (List.mem_map_of_mem hq))
  · intro n hn
    obtain ⟨rr₀, hrr₀, hname, hrdata⟩ := hrecords rr hrr
    rw [ResourceRecord.names, hname, hrdata] at hn
    exact hfits.names n (List.mem_append_right _ (List.mem_flatMap.mpr ⟨rr₀, hrr₀, hn⟩))

theorem flags_swapRd_reserved {a : UInt16} (b : UInt16) (h : a &&& Header.Z = 0) :
    ((a &&& ~~~Header.RD) ||| (b &&& Header.RD)) &&& Header.Z = 0 := by
  have hrd : Header.RD &&& Header.Z = 0 := by decide
  have hz : ~~~Header.RD &&& Header.Z = Header.Z := by decide
  simp [or_and_distrib, UInt16.and_assoc, hrd, hz, h]

theorem fits_cachedReply (query : Message) {cached : Message} (h : cached.Fits ReadableName)
    (hadd : cached.additional.length < 65535) : (cachedReply query cached).Fits ReadableName := by
  have hplain : ({ cached with header := { cached.header with
      id := query.header.id
      flags := (cached.header.flags &&& ~~~Header.RD) ||| (query.header.flags &&& Header.RD) } } :
        Message).Fits ReadableName :=
    { h with reserved := flags_swapRd_reserved _ h.reserved }
  unfold cachedReply
  dsimp only
  split
  · exact hplain.addEdnsOpt hadd
  · exact hplain

theorem ReachableCache.inv {c : Cache} (h : ReachableCache c) :
    ∃ events, (∀ ev ∈ events, ev.Valid) ∧ ServerInv events c := by
  obtain ⟨hashing, capacity, cap, events, hvalid, rfl⟩ := h
  exact ⟨events, hvalid, (serverInv_new hashing capacity cap).run hvalid⟩

/-- **Every reply is written in canonical form.** -/
theorem canonical_processQuery {c : Cache} {query : Message} {now : Nat} {w : Awaited}
    {data bytes : List UInt8} (hc : ReachableCache c) (hparse : Message.parse data = .ok query)
    (hout : ∀ msg, w.outcome = .ok msg → Validated query msg)
    (hb : (processQuery c query now w).1.toBytes = .ok bytes) :
    Canonical ((processQuery c query now w).1.mapNames trimName) bytes := by
  obtain ⟨events, hvalid, hinv⟩ := hc.inv
  have hfits := (fits_of_parse hparse).1
  rcases processQuery_cases c query now w with
    ⟨-, hrun⟩ | ⟨reply, hhit, hrun⟩ | ⟨msg, hmsg, hrun⟩ | ⟨e, -, hrun⟩ <;> rw [hrun] at hb ⊢
  · exact IsLocal.canonical (.inr (.inr rfl)) hfits hb
  · obtain ⟨question, stored, cached, -, hsrc, hserved, rfl⟩ := cacheHit_sourced hinv hhit
    obtain ⟨source, hup⟩ := hsrc.upstream hvalid
    refine (fits_cachedReply query (hserved.fits hup.fits) ?_).canonical hb
    have hlen := hserved.additional.length_eq
    have hroom := hup.additional
    omega
  · have hup := (hout msg hmsg).upstream
    have hroom := hup.additional
    refine Message.Fits.canonical ?_ hb
    dsimp only
    split
    · exact hup.fits.addEdnsOpt (by omega)
    · exact hup.fits
  · exact IsLocal.canonical (.inl rfl) hfits hb

/-- A reply as it is on the wire: in canonical form, with the query's id and the response bit. -/
def WireReply (data bytes : List UInt8) : Prop :=
  ∃ query m : Message, Message.parse data = .ok query ∧ Canonical m bytes ∧
    m.header.id = query.header.id ∧ m.header.isResponse = true

theorem wireReply_processQuery {c : Cache} {query : Message} {now : Nat} {w : Awaited}
    {data bytes : List UInt8} (hc : ReachableCache c) (hparse : Message.parse data = .ok query)
    (hout : ∀ msg, w.outcome = .ok msg → Validated query msg)
    (hb : (processQuery c query now w).1.toBytes = .ok bytes) : WireReply data bytes := by
  obtain ⟨events, hvalid, hinv⟩ := hc.inv
  have hreplies : Replies query (processQuery c query now w).1 :=
    replies_processQuery hinv hvalid ⟨⟨data, hparse⟩, hout⟩
  exact ⟨query, _, hparse, canonical_processQuery hc hparse hout hb, hreplies.id, hreplies.response⟩

theorem Handles.wireReply {data bytes : List UInt8} (h : Handles data (.ok bytes)) :
    WireReply data bytes := by
  obtain ⟨c, now, w, hc, hout, hrun⟩ := h
  obtain ⟨query, hparse⟩ := parse_of_handleQuery hrun
  rw [handleQuery_of_parse hparse] at hrun
  obtain ⟨b, hb, ⟨-, rfl⟩ | ⟨-, hcut⟩⟩ := udpDatagram_cases hrun
  · exact wireReply_processQuery hc hparse (fun msg => hout query msg hparse) hb
  · exact ⟨query, _, hparse, IsLocal.canonical (.inr (.inl rfl)) (fits_of_parse hparse).1 hcut, rfl,
      isResponse_replyTo _ _⟩

theorem ConnHandles.wireReply {body bytes : List UInt8} (h : ConnHandles body bytes) :
    WireReply body bytes := by
  obtain ⟨c, query, now, w, hc, hparse, hout, hrun⟩ := h
  exact wireReply_processQuery hc hparse hout hrun

/-! ## Queries to upstreams -/

theorem flags_recursive_reserved {flags : UInt16} (h : flags &&& Header.Z = 0) :
    (flags ||| Header.RD) &&& Header.Z = 0 := by
  have hrd : Header.RD &&& Header.Z = 0 := by decide
  rw [or_and_distrib, h, hrd]
  rfl

/-- What goes to an upstream in a datagram is the client's query, under the id it was assigned and with
the RD bit set. -/
theorem UdpRequest.toBytes {query : Message} {id : UInt16} {sent : List UInt8}
    (h : UdpRequest query id sent) : (query.recursive id).toBytes = .ok sent := by
  obtain ⟨bytes, hbytes, hsent⟩ := h
  obtain ⟨rest, rfl, hrest⟩ := toBytes_with_header hbytes
  rw [patchQuery_header] at hsent
  cases hsent
  exact hrest _

theorem fits_recursive {data : List UInt8} {query : Message} (hparse : Message.parse data = .ok query)
    (id : UInt16) : (query.recursive id).Fits ReadableName :=
  have hfits := (fits_of_parse hparse).1
  { hfits with reserved := flags_recursive_reserved hfits.reserved }

theorem UdpRequest.canonical {data : List UInt8} {query : Message} {id : UInt16} {sent : List UInt8}
    (h : UdpRequest query id sent) (hparse : Message.parse data = .ok query) :
    Canonical ((query.recursive id).mapNames trimName) sent :=
  (fits_recursive hparse id).canonical h.toBytes

/-- And over TCP it is the query as it came. -/
theorem TcpRequest.canonical {data : List UInt8} {query : Message} {sent : List UInt8}
    (h : TcpRequest query sent) (hparse : Message.parse data = .ok query) :
    Canonical (query.mapNames trimName) sent :=
  (fits_of_parse hparse).1.canonical h.1

/-! ## The program -/

/-- Whoever waits, waits with a query that came off the wire. -/
theorem Service.Sound.parsed {Addr : Type} {n : Nat} {s : Service Addr n} (h : s.Sound)
    {waiter : Waiter} {query : Message} (hawaits : s.Awaits waiter query) :
    ∃ data, Message.parse data = .ok query := by
  cases waiter with
  | query number =>
      obtain ⟨w, t, ht, -, hphase⟩ := hawaits
      exact ⟨t.data, ((h.tasks w t ht).resolving query (QueryPhase.eq_of_awaited hphase)).1⟩
  | conn k =>
      obtain ⟨t, ht, hphase⟩ := hawaits
      obtain ⟨bodies, replies, rest, -, hnext⟩ := h.conns t (List.mem_of_getElem? ht)
      rw [ConnTask.Next, ConnPhase.eq_of_awaited hphase] at hnext
      obtain ⟨body, -, hparse, -⟩ := hnext
      exact ⟨body, hparse⟩

namespace Program

variable {Addr : Type}

/--
**Whatever the program writes can be read.** In every run, whatever clients and upstreams send: every
datagram that was sent to a client, and every message that was written to a connection, parses as a
response with the id of a query that was received, and is exactly what is written for that response.
And whatever a call that is under way sends to an upstream parses as the client's query, up to dots at
the end of names: in a datagram with the id it has there and the RD bit, over TCP as it came.
-/
theorem writes_canonical (hashing : Hashing) (capacity : UInt64) (cap : UInt32)
    (n m udpMaxInflight tcpMaxConnections : Nat) (p : Program Addr n m)
    (h : Reachable (start (Cache.new hashing capacity cap) n m udpMaxInflight tcpMaxConnections) Step
      (fun _ _ => True) p) :
    (∀ number peer bytes, (number, peer, bytes) ∈ p.service.sent →
      ∃ data, p.service.taken[number]? = some (peer, data) ∧ WireReply data bytes) ∧
    (∀ conn ∈ p.service.conns, ∃ bodies replies rest, conn.stream = bodies.flatMap frame ++ rest ∧
      conn.output = replies.flatMap frame ∧ List.Forall₂ WireReply bodies replies) ∧
    ∀ q c, p.resolver.calls q = some c → (∃ data, Message.parse data = .ok c.query) ∧
      (∀ u qu sent, (p.resolver.upstreams u).queries q = some qu → UdpRequest c.query qu.id sent →
        Canonical ((c.query.recursive qu.id).mapNames trimName) sent) ∧
      ∀ sent, TcpRequest c.query sent → Canonical (c.query.mapNames trimName) sent := by
  have hsound : p.service.Sound := (reachable_service h).invariant_of_ok
    (Service.sound_start hashing capacity cap n udpMaxInflight tcpMaxConnections)
    fun _ _ _ hI hok hs => hI.step hok hs
  have hlinked := linked_of_reachable h
  refine ⟨fun number peer bytes hsent => ?_, fun conn hconn => ?_, fun q c hq => ?_⟩
  · obtain ⟨data, hdata, hhandles⟩ := hsound.sent number peer bytes hsent
    exact ⟨data, hdata, hhandles.wireReply⟩
  · obtain ⟨bodies, replies, rest, hans, -⟩ := hsound.conns conn hconn
    exact ⟨bodies, replies, rest, hans.stream, hans.output, hans.handled.imp fun _ _ h => h.wireReply⟩
  · -- a call is someone's, who waits with a query that came off the wire
    have hasked : p.resolver.asked q = some c.query := by
      rw [Race.State.asked, hq]
      rfl
    obtain ⟨waiter, hwaiter⟩ := hlinked.waiter q (by simp [hasked])
    obtain ⟨query, hawaits⟩ := hlinked.waits waiter q hwaiter
    have hquery := hlinked.asked hwaiter hawaits
    rw [hasked] at hquery
    cases hquery
    obtain ⟨data, hparse⟩ := hsound.parsed hawaits
    exact ⟨⟨data, hparse⟩, fun u qu sent _ hrequest => hrequest.canonical hparse,
      fun sent hrequest => hrequest.canonical hparse⟩

/-- A query that was relayed, and its answer. -/
theorem relayed_canonical : ∃ p : Program Nat 1 1, p.service.sent = [(0, 4, bareAnswer 7)] ∧
    ∃ data, p.service.taken[0]? = some (4, data) ∧ WireReply data (bareAnswer 7) := by
  obtain ⟨p, hp, hsent⟩ := exists_relayed
  obtain ⟨hall, -, -⟩ := writes_canonical Cache.plainHashing 10 300 1 1 1000 1000 p hp
  exact ⟨p, hsent, hall 0 4 _ (by rw [hsent]; exact List.mem_singleton_self _)⟩

end Program

/-! ## One server behind another -/

/-- Letters make no difference to the dots at the end. -/
theorem trimName_eq_self_of_lowercase {name name' : Str}
    (hsame : name'.toAsciiLowercase = name.toAsciiLowercase) (h : trimName name = name) :
    trimName name' = name' := by
  have hbytes : name'.bytes.map Utf8.toAsciiLowercase = name.bytes.map Utf8.toAsciiLowercase :=
    congrArg Str.bytes hsame
  have htrim : trimEndDots name.bytes = name.bytes := congrArg Str.bytes h
  have hlower : (trimEndDots name'.bytes).map Utf8.toAsciiLowercase =
      name'.bytes.map Utf8.toAsciiLowercase := by
    rw [← trimEndDots_map, hbytes, trimEndDots_map, htrim]
  have hlen : (trimEndDots name'.bytes).length = name'.bytes.length := by
    simpa using congrArg List.length hlower
  exact Str.ext ((List.rdropWhile_prefix (· == dot) name'.bytes).eq_of_length hlen)

theorem ResourceRecord.ednsVersion_mapNames (f : Str → Str) (rr : ResourceRecord) :
    (rr.mapNames f).ednsVersion = rr.ednsVersion ∧ (rr.mapNames f).isOpt = rr.isOpt := by
  cases hrd : rr.rdata <;>
    simp [ResourceRecord.mapNames, ResourceRecord.ednsVersion, ResourceRecord.isOpt, hrd, RData.mapNames]

/-- A query asks for the same version of EDNS on its way. -/
theorem badVersion_mapNames (f : Str → Str) (query : Message) :
    BadVersion (query.mapNames f) ↔ BadVersion query := by
  have hopt : (query.mapNames f).opt = query.opt.map (ResourceRecord.mapNames f) := by
    have hcomp : ResourceRecord.isOpt ∘ ResourceRecord.mapNames f = ResourceRecord.isOpt :=
      funext fun rr => (ResourceRecord.ednsVersion_mapNames f rr).2
    simp only [Message.opt, Message.mapNames, List.find?_map, hcomp]
  unfold BadVersion
  rw [hopt]
  cases query.opt with
  | none => simp
  | some o => simp [(ResourceRecord.ednsVersion_mapNames f o).1]

/-- `process_query` echoes the question, unless the cache has it in another spelling. -/
theorem processQuery_echoes {c : Cache} (h : c.Placed) {data : List UInt8} {query : Message} {now : Nat}
    {w : Awaited} (hparse : Message.parse data = .ok query)
    (hout : ∀ msg, w.outcome = .ok msg → Validated query msg)
    (hspelled : BadVersion query ∨ SameSpelling c query now) :
    (processQuery c query now w).1.questions = query.questions := by
  unfold processQuery
  cases hlocal : localReply c query now with
  | some reply => exact (localReply_echoes_iff (s := { cache := c }) h ⟨data, hparse⟩).mpr hspelled reply hlocal
  | none => exact resolvedReply_echoes hout

/-- A response in canonical form is accepted if it repeats the question. -/
theorem Canonical.accepted_iff {m query : Message} {bytes : List UInt8} (h : Canonical m bytes)
    (hqr : m.header.isResponse = true) (id : UInt16) :
    (∃ msg, parseValidatedResponse bytes query id = .ok msg) ↔ m.questions = query.questions := by
  constructor
  · rintro ⟨msg, hmsg⟩
    obtain ⟨wire, hwire, -, hquestions, -⟩ := parseValidatedResponse_eq_ok_iff.mp hmsg
    rw [h.1] at hwire
    cases hwire
    exact hquestions
  · intro hquestions
    exact ⟨_, parseValidatedResponse_eq_ok_iff.mpr ⟨m, h.1, hqr, hquestions, rfl⟩⟩

/-- No question name of the query ends in a dot. -/
def Dotless (query : Message) : Prop :=
  ∀ question ∈ query.questions, trimName question.name = question.name

theorem Dotless.questions_eq {query : Message} (h : Dotless query) :
    query.questions.map (Question.mapNames trimName) = query.questions := by
  refine (List.map_congr_left fun question hmem => ?_).trans query.questions.map_id
  simp only [Question.mapNames, h question hmem, id]

theorem dotless_of_questions_eq {query : Message} {questions : List Question}
    (h : questions.map (Question.mapNames trimName) = query.questions) : Dotless query := by
  intro question hmem
  rw [← h] at hmem
  obtain ⟨question', -, rfl⟩ := List.mem_map.mp hmem
  exact trimName_trimName question'.name

/-- The client's query, as the server behind reads it. -/
def Message.forwarded (query : Message) (id : UInt16) : Message := (query.recursive id).mapNames trimName

/-- What the server behind has in its cache is spelled as the query spells it, if what it sends is. -/
theorem sameSpelling_of_questions_eq {c : Cache} {sent : List UInt8} {asked query : Message} {now : Nat}
    {w : Awaited} (hc : ReachableCache c) (hparse : Message.parse sent = .ok asked)
    (hgood : ¬ BadVersion asked) (hdotless : Dotless query) (hasked : asked.questions = query.questions)
    (h : (processQuery c asked now w).1.questions.map (Question.mapNames trimName) = query.questions) :
    SameSpelling c query now := by
  obtain ⟨events, hvalid, hinv⟩ := hc.inv
  intro question e hq hl hlive
  obtain ⟨reply, hhit, hreply⟩ := cacheHit_of_lookup hinv.placed hparse (hasked.trans hq) hl hlive
  rw [processQuery, localReply_of_good hgood, hhit] at h
  dsimp only at h
  -- the entry's question is filed under the same key
  obtain ⟨query', now', w', question', hmem, hout, hq', hkey⟩ := hinv.sourced _ e hl
  have hstored := ((hvalid _ hmem).2 e.response hout).upstream.questions.trans hq'
  injection hkey with hname _ _
  have htrim : trimName question'.name = question'.name :=
    trimName_eq_self_of_lowercase hname (hdotless question (by rw [hq]; exact List.mem_singleton_self _))
  have hsame : Question.mapNames trimName question' = question' := by
    simp only [Question.mapNames, htrim]
  rw [hreply, hstored, List.map_singleton, hsame, hq] at h
  rw [hstored, h]

/-- What a server sends fits the buffer of the one that asked. The truncated reply is not measured, but
it is no longer than what it replies to. -/
theorem length_le_of_handleQuery {c : Cache} {asked : Message} {sent datagram : List UInt8} {now : Nat}
    {w : Awaited} (hcanonical : Canonical asked sent) (hlen : sent.length ≤ maxUdpSize)
    (hrun : (handleQuery c sent now w).1 = .ok datagram) : datagram.length ≤ maxUdpSize := by
  rw [handleQuery_of_parse hcanonical.1] at hrun
  obtain ⟨b, hb, ⟨hb', rfl⟩ | ⟨-, hcut⟩⟩ := udpDatagram_cases hrun
  · exact Nat.le_trans hb' (queryUdpLimit_le asked)
  · rw [(length_toBytes hcut).2 rfl rfl rfl]
    exact Nat.le_trans (length_toBytes hcanonical.2).1 hlen

/-- What comes back for a query that was forwarded whole. -/
theorem forwarded_accepted_iff {c : Cache} {now : Nat} {w : Awaited} {sent datagram : List UInt8}
    {query : Message} {id : UInt16} (hasked : Message.parse sent = .ok (query.forwarded id))
    (hc : ReachableCache c) (hout : ∀ msg, w.outcome = .ok msg → Validated (query.forwarded id) msg)
    (hrun : (handleQuery c sent now w).1 = .ok datagram) :
    (∃ msg, parseValidatedResponse datagram query query.header.id = .ok msg) ↔
      Dotless query ∧ ((buildTruncated (query.forwarded id)).toBytes = .ok datagram ∨
        BadVersion query ∨ SameSpelling c query now) := by
  have hfits := (fits_of_parse hasked).1
  have hquestions : (query.forwarded id).questions = query.questions.map (Question.mapNames trimName) := rfl
  have hbad : BadVersion (query.forwarded id) ↔ BadVersion query :=
    badVersion_mapNames trimName (query.recursive id)
  -- whatever repeats the question as it was forwarded
  have hecho : ∀ reply : Message, Canonical (reply.mapNames trimName) datagram →
      reply.header.isResponse = true → reply.questions = (query.forwarded id).questions →
      Dotless query → ∃ msg, parseValidatedResponse datagram query query.header.id = .ok msg := by
    intro reply hcanonical hqr hreply hdotless
    refine (hcanonical.accepted_iff hqr _).mpr ?_
    show reply.questions.map (Question.mapNames trimName) = _
    rw [hreply, hquestions, hdotless.questions_eq, hdotless.questions_eq]
  have hcut : (buildTruncated (query.forwarded id)).toBytes = .ok datagram → Dotless query →
      ∃ msg, parseValidatedResponse datagram query query.header.id = .ok msg := fun hcut =>
    hecho _ (IsLocal.canonical (.inr (.inl rfl)) hfits hcut) (isResponse_replyTo _ _) rfl
  rw [handleQuery_of_parse hasked] at hrun
  obtain ⟨b, hb, ⟨-, rfl⟩ | ⟨-, hcut'⟩⟩ := udpDatagram_cases hrun
  · have hcanonical := canonical_processQuery hc hasked hout hb
    obtain ⟨events, hvalid, hinv⟩ := hc.inv
    have hqr : (processQuery c (query.forwarded id) now w).1.header.isResponse = true :=
      (replies_processQuery hinv hvalid ⟨⟨sent, hasked⟩, hout⟩).response
    constructor
    · intro haccepted
      have heq := (hcanonical.accepted_iff hqr _).mp haccepted
      have hdotless := dotless_of_questions_eq heq
      have hplain := hquestions.trans hdotless.questions_eq
      by_cases hversion : BadVersion query
      · exact ⟨hdotless, .inr (.inl hversion)⟩
      · exact ⟨hdotless, .inr (.inr (sameSpelling_of_questions_eq hc hasked (mt hbad.mp hversion) hdotless
          hplain heq))⟩
    · rintro ⟨hdotless, hcut' | hspelled⟩
      · exact hcut hcut' hdotless
      · refine hecho _ hcanonical hqr (processQuery_echoes hinv.placed hasked hout ?_) hdotless
        have hplain := hquestions.trans hdotless.questions_eq
        refine hspelled.imp hbad.mpr fun hsame question e hq => hsame question e (hplain.symm.trans hq)
  · constructor
    · intro haccepted
      have hcanonical := IsLocal.canonical (.inr (.inl rfl)) hfits hcut'
      have heq := (hcanonical.accepted_iff (isResponse_replyTo _ _) _).mp haccepted
      exact ⟨dotless_of_questions_eq heq, .inl hcut'⟩
    · rintro ⟨hdotless, -⟩
      exact hcut hcut' hdotless

/--
**One server behind another.** A query is passed on to an upstream that is a server of the same kind,
with whatever in its cache and whatever upstreams behind it. Both receive into a buffer of 4096 bytes.
If a datagram comes back, the query was not cut by that and neither is the datagram: from a longer query
the server makes nothing. The datagram is accepted exactly if no name in the question ends in a dot, and
the reply is the truncated one, or is refused for its EDNS version, or the cache there does not hold the
question in another spelling.
-/
theorem behind_accepted_iff (c : Cache) (now : Nat) (w : Awaited) (data sent datagram : List UInt8)
    (query : Message) (id : UInt16) (hparse : Message.parse data = .ok query)
    (hsent : UdpRequest query id sent) (hc : ReachableCache c)
    (hout : ∀ msg, w.outcome = .ok msg → Validated (query.forwarded id) msg)
    (hrun : (handleQuery c (sent.take maxUdpSize) now w).1 = .ok datagram) :
    sent.length ≤ maxUdpSize ∧ datagram.length ≤ maxUdpSize ∧
      ((∃ msg, parseValidatedResponse (datagram.take maxUdpSize) query query.header.id = .ok msg) ↔
        Dotless query ∧ ((buildTruncated (query.forwarded id)).toBytes = .ok datagram ∨
          BadVersion query ∨ SameSpelling c query now)) := by
  have hwhole := hsent.canonical hparse
  obtain ⟨asked', hasked'⟩ := parse_of_handleQuery hrun
  have hlen := hwhole.length_le hasked'
  rw [List.take_of_length_le hlen] at hrun
  have hlen' := length_le_of_handleQuery hwhole hlen hrun
  refine ⟨hlen, hlen', ?_⟩
  rw [List.take_of_length_le hlen']
  exact forwarded_accepted_iff hwhole.1 hc hout hrun

/-- The query for the root under the id 9, and the SERVFAIL reply to that. -/
def rootForwarded : List UInt8 := [0, 9, 1, 0, 0, 1, 0, 0, 0, 0, 0, 0, 0, 0, 1, 0, 1]
def rootRefused : List UInt8 := [0, 9, 0x81, 2, 0, 1, 0, 0, 0, 0, 0, 0, 0, 0, 1, 0, 1]

theorem behind_servfail_accepted : UdpRequest (queryFor Str.empty) 9 rootForwarded ∧
    (handleQuery (Cache.new Cache.plainHashing 10 300) rootForwarded 0 failedResolver).1 =
      .ok rootRefused ∧
    ∃ msg, parseValidatedResponse rootRefused (queryFor Str.empty) 7 = .ok msg := by
  have hsent : UdpRequest (queryFor Str.empty) 9 rootForwarded :=
    ⟨rootQuery, by decide +kernel, by decide +kernel⟩
  have hrun : (handleQuery (Cache.new Cache.plainHashing 10 300) rootForwarded 0 failedResolver).1 =
      .ok rootRefused := by
    decide +kernel
  have hdotless : Dotless (queryFor Str.empty) := by
    intro question hmem
    rw [List.mem_singleton.mp hmem]
    rfl
  have hsame : SameSpelling (Cache.new Cache.plainHashing 10 300) (queryFor Str.empty) 0 := by
    intro question e _ hl
    rw [Cache.lookup_new] at hl
    cases hl
  obtain ⟨-, -, haccepted⟩ := behind_accepted_iff _ 0 failedResolver rootQuery rootForwarded rootRefused
    (queryFor Str.empty) 9 rfl hsent ⟨Cache.plainHashing, 10, 300, [], by simp, rfl⟩
    (validated_failedResolver _) hrun
  exact ⟨hsent, hrun, haccepted.mpr ⟨hdotless, .inr (.inr hsame)⟩⟩

end Dnser
