import Dnser.Proof.Service
import Dnser.Proof.Udp

/-!
# What becomes of a datagram

Queries of many clients are under way at the same time, on all workers, and wait for the resolver
for as long as it takes; the cache has changed by the time it is done. Still every reply is one that
`handle_query` alone would have sent for its datagram (`Handles`), it goes to whoever sent the
datagram, and there is no second one. And nothing is forgotten: a datagram that was taken is
answered, unless `handle_query` has no answer to it, the network does not take it, or the server is
shut down before.
-/

namespace Dnser

open Steps (Reachable)
open Family

/-! ## The cache in the meantime -/

/-- Every entry expires. -/
theorem exists_cacheHit_eq_none (c : Cache) (query : Message) : ∃ now, cacheHit c query now = none := by
  unfold cacheHit
  split
  · rename_i question _
    cases hprobe : c.probe (Lookup.fromQuestion question) with
    | none => exact ⟨0, by simp [Cache.get, hprobe]⟩
    | some entry => exact ⟨entry.expiresAt, by simp [Cache.get, hprobe]⟩
  · exact ⟨0, rfl⟩

/-- What the resolver came back with is passed on, whatever has become of the cache. -/
theorem reply_resolvedReply (c c' : Cache) (query : Message) (w : Awaited) :
    (resolvedReply c query w).1 = (resolvedReply c' query w).1 := by
  unfold resolvedReply
  cases w.outcome <;> rfl

theorem ReachableCache.step {c : Cache} (h : ReachableCache c) (ev : Event) (hev : ev.Valid) :
    ReachableCache (serverStep c ev) := by
  obtain ⟨hashing, capacity, cap, events, hvalid, rfl⟩ := h
  refine ⟨hashing, capacity, cap, events ++ [ev], fun ev' hev' => ?_, ?_⟩
  · rcases List.mem_append.mp hev' with hev' | hev'
    · exact hvalid ev' hev'
    · rw [List.mem_singleton.mp hev']
      exact hev
  · exact (List.foldl_concat serverStep _ ev events).symm

/-- A query that found nothing in the cache stores its response, though another may have been faster
in the meantime. -/
theorem ReachableCache.resolved {c c₀ : Cache} (h : ReachableCache c) {query : Message} {w : Awaited}
    {now : Nat} {bytes : List UInt8} (hparse : Message.parse bytes = .ok query)
    (hmiss : localReply c₀ query now = none)
    (hout : ∀ msg, w.outcome = .ok msg → Validated query msg) :
    ReachableCache (resolvedReply c query w).2 := by
  have hgood : ¬ BadVersion query := by
    intro hbad
    rw [localReply_of_bad hbad] at hmiss
    cases hmiss
  -- a lookup that is late enough misses
  obtain ⟨late, hlate⟩ := exists_cacheHit_eq_none c query
  have hlocal := localReply_of_good hgood c late
  rw [hlate] at hlocal
  have hstep := h.step (.query query late w) ⟨⟨bytes, hparse⟩, hout⟩
  rwa [serverStep, processQuery, hlocal] at hstep

theorem validated_failedResolver (query : Message) :
    ∀ msg, failedResolver.outcome = .ok msg → Validated query msg := by
  intro msg hmsg
  cases hmsg

/-! ## What `handle_query` comes to -/

/-- `handle_query` may come to this for a datagram: on a cache that a server can have, with a resolver
that returns what was accepted for the query. -/
def Handles (data : List UInt8) (result : Except (Abort QueryError) (List UInt8)) : Prop :=
  ∃ c now w, ReachableCache c ∧
    (∀ query msg, Message.parse data = .ok query → w.outcome = .ok msg → Validated query msg) ∧
    (handleQuery c data now w).1 = result

/-- A reply is to its query. -/
theorem Handles.replies {data bytes : List UInt8} (h : Handles data (.ok bytes)) :
    ∃ query reply, Message.parse data = .ok query ∧ reply.toBytes = .ok bytes ∧
      Replies query reply := by
  obtain ⟨c, now, w, ⟨hashing, capacity, cap, events, hvalid, rfl⟩, hout, hrun⟩ := h
  obtain ⟨query, hparse⟩ := parse_of_handleQuery hrun
  rw [handleQuery_of_parse hparse] at hrun
  obtain ⟨b, hb, ⟨-, rfl⟩ | ⟨-, hb'⟩⟩ := udpDatagram_cases hrun
  · exact ⟨query, _, hparse, hb, replies_processQuery ((serverInv_new hashing capacity cap).run hvalid)
      hvalid ⟨⟨data, hparse⟩, fun msg hmsg => hout query msg hparse hmsg⟩⟩
  · have hfits := (fits_of_parse hparse).1
    exact ⟨query, buildTruncated query, hparse, hb', rfl, isResponse_replyTo _ _, hfits.qdCount, rfl,
      rfl, rfl⟩

theorem handles_of_processQuery {c : Cache} {data : List UInt8} {query : Message} (now : Nat)
    (w : Awaited) (hc : ReachableCache c) (hparse : Message.parse data = .ok query)
    (hout : ∀ msg, w.outcome = .ok msg → Validated query msg) :
    Handles data (udpDatagram query (processQuery c query now w).1) := by
  refine ⟨c, now, w, hc, fun query' msg hparse' hmsg => ?_, handleQuery_of_parse hparse⟩
  rw [hparse] at hparse'
  cases hparse'
  exact hout msg hmsg

/-! ## One task -/

namespace QueryTask

variable {Addr : Type} {t t' : QueryTask Addr} {cache cache' : Cache} {act : QueryAct}
  {taken : List (Addr × List UInt8)}

/-- What a task knows about its datagram. -/
structure Sound (taken : List (Addr × List UInt8)) (t : QueryTask Addr) : Prop where
  taken : taken[t.number]? = some (t.peer, t.data)
  /-- It asked the resolver because the cache had no answer at the time. -/
  resolving : ∀ query, t.phase = .resolving query → Message.parse t.data = .ok query ∧
    ∃ c now, ReachableCache c ∧ localReply c query now = none
  sending : ∀ bytes, t.phase = .sending bytes → Handles t.data (.ok bytes)

/-- A phase that says nothing. -/
theorem Sound.ended (h : t.Sound taken) : ({ t with phase := .ended } : QueryTask Addr).Sound taken :=
  ⟨h.taken, fun _ hphase => (nomatch hphase), fun _ hphase => (nomatch hphase)⟩

/-- The reply is sent, or cannot be encoded. -/
theorem Sound.respond (h : t.Sound taken) {query reply : Message}
    (hreply : Handles t.data (udpDatagram query reply)) :
    (t.respond query reply).Sound taken ∧
      ((t.respond query reply).isEnded → ∃ e, Handles t.data (.error e)) := by
  unfold QueryTask.respond
  split
  · rename_i bytes hbytes
    rw [hbytes] at hreply
    refine ⟨⟨h.taken, fun _ hphase => (nomatch hphase), fun bytes' hphase => ?_⟩, fun hended => nomatch hended⟩
    cases hphase
    exact hreply
  · rename_i e he
    rw [he] at hreply
    exact ⟨h.ended, fun _ => ⟨e, hreply⟩⟩

/-- The resolver is honest with a task. -/
def Honest (t : QueryTask Addr) : QueryAct → Prop
  | .resolved outcome _ _ =>
      ∀ query msg, t.phase = .resolving query → outcome = .ok msg → Validated query msg
  | _ => True

/-- **A step of a task**: it still knows what it has to know, and so does the cache; and if it ended
though nothing went wrong, its datagram has no answer, or was answered. -/
theorem Sound.step (h : t.Sound taken) (hc : ReachableCache cache) (hhonest : t.Honest act)
    (hm : Moves t cache act t' cache') :
    t'.Sound taken ∧ ReachableCache cache' ∧
      (t'.isEnded → (t.sends act = [] ∧ ∃ e, Handles t.data (.error e)) ∨
        (∃ bytes, act = .send ∧ t.phase = .sending bytes) ∨ act = .sendFails ∨ act = .cancelled) := by
  cases hm with
  | @unparsable now e hphase hparse =>
      refine ⟨h.ended, hc, fun _ => .inl ?_⟩
      have hrun : ∃ e', (handleQuery cache t.data now failedResolver).1 = .error e' := by
        unfold handleQuery
        rw [hparse]
        cases e with
        | err e => exact ⟨_, rfl⟩
        | panic => exact ⟨_, rfl⟩
      obtain ⟨e', he'⟩ := hrun
      exact ⟨rfl, e', cache, now, failedResolver, hc,
        fun query msg _ hmsg => validated_failedResolver query msg hmsg, he'⟩
  | @hit now query reply hphase hparse hlocal =>
      have hreply := handles_of_processQuery now failedResolver hc hparse
        (validated_failedResolver query)
      rw [processQuery, hlocal] at hreply
      obtain ⟨hsound, hended⟩ := h.respond hreply
      exact ⟨hsound, hc, fun h => .inl ⟨rfl, hended h⟩⟩
  | @miss now query hphase hparse hlocal =>
      refine ⟨⟨h.taken, fun query' hphase' => ?_, fun _ hphase' => (nomatch hphase')⟩, hc,
        fun hended => nomatch hended⟩
      cases hphase'
      exact ⟨hparse, cache, now, hc, hlocal⟩
  | @resolved outcome order now query hphase =>
      obtain ⟨hparse, c, now₀, hc₀, hmiss⟩ := h.resolving query hphase
      have hout : ∀ msg, outcome = .ok msg → Validated query msg :=
        fun msg hmsg => hhonest query msg hphase hmsg
      have hreply := handles_of_processQuery now₀ { outcome, now, order } hc₀ hparse hout
      rw [processQuery, hmiss] at hreply
      dsimp only at hreply
      rw [reply_resolvedReply c cache] at hreply
      obtain ⟨hsound, hended⟩ := h.respond hreply
      exact ⟨hsound, hc.resolved hparse hmiss hout, fun h => .inl ⟨rfl, hended h⟩⟩
  | send hphase => exact ⟨h.ended, hc, fun _ => .inr (.inl ⟨_, rfl, hphase⟩)⟩
  | sendFails hphase => exact ⟨h.ended, hc, fun _ => .inr (.inr (.inl rfl))⟩
  | cancelled _ _ => exact ⟨h.ended, hc, fun _ => .inr (.inr (.inr rfl))⟩

end QueryTask

end Dnser
