import Dnser.Proof.Streams

/-!
# Every answer to its client

All tasks of the server together. What a task knows about its datagram and a connection about its
stream survives whatever the others do, since all they share is the cache. And a datagram is with one
task at most, until it is answered: how often it is with a task and how often it was answered makes
one at most (`Service.copies`), over all workers.
-/

namespace Dnser

namespace Service

open Family
open Steps (Reachable)
open Utf8 (Str)

variable {Addr : Type} {n : Nat} {s s' : Service Addr n} {a : ServiceAct Addr n}

/-! ## What all of them know -/

/-- What holds of the tasks, the connections and what was sent. -/
structure Sound (s : Service Addr n) : Prop where
  cache : ReachableCache s.cache
  tasks : ∀ w, ∀ t ∈ (s.workers w).queries, t.Sound s.taken
  conns : ∀ t ∈ s.conns, t.Sound
  sent : ∀ number peer bytes, (number, peer, bytes) ∈ s.sent →
    ∃ data, s.taken[number]? = some (peer, data) ∧ Handles data (.ok bytes)

theorem sound_start (hashing : Hashing) (capacity : UInt64) (cap : UInt32)
    (n udpMaxInflight tcpMaxConnections : Nat) :
    (start (Cache.new hashing capacity cap) n udpMaxInflight tcpMaxConnections :
      Service Addr n).Sound := by
  refine ⟨⟨hashing, capacity, cap, [], by simp, rfl⟩, ?_, ?_, ?_⟩
  · intro w t ht
    cases ht
  · intro t ht
    cases ht
  · intro number peer bytes hsent
    cases hsent

theorem getElem?_append_some {α : Type} {l : List α} {k : Nat} {x : α} (h : l[k]? = some x)
    (more : List α) : (l ++ more)[k]? = some x := by
  rw [List.getElem?_append_left (List.getElem?_eq_some_iff.mp h).1]
  exact h

theorem tasks_update {P : QueryTask Addr → Prop} {workers : Fin n → ServiceWorker Addr} {w : Fin n}
    {worker : ServiceWorker Addr} (h : ∀ u, ∀ t ∈ (workers u).queries, P t)
    (hw : ∀ t ∈ worker.queries, P t) (u : Fin n) :
    ∀ t ∈ (Function.update workers w worker u).queries, P t := by
  by_cases hu : u = w
  · rw [hu, Function.update_self]
    exact hw
  · rw [Function.update_of_ne hu]
    exact h u

/-- What a task sends is what it has for its client. -/
theorem mem_sends {t : QueryTask Addr} {act : QueryAct} {x : Nat × Addr × List UInt8}
    (h : x ∈ t.sends act) : ∃ bytes, t.phase = .sending bytes ∧ act = .send ∧
      x = (t.number, t.peer, bytes) := by
  cases act with
  | send =>
      simp only [QueryTask.sends] at h
      split at h
      · rename_i bytes hphase
        exact ⟨bytes, hphase, rfl, List.mem_singleton.mp h⟩
      · cases h
  | start _ | resolved _ _ _ | sendFails | cancelled => cases h

/-- The resolver is honest with the task it answers. -/
theorem honest_query {w : Fin n} {i : Nat} {act : QueryAct} {t : QueryTask Addr}
    (h : s.Honest (.query w i act)) (ht : (s.workers w).queries[i]? = some t) : t.Honest act := by
  cases act with
  | resolved outcome order now => exact fun query msg hphase hmsg => h t query msg ht hphase hmsg
  | start _ | send | sendFails | cancelled => trivial

theorem honest_conn {k : Nat} {act : ConnTaskAct} {t : ConnTask} (h : s.Honest (.conn k act))
    (ht : s.conns[k]? = some t) : t.Honest act := by
  cases act with
  | resolved outcome order now => exact fun query msg hphase hmsg => h t query msg ht hphase hmsg
  | frame _ | written | close => trivial

/-- **Every step keeps what all of them know.** -/
theorem Sound.step (h : s.Sound) (hhonest : s.Honest a) (hs : s.Step a s') : s'.Sound := by
  cases hs with
  | @spawned w peer bytes permits hstage hpermits =>
      have hold : ∀ u, ∀ t ∈ (s.workers u).queries, t.Sound (s.taken ++ [(peer, bytes.take maxUdpSize)]) :=
        fun u t ht => ⟨getElem?_append_some (h.tasks u t ht).taken _, (h.tasks u t ht).resolving,
          (h.tasks u t ht).sending⟩
      refine ⟨h.cache, tasks_update hold fun t ht => ?_, h.conns, fun number peer' bytes' hsent => ?_⟩
      · rcases List.mem_append.mp ht with ht | ht
        · exact hold w t ht
        · rw [List.mem_singleton.mp ht]
          exact ⟨List.getElem?_concat_length, fun _ hphase => (nomatch hphase),
            fun _ hphase => (nomatch hphase)⟩
      · obtain ⟨data, hdata, hhandles⟩ := h.sent number peer' bytes' hsent
        exact ⟨data, getElem?_append_some hdata _, hhandles⟩
  | @query w i act t t' cache ht hstep =>
      have ht_mem := List.mem_of_getElem? ht
      obtain ⟨hsound, hcache, -⟩ := (h.tasks w t ht_mem).step h.cache (honest_query hhonest ht)
        (QueryTask.moves_of_step hstep)
      refine ⟨hcache, tasks_update h.tasks fun u hu => ?_, h.conns, fun number peer bytes hsent => ?_⟩
      · rcases List.mem_or_eq_of_mem_set hu with hu | rfl
        · exact h.tasks w u hu
        · exact hsound
      · rcases List.mem_append.mp hsent with hsent | hsent
        · exact h.sent number peer bytes hsent
        · obtain ⟨bytes', hphase, -, hx⟩ := mem_sends hsent
          cases hx
          exact ⟨t.data, (h.tasks w t ht_mem).taken, (h.tasks w t ht_mem).sending bytes hphase⟩
  | @joinNext w i t ht hended =>
      exact ⟨h.cache, tasks_update h.tasks fun u hu => h.tasks w u (List.mem_of_mem_eraseIdx hu),
        h.conns, h.sent⟩
  | @changed w _ _ => exact ⟨h.cache, tasks_update h.tasks (h.tasks w), h.conns, h.sent⟩
  | @drained w _ _ => exact ⟨h.cache, tasks_update h.tasks (h.tasks w), h.conns, h.sent⟩
  | @drainTimeout w _ _ =>
      refine ⟨h.cache, tasks_update h.tasks fun t ht => ?_, h.conns, h.sent⟩
      obtain ⟨t₀, ht₀, rfl⟩ := List.mem_map.mp ht
      exact ⟨(h.tasks w t₀ ht₀).taken, (h.tasks w t₀ ht₀).resolving, (h.tasks w t₀ ht₀).sending⟩
  | @accepted stream permits _ _ =>
      refine ⟨h.cache, h.tasks, fun t ht => ?_, h.sent⟩
      rcases List.mem_append.mp ht with ht | ht
      · exact h.conns t ht
      · rw [List.mem_singleton.mp ht]
        exact ConnTask.sound_accepted stream
  | @conn k act t t' cache ht hstep =>
      obtain ⟨hsound, hcache⟩ := (h.conns t (List.mem_of_getElem? ht)).step h.cache
        (honest_conn hhonest ht) hstep
      refine ⟨hcache, h.tasks, fun u hu => ?_, h.sent⟩
      rcases List.mem_or_eq_of_mem_set hu with hu | rfl
      · exact h.conns u hu
      · exact hsound
  | reap _ => exact ⟨h.cache.step (.evictExpired _) trivial, h.tasks, h.conns, h.sent⟩
  | dropped _ _ | refused _ _ | acceptChanged _ _ | reaperStops _ | shutdown _ | awaited _ _ _
  | returns _ => exact ⟨h.cache, h.tasks, h.conns, h.sent⟩

/-! ## At most one answer -/

end Service

/-- A task has a datagram in its hands. -/
def QueryTask.has {Addr : Type} (number : Nat) (t : QueryTask Addr) : Nat :=
  if t.number = number ∧ t.isEnded = false then 1 else 0

namespace Service

open Family
open Steps (Reachable)
open Utf8 (Str)

variable {Addr : Type} {n : Nat} {s s' : Service Addr n} {a : ServiceAct Addr n}

/-- How often a datagram is with a task, and how often it was answered. -/
def copies (s : Service Addr n) (number : Nat) : Nat :=
  tally (fun worker => weigh (QueryTask.has number) worker.queries) s.workers +
    (s.sent.map Prod.fst).count number

theorem copies_start (cache : Cache) (udpMaxInflight tcpMaxConnections : Nat) (number : Nat) :
    (start cache n udpMaxInflight tcpMaxConnections : Service Addr n).copies number = 0 := by
  have hnone : tally (fun worker => weigh (QueryTask.has number) worker.queries)
      (start cache n udpMaxInflight tcpMaxConnections : Service Addr n).workers = 0 :=
    tally_eq_zero fun _ => rfl
  rw [copies, hnone]
  rfl

/-- One worker changes. -/
theorem copies_le {number : Nat} (lost extra : Nat) {w : Fin n} {worker : ServiceWorker Addr}
    (hworkers : s'.workers = Function.update s.workers w worker)
    (hle : weigh (QueryTask.has number) worker.queries + (s'.sent.map Prod.fst).count number + lost ≤
      weigh (QueryTask.has number) (s.workers w).queries + (s.sent.map Prod.fst).count number + extra) :
    s'.copies number + lost ≤ s.copies number + extra := by
  have hsum := tally_update (fun worker => weigh (QueryTask.has number) worker.queries) s.workers w
    worker
  unfold copies
  rw [hworkers]
  omega

/-- A task that goes on has its datagram, or has answered it. -/
theorem has_of_moves {t t' : QueryTask Addr} {cache cache' : Cache} {act : QueryAct}
    (h : QueryTask.Moves t cache act t' cache') (number : Nat) :
    t'.has number + ((t.sends act).map Prod.fst).count number ≤ t.has number := by
  obtain ⟨hsame, hlive⟩ := h.same
  have hle : t'.has number ≤ t.has number := by
    simp only [QueryTask.has, hsame.number, hlive, and_true]
    split
    · rename_i hnumber
      rw [if_pos hnumber.1]
    · exact Nat.zero_le _
  by_cases hsend : t.sends act = []
  · rw [hsend]
    exact hle
  · obtain ⟨x, hx⟩ := List.exists_mem_of_ne_nil _ hsend
    obtain ⟨bytes, hphase, rfl, -⟩ := mem_sends hx
    cases h with
    | send _ =>
        simp [QueryTask.sends, hphase, QueryTask.has, QueryTask.isEnded, List.count_singleton]

/-- **Only a datagram that comes in makes more of it.** -/
theorem copies_step (hs : s.Step a s') (number : Nat) :
    s'.copies number ≤ s.copies number +
      if s.taken.length ≤ number ∧ number < s'.taken.length then 1 else 0 := by
  -- where no datagram comes in
  have hsame : ∀ {w : Fin n} {worker : ServiceWorker Addr},
      s'.workers = Function.update s.workers w worker →
      weigh (QueryTask.has number) worker.queries + (s'.sent.map Prod.fst).count number ≤
        weigh (QueryTask.has number) (s.workers w).queries + (s.sent.map Prod.fst).count number →
      s'.copies number ≤ s.copies number +
        if s.taken.length ≤ number ∧ number < s'.taken.length then 1 else 0 := by
    intro w worker hworkers hle
    exact Nat.le_trans (copies_le 0 0 hworkers hle) (Nat.le_add_right _ _)
  cases hs with
  | @spawned w peer bytes permits hstage hpermits =>
      refine copies_le 0 _ (w := w) rfl ?_
      simp only [weigh_append, weigh_cons, weigh_nil, QueryTask.has, QueryTask.isEnded,
        List.length_append, List.length_singleton]
      split <;> split <;> omega
  | @query w i act t t' cache ht hstep =>
      refine hsame (w := w) rfl ?_
      have hset := weigh_set (f := QueryTask.has number) ht t'
      have hhas := has_of_moves (QueryTask.moves_of_step hstep) number
      simp only [List.map_append, List.count_append]
      omega
  | @joinNext w i t ht hended =>
      refine hsame (w := w) rfl ?_
      have herase := weigh_eraseIdx (f := QueryTask.has number) ht
      simp only [setWorker]
      omega
  | @changed w _ _ => exact hsame (w := w) rfl (Nat.le_refl _)
  | @drained w _ _ => exact hsame (w := w) rfl (Nat.le_refl _)
  | @drainTimeout w _ _ =>
      refine hsame (w := w) rfl ?_
      have habort := weigh_map (f := QueryTask.has number)
        (g := fun t : QueryTask Addr => { t with aborted := true }) (fun _ => rfl) (s.workers w).queries
      simp only [setWorker, habort]
      exact Nat.le_refl _
  | _ => exact Nat.le_add_right _ _

/-- The datagrams that have been taken only become more. -/
theorem taken_step (hs : s.Step a s') : s.taken <+: s'.taken := by
  cases hs with
  | spawned _ _ => exact List.prefix_append _ _
  | _ => exact List.prefix_rfl

/-- One copy at most of what was taken, and none of anything else. -/
def Once (s : Service Addr n) : Prop :=
  ∀ number, s.copies number ≤ if number < s.taken.length then 1 else 0

theorem Once.step (h : s.Once) (hs : s.Step a s') : s'.Once := by
  intro number
  have hstep := copies_step hs number
  have hbefore := h number
  have hlen := (taken_step hs).length_le
  split at hstep <;> split at hbefore <;> split <;> omega

theorem Once.sent_nodup (h : s.Once) : (s.sent.map Prod.fst).Nodup := by
  refine List.nodup_iff_count_le_one.mpr fun number => ?_
  have hone := h number
  unfold copies at hone
  split at hone <;> omega

/--
**Every answer goes to its client, once.** In every run of the server, with as many queries under way
at the same time as there are permits, on all workers: no datagram is answered twice; whatever was
sent went to the sender of a datagram that was taken, is what `handle_query` may send for that
datagram on a cache that a server can have, and encodes a response with the id of the query in it.
-/
theorem datagrams_answered_once (hashing : Hashing) (capacity : UInt64) (cap : UInt32)
    (n udpMaxInflight tcpMaxConnections : Nat) (s : Service Addr n)
    (h : Reachable (start (Cache.new hashing capacity cap) n udpMaxInflight tcpMaxConnections) Step
      Honest s) :
    (s.sent.map Prod.fst).Nodup ∧
      ∀ number peer bytes, (number, peer, bytes) ∈ s.sent →
        ∃ data query, ∃ reply : Message, s.taken[number]? = some (peer, data) ∧ Handles data (.ok bytes) ∧
          Message.parse data = .ok query ∧ reply.toBytes = .ok bytes ∧
          reply.header.id = query.header.id ∧ reply.header.isResponse = true := by
  have honce : s.Once := by
    refine h.invariant (fun number => ?_) fun _ _ _ hI hs => hI.step hs
    rw [copies_start]
    exact Nat.zero_le _
  have hsound : s.Sound := h.invariant_of_ok
    (sound_start hashing capacity cap n udpMaxInflight tcpMaxConnections)
    fun _ _ _ hI hok hs => hI.step hok hs
  refine ⟨honce.sent_nodup, fun number peer bytes hsent => ?_⟩
  obtain ⟨data, hdata, hhandles⟩ := hsound.sent number peer bytes hsent
  obtain ⟨query, reply, hparse, hbytes, hreplies⟩ := hhandles.replies
  exact ⟨data, query, reply, hdata, hhandles, hparse, hbytes, hreplies.id, hreplies.response⟩

/-- The network takes every reply, and no task is stopped before its end. -/
def Smooth : ServiceAct Addr n → Prop
  | .query _ _ .sendFails | .query _ _ .cancelled => False
  | _ => True

/-- The SERVFAIL reply to a query for the root. -/
def rootServfail : List UInt8 := [0, 7, 0x80, 2, 0, 1, 0, 0, 0, 0, 0, 0, 0, 0, 1, 0, 1]

theorem toBytes_rootServfail : (buildServfail (queryFor Str.empty)).toBytes = .ok rootServfail := by
  decide +kernel

theorem udpDatagram_rootServfail :
    udpDatagram (queryFor Str.empty) (buildServfail (queryFor Str.empty)) = .ok rootServfail := by
  decide +kernel

/-- One query, which the resolver had no answer to. -/
theorem exists_rootServed : ∃ s : Service Nat 1,
    Reachable (start (Cache.new Cache.plainHashing 10 300) 1 10 10) Step
      (fun s a => Honest s a ∧ Smooth a) s ∧
      s.taken = [(4, rootQuery)] ∧ s.sent = [(0, 4, rootServfail)] := by
  let t : QueryTask Nat :=
    { number := 0, peer := 4, data := rootQuery, phase := .resolving (queryFor Str.empty) }
  have hstart : ({ t with phase := .spawned } : QueryTask Nat).step
      (Cache.new Cache.plainHashing 10 300) (.start 0) =
      some (t, Cache.new Cache.plainHashing 10 300) := rfl
  have hfail : ∀ cache, t.step cache (.resolved (.error .timeout) (fun _ => .asStored) 0) =
      some ({ t with phase := .sending rootServfail }, cache) := by
    intro cache
    simp [QueryTask.step, t, resolvedReply, QueryTask.respond, udpDatagram_rootServfail]
  have hinit : Reachable (start (Cache.new Cache.plainHashing 10 300) 1 10 10 : Service Nat 1) Step
    (fun s a => Honest s a ∧ Smooth a) _ := .init
  have hspawned := hinit.step (a := ServiceAct.datagram 0 4 rootQuery) ⟨trivial, trivial⟩
    (.spawned rfl rfl)
  have hmiss := hspawned.step (a := ServiceAct.query 0 0 (.start 0)) ⟨trivial, trivial⟩
    (.query rfl hstart)
  have hfailed := hmiss.step
    (a := ServiceAct.query 0 0 (.resolved (.error .timeout) (fun _ => .asStored) 0))
    ⟨fun _ query msg _ _ hmsg => validated_failedResolver query msg hmsg, trivial⟩
    (.query rfl (hfail _))
  have hsent := hfailed.step (a := ServiceAct.query 0 0 .send) ⟨trivial, trivial⟩ (.query rfl rfl)
  exact ⟨_, hsent, rfl, rfl⟩

theorem rootServed_once : ∃ s : Service Nat 1, s.sent = [(0, 4, rootServfail)] ∧
    ∃ data query, ∃ reply : Message, s.taken[0]? = some (4, data) ∧ Message.parse data = .ok query ∧
      reply.toBytes = .ok rootServfail ∧ reply.header.id = query.header.id := by
  obtain ⟨s, hs, -, hsent⟩ := exists_rootServed
  obtain ⟨-, hall⟩ := datagrams_answered_once Cache.plainHashing 10 300 1 10 10 s
    (hs.mono fun _ _ hok => hok.1)
  obtain ⟨data, query, reply, hdata, -, hparse, hbytes, hid, -⟩ := hall 0 4 rootServfail
    (by rw [hsent]; exact List.mem_singleton_self _)
  exact ⟨s, hsent, data, query, reply, hdata, hparse, hbytes, hid⟩

/-! ## Nothing is forgotten -/

/-- A task has the datagram. -/
def Held (s : Service Addr n) (number : Nat) : Prop :=
  ∃ w, ∃ t ∈ (s.workers w).queries, t.number = number ∧ t.isEnded = false

/-- One worker changes, and those of its tasks that have the datagram do not let go of it. -/
theorem Held.update {number : Nat} (h : s.Held number) {w : Fin n} {worker : ServiceWorker Addr}
    (hworkers : s'.workers = Function.update s.workers w worker)
    (hw : ∀ t ∈ (s.workers w).queries, t.number = number → t.isEnded = false →
      ∃ t' ∈ worker.queries, t'.number = number ∧ t'.isEnded = false) : s'.Held number := by
  obtain ⟨u, t, ht, hnumber, hlive⟩ := h
  by_cases hu : u = w
  · subst hu
    obtain ⟨t', ht', hparts⟩ := hw t ht hnumber hlive
    exact ⟨u, t', by rw [hworkers, Function.update_self]; exact ht', hparts⟩
  · exact ⟨u, t, by rw [hworkers, Function.update_of_ne hu]; exact ht, hnumber, hlive⟩

theorem mem_set_of_ne {α : Type} {l : List α} {i : Nat} {x y : α} (hy : l[i]? = some y) (hx : x ∈ l)
    (hne : x ≠ y) (z : α) : x ∈ l.set i z := by
  obtain ⟨j, hj⟩ := List.mem_iff_getElem?.mp hx
  have hij : i ≠ j := by
    rintro rfl
    rw [hy] at hj
    exact hne (Option.some.inj hj).symm
  exact List.mem_of_getElem? (i := j) (by rw [List.getElem?_set_ne hij]; exact hj)

/-- What has become of a datagram that was taken. -/
inductive Fate (s : Service Addr n) (number : Nat) (peer : Addr) (data : List UInt8) : Prop where
  | held : s.Held number → Fate s number peer data
  | answered {bytes : List UInt8} : (number, peer, bytes) ∈ s.sent → Fate s number peer data
  /-- There is no answer to it. -/
  | unanswered {e : Abort QueryError} : Handles data (.error e) → s.copies number = 0 →
      Fate s number peer data

/-- Something has become of every datagram. -/
def Accounted (s : Service Addr n) : Prop :=
  ∀ number peer data, s.taken[number]? = some (peer, data) → s.Fate number peer data

/-- A datagram that was taken before stays accounted for, if whoever has it keeps it. -/
theorem Fate.step {number : Nat} {peer : Addr} {data : List UInt8} (h : s.Fate number peer data)
    (hs : s.Step a s') (htaken : number < s.taken.length)
    (hheld : s.Held number → s'.Fate number peer data) : s'.Fate number peer data := by
  cases h with
  | held h => exact hheld h
  | answered hsent =>
      cases hs with
      | query _ _ => exact .answered (List.mem_append_left _ hsent)
      | _ => exact .answered hsent
  | unanswered herr hnone =>
      refine .unanswered herr ?_
      have hstep := copies_step hs number
      rw [if_neg (by omega)] at hstep
      omega

/-- **A task that has a datagram keeps it until the datagram is accounted for.** -/
theorem fate_of_query (hsound : s.Sound) (honce : s.Once) {w : Fin n} {i : Nat} {act : QueryAct}
    {t t' : QueryTask Addr} {cache : Cache} (hhonest : s.Honest (.query w i act))
    (hsmooth : Smooth (n := n) (.query w i act : ServiceAct Addr n))
    (ht : (s.workers w).queries[i]? = some t) (hm : QueryTask.Moves t s.cache act t' cache)
    (hworkers : s'.workers = Function.update s.workers w
      { s.workers w with queries := (s.workers w).queries.set i t' })
    (hsent : s'.sent = s.sent ++ t.sends act) {number : Nat} {peer : Addr} {data : List UInt8}
    (htaken : s.taken[number]? = some (peer, data)) (hheld : s.Held number) :
    s'.Fate number peer data := by
  have ht_mem := List.mem_of_getElem? ht
  have htask := hsound.tasks w t ht_mem
  obtain ⟨hsame, hlive⟩ := hm.same
  by_cases hnumber : t.number = number
  · -- it is this one's
    have hdata : t.peer = peer ∧ t.data = data := by
      have htaken' := htask.taken
      rw [hnumber, htaken] at htaken'
      cases htaken'
      exact ⟨rfl, rfl⟩
    by_cases hended : t'.isEnded
    · obtain ⟨-, -, hend⟩ := htask.step hsound.cache (honest_query hhonest ht) hm
      rcases hend hended with ⟨hnone, e, he⟩ | ⟨bytes, rfl, hphase⟩ | rfl | rfl
      · refine .unanswered (hdata.2 ▸ he) ?_
        -- this was the only copy
        have hset := weigh_set (f := QueryTask.has number) ht t'
        have hone : t.has number = 1 := if_pos ⟨hnumber, hlive⟩
        have hzero : t'.has number = 0 := if_neg (by simp [hended])
        have hlost : s'.copies number + 1 ≤ s.copies number + 0 := by
          refine copies_le 1 0 hworkers ?_
          rw [hsent, hnone, List.append_nil]
          dsimp only
          omega
        have hbefore := honce number
        split at hbefore <;> omega
      · refine .answered (?_ : (number, peer, bytes) ∈ s'.sent)
        rw [hsent, ← hnumber, ← hdata.1]
        exact List.mem_append_right _ (by simp [QueryTask.sends, hphase])
      · exact absurd hsmooth id
      · exact absurd hsmooth id
    · refine .held ⟨w, t', ?_, hsame.number.trans hnumber, by simpa using hended⟩
      rw [hworkers, Function.update_self]
      exact List.mem_set (List.getElem?_eq_some_iff.mp ht).1 t'
  · refine .held (hheld.update hworkers fun t₂ ht₂ hnumber₂ hlive₂ => ⟨t₂, ?_, hnumber₂, hlive₂⟩)
    refine mem_set_of_ne ht ht₂ ?_ t'
    rintro rfl
    exact hnumber hnumber₂

theorem Accounted.step (h : s.Accounted) (hsound : s.Sound) (honce : s.Once) (hhonest : s.Honest a)
    (hsmooth : Smooth a) (hs : s.Step a s') : s'.Accounted := by
  intro number peer data htaken
  -- a datagram that was there before
  have hold : (s.taken[number]? = some (peer, data) → s.Held number → s'.Fate number peer data) →
      s.taken[number]? = some (peer, data) → s'.Fate number peer data := fun hheld hbefore =>
    (h number peer data hbefore).step hs (List.getElem?_eq_some_iff.mp hbefore).1 (hheld hbefore)
  cases hs with
  | @spawned w peer' bytes permits hstage hpermits =>
      rcases Nat.lt_or_ge number s.taken.length with hlt | hge
      · have hbefore : s.taken[number]? = some (peer, data) := by
          rwa [List.getElem?_append_left hlt] at htaken
        refine hold (fun _ hheld => .held (hheld.update (w := w) rfl fun t ht hnumber hlive => ?_)) hbefore
        exact ⟨t, List.mem_append_left _ ht, hnumber, hlive⟩
      · -- the new one
        have hlen := (List.getElem?_eq_some_iff.mp htaken).1
        simp only [List.length_append, List.length_singleton] at hlen
        have hnumber : s.taken.length = number := by omega
        refine .held ⟨w, { number := s.taken.length, peer := peer', data := bytes.take maxUdpSize },
          ?_, hnumber, rfl⟩
        dsimp only
        rw [Function.update_self]
        exact List.mem_append_right _ (List.mem_singleton_self _)
  | @query w i act t t' cache ht hstep =>
      exact hold (fun hbefore hheld => fate_of_query hsound honce hhonest hsmooth ht
        (QueryTask.moves_of_step hstep) rfl rfl hbefore hheld) htaken
  | @joinNext w i t ht hended =>
      refine hold (fun _ hheld => .held (hheld.update (w := w) rfl fun t₂ ht₂ hnumber hlive =>
        ⟨t₂, ?_, hnumber, hlive⟩)) htaken
      obtain ⟨j, hj⟩ := List.mem_iff_getElem?.mp ht₂
      refine List.mem_eraseIdx_iff_getElem?.mpr ⟨j, ?_, hj⟩
      rintro rfl
      rw [ht] at hj
      cases hj
      rw [hended] at hlive
      cases hlive
  | @changed w _ _ =>
      exact hold (fun _ hheld => .held (hheld.update (w := w) rfl fun t ht hnumber hlive =>
        ⟨t, ht, hnumber, hlive⟩)) htaken
  | @drained w _ _ =>
      exact hold (fun _ hheld => .held (hheld.update (w := w) rfl fun t ht hnumber hlive =>
        ⟨t, ht, hnumber, hlive⟩)) htaken
  | @drainTimeout w _ _ =>
      exact hold (fun _ hheld => .held (hheld.update (w := w) rfl fun t ht hnumber hlive =>
        ⟨_, List.mem_map_of_mem ht, hnumber, hlive⟩)) htaken
  | _ => exact hold (fun _ hheld => .held hheld) htaken

/--
**No datagram is forgotten.** In every run in which the network takes all replies and no task is
stopped before its end: a datagram that was taken is still with a task; or it was answered, with what
`handle_query` may send for it; or `handle_query` may fail on it, and nothing was sent.
-/
theorem datagrams_settled (hashing : Hashing) (capacity : UInt64) (cap : UInt32)
    (n udpMaxInflight tcpMaxConnections : Nat) (s : Service Addr n)
    (h : Reachable (start (Cache.new hashing capacity cap) n udpMaxInflight tcpMaxConnections) Step
      (fun s a => Honest s a ∧ Smooth a) s)
    (number : Nat) (peer : Addr) (data : List UInt8) (htaken : s.taken[number]? = some (peer, data)) :
    (∃ w, ∃ t ∈ (s.workers w).queries, t.number = number ∧ t.isEnded = false) ∨
      (∃ bytes, (number, peer, bytes) ∈ s.sent ∧ Handles data (.ok bytes)) ∨
      (∃ e, Handles data (.error e)) ∧ ∀ x ∈ s.sent, x.1 ≠ number := by
  have hall : s.Sound ∧ s.Once ∧ s.Accounted := by
    refine h.invariant_of_ok (P := fun s => s.Sound ∧ s.Once ∧ s.Accounted)
      ⟨sound_start hashing capacity cap n udpMaxInflight tcpMaxConnections, fun number => ?_, ?_⟩ ?_
    · rw [copies_start]
      exact Nat.zero_le _
    · intro number peer data htaken
      cases htaken
    · rintro s a s' ⟨hsound, honce, haccounted⟩ ⟨hhonest, hsmooth⟩ hs
      exact ⟨hsound.step hhonest hs, honce.step hs, haccounted.step hsound honce hhonest hsmooth hs⟩
  obtain ⟨hsound, -, haccounted⟩ := hall
  cases haccounted number peer data htaken with
  | held hheld => exact .inl hheld
  | @answered bytes hsent =>
      obtain ⟨data', hdata', hhandles⟩ := hsound.sent number peer bytes hsent
      rw [htaken] at hdata'
      cases hdata'
      exact .inr (.inl ⟨bytes, hsent, hhandles⟩)
  | @unanswered e he hnone =>
      refine .inr (.inr ⟨⟨e, he⟩, fun x hx hnumber => ?_⟩)
      have hcount : 0 < (s.sent.map Prod.fst).count number :=
        List.count_pos_iff.mpr (hnumber ▸ List.mem_map_of_mem hx)
      unfold copies at hnone
      omega

theorem rootServed_settled : ∃ s : Service Nat 1, s.taken[0]? = some (4, rootQuery) ∧
    ((∃ w, ∃ t ∈ (s.workers w).queries, t.number = 0 ∧ t.isEnded = false) ∨
      (∃ bytes, (0, 4, bytes) ∈ s.sent ∧ Handles rootQuery (.ok bytes)) ∨
      (∃ e, Handles rootQuery (.error e)) ∧ ∀ x ∈ s.sent, x.1 ≠ 0) := by
  obtain ⟨s, hs, htaken, -⟩ := exists_rootServed
  have hfirst : s.taken[0]? = some (4, rootQuery) := by
    rw [htaken]
    rfl
  exact ⟨s, hfirst, datagrams_settled Cache.plainHashing 10 300 1 10 10 s hs 0 4 rootQuery hfirst⟩

/-! ## Connections -/

/--
**Every connection is answered in order.** In every run of the server and on every connection: what
was written is a sequence of whole frames, one for each query that was read and in the order in which
they stood on the stream, each with what `handle_conn` may write for its query on a cache that a
server can have; and as long as the connection waits for the next query, none is left unanswered. A
write is taken whole: one that breaks off has written nothing here.
-/
theorem connections_answered (hashing : Hashing) (capacity : UInt64) (cap : UInt32)
    (n udpMaxInflight tcpMaxConnections : Nat) (s : Service Addr n)
    (h : Reachable (start (Cache.new hashing capacity cap) n udpMaxInflight tcpMaxConnections) Step
      Honest s) (conn : ConnTask) (hconn : conn ∈ s.conns) :
    ∃ bodies replies rest, conn.stream = bodies.flatMap frame ++ rest ∧
      readFrames replies.length conn.output = replies.map some ∧
      conn.output = replies.flatMap frame ∧
      List.Forall₂ (fun body bytes => ConnHandles body bytes ∧ ∃ query reply : Message,
        Message.parse body = .ok query ∧ reply.toBytes = .ok bytes ∧
          reply.header.id = query.header.id ∧ reply.header.isResponse = true) bodies replies ∧
      (conn.phase = .reading → rest = conn.input) := by
  have hsound : s.Sound := h.invariant_of_ok
    (sound_start hashing capacity cap n udpMaxInflight tcpMaxConnections)
    fun _ _ _ hI hok hs => hI.step hok hs
  obtain ⟨bodies, replies, rest, hans, hnext⟩ := hsound.conns conn hconn
  refine ⟨bodies, replies, rest, hans.stream, ?_, hans.output, ?_, fun hphase => ?_⟩
  · rw [hans.output]
    exact readFrames_flatMap hans.framable
  · refine hans.handled.imp fun body bytes hhandles => ⟨hhandles, ?_⟩
    obtain ⟨query, reply, hparse, hbytes, hreplies⟩ := hhandles.replies
    exact ⟨query, reply, hparse, hbytes, hreplies.id, hreplies.response⟩
  · rw [ConnTask.Next, hphase] at hnext
    exact hnext

/-- The same over TCP. -/
theorem exists_rootConnection : ∃ s : Service Nat 1,
    Reachable (start (Cache.new Cache.plainHashing 10 300) 1 10 10) Step Honest s ∧
      ∃ conn ∈ s.conns, conn.stream = frame rootQuery ∧ conn.output = frame rootServfail := by
  let t : ConnTask :=
    { stream := frame rootQuery, input := [], phase := .resolving (queryFor Str.empty) }
  have hread : ({ stream := frame rootQuery } : ConnTask).step (Cache.new Cache.plainHashing 10 300)
      (.frame 0) = some (t, Cache.new Cache.plainHashing 10 300) := rfl
  have hfail : ∀ cache, t.step cache (.resolved (.error .timeout) (fun _ => .asStored) 0) =
      some ({ t with phase := .writing rootServfail }, cache) := by
    intro cache
    simp [ConnTask.step, t, resolvedReply, ConnTask.respond, toBytes_rootServfail]
  have hinit : Reachable (start (Cache.new Cache.plainHashing 10 300) 1 10 10 : Service Nat 1) Step
    Honest _ := .init
  have haccepted := hinit.step (a := ServiceAct.accept (frame rootQuery)) trivial (.accepted rfl rfl)
  have hmiss := haccepted.step (a := ServiceAct.conn 0 (.frame 0)) trivial (.conn rfl hread)
  have hfailed := hmiss.step
    (a := ServiceAct.conn 0 (.resolved (.error .timeout) (fun _ => .asStored) 0))
    (fun _ query msg _ _ hmsg => validated_failedResolver query msg hmsg) (.conn rfl (hfail _))
  have hwritten := hfailed.step (a := ServiceAct.conn 0 .written) trivial (.conn rfl rfl)
  exact ⟨_, hwritten, _, List.mem_singleton_self _, rfl, rfl⟩

theorem rootConnection_answered : ∃ s : Service Nat 1, ∃ conn ∈ s.conns,
    conn.output = frame rootServfail ∧ ∃ bodies replies rest,
      conn.stream = bodies.flatMap frame ++ rest ∧
      readFrames replies.length conn.output = replies.map some ∧
      List.Forall₂ ConnHandles bodies replies := by
  obtain ⟨s, hs, conn, hconn, -, houtput⟩ := exists_rootConnection
  obtain ⟨bodies, replies, rest, hstream, hread, -, hall, -⟩ :=
    connections_answered Cache.plainHashing 10 300 1 10 10 s hs conn hconn
  exact ⟨s, conn, hconn, houtput, bodies, replies, rest, hstream, hread, hall.imp fun _ _ h => h.1⟩

end Service

end Dnser
