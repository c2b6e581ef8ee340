import Dnser.Proof.CacheSize
import Dnser.Proof.Drain
import Dnser.Proof.Forward
import Dnser.Server.Service

/-!
# What the server at work has to do with its tasks

The server of `Dnser.Server.Service` is the one of `Dnser.Server.Shutdown` with contents. Forgetting
them (`Service.server`), every step is a step there or cannot be seen at all, so whatever holds of
the tasks in every run holds of them here: that permits are conserved, how `shutdown` comes to its
end, and what is left afterwards.
-/

namespace Dnser

open Steps (Reachable)

/-! ## What a task can do -/

namespace QueryTask

variable {Addr : Type} {t t' : QueryTask Addr} {cache cache' : Cache} {act : QueryAct}

/-- The same datagram, from the same sender. -/
structure Same (t t' : QueryTask Addr) : Prop where
  number : t'.number = t.number
  peer : t'.peer = t.peer
  data : t'.data = t.data
  aborted : t'.aborted = t.aborted

theorem same_respond (t : QueryTask Addr) (query response : Message) :
    Same t (t.respond query response) := by
  unfold respond
  split <;> exact ⟨rfl, rfl, rfl, rfl⟩

/-- The steps of a task, with what they need. -/
inductive Moves (t : QueryTask Addr) (cache : Cache) : QueryAct → QueryTask Addr → Cache → Prop where
  | unparsable {now : Nat} {e : Abort ParseError} : t.phase = .spawned →
      Message.parse t.data = .error e → Moves t cache (.start now) { t with phase := .ended } cache
  | hit {now : Nat} {query reply : Message} : t.phase = .spawned →
      Message.parse t.data = .ok query → localReply cache query now = some reply →
      Moves t cache (.start now) (t.respond query reply) cache
  | miss {now : Nat} {query : Message} : t.phase = .spawned →
      Message.parse t.data = .ok query → localReply cache query now = none →
      Moves t cache (.start now) { t with phase := .resolving query } cache
  | resolved {outcome : Except ResolveError Message} {order : Fin numShards → ShardOrder} {now : Nat}
      {query : Message} : t.phase = .resolving query →
      Moves t cache (.resolved outcome order now)
        (t.respond query (resolvedReply cache query { outcome, now, order }).1)
        (resolvedReply cache query { outcome, now, order }).2
  | send {bytes : List UInt8} : t.phase = .sending bytes →
      Moves t cache .send { t with phase := .ended } cache
  | sendFails {bytes : List UInt8} : t.phase = .sending bytes →
      Moves t cache .sendFails { t with phase := .ended } cache
  | cancelled : t.aborted → t.isEnded = false →
      Moves t cache .cancelled { t with phase := .ended } cache

theorem moves_of_step (h : t.step cache act = some (t', cache')) : Moves t cache act t' cache' := by
  cases act with
  | start now =>
      simp only [step] at h
      split at h
      · rename_i hphase
        split at h
        · rename_i hparse
          cases h
          exact .unparsable hphase hparse
        · rename_i hparse
          split at h
          · rename_i hlocal
            cases h
            exact .hit hphase hparse hlocal
          · rename_i hlocal
            cases h
            exact .miss hphase hparse hlocal
      · cases h
  | resolved outcome order now =>
      simp only [step] at h
      split at h
      · rename_i hphase
        cases h
        exact .resolved hphase
      · cases h
  | send =>
      simp only [step] at h
      split at h
      · rename_i hphase
        cases h
        exact .send hphase
      · cases h
  | sendFails =>
      simp only [step] at h
      split at h
      · rename_i hphase
        cases h
        exact .sendFails hphase
      · cases h
  | cancelled =>
      simp only [step] at h
      split at h
      · cases h
      · rename_i haborted hphase
        cases h
        refine .cancelled haborted ?_
        unfold isEnded
        split
        · rename_i hended
          exact absurd hended hphase
        · rfl
      · cases h

/-- A task goes on about its datagram, and only before its end. -/
theorem Moves.same (h : Moves t cache act t' cache') : Same t t' ∧ t.isEnded = false := by
  have hphase : ∀ phase, t.phase = phase → phase ≠ .ended → t.isEnded = false := by
    intro phase hp hne
    unfold isEnded
    split
    · rename_i hended
      exact absurd (hp.symm.trans hended) hne
    · rfl
  cases h with
  | unparsable hp _ => exact ⟨⟨rfl, rfl, rfl, rfl⟩, hphase _ hp (by simp)⟩
  | hit hp _ _ => exact ⟨same_respond _ _ _, hphase _ hp (by simp)⟩
  | miss hp _ _ => exact ⟨⟨rfl, rfl, rfl, rfl⟩, hphase _ hp (by simp)⟩
  | resolved hp => exact ⟨same_respond _ _ _, hphase _ hp (by simp)⟩
  | send hp => exact ⟨⟨rfl, rfl, rfl, rfl⟩, hphase _ hp (by simp)⟩
  | sendFails hp => exact ⟨⟨rfl, rfl, rfl, rfl⟩, hphase _ hp (by simp)⟩
  | cancelled _ hended => exact ⟨⟨rfl, rfl, rfl, rfl⟩, hended⟩

/-- A task, as its handle sees it. -/
def task (t : QueryTask Addr) : Task :=
  if t.isEnded then .finished else if t.aborted then .aborted else .running

theorem task_eq_finished_iff : t.task = .finished ↔ t.isEnded := by
  unfold task
  split
  · simp [*]
  · split <;> simp [*]

/-- Before its end and after it. -/
theorem task_of_moves (h : Moves t cache act t' cache') :
    t.task ≠ .finished ∧ t'.task = if t'.isEnded then .finished else t.task := by
  obtain ⟨hsame, hended⟩ := h.same
  refine ⟨fun hfin => ?_, ?_⟩
  · rw [task_eq_finished_iff.mp hfin] at hended
    cases hended
  · simp only [task, hended, hsame.aborted]
    split <;> rfl

end QueryTask

namespace ConnTask

variable {t t' : ConnTask} {cache cache' : Cache} {act : ConnTaskAct}

/-- A connection, as `Dnser.Server.Shutdown` has it. -/
def conn (t : ConnTask) : Conn :=
  match t.phase with
  | .reading => .reading
  | .resolving _ | .writing _ => .answering
  | .closed => .closed

theorem conn_eq_closed_iff : t.conn = .closed ↔ t.isClosed := by
  unfold conn isClosed
  split <;> simp_all

theorem conn_respond (t : ConnTask) (response : Message) :
    (t.respond response).conn = .answering ∨ (t.respond response).conn = .closed := by
  unfold respond
  split
  · exact .inl rfl
  · exact .inr rfl

/-- **A step of a connection is seen as one, or not at all.** -/
theorem conn_of_step (h : t.step cache act = some (t', cache')) :
    (t'.conn = t.conn ∧ t'.isClosed = false) ∨ ∃ a, t.conn.step a = some t'.conn := by
  -- from a phase to one that looks like this
  have hread : t.phase = .reading → t'.conn = .answering ∨ t'.conn = .closed →
      ∃ a, t.conn.step a = some t'.conn := by
    intro hphase hnew
    have hold : t.conn = .reading := by simp [conn, hphase]
    rcases hnew with hnew | hnew
    · exact ⟨.frame, by rw [hold, hnew]; rfl⟩
    · exact ⟨.close, by rw [hold, hnew]; rfl⟩
  cases act with
  | frame now =>
      simp only [step] at h
      split at h
      · rename_i hphase
        split at h
        · cases h
          exact .inr (hread hphase (.inr rfl))
        · split at h
          · cases h
            exact .inr (hread hphase (.inr rfl))
          · split at h
            · cases h
              exact .inr (hread hphase (conn_respond _ _))
            · cases h
              exact .inr (hread hphase (.inl rfl))
      · cases h
  | resolved outcome order now =>
      simp only [step] at h
      split at h
      · rename_i hphase
        cases h
        have hold : t.conn = .answering := by simp [conn, hphase]
        rcases conn_respond t (resolvedReply cache _ { outcome, now, order }).1 with hnew | hnew
        · refine .inl ⟨by rw [hnew, hold], Bool.eq_false_iff.mpr fun hclosed => ?_⟩
          rw [← conn_eq_closed_iff, hnew] at hclosed
          cases hclosed
        · exact .inr ⟨.close, by rw [hold, hnew]; rfl⟩
      · cases h
  | written =>
      simp only [step] at h
      split at h
      · rename_i hphase
        have hold : t.conn = .answering := by simp [conn, hphase]
        split at h
        · cases h
          exact .inr ⟨.reply, by rw [hold]; rfl⟩
        · cases h
          exact .inr ⟨.close, by rw [hold]; rfl⟩
      · cases h
  | close =>
      simp only [step] at h
      split at h
      · cases h
      · rename_i hphase
        cases h
        refine .inr ⟨.close, ?_⟩
        cases hconn : t.conn with
        | closed =>
            rw [conn_eq_closed_iff] at hconn
            unfold isClosed at hconn
            split at hconn
            · rename_i hclosed
              exact absurd hclosed hphase
            · cases hconn
        | reading | answering => rfl

end ConnTask

/-! ## Forgetting the contents -/

theorem Worker.withQueries_self (w : Worker) : w.withQueries w.queries = w := by
  cases w <;> rfl

/-- Aborted is aborted. -/
theorem QueryTask.task_abort {Addr : Type} (t : QueryTask Addr) :
    ({ t with aborted := true } : QueryTask Addr).task = t.task.abort := by
  have hended : ({ t with aborted := true } : QueryTask Addr).isEnded = t.isEnded := rfl
  unfold task
  rw [hended]
  split
  · rfl
  · rw [if_pos rfl]
    split <;> rfl

/-- A worker, as `Dnser.Server.Shutdown` has it. -/
def ServiceWorker.worker {Addr : Type} (w : ServiceWorker Addr) : Worker :=
  match w.stage with
  | .running => .running (w.queries.map QueryTask.task)
  | .draining => .draining (w.queries.map QueryTask.task)
  | .aborting => .aborting (w.queries.map QueryTask.task)
  | .done => .done

namespace ServiceWorker

variable {Addr : Type} {w : ServiceWorker Addr}

theorem queries_worker (h : w.stage ≠ .done) : w.worker.queries = w.queries.map QueryTask.task := by
  unfold worker
  split
  · rfl
  · rfl
  · rfl
  · rename_i hstage
    exact absurd hstage h

theorem worker_ne_done (h : w.stage ≠ .done) : w.worker ≠ .done := by
  unfold worker
  split
  · simp
  · simp
  · simp
  · rename_i hstage
    exact absurd hstage h

theorem worker_eq_done_iff : w.worker = .done ↔ w.stage = .done := by
  constructor
  · intro hdone
    by_contra hstage
    exact worker_ne_done hstage hdone
  · intro hstage
    simp [worker, hstage]

/-- Another `JoinSet` is another `JoinSet`. -/
theorem withQueries_worker (h : w.stage ≠ .done) (qs : List (QueryTask Addr)) :
    ({ w with queries := qs } : ServiceWorker Addr).worker =
      w.worker.withQueries (qs.map QueryTask.task) := by
  unfold worker
  dsimp only
  split
  · rfl
  · rfl
  · rfl
  · rename_i hstage
    exact absurd hstage h

end ServiceWorker

namespace Service

variable {Addr : Type} {n : Nat} {s s' : Service Addr n} {a : ServiceAct Addr n}

/-- The tasks, without what they do. -/
def server (s : Service Addr n) : Server n :=
  { workers := fun w => (s.workers w).worker
    udpInflight := s.udpInflight
    tcpWorker := s.tcpWorker
    conns := s.conns.map ConnTask.conn
    tcpConnections := s.tcpConnections
    reaper := s.reaper
    shutdown := s.shutdown }

/-- A worker that is done has nothing in its `JoinSet`. -/
def Emptied (s : Service Addr n) : Prop := ∀ w, (s.workers w).stage = .done → (s.workers w).queries = []

theorem emptied_start (cache : Cache) (udpMaxInflight tcpMaxConnections : Nat) :
    (start cache n udpMaxInflight tcpMaxConnections : Service Addr n).Emptied :=
  fun _ h => nomatch h

/-- One worker changes. -/
theorem Emptied.update (h : s.Emptied) {w : Fin n} {worker : ServiceWorker Addr}
    (hw : worker.stage = .done → worker.queries = []) (u : Fin n) :
    (Function.update s.workers w worker u).stage = .done →
      (Function.update s.workers w worker u).queries = [] := by
  by_cases hu : u = w
  · rw [hu, Function.update_self]
    exact hw
  · rw [Function.update_of_ne hu]
    exact h u

theorem Emptied.stage_ne (h : s.Emptied) {w : Fin n} {i : Nat} {t : QueryTask Addr}
    (ht : (s.workers w).queries[i]? = some t) : (s.workers w).stage ≠ .done := by
  intro hdone
  rw [h w hdone] at ht
  cases ht

theorem Emptied.step (h : s.Emptied) (hs : s.Step a s') : s'.Emptied := by
  cases hs with
  | dropped _ _ => exact h
  | spawned _ _ => exact h.update fun hdone => nomatch hdone
  | query ht _ => exact h.update fun hdone => absurd hdone (h.stage_ne ht)
  | joinNext ht _ => exact h.update fun hdone => absurd hdone (h.stage_ne ht)
  | @changed w _ _ =>
      refine h.update fun hdone => ?_
      dsimp only at hdone ⊢
      split at hdone
      · cases hdone
      · rename_i hlen
        exact List.length_eq_zero_iff.mp (by omega)
  | drained _ hnil => exact h.update fun _ => hnil
  | drainTimeout _ _ => exact h.update fun hdone => nomatch hdone
  | _ => exact h

theorem workers_update (workers : Fin n → ServiceWorker Addr) (w : Fin n)
    (worker : ServiceWorker Addr) :
    (fun u => (Function.update workers w worker u).worker) =
      Function.update (fun u => (workers u).worker) w worker.worker := by
  funext u
  by_cases hu : u = w
  · rw [hu, Function.update_self, Function.update_self]
  · rw [Function.update_of_ne hu, Function.update_of_ne hu]

/-- A step of a worker is one of the tasks. -/
theorem step_worker (w : Fin n) (act : WorkerAct) (permits : Nat) {worker : ServiceWorker Addr}
    (hw : (s.workers w).worker.step s.server.signalled s.udpInflight act =
      some (worker.worker, permits))
    (hworkers : s'.workers = Function.update s.workers w worker) (hpermits : s'.udpInflight = permits)
    (hrest : { s'.server with workers := s.server.workers, udpInflight := s.udpInflight } = s.server) :
    s.server.Step (.worker w act) s'.server := by
  have hserver : s'.server = { s.server with
      workers := Function.update s.server.workers w worker.worker, udpInflight := permits } := by
    rw [← hrest]
    simp only [server, hworkers, workers_update, hpermits]
  rw [hserver]
  exact Server.acts_iff.mpr (.worker hw)

/-- **Every step is a step of the tasks, or cannot be seen of them.** -/
theorem server_step (h : s.Emptied) (hs : s.Step a s') :
    s'.server = s.server ∨ ∃ b, s.server.Step b s'.server := by
  have hsignalled : s.shutdown ≠ .notCalled → s.server.signalled = true := by
    intro hsd
    simp [Server.signalled, server, hsd]
  cases hs with
  | dropped _ _ => exact .inl rfl
  | @spawned w peer bytes permits hstage hpermits =>
      refine .inr ⟨_, step_worker w .datagram permits ?_ rfl rfl rfl⟩
      simp [ServiceWorker.worker, hstage, Worker.step, hpermits, QueryTask.task, QueryTask.isEnded]
  | @query w i act t t' cache ht hstep =>
      have hstage := h.stage_ne ht
      obtain ⟨hlive, htask⟩ := QueryTask.task_of_moves (QueryTask.moves_of_step hstep)
      have hget : (s.workers w).worker.queries[i]? = some t.task := by
        rw [ServiceWorker.queries_worker hstage, List.getElem?_map, ht]
        rfl
      have hnew := ServiceWorker.withQueries_worker hstage ((s.workers w).queries.set i t')
      rw [List.map_set, htask, ← ServiceWorker.queries_worker hstage] at hnew
      by_cases hended : t'.isEnded
      · rw [if_pos hended] at hnew
        refine .inr ⟨_, step_worker w (.finish i) (s.udpInflight + 1) ?_ rfl
          (if_pos hended) rfl⟩
        cases htk : t.task with
        | finished => exact absurd htk hlive
        | running | aborted => simp [Worker.step, hget, htk, hnew]
      · -- the task looks as it did
        left
        obtain ⟨hlt, hq⟩ := List.getElem?_eq_some_iff.mp hget
        rw [if_neg hended, ← hq, List.set_getElem_self, Worker.withQueries_self] at hnew
        simp only [server, workers_update, hnew, if_neg hended, Function.update_eq_self]
  | @joinNext w i t ht hended =>
      have hstage := h.stage_ne ht
      refine .inr ⟨_, step_worker w (.joinNext i) s.udpInflight ?_ rfl rfl rfl⟩
      have hnew := ServiceWorker.withQueries_worker hstage ((s.workers w).queries.eraseIdx i)
      have hget : (s.workers w).worker.queries[i]? = some .finished := by
        rw [ServiceWorker.queries_worker hstage, List.getElem?_map, ht,
          ← QueryTask.task_eq_finished_iff.mpr hended]
        rfl
      rw [← List.eraseIdx_map, ← ServiceWorker.queries_worker hstage] at hnew
      simp [Worker.step, hget, hnew]
  | @changed w hstage hsd =>
      refine .inr ⟨_, step_worker w .changed s.udpInflight ?_ rfl rfl rfl⟩
      rw [hsignalled hsd]
      cases hqs : (s.workers w).queries with
      | nil => simp [ServiceWorker.worker, hstage, Worker.step, hqs]
      | cons q qs => simp [ServiceWorker.worker, hstage, Worker.step, hqs]
  | @drained w hstage hnil =>
      refine .inr ⟨_, step_worker w .drained s.udpInflight ?_ rfl rfl rfl⟩
      rcases hstage with hstage | hstage <;> simp [ServiceWorker.worker, hstage, hnil, Worker.step]
  | @drainTimeout w hstage hne =>
      refine .inr ⟨_, step_worker w .drainTimeout s.udpInflight ?_ rfl rfl rfl⟩
      cases hqs : (s.workers w).queries with
      | nil => exact absurd hqs hne
      | cons q qs =>
          simp [ServiceWorker.worker, hstage, hqs, Worker.step, QueryTask.task_abort]
  | refused _ _ => exact .inl rfl
  | accepted htcp hpermits =>
      refine .inr ⟨.accept, Server.acts_iff.mpr ?_⟩
      have hacc := Server.Acts.accepted (s := s.server) htcp hpermits
      simpa [server, ConnTask.conn] using hacc
  | acceptChanged htcp hsd =>
      exact .inr ⟨.acceptChanged, Server.acts_iff.mpr (.acceptChanged htcp (hsignalled hsd))⟩
  | @conn k act t t' cache ht hstep =>
      have hget : s.server.conns[k]? = some t.conn := by
        simp [server, ht]
      rcases ConnTask.conn_of_step hstep with ⟨hsame, hopen⟩ | ⟨b, hb⟩
      · left
        obtain ⟨hlt, hconn⟩ := List.getElem?_eq_some_iff.mp hget
        have hconns : (s.conns.set k t').map ConnTask.conn = s.conns.map ConnTask.conn := by
          rw [List.map_set, hsame, ← hconn]
          exact List.set_getElem_self hlt
        simp [server, hconns, hopen]
      · refine .inr ⟨.conn k b, Server.acts_iff.mpr ?_⟩
        have hact := Server.Acts.conn (s := s.server) hget hb
        simpa [server, ConnTask.conn_eq_closed_iff] using hact
  | reap _ => exact .inl rfl
  | reaperStops haborted => exact .inr ⟨.reaperStops, Server.acts_iff.mpr (.reaperStops haborted)⟩
  | shutdown hcall => exact .inr ⟨.shutdown, Server.acts_iff.mpr (.shutdown hcall)⟩
  | @awaited handle hawait hlt hdone =>
      refine .inr ⟨.awaited, Server.acts_iff.mpr (.awaited hawait hlt ?_)⟩
      unfold handleDone at hdone
      unfold Server.handleDone
      split
      · rename_i hk
        rw [dif_pos hk] at hdone
        exact beq_iff_eq.mpr (ServiceWorker.worker_eq_done_iff.mpr hdone)
      · rename_i hk
        rw [dif_neg hk] at hdone
        exact beq_iff_eq.mpr hdone
  | returns hawait => exact .inr ⟨.returns, Server.acts_iff.mpr (.returns hawait)⟩

theorem reachable_server {cache : Cache} {udpMaxInflight tcpMaxConnections : Nat}
    {ok : Service Addr n → ServiceAct Addr n → Prop}
    (h : Reachable (start cache n udpMaxInflight tcpMaxConnections) Step ok s) :
    Reachable (Server.start n udpMaxInflight tcpMaxConnections) Server.Step (fun _ _ => True)
      s.server := by
  have hstart : (start cache n udpMaxInflight tcpMaxConnections : Service Addr n).server =
      Server.start n udpMaxInflight tcpMaxConnections := rfl
  rw [← hstart]
  exact h.simulate server (emptied_start cache udpMaxInflight tcpMaxConnections)
    (fun _ _ _ hI hs => hI.step hs) fun _ _ _ hI hs => server_step hI hs

theorem emptied_of_reachable {cache : Cache} {udpMaxInflight tcpMaxConnections : Nat}
    {ok : Service Addr n → ServiceAct Addr n → Prop}
    (h : Reachable (start cache n udpMaxInflight tcpMaxConnections) Step ok s) : s.Emptied :=
  h.invariant (emptied_start cache udpMaxInflight tcpMaxConnections) fun _ _ _ hI hs => hI.step hs

/--
**The server at work refines its tasks.** Whatever datagrams and streams clients send, whatever is
in the cache and whatever the resolver comes back with: in every run, every step of the server is
seen as a step of its tasks or not at all, so that the tasks are always in a state that they can
reach by themselves.
-/
theorem service_refines (cache : Cache) (n udpMaxInflight tcpMaxConnections : Nat)
    (s : Service Addr n)
    (h : Reachable (start cache n udpMaxInflight tcpMaxConnections) Step (fun _ _ => True) s) :
    Reachable (Server.start n udpMaxInflight tcpMaxConnections) Server.Step (fun _ _ => True)
        s.server ∧
      ∀ a s', s.Step a s' → s'.server = s.server ∨ ∃ b, s.server.Step b s'.server := by
  exact ⟨reachable_server h, fun a s' hs => server_step (emptied_of_reachable h) hs⟩

/-! ## After shutdown -/

/-- All workers have come to their end. -/
def WorkersDone (s : Service Addr n) : Prop := ∀ w, (s.workers w).stage = .done

/-- Nothing is read or sent over UDP any more. -/
theorem WorkersDone.step (h : s.WorkersDone) (hempty : s.Emptied) (hs : s.Step a s') :
    s'.WorkersDone ∧ s'.taken = s.taken ∧ s'.sent = s.sent ∧ s'.udpInflight = s.udpInflight := by
  cases hs with
  | spawned hstage _ =>
      rw [h] at hstage
      cases hstage
  | query ht _ => exact absurd (h _) (hempty.stage_ne ht)
  | joinNext ht _ => exact absurd (h _) (hempty.stage_ne ht)
  | changed hstage _ =>
      rw [h] at hstage
      cases hstage
  | drained hstage _ =>
      rw [h] at hstage
      simp at hstage
  | drainTimeout hstage _ =>
      rw [h] at hstage
      cases hstage
  | _ => exact ⟨h, rfl, rfl, rfl⟩

/-- When `shutdown` has returned, the workers are done and have given all permits back. -/
theorem done_of_returned {udpMaxInflight tcpMaxConnections : Nat}
    (h : Reachable (Server.start n udpMaxInflight tcpMaxConnections) Server.Step (fun _ _ => True)
      s.server) (hret : s.shutdown = .returned) :
    s.WorkersDone ∧ s.udpInflight = udpMaxInflight := by
  have hawaited : s.server.Awaited :=
    h.invariant (Server.awaited_start udpMaxInflight tcpMaxConnections) fun _ _ _ h hs => h.step hs
  have hworkers : ∀ w, (s.workers w).worker = .done := by
    intro w
    refine (Server.handleDone_worker (s := s.server) w).mp (hawaited w ?_)
    have hall : s.server.handlesAwaited = n + 1 := by
      simp [Server.handlesAwaited, server, hret]
    omega
  refine ⟨fun w => ServiceWorker.worker_eq_done_iff.mp (hworkers w), ?_⟩
  have hconserved : s.server.Conserved udpMaxInflight tcpMaxConnections :=
    h.invariant (Server.conserved_start udpMaxInflight tcpMaxConnections) fun _ _ _ h hs => h.step hs
  have hnone : Family.tally Worker.permits s.server.workers = 0 := by
    refine Family.tally_eq_zero fun w => ?_
    show (s.workers w).worker.permits = 0
    rw [hworkers w]
    rfl
  rw [← hconserved.udp, hnone]
  rfl

/--
**After `shutdown` nothing more happens over UDP.** From the moment it has returned, in every run:
no datagram is taken any more and none is sent, by no worker and by no task that was left over, and
all permits for queries are back.
-/
theorem quiet_after_shutdown (cache : Cache) (n udpMaxInflight tcpMaxConnections : Nat)
    (s s' : Service Addr n)
    (h : Reachable (start cache n udpMaxInflight tcpMaxConnections) Step (fun _ _ => True) s)
    (hret : s.shutdown = .returned) (h' : Reachable s Step (fun _ _ => True) s') :
    s'.taken = s.taken ∧ s'.sent = s.sent ∧ s'.udpInflight = udpMaxInflight := by
  have hempty := emptied_of_reachable h
  obtain ⟨hdone, hpermits⟩ := done_of_returned (reachable_server h) hret
  have hquiet : s'.Emptied ∧ s'.WorkersDone ∧ s'.taken = s.taken ∧ s'.sent = s.sent ∧
      s'.udpInflight = s.udpInflight := by
    refine h'.invariant (P := fun s' => s'.Emptied ∧ s'.WorkersDone ∧ s'.taken = s.taken ∧
      s'.sent = s.sent ∧ s'.udpInflight = s.udpInflight) ⟨hempty, hdone, rfl, rfl, rfl⟩ ?_
    rintro s₁ a s₂ ⟨hempty, hdone, htaken, hsent, hudp⟩ hs
    obtain ⟨hdone', htaken', hsent', hudp'⟩ := hdone.step hempty hs
    exact ⟨hempty.step hs, hdone', htaken'.trans htaken, hsent'.trans hsent, hudp'.trans hudp⟩
  obtain ⟨-, -, htaken, hsent, hudp⟩ := hquiet
  exact ⟨htaken, hsent, hudp.trans hpermits⟩

/-- A server with one worker, which has aborted its only query and come to its end. -/
theorem exists_abandoned : ∃ s : Service Nat 1,
    Reachable (start (Cache.new Cache.plainHashing 10 300) 1 10 10) Step (fun _ _ => True) s ∧
      s.shutdown = .returned ∧ s.taken = [(4, rootQuery)] ∧ s.sent = [] := by
  have hinit : Reachable (start (Cache.new Cache.plainHashing 10 300) 1 10 10 : Service Nat 1) Step
    (fun _ _ => True) _ := .init
  have hspawned := hinit.step (a := ServiceAct.datagram 0 4 rootQuery) trivial (.spawned rfl rfl)
  have hmiss := hspawned.step (a := ServiceAct.query 0 0 (.start 0)) trivial (.query rfl rfl)
  have hsignal := hmiss.step trivial (.shutdown rfl)
  have hdraining := hsignal.step trivial (.changed (w := 0) rfl (by decide))
  have haborting := hdraining.step trivial (.drainTimeout (w := 0) rfl (List.cons_ne_nil _ _))
  have hended := haborting.step (a := ServiceAct.query 0 0 .cancelled) trivial (.query rfl rfl)
  have hjoined := hended.step trivial (.joinNext (w := 0) (i := 0) rfl rfl)
  have hdone := hjoined.step trivial (.drained (w := 0) (.inr rfl) rfl)
  have hclosed := hdone.step trivial (.acceptChanged rfl (by decide))
  have hawaited := hclosed.step trivial (.awaited rfl (by decide) rfl)
  have hawaited := hawaited.step trivial (.awaited rfl (by decide) rfl)
  exact ⟨_, hawaited.step trivial (.returns rfl), rfl, rfl, rfl⟩

theorem abandoned_quiet : ∃ s : Service Nat 1, s.shutdown = .returned ∧ s.taken = [(4, rootQuery)] ∧
    ∀ s', Reachable s Step (fun _ _ => True) s' → s'.taken = [(4, rootQuery)] ∧ s'.sent = [] := by
  obtain ⟨s, hs, hret, htaken, hsent⟩ := exists_abandoned
  refine ⟨s, hret, htaken, fun s' h' => ?_⟩
  obtain ⟨htaken', hsent', -⟩ := quiet_after_shutdown _ 1 10 10 s s' hs hret h'
  exact ⟨htaken'.trans htaken, hsent'.trans hsent⟩

theorem abandoned_refines : ∃ s : Service Nat 1, s.taken = [(4, rootQuery)] ∧
    Reachable (Server.start 1 10 10) Server.Step (fun _ _ => True) s.server := by
  obtain ⟨s, hs, -, htaken, -⟩ := exists_abandoned
  exact ⟨s, htaken, (service_refines _ 1 10 10 s hs).1⟩

end Service

end Dnser
