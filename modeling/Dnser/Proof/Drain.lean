import Dnser.Lib.Family
import Dnser.Proof.Shutdown

/-!
# Permits, and how shutdown comes to its end

Every query that is being answered over UDP holds a permit of `udp_inflight`, every connection one
of `tcp_connections`. They are given back when the task ends, however it ends, so that the permits
that are left and the tasks that run always add up to what the server was started with.

After the signal, everything the server does on its own brings `shutdown` closer to its end
(`Server.togo`). It needs nobody's help for it: queries that hang are aborted by the drain timeout,
and an aborted query stops.
-/

namespace Dnser

open Family
open Steps (Reachable Run)

/-! ## Permits -/

/-- The permit a task holds. -/
def Task.permit : Task → Nat
  | finished => 0
  | running | aborted => 1

/-- The permit a connection holds. -/
def Conn.permit : Conn → Nat
  | closed => 0
  | reading | answering => 1

namespace Worker

/-- The permits the queries of a worker hold. -/
def permits (w : Worker) : Nat := weigh Task.permit w.queries

variable {w w' : Worker} {signalled : Bool} {inflight inflight' : Nat} {act : WorkerAct}

theorem queries_withQueries (h : w ≠ .done) (qs : List Task) : (w.withQueries qs).queries = qs := by
  cases w with
  | done => exact absurd rfl h
  | _ => rfl

/-- What a worker can do, with what it needs and what it changes. -/
inductive Moves (signalled : Bool) (inflight : Nat) : Worker → WorkerAct → Worker → Nat → Prop where
  /-- A datagram is dropped. -/
  | dropped {qs : List Task} : inflight = 0 →
      Moves signalled inflight (.running qs) .datagram (.running qs) inflight
  | spawned {qs : List Task} {left : Nat} : inflight = left + 1 →
      Moves signalled inflight (.running qs) .datagram (.running (qs ++ [.running])) left
  | finish {w : Worker} {i : Nat} {q : Task} : w ≠ .done → w.queries[i]? = some q →
      q ≠ .finished → Moves signalled inflight w (.finish i)
        (w.withQueries (w.queries.set i .finished)) (inflight + 1)
  | joinNext {w : Worker} {i : Nat} : w ≠ .done → w.queries[i]? = some .finished →
      Moves signalled inflight w (.joinNext i) (w.withQueries (w.queries.eraseIdx i)) inflight
  | changed {qs : List Task} : signalled → qs ≠ [] →
      Moves signalled inflight (.running qs) .changed (.draining qs) inflight
  | changedEmpty : signalled → Moves signalled inflight (.running []) .changed .done inflight
  | drained : Moves signalled inflight (.draining []) .drained .done inflight
  | abortedDrained : Moves signalled inflight (.aborting []) .drained .done inflight
  | drainTimeout {qs : List Task} : qs ≠ [] →
      Moves signalled inflight (.draining qs) .drainTimeout (.aborting (qs.map Task.abort)) inflight

theorem moves_of_step (h : w.step signalled inflight act = some (w', inflight')) :
    Moves signalled inflight w act w' inflight' := by
  have hdone : w ≠ .done := by
    intro hw
    rw [hw, Worker.step_done] at h
    cases h
  cases act with
  | datagram =>
      cases w with
      | running qs =>
          simp only [step] at h
          split at h
          · cases h
            exact .dropped rfl
          · cases h
            exact .spawned rfl
      | draining qs | aborting qs | done => cases h
  | finish i =>
      simp only [step] at h
      split at h
      · rename_i hq
        cases h
        exact .finish hdone hq (by simp)
      · rename_i hq
        cases h
        exact .finish hdone hq (by simp)
      · cases h
  | joinNext i =>
      simp only [step] at h
      split at h
      · rename_i hq
        cases h
        exact .joinNext hdone hq
      · cases h
  | changed =>
      cases w with
      | running qs =>
          simp only [step] at h
          split at h
          · rename_i hsig
            cases qs with
            | nil =>
                cases h
                exact .changedEmpty hsig
            | cons q qs =>
                cases h
                exact .changed hsig (by simp)
          · cases h
      | draining qs | aborting qs | done => cases h
  | drained =>
      cases w with
      | draining qs =>
          cases qs with
          | nil =>
              cases h
              exact .drained
          | cons q qs => cases h
      | aborting qs =>
          cases qs with
          | nil =>
              cases h
              exact .abortedDrained
          | cons q qs => cases h
      | running qs | done => cases h
  | drainTimeout =>
      cases w with
      | draining qs =>
          cases qs with
          | nil => cases h
          | cons q qs =>
              cases h
              exact .drainTimeout (by simp)
      | running qs | aborting qs | done => cases h

/-- **A permit that is taken is with a query, and one that a query had is given back.** -/
theorem permits_step (h : w.step signalled inflight act = some (w', inflight')) :
    inflight' + w'.permits = inflight + w.permits := by
  unfold permits
  cases moves_of_step h with
  | dropped h0 => rfl
  | spawned hleft =>
      simp only [queries, weigh_append, weigh_cons, weigh_nil, Task.permit]
      omega
  | @finish _ i q hne hq hrunning =>
      have hset := weigh_set (f := Task.permit) hq .finished
      have hq1 : q.permit = 1 := by
        cases q with
        | finished => exact absurd rfl hrunning
        | _ => rfl
      rw [queries_withQueries hne]
      simp only [Task.permit] at hset hq1
      omega
  | joinNext hne hq =>
      have herase := weigh_eraseIdx (f := Task.permit) hq
      rw [queries_withQueries hne]
      simp only [Task.permit] at herase
      omega
  | changed hsig hne => rfl
  | changedEmpty hsig => rfl
  | drained => rfl
  | abortedDrained => rfl
  | drainTimeout hne =>
      have habort : ∀ q : Task, q.abort.permit = q.permit := by
        intro q
        cases q <;> rfl
      simp only [queries, weigh_map habort]

end Worker

namespace Server

variable {n : Nat} {s s' : Server n} {a : ServerAct n}

/-- The permits that are left, and those that are with queries or connections. -/
structure Conserved (udpMaxInflight tcpMaxConnections : Nat) (s : Server n) : Prop where
  udp : s.udpInflight + tally Worker.permits s.workers = udpMaxInflight
  tcp : s.tcpConnections + weigh Conn.permit s.conns = tcpMaxConnections

theorem conserved_start (udpMaxInflight tcpMaxConnections : Nat) :
    (start n udpMaxInflight tcpMaxConnections).Conserved udpMaxInflight tcpMaxConnections := by
  constructor
  · have hnone : tally Worker.permits (start n udpMaxInflight tcpMaxConnections).workers = 0 :=
      tally_eq_zero fun _ => rfl
    rw [hnone]
    rfl
  · rfl

/-- A connection's permit is with it until it is closed. -/
theorem permit_of_conn {conn conn' : Conn} {act : ConnAct} (h : conn.step act = some conn')
    (permits : Nat) :
    (if conn' = .closed then permits + 1 else permits) + conn'.permit = permits + conn.permit := by
  cases conn <;> cases act <;> cases h <;> rfl

theorem Conserved.step {udpMaxInflight tcpMaxConnections : Nat}
    (h : s.Conserved udpMaxInflight tcpMaxConnections) (hs : s.Step a s') :
    s'.Conserved udpMaxInflight tcpMaxConnections := by
  obtain ⟨hudp, htcp⟩ := h
  cases acts_iff.mp hs with
  | @worker w act worker permits hw =>
      have hworker := Worker.permits_step hw
      have hsum := tally_update Worker.permits s.workers w worker
      exact ⟨by dsimp only; omega, htcp⟩
  | accepted _ hpermits =>
      refine ⟨hudp, ?_⟩
      simp only [weigh_append, weigh_cons, weigh_nil, Conn.permit]
      omega
  | @conn k act conn conn' hconn hstep =>
      have hset := weigh_set (f := Conn.permit) hconn conn'
      have hpermit := permit_of_conn hstep s.tcpConnections
      exact ⟨hudp, by dsimp only; omega⟩
  | _ => exact ⟨hudp, htcp⟩

/--
**Permits are neither lost nor made up.** Whatever has happened and in whatever order, aborted
queries and dropped datagrams and connections included: the permits that are left and the queries
that are being answered over UDP, by all workers together, add up to `udp_max_inflight`, and the
permits that are left and the open connections to `tcp_max_connections`.
-/
theorem permits_conserved (n udpMaxInflight tcpMaxConnections : Nat) (s : Server n)
    (h : Reachable (start n udpMaxInflight tcpMaxConnections) Step (fun _ _ => True) s) :
    s.udpInflight + ∑ w, ((s.workers w).queries.filter (· ≠ .finished)).length = udpMaxInflight ∧
      s.tcpConnections + (s.conns.filter (· ≠ .closed)).length = tcpMaxConnections := by
  have hconserved : s.Conserved udpMaxInflight tcpMaxConnections :=
    h.invariant (conserved_start udpMaxInflight tcpMaxConnections) fun _ _ _ h hs => h.step hs
  have htask : ∀ q : Task, q.permit = if decide (q ≠ .finished) then 1 else 0 := by
    intro q
    cases q <;> rfl
  have hconn : ∀ c : Conn, c.permit = if decide (c ≠ .closed) then 1 else 0 := by
    intro c
    cases c <;> rfl
  refine ⟨?_, ?_⟩
  · rw [← hconserved.udp]
    simp only [tally, Worker.permits, weigh_eq_length_filter htask]
  · rw [← hconserved.tcp, weigh_eq_length_filter hconn]

/-- The query that was aborted has given its permit back. -/
theorem drained_conserved :
    drained.udpInflight + ∑ w, ((drained.workers w).queries.filter (· ≠ .finished)).length = 10 :=
  (permits_conserved 1 10 10 drained drained_reachable).1

/-! ## The end of shutdown -/

end Server

/-- The steps that are left of a task: it ends, and is joined. -/
def Task.togo : Task → Nat
  | finished => 1
  | running | aborted => 2

/-- The most steps that are left of a worker, once the signal is sent. -/
def Worker.togo : Worker → Nat
  | running qs => weigh Task.togo qs + 3
  | draining qs => weigh Task.togo qs + 2
  | aborting qs => weigh Task.togo qs + 1
  | done => 0

/-- **A worker that takes no more datagrams comes closer to its end.** -/
theorem Worker.togo_step {w w' : Worker} {signalled : Bool} {inflight inflight' : Nat}
    {act : WorkerAct} (hact : act ≠ .datagram)
    (h : w.step signalled inflight act = some (w', inflight')) : w'.togo < w.togo := by
  cases moves_of_step h with
  | dropped h0 => exact absurd rfl hact
  | spawned hleft => exact absurd rfl hact
  | @finish _ i q hne hq hrunning =>
      have hset := weigh_set (f := Task.togo) hq .finished
      have hq2 : q.togo = 2 := by
        cases q with
        | finished => exact absurd rfl hrunning
        | _ => rfl
      rw [hq2] at hset
      cases w with
      | done => exact absurd rfl hne
      | _ =>
          simp only [withQueries, queries, togo, Task.togo] at hset ⊢
          omega
  | joinNext hne hq =>
      have herase := weigh_eraseIdx (f := Task.togo) hq
      cases w with
      | done => exact absurd rfl hne
      | _ =>
          simp only [withQueries, queries, togo, Task.togo] at herase ⊢
          omega
  | changed hsig hne => simp [togo]
  | changedEmpty hsig => simp [togo]
  | drained => simp [togo]
  | abortedDrained => simp [togo]
  | drainTimeout hne =>
      have habort : ∀ q : Task, q.abort.togo = q.togo := by
        intro q
        cases q <;> rfl
      simp only [togo, weigh_map habort]
      omega

/-- A datagram that is still read is two steps more. -/
theorem Worker.togo_datagram {w w' : Worker} {signalled : Bool} {inflight inflight' : Nat}
    (h : w.step signalled inflight .datagram = some (w', inflight')) : w'.togo ≤ w.togo + 2 := by
  cases moves_of_step h with
  | dropped h0 => exact Nat.le_add_right _ _
  | spawned hleft =>
      simp only [togo, weigh_append, weigh_cons, weigh_nil, Task.togo]
      omega

/-- All queries have been aborted, or have ended before that. -/
def Worker.AllAborted (w : Worker) : Prop := ∀ qs, w = .aborting qs → Task.running ∉ qs

theorem Worker.AllAborted.step {w w' : Worker} {signalled : Bool} {inflight inflight' : Nat}
    {act : WorkerAct} (hw : w.AllAborted)
    (h : w.step signalled inflight act = some (w', inflight')) : w'.AllAborted := by
  intro qs hqs hmem
  cases moves_of_step h with
  | finish hne hq hrunning =>
      cases w with
      | aborting qs₀ =>
          cases hqs
          rcases List.mem_or_eq_of_mem_set hmem with hmem | hrun
          · exact hw qs₀ rfl hmem
          · cases hrun
      | running _ | draining _ | done => cases hqs
  | joinNext hne hq =>
      cases w with
      | aborting qs₀ =>
          cases hqs
          exact hw qs₀ rfl (List.mem_of_mem_eraseIdx hmem)
      | running _ | draining _ | done => cases hqs
  | drainTimeout hne =>
      cases hqs
      obtain ⟨q, -, hq⟩ := List.mem_map.mp hmem
      cases q <;> cases hq
  | dropped _ | spawned _ | changed _ _ | changedEmpty _ | drained | abortedDrained => cases hqs

namespace ServerAct

variable {n : Nat}

/-- A datagram is read. -/
def datagram : ServerAct n → Bool
  | .worker _ .datagram => true
  | _ => false

/-- The server does it, and not a client. -/
def own : ServerAct n → Bool
  | .worker _ .datagram | .accept | .conn _ _ => false
  | _ => true

end ServerAct

/-- The most steps that are left of `shutdown` itself. -/
def Shutdown.togo (n : Nat) : Shutdown → Nat
  | notCalled => n + 3
  | awaiting handle => n + 2 - handle
  | returned => 0

/-- The step that is left of the task that accepts connections. -/
def TcpWorker.togo : TcpWorker → Nat
  | accepting => 1
  | done => 0

/-- The step that is left of the reaper. It has been aborted. -/
def Task.togoReaper : Task → Nat
  | aborted => 1
  | running | finished => 0

namespace Server

variable {n : Nat} {s s' : Server n} {a : ServerAct n}

/-- The server does it without help: no query has to end that was not aborted. -/
def Unaided (s : Server n) : ServerAct n → Prop
  | .worker w (.finish i) => (s.workers w).queries[i]? = some .aborted
  | a => a.own

/-- What `shutdown` relies on. -/
structure Orderly (s : Server n) : Prop where
  handle : ∀ k, s.shutdown = .awaiting k → k ≤ n + 1
  workers : ∀ w, (s.workers w).AllAborted

theorem orderly_start (udpMaxInflight tcpMaxConnections : Nat) :
    (start n udpMaxInflight tcpMaxConnections).Orderly := by
  constructor
  · intro k hk
    cases hk
  · intro w qs hqs
    cases hqs

theorem Orderly.step (h : s.Orderly) (hs : s.Step a s') : s'.Orderly := by
  obtain ⟨hhandle, hworkers⟩ := h
  cases acts_iff.mp hs with
  | @worker w act worker permits hw =>
      refine ⟨hhandle, fun u => ?_⟩
      show (Function.update s.workers w worker u).AllAborted
      by_cases hu : u = w
      · rw [hu, Function.update_self]
        exact (hworkers w).step hw
      · rw [Function.update_of_ne hu]
        exact hworkers u
  | shutdown _ =>
      refine ⟨fun k hk => ?_, hworkers⟩
      cases hk
      exact Nat.zero_le _
  | awaited _ hlt _ =>
      refine ⟨fun k hk => ?_, hworkers⟩
      cases hk
      exact hlt
  | returns _ =>
      refine ⟨fun k hk => ?_, hworkers⟩
      cases hk
  | _ => exact ⟨hhandle, hworkers⟩

/-- The most steps of its own that are left of the server, once the signal is sent. -/
def togo (s : Server n) : Nat :=
  tally Worker.togo s.workers + s.tcpWorker.togo + s.reaper.togoReaper + s.shutdown.togo n

theorem signalled_of_step (hsig : s.signalled) (hs : s.Step a s') : s'.signalled := by
  cases acts_iff.mp hs with
  | shutdown _ | awaited _ _ _ | returns _ => rfl
  | _ => exact hsig

/-- **Whatever the server does brings it closer to its end**, and only a datagram that it still
reads takes it away from it. -/
theorem togo_step (hsig : s.signalled) (hs : s.Step a s') :
    s'.togo + (if a.own then 1 else 0) ≤ s.togo + (if a.datagram then 2 else 0) := by
  unfold togo
  cases acts_iff.mp hs with
  | @worker w act worker permits hw =>
      have hsum := tally_update Worker.togo s.workers w worker
      cases act with
      | datagram =>
          have hle := Worker.togo_datagram hw
          simp only [ServerAct.own, ServerAct.datagram, if_true, Bool.false_eq_true, if_false]
          omega
      | _ =>
          have hlt := Worker.togo_step (by simp) hw
          simp only [ServerAct.own, ServerAct.datagram, if_true, Bool.false_eq_true, if_false]
          omega
  | refused _ _ | accepted _ _ | conn _ _ => exact Nat.le_refl _
  | acceptChanged htcp _ =>
      simp only [htcp, TcpWorker.togo, ServerAct.own, if_true]
      omega
  | reaperStops haborted =>
      simp only [haborted, Task.togoReaper, ServerAct.own, if_true]
      omega
  | shutdown hcall => simp [signalled, hcall] at hsig
  | awaited hawait hlt _ =>
      simp only [hawait, Shutdown.togo, ServerAct.own, if_true]
      omega
  | returns hawait =>
      simp only [hawait, Shutdown.togo, ServerAct.own, if_true]
      omega

/-- A worker that is not done can go on by itself after the signal. -/
theorem exists_worker_step (h : s.Orderly) (hsig : s.signalled) {w : Fin n}
    (hw : s.workers w ≠ .done) : ∃ a s', s.Unaided a ∧ s.Step a s' := by
  have hstep : ∀ act, s.Unaided (.worker w act) →
      ((s.workers w).step s.signalled s.udpInflight act).isSome → ∃ a s', s.Unaided a ∧ s.Step a s' := by
    intro act haid hsome
    obtain ⟨⟨worker, permits⟩, hw'⟩ := Option.isSome_iff_exists.mp hsome
    exact ⟨_, _, haid, acts_iff.mpr (.worker hw')⟩
  cases hworker : s.workers w with
  | running qs =>
      refine hstep .changed rfl ?_
      simp [hworker, Worker.step, hsig]
  | draining qs =>
      cases qs with
      | nil =>
          refine hstep .drained rfl ?_
          simp [hworker, Worker.step]
      | cons q qs =>
          refine hstep .drainTimeout rfl ?_
          simp [hworker, Worker.step]
  | aborting qs =>
      cases qs with
      | nil =>
          refine hstep .drained rfl ?_
          simp [hworker, Worker.step]
      | cons q qs =>
          cases q with
          | running => exact absurd List.mem_cons_self (h.workers w _ hworker)
          | aborted =>
              refine hstep (.finish 0) ?_ ?_
              · simp [Unaided, hworker, Worker.queries]
              · simp [hworker, Worker.step, Worker.queries]
          | finished =>
              refine hstep (.joinNext 0) rfl ?_
              simp [hworker, Worker.step, Worker.queries]
  | done => exact absurd hworker hw

/-- **`shutdown` never waits in vain.** -/
theorem exists_step_of_not_returned (h : s.Orderly) (hsig : s.signalled)
    (hret : s.shutdown ≠ .returned) : ∃ a s', s.Unaided a ∧ s.Step a s' := by
  cases hsd : s.shutdown with
  | notCalled => simp [signalled, hsd] at hsig
  | returned => exact absurd hsd hret
  | awaiting k =>
      by_cases hall : k = n + 1
      · exact ⟨.returns, _, rfl, acts_iff.mpr (.returns (hall ▸ hsd))⟩
      have hlt : k < n + 1 := by
        have hle := h.handle k hsd
        omega
      by_cases hdone : s.handleDone k
      · exact ⟨.awaited, _, rfl, acts_iff.mpr (.awaited hsd hlt hdone)⟩
      by_cases hk : k < n
      · exact exists_worker_step h hsig (w := ⟨k, hk⟩) fun hw =>
          hdone ((handleDone_worker ⟨k, hk⟩).mpr hw)
      · obtain rfl : k = n := by omega
        have htcp : s.tcpWorker = .accepting := by
          cases htcp : s.tcpWorker with
          | accepting => rfl
          | done => exact absurd (handleDone_tcpWorker.mpr htcp) hdone
        exact ⟨.acceptChanged, _, rfl, acts_iff.mpr (.acceptChanged htcp hsig)⟩

/-- The bound in terms of what is in the `JoinSet`s. -/
theorem togo_le (hsig : s.signalled) :
    s.togo ≤ 2 * ∑ w, (s.workers w).queries.length + 4 * n + 4 := by
  have htask : ∀ qs : List Task, weigh Task.togo qs ≤ 2 * qs.length := by
    intro qs
    induction qs with
    | nil => simp
    | cons q qs ih =>
        have hq : q.togo ≤ 2 := by
          cases q <;> simp [Task.togo]
        rw [weigh_cons, List.length_cons]
        omega
  have hworkers : tally Worker.togo s.workers ≤ ∑ w, (2 * (s.workers w).queries.length + 3) := by
    refine Finset.sum_le_sum fun w _ => ?_
    cases hw : s.workers w with
    | done => simp [Worker.togo]
    | running qs | draining qs | aborting qs =>
        have hle := htask qs
        simp only [Worker.togo, Worker.queries]
        omega
  rw [Finset.sum_add_distrib, ← Finset.mul_sum, Finset.sum_const, Finset.card_univ,
    Fintype.card_fin, smul_eq_mul] at hworkers
  have htcp : s.tcpWorker.togo ≤ 1 := by
    cases s.tcpWorker <;> simp [TcpWorker.togo]
  have hreaper : s.reaper.togoReaper ≤ 1 := by
    cases s.reaper <;> simp [Task.togoReaper]
  have hshutdown : s.shutdown.togo n ≤ n + 2 := by
    cases hsd : s.shutdown with
    | notCalled => simp [signalled, hsd] at hsig
    | awaiting k | returned => simp [Shutdown.togo]
  unfold togo
  omega

/--
**`shutdown` comes to its end.** Once the signal is sent, in any run from there on, with clients
that go on sending whatever they like: the server does no more than a bounded number of steps of its
own, two for each query in a `JoinSet` or read since and four for each worker, and whenever it
cannot go on without a client's or a query's help, `shutdown` has returned. No query, however long
it takes, and no connection can hold it up.
-/
theorem shutdown_completes (n udpMaxInflight tcpMaxConnections : Nat) (s s' : Server n)
    (as : List (ServerAct n))
    (h : Reachable (start n udpMaxInflight tcpMaxConnections) Step (fun _ _ => True) s)
    (hsig : s.signalled) (hrun : Run Step (fun _ _ => True) s as s') :
    as.countP ServerAct.own ≤
        2 * (∑ w, (s.workers w).queries.length + as.countP ServerAct.datagram) + 4 * n + 4 ∧
      ((∀ a s'', s'.Unaided a → ¬ s'.Step a s'') → s'.shutdown = .returned) := by
  constructor
  · have hcount := hrun.countP_add_le (I := fun s => s.signalled = true) (μ := togo)
      (p := ServerAct.own) (q := ServerAct.datagram)
      (fun s a s' hsig _ hs => ⟨signalled_of_step hsig hs, togo_step hsig hs⟩) hsig
    have hle := togo_le hsig
    omega
  · intro hstuck
    have horderly : s.Orderly :=
      h.invariant (orderly_start udpMaxInflight tcpMaxConnections) fun _ _ _ h hs => h.step hs
    have horderly' := hrun.invariant (fun _ _ _ h hs => h.step hs) horderly
    have hsig' := hrun.invariant (P := fun s => s.signalled = true)
      (fun _ _ _ h hs => signalled_of_step h hs) hsig
    by_contra hret
    obtain ⟨a, s'', haid, hs⟩ := exists_step_of_not_returned horderly' hsig' hret
    exact hstuck a s'' haid hs

/-- The signal was sent while a query was being answered. -/
def hanging : Server 1 :=
  (Steps.attempt step (fun _ _ => True) (start 1 10 10)
    [.worker (Fin.last 0) .datagram, .shutdown]).get (by decide +kernel)

/-- The query is aborted. -/
def hangingActs : List (ServerAct 1) :=
  [.changed, .drainTimeout, .finish 0, .joinNext 0, .drained].map (.worker (Fin.last 0)) ++
    [.acceptChanged, .awaited, .reaperStops, .awaited, .returns]

theorem hanging_completes : hangingActs.countP ServerAct.own ≤
    2 * (∑ w, (hanging.workers w).queries.length + hangingActs.countP ServerAct.datagram) +
      4 * 1 + 4 :=
  (shutdown_completes 1 10 10 hanging _ hangingActs (Steps.reachable_attempt _ _ _)
    (by decide +kernel)
    (Steps.run_attempt hangingActs
      (Option.some_get (x := Steps.attempt step (fun _ _ => True) hanging hangingActs)
        (by decide +kernel)).symm)).1

end Server

end Dnser
