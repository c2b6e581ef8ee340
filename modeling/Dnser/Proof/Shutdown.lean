import Dnser.Lib.Steps
import Dnser.Server.Shutdown

/-!
# What is left after shutdown

A worker that is done has nothing in its `JoinSet`, and it stays done. So does the task that accepts
connections. By the time `shutdown` returns it has awaited all of them, and no UDP query is left
that could run. But connections have tasks of their own, which nobody awaits and nobody aborts:
**the server has stopped exactly if all connections happen to be closed** when `shutdown` returns.
-/

namespace Dnser

open Steps (Reachable)

/-- Done is done. -/
theorem Worker.step_done (signalled : Bool) (inflight : Nat) (act : WorkerAct) :
    Worker.done.step signalled inflight act = none := by
  cases act <;> rfl

theorem Conn.step_closed (act : ConnAct) : Conn.closed.step act = none := by
  cases act <;> rfl

namespace Server

variable {n : Nat} {s s' : Server n} {a : ServerAct n}

/-! ## What an action can do -/

/-- The actions, with what they need and what they change. -/
inductive Acts (s : Server n) : ServerAct n → Server n → Prop where
  | worker {w : Fin n} {act : WorkerAct} {worker : Worker} {permits : Nat} :
      (s.workers w).step s.signalled s.udpInflight act = some (worker, permits) →
      Acts s (.worker w act)
        { s with workers := Function.update s.workers w worker, udpInflight := permits }
  /-- A connection is dropped. -/
  | refused : s.tcpWorker = .accepting → s.tcpConnections = 0 → Acts s .accept s
  | accepted {permits : Nat} : s.tcpWorker = .accepting → s.tcpConnections = permits + 1 →
      Acts s .accept { s with conns := s.conns ++ [.reading], tcpConnections := permits }
  | acceptChanged : s.tcpWorker = .accepting → s.signalled →
      Acts s .acceptChanged { s with tcpWorker := .done }
  | conn {k : Nat} {act : ConnAct} {conn conn' : Conn} :
      s.conns[k]? = some conn → conn.step act = some conn' →
      Acts s (.conn k act)
        { s with
          conns := s.conns.set k conn'
          tcpConnections := if conn' = .closed then s.tcpConnections + 1 else s.tcpConnections }
  | reaperStops : s.reaper = .aborted → Acts s .reaperStops { s with reaper := .finished }
  | shutdown : s.shutdown = .notCalled →
      Acts s .shutdown { s with reaper := s.reaper.abort, shutdown := .awaiting 0 }
  | awaited {handle : Nat} : s.shutdown = .awaiting handle → handle < n + 1 →
      s.handleDone handle → Acts s .awaited { s with shutdown := .awaiting (handle + 1) }
  | returns : s.shutdown = .awaiting (n + 1) → Acts s .returns { s with shutdown := .returned }

theorem acts_iff : s.Step a s' ↔ Acts s a s' := by
  constructor
  · intro h
    unfold Step Server.step at h
    cases a with
    | worker w act =>
        obtain ⟨⟨worker, permits⟩, hw, rfl⟩ := Option.map_eq_some_iff.mp h
        exact .worker hw
    | accept =>
        dsimp only at h
        split at h
        · rename_i htcp hpermits
          cases h
          exact .refused htcp hpermits
        · rename_i htcp hpermits
          cases h
          exact .accepted htcp hpermits
        · cases h
    | acceptChanged =>
        dsimp only at h
        split at h
        · rename_i hcond
          cases h
          exact .acceptChanged hcond.1 hcond.2
        · cases h
    | conn k act =>
        obtain ⟨conn, hconn, h⟩ := Option.bind_eq_some_iff.mp h
        obtain ⟨conn', hstep, rfl⟩ := Option.map_eq_some_iff.mp h
        exact .conn hconn hstep
    | reaperStops =>
        dsimp only at h
        split at h
        · rename_i haborted
          cases h
          exact .reaperStops haborted
        · cases h
    | shutdown =>
        dsimp only at h
        split at h
        · rename_i hcall
          cases h
          exact .shutdown hcall
        · cases h
    | awaited =>
        dsimp only at h
        split at h
        · rename_i handle hawait
          split at h
          · rename_i hcond
            cases h
            exact .awaited hawait hcond.1 hcond.2
          · cases h
        · cases h
    | returns =>
        dsimp only at h
        split at h
        · rename_i handle hawait
          split at h
          · rename_i hall
            cases h
            exact .returns (hall ▸ hawait)
          · cases h
        · cases h
  · intro h
    unfold Step
    cases h with
    | worker hw => simp [Server.step, hw]
    | refused htcp hpermits => simp [Server.step, htcp, hpermits]
    | accepted htcp hpermits => simp [Server.step, htcp, hpermits]
    | acceptChanged htcp hsig => simp [Server.step, htcp, hsig]
    | conn hconn hstep => simp [Server.step, hconn, hstep]
    | reaperStops haborted => simp [Server.step, haborted]
    | shutdown hcall => simp [Server.step, hcall]
    | awaited hawait hlt hdone => simp [Server.step, hawait, hlt, hdone]
    | returns hawait => simp [Server.step, hawait]

/-! ## Handles -/

theorem handleDone_worker (w : Fin n) : s.handleDone w.val = true ↔ s.workers w = .done := by
  simp [handleDone, w.isLt]

theorem handleDone_tcpWorker : s.handleDone n = true ↔ s.tcpWorker = .done := by
  simp [handleDone]

/-- A task that is done stays done. -/
theorem workers_done_of_step (hs : s.Step a s') (w : Fin n) (hdone : s.workers w = .done) :
    s'.workers w = .done := by
  cases acts_iff.mp hs with
  | @worker w' act worker permits hw =>
      have hne : w ≠ w' := by
        intro hsame
        subst hsame
        rw [hdone, Worker.step_done] at hw
        cases hw
      exact (Function.update_of_ne hne _ _).trans hdone
  | _ => exact hdone

theorem tcpWorker_done_of_step (hs : s.Step a s') (hdone : s.tcpWorker = .done) :
    s'.tcpWorker = .done := by
  cases acts_iff.mp hs with
  | acceptChanged => rfl
  | _ => exact hdone

/-- How many handles have been awaited. -/
def handlesAwaited (s : Server n) : Nat :=
  match s.shutdown with
  | .notCalled => 0
  | .awaiting handle => handle
  | .returned => n + 1

theorem handleDone_of_step (hs : s.Step a s') {handle : Nat} (h : s.handleDone handle = true) :
    s'.handleDone handle = true := by
  unfold handleDone at h ⊢
  split
  · rename_i hlt
    rw [dif_pos hlt] at h
    exact beq_iff_eq.mpr (workers_done_of_step hs _ (beq_iff_eq.mp h))
  · rename_i hlt
    rw [dif_neg hlt] at h
    exact beq_iff_eq.mpr (tcpWorker_done_of_step hs (beq_iff_eq.mp h))

/-- The handles that have been awaited are those of tasks that are done. -/
def Awaited (s : Server n) : Prop := ∀ handle < s.handlesAwaited, s.handleDone handle = true

theorem awaited_start (udpMaxInflight tcpMaxConnections : Nat) :
    (start n udpMaxInflight tcpMaxConnections).Awaited :=
  fun _ h => absurd h (Nat.not_lt_zero _)

theorem Awaited.step (h : s.Awaited) (hs : s.Step a s') : s'.Awaited := by
  have hold : ∀ handle < s.handlesAwaited, s'.handleDone handle = true :=
    fun handle hlt => handleDone_of_step hs (h handle hlt)
  cases acts_iff.mp hs with
  | shutdown hcall => exact fun _ hlt => absurd hlt (Nat.not_lt_zero _)
  | @awaited last hawait _ hdone =>
      intro handle hlt
      rcases Nat.lt_succ_iff_lt_or_eq.mp hlt with hlt | rfl
      · exact hold handle (by rw [handlesAwaited, hawait]; exact hlt)
      · exact handleDone_of_step hs hdone
  | returns hawait =>
      intro handle hlt
      exact hold handle (by rw [handlesAwaited, hawait]; exact hlt)
  | _ => exact hold

/-! ## Stopping -/

/-- A query is being answered, by a worker's task or on a connection. -/
def Answering (s : Server n) : Prop :=
  (∃ w, ∃ q ∈ (s.workers w).queries, q ≠ .finished) ∨ Conn.answering ∈ s.conns

end Server

/-- A datagram, a connection or a query is taken from a socket. -/
def ServerAct.Takes {n : Nat} : ServerAct n → Prop
  | .worker _ .datagram | .accept | .conn _ .frame => True
  | _ => False

namespace Server

variable {n : Nat} {s s' : Server n} {a : ServerAct n}

/-- No query is being answered, and none can come in. -/
def Stopped (s : Server n) : Prop := ¬ s.Answering ∧ ∀ a, a.Takes → ∀ s', ¬ s.Step a s'

/-- All tasks that could answer a query have come to their end. -/
structure Halted (s : Server n) : Prop where
  workers : ∀ w, s.workers w = .done
  tcpWorker : s.tcpWorker = .done
  conns : ∀ c ∈ s.conns, c = .closed

theorem Halted.conn_stuck (h : s.Halted) {k : Nat} {conn conn' : Conn} {act : ConnAct}
    (hconn : s.conns[k]? = some conn) (hstep : conn.step act = some conn') : False := by
  rw [h.conns conn (List.mem_of_getElem? hconn), Conn.step_closed] at hstep
  cases hstep

/-- Nothing starts again. -/
theorem Halted.step (h : s.Halted) (hs : s.Step a s') : s'.Halted where
  workers w := workers_done_of_step hs w (h.workers w)
  tcpWorker := tcpWorker_done_of_step hs h.tcpWorker
  conns := by
    cases acts_iff.mp hs with
    | accepted htcp _ =>
        rw [h.tcpWorker] at htcp
        cases htcp
    | conn hconn hstep => exact (h.conn_stuck hconn hstep).elim
    | _ => exact h.conns

theorem Halted.stopped (h : s.Halted) : s.Stopped := by
  constructor
  · rintro (⟨w, q, hq, -⟩ | hconn)
    · rw [h.workers w] at hq
      cases hq
    · cases h.conns _ hconn
  · intro a htakes s' hs
    cases acts_iff.mp hs with
    | @worker w act worker permits hw =>
        rw [h.workers w, Worker.step_done] at hw
        cases hw
    | refused htcp _ | accepted htcp _ =>
        rw [h.tcpWorker] at htcp
        cases htcp
    | conn hconn hstep => exact h.conn_stuck hconn hstep
    | _ => exact htakes

/-- A connection that is open answers a query or can read one. -/
theorem Stopped.closed (h : s.Stopped) : ∀ c ∈ s.conns, c = .closed := by
  intro c hc
  cases c with
  | closed => rfl
  | answering => exact absurd (.inr hc) h.1
  | reading =>
      obtain ⟨k, hk⟩ := List.mem_iff_getElem?.mp hc
      have hframe : s.Step (.conn k .frame) { s with conns := s.conns.set k .answering } := by
        simp [Step, Server.step, hk, Conn.step]
      exact absurd hframe (h.2 (.conn k .frame) trivial _)

/-- When `shutdown` returns, the workers are done. -/
theorem Awaited.done (h : s.Awaited) (hret : s.Step .returns s') :
    (∀ w, s.workers w = .done) ∧ s.tcpWorker = .done := by
  cases acts_iff.mp hret with
  | returns hawait =>
      have hall : ∀ handle < n + 1, s.handleDone handle = true := by
        intro handle hlt
        exact h handle (by rw [handlesAwaited, hawait]; exact hlt)
      constructor
      · intro w
        exact (handleDone_worker w).mp (hall w (by omega))
      · exact handleDone_tcpWorker.mp (hall n (by omega))

/--
**After `shutdown` the server has stopped if and only if no connection is left open.** Whatever has
happened until then and in whatever order, when `shutdown` returns: no query is being answered and
none is taken from a socket in any state from then on, exactly if every connection is closed at
that moment.
-/
theorem shutdown_stops_iff (n udpMaxInflight tcpMaxConnections : Nat) (s s' : Server n)
    (h : Reachable (start n udpMaxInflight tcpMaxConnections) Step (fun _ _ => True) s)
    (hret : s.Step .returns s') :
    (∀ s'', Reachable s' Step (fun _ _ => True) s'' → s''.Stopped) ↔
      ∀ c ∈ s.conns, c = .closed := by
  have hawaited : s.Awaited :=
    h.invariant (awaited_start udpMaxInflight tcpMaxConnections) fun _ _ _ h hs => h.step hs
  have hconns : s'.conns = s.conns := by
    cases acts_iff.mp hret with
    | returns hawait => rfl
  constructor
  · intro hstopped
    rw [← hconns]
    exact (hstopped s' .init).closed
  · intro hclosed s'' hreach
    obtain ⟨hworkers, htcp⟩ := hawaited.done hret
    have hhalted : s.Halted := ⟨hworkers, htcp, hclosed⟩
    have hhalted' : s''.Halted :=
      hreach.invariant (hhalted.step hret) fun _ _ _ h hs => h.step hs
    exact hhalted'.stopped

/-- A server with one worker, just before `shutdown` returns. A query was read when the signal had
already been sent, and was aborted. -/
def drained : Server 1 :=
  (Steps.attempt step (fun _ _ => True) (start 1 10 10)
    [.shutdown, .worker 0 .datagram, .worker 0 .changed, .acceptChanged, .worker 0 .drainTimeout,
      .worker 0 (.finish 0), .worker 0 (.joinNext 0), .worker 0 .drained, .awaited, .awaited]).get
    (by decide +kernel)

theorem drained_reachable : Reachable (start 1 10 10) Step (fun _ _ => True) drained :=
  Steps.reachable_attempt _ _ _

theorem drained_stops : Stopped { drained with shutdown := .returned } :=
  (shutdown_stops_iff 1 10 10 drained { drained with shutdown := .returned } drained_reachable
    rfl).mpr (by decide +kernel) _ .init

/-- `shutdown` has returned, and a connection that was opened before is still there. -/
def leftOpen : Server 1 :=
  (Steps.attempt step (fun _ _ => True) (start 1 10 10)
    [.accept, .shutdown, .worker 0 .changed, .acceptChanged, .awaited, .awaited, .returns]).get
    (by decide +kernel)

/-- Its next query is read and answered. -/
theorem shutdown_leaves_connection :
    Reachable (start 1 10 10) Step (fun _ _ => True) leftOpen ∧ leftOpen.shutdown = .returned ∧
      (leftOpen.step (.conn 0 .frame)).any (fun s => s.conns == [.answering]) = true :=
  ⟨Steps.reachable_attempt _ _ _, by decide +kernel, by decide +kernel⟩

end Server

end Dnser
