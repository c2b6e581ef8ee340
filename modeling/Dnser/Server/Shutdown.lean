import Mathlib.Data.Fintype.Basic

/-!
# Starting and stopping

The tasks that `start` spawns and what `ServerHandle::shutdown` does about them: the UDP workers,
each with a `JoinSet` of queries, the task that accepts TCP connections, the tasks of the
connections, and the cache reaper. What a query is and how it is answered does not matter here.
Every task makes its steps on its own, in any order. Errors that are only logged leave everything
as it is, and are left out.

A connection's task is spawned and its handle dropped, so nothing refers to it any more.
-/

namespace Dnser

/-- A task, as its handle sees it. -/
inductive Task where
  | running
  /-- It was aborted, and has not stopped yet. -/
  | aborted
  | finished
  deriving DecidableEq

/-- `abort`. -/
def Task.abort : Task → Task
  | finished => finished
  | _ => aborted

/-! ## UDP workers -/

/-- How far `Worker::run` is, with its `queries`. -/
inductive Worker where
  /-- In the `select!` loop. -/
  | running (queries : List Task)
  /-- Waiting for the queries, until the drain timeout. -/
  | draining (queries : List Task)
  /-- Waiting for the queries after `abort_all`. -/
  | aborting (queries : List Task)
  | done
  deriving DecidableEq

/-- What can happen to a worker. -/
inductive WorkerAct where
  /-- `recv_from` returns a datagram. -/
  | datagram
  /-- A query's task comes to its end. -/
  | finish (i : Nat)
  /-- `join_next` returns it. -/
  | joinNext (i : Nat)
  /-- `shutdown.changed()` returns. -/
  | changed
  /-- `join_next` finds no query left. -/
  | drained
  | drainTimeout

namespace Worker

/-- What is in the `JoinSet`. -/
def queries : Worker → List Task
  | running qs | draining qs | aborting qs => qs
  | done => []

/-- The same with another `JoinSet`. -/
def withQueries (qs : List Task) : Worker → Worker
  | running _ => running qs
  | draining _ => draining qs
  | aborting _ => aborting qs
  | done => done

/-- One step of a worker, with the semaphore for queries before and after. -/
def step (signalled : Bool) (inflight : Nat) : Worker → WorkerAct → Option (Worker × Nat)
  | running qs, .datagram =>
      match inflight with
      | 0 => some (running qs, 0)
      | permits + 1 => some (running (qs ++ [.running]), permits)
  | w, .finish i =>
      match w.queries[i]? with
      | some .running | some .aborted =>
          some (w.withQueries (w.queries.set i .finished), inflight + 1)
      | _ => none
  | w, .joinNext i =>
      if w.queries[i]? = some .finished then some (w.withQueries (w.queries.eraseIdx i), inflight)
      else none
  | running qs, .changed =>
      if signalled then some (if qs.length > 0 then draining qs else done, inflight) else none
  | draining [], .drained => some (done, inflight)
  | aborting [], .drained => some (done, inflight)
  | draining (q :: qs), .drainTimeout => some (aborting ((q :: qs).map Task.abort), inflight)
  | _, _ => none

end Worker

/-! ## TCP -/

/-- How far `TcpWorker::run` is. -/
inductive TcpWorker where
  | accepting
  | done
  deriving DecidableEq

/-- How far `handle_conn` is on a connection. -/
inductive Conn where
  /-- In `read_framed`. -/
  | reading
  /-- With a query. -/
  | answering
  | closed
  deriving DecidableEq

/-- What can happen to a connection. -/
inductive ConnAct where
  /-- `read_framed` returns a query. -/
  | frame
  /-- The reply is written. -/
  | reply
  /-- The idle timeout, the end of the stream, or an error. -/
  | close

/-- One step of a connection. -/
def Conn.step : Conn → ConnAct → Option Conn
  | reading, .frame => some answering
  | answering, .reply => some reading
  | reading, .close => some closed
  | answering, .close => some closed
  | _, _ => none

/-! ## The server -/

/-- How far `ServerHandle::shutdown` is. -/
inductive Shutdown where
  | notCalled
  /-- The signal is sent, and the handles before this one have been awaited. -/
  | awaiting (handle : Nat)
  | returned
  deriving DecidableEq

/-- The tasks of a server with `n` workers. -/
structure Server (n : Nat) where
  workers : Fin n → Worker
  /-- `udp_inflight`. -/
  udpInflight : Nat
  tcpWorker : TcpWorker
  conns : List Conn
  /-- `tcp_connections`. -/
  tcpConnections : Nat
  reaper : Task
  shutdown : Shutdown

/-- What can happen. -/
inductive ServerAct (n : Nat) where
  | worker (w : Fin n) (act : WorkerAct)
  /-- `accept` returns a connection. -/
  | accept
  /-- `shutdown.changed()` returns in the task that accepts connections. -/
  | acceptChanged
  | conn (k : Nat) (act : ConnAct)
  /-- The reaper, which was aborted, stops. -/
  | reaperStops
  /-- `shutdown` is called. -/
  | shutdown
  /-- It has awaited the next handle. -/
  | awaited
  /-- It returns. -/
  | returns

namespace Server

variable {n : Nat}

/-- `start`. -/
def start (n udpMaxInflight tcpMaxConnections : Nat) : Server n :=
  { workers := fun _ => .running []
    udpInflight := udpMaxInflight
    tcpWorker := .accepting
    conns := []
    tcpConnections := tcpMaxConnections
    reaper := .running
    shutdown := .notCalled }

/-- The signal has been sent. -/
def signalled (s : Server n) : Bool := s.shutdown != .notCalled

/-- A handle can be awaited: those of the workers, and then that of the task that accepts
connections. -/
def handleDone (s : Server n) (handle : Nat) : Bool :=
  if h : handle < n then s.workers ⟨handle, h⟩ == .done else s.tcpWorker == .done

/-- The state after an action, if it can happen. -/
def step (s : Server n) : ServerAct n → Option (Server n)
  | .worker w act =>
      ((s.workers w).step s.signalled s.udpInflight act).map fun (worker, permits) =>
        { s with workers := Function.update s.workers w worker, udpInflight := permits }
  | .accept =>
      match s.tcpWorker, s.tcpConnections with
      | .accepting, 0 => some s
      | .accepting, permits + 1 =>
          some { s with conns := s.conns ++ [.reading], tcpConnections := permits }
      | .done, _ => none
  | .acceptChanged =>
      if s.tcpWorker = .accepting ∧ s.signalled then some { s with tcpWorker := .done } else none
  | .conn k act =>
      s.conns[k]?.bind fun conn => (conn.step act).map fun conn' =>
        { s with
          conns := s.conns.set k conn'
          tcpConnections := if conn' = .closed then s.tcpConnections + 1 else s.tcpConnections }
  | .reaperStops => if s.reaper = .aborted then some { s with reaper := .finished } else none
  | .shutdown =>
      match s.shutdown with
      | .notCalled => some { s with reaper := s.reaper.abort, shutdown := .awaiting 0 }
      | _ => none
  | .awaited =>
      match s.shutdown with
      | .awaiting handle =>
          if handle < n + 1 ∧ s.handleDone handle then
            some { s with shutdown := .awaiting (handle + 1) }
          else none
      | _ => none
  | .returns =>
      match s.shutdown with
      | .awaiting handle => if handle = n + 1 then some { s with shutdown := .returned } else none
      | _ => none

/-- The step relation. -/
def Step (s : Server n) (a : ServerAct n) (s' : Server n) : Prop := s.step a = some s'

end Server

end Dnser
