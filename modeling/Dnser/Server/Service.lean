import Dnser.Server.Shutdown
import Dnser.Server.Tcp

/-!
# The server at work

`Dnser.Server.Shutdown` has the tasks of a server, but not what they do. Here they do it: datagrams
have senders and contents, connections have streams, and everything shares one cache with the
reaper. A query is processed in two halves, as in `Calls`, and in between it waits for the resolver
while all the others go on.

An operation on the cache is a step. What the resolver comes back with is part of the step, and so
is whether `send_to` succeeds. Writing to a connection is taken to succeed; a connection may still
be closed at any time.
-/

namespace Dnser

/-! ## Datagrams -/

/-- How far `handle_query` is. -/
inductive QueryPhase where
  | spawned
  /-- It waits for the resolver. -/
  | resolving (query : Message)
  /-- In `send_to`. -/
  | sending (bytes : List UInt8)
  | ended

/-- A task in the `JoinSet` of a worker, which runs `handle_query`. -/
structure QueryTask (Addr : Type) where
  /-- How many datagrams were taken before this one. -/
  number : Nat
  peer : Addr
  data : List UInt8
  phase : QueryPhase := .spawned
  aborted : Bool := false

/-- What it can do. -/
inductive QueryAct where
  /-- It starts, and runs until it has a reply or has to wait for the resolver. -/
  | start (now : Nat)
  | resolved (outcome : Except ResolveError Message) (order : Fin numShards → ShardOrder) (now : Nat)
  | send
  | sendFails
  /-- It was aborted, and stops where it is. -/
  | cancelled

namespace QueryTask

variable {Addr : Type}

/-- The end of `handle_query`: the reply is encoded, and sent if that succeeds. -/
def respond (t : QueryTask Addr) (query response : Message) : QueryTask Addr :=
  match udpDatagram query response with
  | .ok bytes => { t with phase := .sending bytes }
  | .error _ => { t with phase := .ended }

/-- One step of a task, with the cache before and after. -/
def step (t : QueryTask Addr) (cache : Cache) : QueryAct → Option (QueryTask Addr × Cache)
  | .start now =>
      match t.phase with
      | .spawned =>
          match Message.parse t.data with
          | .error _ => some ({ t with phase := .ended }, cache)
          | .ok query =>
              match localReply cache query now with
              | some reply => some (t.respond query reply, cache)
              | none => some ({ t with phase := .resolving query }, cache)
      | _ => none
  | .resolved outcome order now =>
      match t.phase with
      | .resolving query =>
          let (reply, cache) := resolvedReply cache query { outcome, now, order }
          some (t.respond query reply, cache)
      | _ => none
  | .send | .sendFails =>
      match t.phase with
      | .sending _ => some ({ t with phase := .ended }, cache)
      | _ => none
  | .cancelled =>
      match t.aborted, t.phase with
      | true, .ended => none
      | true, _ => some ({ t with phase := .ended }, cache)
      | false, _ => none

/-- What is sent in a step, and where to. -/
def sends (t : QueryTask Addr) : QueryAct → List (Nat × Addr × List UInt8)
  | .send =>
      match t.phase with
      | .sending bytes => [(t.number, t.peer, bytes)]
      | _ => []
  | _ => []

/-- Its end has been reached. -/
def isEnded (t : QueryTask Addr) : Bool :=
  match t.phase with
  | .ended => true
  | _ => false

end QueryTask

/-- How far `Worker::run` is. -/
inductive Stage where
  | running
  | draining
  | aborting
  | done
  deriving DecidableEq

/-- A worker and its `queries`. -/
structure ServiceWorker (Addr : Type) where
  stage : Stage := .running
  queries : List (QueryTask Addr) := []

/-! ## Connections -/

/-- How far `handle_conn` is. -/
inductive ConnPhase where
  /-- In `read_framed`. -/
  | reading
  /-- It waits for the resolver. -/
  | resolving (query : Message)
  /-- In `write_framed`. -/
  | writing (bytes : List UInt8)
  | closed

/-- A task that runs `handle_conn`. -/
structure ConnTask where
  /-- All that the client sends on the connection. -/
  stream : List UInt8
  /-- What has not been read of it. -/
  input : List UInt8 := stream
  /-- What was sent to the client. -/
  output : List UInt8 := []
  phase : ConnPhase := .reading

/-- What it can do. -/
inductive ConnTaskAct where
  /-- `read_framed` returns. -/
  | frame (now : Nat)
  | resolved (outcome : Except ResolveError Message) (order : Fin numShards → ShardOrder) (now : Nat)
  | written
  /-- The idle timeout, the end of the stream, or an error. -/
  | close

namespace ConnTask

/-- The reply is encoded, and written if that succeeds. -/
def respond (t : ConnTask) (response : Message) : ConnTask :=
  match response.toBytes with
  | .ok bytes => { t with phase := .writing bytes }
  | .error _ => { t with phase := .closed }

/-- One step of a connection, with the cache before and after. -/
def step (t : ConnTask) (cache : Cache) : ConnTaskAct → Option (ConnTask × Cache)
  | .frame now =>
      match t.phase with
      | .reading =>
          match readFramed t.input with
          | (none, input) => some ({ t with input, phase := .closed }, cache)
          | (some body, input) =>
              match Message.parse body with
              | .error _ => some ({ t with input, phase := .closed }, cache)
              | .ok query =>
                  match localReply cache query now with
                  | some reply => some ({ t with input }.respond reply, cache)
                  | none => some ({ t with input, phase := .resolving query }, cache)
      | _ => none
  | .resolved outcome order now =>
      match t.phase with
      | .resolving query =>
          let (reply, cache) := resolvedReply cache query { outcome, now, order }
          some (t.respond reply, cache)
      | _ => none
  | .written =>
      match t.phase with
      | .writing bytes =>
          match writeFramed t.output bytes with
          | .ok output => some ({ t with output, phase := .reading }, cache)
          | .error _ => some ({ t with phase := .closed }, cache)
      | _ => none
  | .close =>
      match t.phase with
      | .closed => none
      | _ => some ({ t with phase := .closed }, cache)

/-- It is closed. -/
def isClosed (t : ConnTask) : Bool :=
  match t.phase with
  | .closed => true
  | _ => false

end ConnTask

/-! ## The service -/

/-- A server with `n` workers, and what it has taken and sent over UDP. -/
structure Service (Addr : Type) (n : Nat) where
  cache : Cache
  workers : Fin n → ServiceWorker Addr
  udpInflight : Nat
  tcpWorker : TcpWorker
  conns : List ConnTask
  tcpConnections : Nat
  reaper : Task
  shutdown : Shutdown
  /-- The datagrams that tasks were spawned for, with their senders. -/
  taken : List (Addr × List UInt8)
  /-- What was sent: the number of the datagram it was for, where to, and the bytes. -/
  sent : List (Nat × Addr × List UInt8)

/-- What can happen. -/
inductive ServiceAct (Addr : Type) (n : Nat) where
  | datagram (w : Fin n) (peer : Addr) (bytes : List UInt8)
  | query (w : Fin n) (i : Nat) (act : QueryAct)
  | joinNext (w : Fin n) (i : Nat)
  | changed (w : Fin n)
  | drained (w : Fin n)
  | drainTimeout (w : Fin n)
  | accept (stream : List UInt8)
  | acceptChanged
  | conn (k : Nat) (act : ConnTaskAct)
  /-- The reaper's timer strikes. -/
  | reap (now : Nat)
  | reaperStops
  | shutdown
  | awaited
  | returns

namespace Service

variable {Addr : Type} {n : Nat}

/-- `start`. -/
def start (cache : Cache) (n udpMaxInflight tcpMaxConnections : Nat) : Service Addr n :=
  { cache
    workers := fun _ => {}
    udpInflight := udpMaxInflight
    tcpWorker := .accepting
    conns := []
    tcpConnections := tcpMaxConnections
    reaper := .running
    shutdown := .notCalled
    taken := []
    sent := [] }

/-- A worker goes on. -/
def setWorker (s : Service Addr n) (w : Fin n) (worker : ServiceWorker Addr) : Service Addr n :=
  { s with workers := Function.update s.workers w worker }

/-- A handle can be awaited. -/
def handleDone (s : Service Addr n) (handle : Nat) : Prop :=
  if h : handle < n then (s.workers ⟨handle, h⟩).stage = .done else s.tcpWorker = .done

/-- The steps of the server. -/
inductive Step : Service Addr n → ServiceAct Addr n → Service Addr n → Prop where
  /-- All permits are taken, and the datagram is dropped. -/
  | dropped {s : Service Addr n} {w : Fin n} {peer : Addr} {bytes : List UInt8} :
      (s.workers w).stage = .running → s.udpInflight = 0 → Step s (.datagram w peer bytes) s
  /-- A task is spawned for as much of the datagram as the buffer holds. -/
  | spawned {s : Service Addr n} {w : Fin n} {peer : Addr} {bytes : List UInt8} {permits : Nat} :
      (s.workers w).stage = .running → s.udpInflight = permits + 1 →
      Step s (.datagram w peer bytes)
        { s with
          workers := Function.update s.workers w
            { stage := .running
              queries := (s.workers w).queries ++
                [{ number := s.taken.length, peer, data := bytes.take maxUdpSize }] }
          udpInflight := permits
          taken := s.taken ++ [(peer, bytes.take maxUdpSize)] }
  /-- A task goes on, and gives its permit back at its end. -/
  | query {s : Service Addr n} {w : Fin n} {i : Nat} {act : QueryAct} {t t' : QueryTask Addr}
      {cache : Cache} :
      (s.workers w).queries[i]? = some t → t.step s.cache act = some (t', cache) →
      Step s (.query w i act)
        { s with
          cache
          workers := Function.update s.workers w
            { s.workers w with queries := (s.workers w).queries.set i t' }
          udpInflight := if t'.isEnded then s.udpInflight + 1 else s.udpInflight
          sent := s.sent ++ t.sends act }
  | joinNext {s : Service Addr n} {w : Fin n} {i : Nat} {t : QueryTask Addr} :
      (s.workers w).queries[i]? = some t → t.isEnded →
      Step s (.joinNext w i)
        (s.setWorker w { s.workers w with queries := (s.workers w).queries.eraseIdx i })
  | changed {s : Service Addr n} {w : Fin n} :
      (s.workers w).stage = .running → s.shutdown ≠ .notCalled →
      Step s (.changed w)
        (s.setWorker w { s.workers w with
          stage := if (s.workers w).queries.length > 0 then .draining else .done })
  | drained {s : Service Addr n} {w : Fin n} :
      (s.workers w).stage = .draining ∨ (s.workers w).stage = .aborting →
      (s.workers w).queries = [] →
      Step s (.drained w) (s.setWorker w { s.workers w with stage := .done })
  | drainTimeout {s : Service Addr n} {w : Fin n} :
      (s.workers w).stage = .draining → (s.workers w).queries ≠ [] →
      Step s (.drainTimeout w)
        (s.setWorker w
          { stage := .aborting
            queries := (s.workers w).queries.map fun t => { t with aborted := true } })
  /-- All permits are taken, and the connection is dropped. -/
  | refused {s : Service Addr n} {stream : List UInt8} :
      s.tcpWorker = .accepting → s.tcpConnections = 0 → Step s (.accept stream) s
  | accepted {s : Service Addr n} {stream : List UInt8} {permits : Nat} :
      s.tcpWorker = .accepting → s.tcpConnections = permits + 1 →
      Step s (.accept stream)
        { s with conns := s.conns ++ [{ stream }], tcpConnections := permits }
  | acceptChanged {s : Service Addr n} :
      s.tcpWorker = .accepting → s.shutdown ≠ .notCalled →
      Step s .acceptChanged { s with tcpWorker := .done }
  | conn {s : Service Addr n} {k : Nat} {act : ConnTaskAct} {t t' : ConnTask} {cache : Cache} :
      s.conns[k]? = some t → t.step s.cache act = some (t', cache) →
      Step s (.conn k act)
        { s with
          cache
          conns := s.conns.set k t'
          tcpConnections := if t'.isClosed then s.tcpConnections + 1 else s.tcpConnections }
  | reap {s : Service Addr n} {now : Nat} :
      s.reaper ≠ .finished → Step s (.reap now) { s with cache := s.cache.evictExpired now }
  | reaperStops {s : Service Addr n} :
      s.reaper = .aborted → Step s .reaperStops { s with reaper := .finished }
  | shutdown {s : Service Addr n} :
      s.shutdown = .notCalled →
      Step s .shutdown { s with reaper := s.reaper.abort, shutdown := .awaiting 0 }
  | awaited {s : Service Addr n} {handle : Nat} :
      s.shutdown = .awaiting handle → handle < n + 1 → s.handleDone handle →
      Step s .awaited { s with shutdown := .awaiting (handle + 1) }
  | returns {s : Service Addr n} :
      s.shutdown = .awaiting (n + 1) → Step s .returns { s with shutdown := .returned }

/-- What the resolver returns for a query is a response that was accepted for it. -/
def Honest (s : Service Addr n) : ServiceAct Addr n → Prop
  | .query w i (.resolved outcome _ _) =>
      ∀ t query msg, (s.workers w).queries[i]? = some t → t.phase = .resolving query →
        outcome = .ok msg → Validated query msg
  | .conn k (.resolved outcome _ _) =>
      ∀ t query msg, s.conns[k]? = some t → t.phase = .resolving query →
        outcome = .ok msg → Validated query msg
  | _ => True

end Service

end Dnser
