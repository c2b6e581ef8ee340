import Dnser.Resolver.InFlight
import Dnser.Resolver.Upstream
import Mathlib.Data.Finset.Card

/-!
# Racing upstreams

`Resolver::resolve` asks all upstreams at the same time. Every call has a future for each of them,
and takes what they return in the order in which they do: the first message is its result, and the
futures that are left are dropped, wherever they are. So is everything when the task that made the
call is aborted. Any number of calls share the upstreams.

Calls are numbered in the order in which they are made, and the query that a call makes with an
upstream has the call's number there. What happens to it between its id and its guard is in
`Dnser.Resolver.InFlight`.
-/

namespace Dnser

namespace Race

open Abort
open InFlight (allocateAndInsert)

/-- What a future comes to. -/
abbrev Outcome := Except ResolveError Message

/-- How far a call is with one upstream, in a future of `UpstreamSocket::query`. -/
inductive Fut where
  /-- It was not polled yet. -/
  | idle
  /-- It has an id, and the upstream knows about it. -/
  | asking
  /-- It has returned, or is dropped, and its guard is dropped next. -/
  | leaving (result : Option Outcome)
  | ready (result : Outcome)
  /-- What it returned was an error, and was taken note of. -/
  | failed (e : ResolveError)
  /-- The call has no use for it any more. -/
  | gone

/-- The future is not in `futs` any more. -/
def Fut.isOver : Fut → Bool
  | failed _ | gone => true
  | _ => false

/-- How far `resolve` is. -/
inductive CallPhase where
  | racing
  /-- It drops `futs`, with a result, or because it is dropped itself. -/
  | ending (result : Option Outcome)

/-- A call of `resolve`. -/
structure Call (m : Nat) where
  query : Message
  futs : Fin m → Fut := fun _ => .idle
  phase : CallPhase := .racing

namespace Call

variable {m : Nat}

/-- The call, before it has polled anything. -/
def begin (query : Message) : Call m :=
  if m = 0 then { query, phase := .ending (some (.error .noUpstreams)) } else { query }

/-- One future goes on. -/
def setFut (c : Call m) (u : Fin m) (fut : Fut) : Call m :=
  { c with futs := Function.update c.futs u fut }

/-- The body of the loop: `futs.next()` has returned this. -/
def next (c : Call m) (u : Fin m) : Outcome → Call m
  | .ok msg => { c.setFut u .gone with phase := .ending (some (.ok msg)) }
  | .error e =>
      let c := c.setFut u (.failed e)
      -- there is nothing left to wait for
      if ∀ v, (c.futs v).isOver then { c with phase := .ending (some (.error .allFailed)) } else c

end Call

/-- The upstreams of a resolver, and the calls that have not come to their end. -/
structure State (m : Nat) where
  upstreams : Fin m → InFlight.State
  calls : Nat → Option (Call m)
  /-- How many calls were made. -/
  made : Nat

/-- `Resolver::new`. -/
def init (m : Nat) : State m :=
  { upstreams := fun _ => InFlight.init, calls := fun _ => none, made := 0 }

namespace State

variable {m : Nat}

/-- A call goes on. -/
def setCall (s : State m) (q : Nat) (c : Option (Call m)) : State m :=
  { s with calls := Function.update s.calls q c }

/-- A future of a call goes on. -/
def setFut (s : State m) (q : Nat) (c : Call m) (u : Fin m) (fut : Fut) : State m :=
  s.setCall q (some (c.setFut u fut))

/-- An upstream goes on. -/
def setUpstream (s : State m) (u : Fin m) (up : InFlight.State) : State m :=
  { s with upstreams := Function.update s.upstreams u up }

/-- The calls that have not come to their end. -/
def live (s : State m) : Finset Nat := (Finset.range s.made).filter fun q => (s.calls q).isSome

end State

/-- What a query finds, in the state in which its upstream has it. -/
def Finds (qu : InFlight.Query) : Option Received → Prop
  | none | some .timeout => qu.phase = .waiting
  | some .closed => qu.phase = .finishing ∧ qu.chan = .closed
  | some (.datagram bytes) => qu.phase = .finishing ∧ qu.chan = .sent bytes

/-- What the query may return there. What comes over TCP is up to the upstream. -/
def Returns (query : Message) (qu : InFlight.Query) (r : Outcome) : Prop :=
  ∃ (peer : Peer) (received : Option Received), Finds qu received ∧
    (∀ request, peer.udp request = received) ∧
    UpstreamSocket.query peer (some qu.id) query = r.mapError .err

/-- What can happen. -/
inductive Act (m : Nat) where
  | call (query : Message)
  /-- A future is polled for the first time. -/
  | start (q : Nat) (u : Fin m)
  /-- `recv_loop` gets a datagram. -/
  | receive (u : Fin m) (bytes : List UInt8)
  /-- `recv_loop` passes it on. -/
  | send (u : Fin m)
  | wake (q : Nat) (u : Fin m)
  | leave (q : Nat) (u : Fin m)
  | dropGuard (q : Nat) (u : Fin m)
  | next (q : Nat) (u : Fin m)
  /-- The task that made the call is aborted. -/
  | cancel (q : Nat)
  /-- A future is dropped that has no guard. -/
  | discard (q : Nat) (u : Fin m)
  /-- The call comes to its end, with this. -/
  | ends (q : Nat) (result : Option Outcome)

/-- The steps of a resolver. -/
inductive Step {m : Nat} : State m → Act m → State m → Prop where
  | call {s : State m} {query : Message} :
      Step s (.call query) { s.setCall s.made (some (Call.begin query)) with made := s.made + 1 }
  /-- The query cannot be encoded. -/
  | unwritable {s : State m} {q : Nat} {u : Fin m} {c : Call m} {e : WriteError} :
      s.calls q = some c → c.phase = .racing → c.futs u = .idle →
      c.query.toBytes = .error (.err e) →
      Step s (.start q u) (s.setFut q c u (.ready (.error (.write e))))
  | exhausted {s : State m} {q : Nat} {u : Fin m} {c : Call m} {bytes : List UInt8}
      {rng : Nat → UInt16} {e : ResolveError} :
      s.calls q = some c → c.phase = .racing → c.futs u = .idle → c.query.toBytes = .ok bytes →
      (allocateAndInsert (s.upstreams u).map q rng).1 = .error (.err e) →
      Step s (.start q u) (s.setFut q c u (.ready (.error e)))
  | asks {s : State m} {q : Nat} {u : Fin m} {c : Call m} {bytes : List UInt8} {rng : Nat → UInt16}
      {id : UInt16} :
      s.calls q = some c → c.phase = .racing → c.futs u = .idle → c.query.toBytes = .ok bytes →
      (allocateAndInsert (s.upstreams u).map q rng).1 = .ok id →
      Step s (.start q u)
        ((s.setUpstream u ((s.upstreams u).register q id)).setFut q c u .asking)
  | receive {s : State m} {u : Fin m} {bytes : List UInt8} {up : InFlight.State} :
      InFlight.Step (s.upstreams u) (.receive bytes) up → Step s (.receive u bytes) (s.setUpstream u up)
  | send {s : State m} {u : Fin m} {up : InFlight.State} :
      InFlight.Step (s.upstreams u) .send up → Step s (.send u) (s.setUpstream u up)
  | wake {s : State m} {q : Nat} {u : Fin m} {c : Call m} {up : InFlight.State} :
      s.calls q = some c → c.phase = .racing → c.futs u = .asking →
      InFlight.Step (s.upstreams u) (.wake q) up → Step s (.wake q u) (s.setUpstream u up)
  /-- A future returns. -/
  | returns {s : State m} {q : Nat} {u : Fin m} {c : Call m} {qu : InFlight.Query} {r : Outcome}
      {up : InFlight.State} :
      s.calls q = some c → c.phase = .racing → c.futs u = .asking →
      (s.upstreams u).queries q = some qu → Returns c.query qu r →
      InFlight.Step (s.upstreams u) (.leave q) up →
      Step s (.leave q u) ((s.setUpstream u up).setFut q c u (.leaving (some r)))
  /-- A future is dropped that waits for its upstream. -/
  | abandoned {s : State m} {q : Nat} {u : Fin m} {c : Call m} {result : Option Outcome}
      {up : InFlight.State} :
      s.calls q = some c → c.phase = .ending result → c.futs u = .asking →
      InFlight.Step (s.upstreams u) (.leave q) up →
      Step s (.leave q u) ((s.setUpstream u up).setFut q c u (.leaving none))
  | dropGuard {s : State m} {q : Nat} {u : Fin m} {c : Call m} {r : Option Outcome}
      {up : InFlight.State} :
      s.calls q = some c → c.futs u = .leaving r →
      InFlight.Step (s.upstreams u) (.dropGuard q) up →
      Step s (.dropGuard q u) ((s.setUpstream u up).setFut q c u (r.elim .gone .ready))
  | next {s : State m} {q : Nat} {u : Fin m} {c : Call m} {r : Outcome} :
      s.calls q = some c → c.phase = .racing → c.futs u = .ready r →
      Step s (.next q u) (s.setCall q (some (c.next u r)))
  | cancel {s : State m} {q : Nat} {c : Call m} :
      s.calls q = some c → c.phase = .racing →
      Step s (.cancel q) (s.setCall q (some { c with phase := .ending none }))
  | discard {s : State m} {q : Nat} {u : Fin m} {c : Call m} {result : Option Outcome} :
      s.calls q = some c → c.phase = .ending result →
      c.futs u = .idle ∨ (∃ r, c.futs u = .ready r) → Step s (.discard q u) (s.setFut q c u .gone)
  | ends {s : State m} {q : Nat} {c : Call m} {result : Option Outcome} :
      s.calls q = some c → c.phase = .ending result → (∀ u, (c.futs u).isOver) →
      Step s (.ends q result) (s.setCall q none)

end Race

end Dnser
