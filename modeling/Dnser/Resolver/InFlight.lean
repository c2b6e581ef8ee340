import Dnser.Lib.Bytes
import Dnser.Lib.Steps
import Dnser.Resolver.Response
import Mathlib.Logic.Function.Basic

/-!
# Queries in flight

One `UpstreamSocket`: the map from ids to senders, the queries that wait on it, and the task
that receives for all of them. They interleave at every `await` and between any two uses of
the lock, so each use of the lock is a step of its own.

Queries are numbered in the order they are made, and a number stands for the two halves of
its query's channel as well: `map id = some q` is the sender of query `q`, filed under `id`.

What a query does between being woken and returning (parsing, the retry over TCP) touches
nothing here and is a phase it stays in. A query that cannot get an id returns before it has
a guard, and leaves no trace either.

How an id is drawn and searched for is a function of its own, `allocateAndInsert`; the steps
allow any vacant id.
-/

namespace Dnser

namespace InFlight

open Bytes Abort

/-! ## Taking an id -/

/-- `HashMap<u16, oneshot::Sender<Bytes>>`, with senders of type `σ`. -/
abbrev Senders (σ : Type) := UInt16 → Option σ

/-- `RANDOM_ID_ATTEMPTS`. -/
def randomIdAttempts : Nat := 16

/-- The ids that are drawn, one an attempt. -/
def attempts (rng : Nat → UInt16) : List UInt16 := (List.range randomIdAttempts).map rng

/-- The ids of the scan: `start.wrapping_add(offset)`, for `offset` in `0..=u16::MAX`. -/
def scan (start : UInt16) : List UInt16 :=
  (List.range (2 ^ 16)).map fun offset => start + UInt16.ofNat offset

/--
The body of both loops, over the ids they come to: the first that is vacant is filled and
returned. `none` if the loop runs to its end.
-/
def fillVacant {σ : Type} (map : Senders σ) (tx : Option σ) :
    List UInt16 → Option (Except (Abort ResolveError) UInt16 × Senders σ)
  | [] => none
  | id :: ids =>
      match map id with
      | some _ => fillVacant map tx ids
      | none =>
          -- `tx.take().unwrap()`
          match tx with
          | some tx => some (.ok id, Function.update map id (some tx))
          | none => some (.error .panic, map)

/-- `UpstreamSocket::allocate_and_insert`, with what `rng` draws and the map it leaves behind. -/
def allocateAndInsert {σ : Type} (map : Senders σ) (tx : σ) (rng : Nat → UInt16) :
    Except (Abort ResolveError) UInt16 × Senders σ :=
  match fillVacant map (some tx) (attempts rng) with
  | some result => result
  | none =>
      -- the next draw is where the scan starts
      match fillVacant map (some tx) (scan (rng randomIdAttempts)) with
      | some result => result
      | none => (.error (.err .idSpaceExhausted), map)

/-! ## The parties -/

/-- The channel a query waits on. -/
inductive Channel where
  /-- Nothing sent yet; the sender is in the map or with the receive task. -/
  | empty
  /-- A datagram is waiting. -/
  | sent (bytes : List UInt8)
  /-- The sender was dropped. -/
  | closed
  deriving DecidableEq

/-- How far a query has come. -/
inductive Phase where
  /-- Sending, or waiting for the channel. -/
  | waiting
  /-- Woken by the channel. -/
  | finishing
  /-- On its way out, with the channel gone and the guard not yet dropped: by timeout, by a send
  error, because its future was dropped, or after finishing. -/
  | leaving
  deriving DecidableEq

/-- A query, as `UpstreamSocket::query` keeps it. -/
structure Query where
  /-- `assigned_id`. -/
  id : UInt16
  /-- `guard.id`: `some` while the guard is armed. -/
  guard : Option UInt16
  chan : Channel
  phase : Phase
  deriving DecidableEq

/-- A datagram that was received: how many came before it, and its bytes. -/
structure Datagram where
  number : Nat
  bytes : List UInt8
  deriving DecidableEq

/-- The id in the first two bytes of a datagram. -/
def datagramId (bytes : List UInt8) : UInt16 := ofBe16 (bytes.getD 0 0) (bytes.getD 1 0)

/-- The state of one upstream. -/
structure State where
  /-- `InFlight::map`. -/
  map : UInt16 → Option Nat
  /-- The queries that are alive. -/
  queries : Nat → Option Query
  /-- What `recv_loop` has taken out of the map and not yet sent. -/
  held : Option (Datagram × Nat)
  /-- How many datagrams have been received. -/
  received : Nat
  /-- The id every query ever made was assigned. -/
  assigned : Nat → Option UInt16
  /-- The query each id was last allocated to. -/
  lastOwner : UInt16 → Option Nat
  /-- The datagrams that were handed over, and to whom. -/
  handed : List (Datagram × Nat)

/-- `UpstreamSocket::new`. -/
def init : State :=
  { map := fun _ => none
    queries := fun _ => none
    held := none
    received := 0
    assigned := fun _ => none
    lastOwner := fun _ => none
    handed := [] }

namespace State

/-- A live query moves on. -/
def setQuery (s : State) (q : Nat) (qu : Option Query) : State :=
  { s with queries := Function.update s.queries q qu }

/-- `allocate_and_insert`, and the guard made right after it. -/
def register (s : State) (q : Nat) (id : UInt16) : State :=
  { s with
    map := Function.update s.map id (some q)
    queries := Function.update s.queries q
      (some { id, guard := some id, chan := .empty, phase := .waiting })
    assigned := Function.update s.assigned q (some id)
    lastOwner := Function.update s.lastOwner id (some q) }

/-- `recv_loop` up to the lock: datagrams under 12 bytes are skipped, the others take the sender
that is filed under their id, if there is one. -/
def receive (s : State) (bytes : List UInt8) : State :=
  let s' := { s with received := s.received + 1 }
  if bytes.length < 12 then s'
  else
    { s' with
      -- the entry goes before the datagram is delivered, and before anyone has looked at it
      map := Function.update s.map (datagramId bytes) none
      held := (s.map (datagramId bytes)).map fun q => (⟨s.received, bytes⟩, q) }

/-- `tx.send`: it succeeds while the receiving half is there. -/
def send (s : State) (d : Datagram) (q : Nat) : State :=
  let s' := { s with held := none }
  match s.queries q with
  | some qu =>
      -- once the query is on its way out, the datagram is lost
      if qu.phase = .waiting then
        { s' with
          queries := Function.update s.queries q (some { qu with chan := .sent d.bytes })
          handed := s.handed ++ [(d, q)] }
      else s'
  | none => s'

/-- A sender is dropped: whoever waits for it will know. -/
def dropSender (s : State) (q : Nat) : State :=
  match s.queries q with
  | some qu => s.setQuery q (some { qu with chan := .closed })
  | none => s

/-- `<InFlightGuard as Drop>::drop`, of an armed guard. -/
def removeId (s : State) (id : UInt16) : State :=
  let s' := { s with map := Function.update s.map id none }
  match s.map id with
  | some q => s'.dropSender q
  | none => s'

/-- The end of a query: its guard is dropped. -/
def finish (s : State) (q : Nat) (qu : Query) : State :=
  match qu.guard with
  | some id => (s.removeId id).setQuery q none
  | none => s.setQuery q none

end State

/-- What can happen. -/
inductive Act where
  | allocate (q : Nat) (id : UInt16)
  | receive (bytes : List UInt8)
  | send
  | wake (q : Nat)
  | leave (q : Nat)
  | dropGuard (q : Nat)
  deriving DecidableEq

/-- The steps of one upstream. -/
inductive Step : State → Act → State → Prop where
  /-- A new query takes a vacant id. -/
  | allocate {s : State} {q : Nat} {id : UInt16} : s.assigned q = none → s.map id = none →
      Step s (.allocate q id) (s.register q id)
  /-- `recv_loop` gets a datagram, or as much of it as its buffer holds. -/
  | receive {s : State} {bytes : List UInt8} : bytes.length ≤ maxUdpSize → s.held = none →
      Step s (.receive bytes) (s.receive bytes)
  /-- `recv_loop` passes it on. -/
  | send {s : State} {d : Datagram} {q : Nat} : s.held = some (d, q) → Step s .send (s.send d q)
  /-- A query sees its channel ready, with a datagram or without its sender, and disarms. -/
  | wake {s : State} {q : Nat} {qu : Query} : s.queries q = some qu → qu.phase = .waiting →
      qu.chan ≠ .empty →
      Step s (.wake q) (s.setQuery q (some { qu with guard := none, phase := .finishing }))
  /-- A query returns, times out or is cancelled. -/
  | leave {s : State} {q : Nat} {qu : Query} : s.queries q = some qu → qu.phase ≠ .leaving →
      Step s (.leave q) (s.setQuery q (some { qu with phase := .leaving }))
  /-- Its guard is dropped. -/
  | dropGuard {s : State} {q : Nat} {qu : Query} : s.queries q = some qu → qu.phase = .leaving →
      Step s (.dropGuard q) (s.finish q qu)

end InFlight

end Dnser
