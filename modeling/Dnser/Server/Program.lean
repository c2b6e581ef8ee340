import Dnser.Resolver.Race
import Dnser.Server.Service

/-!
# The program

The server of `Dnser.Server.Service` gets whatever the resolver comes back with, and the resolver of
`Dnser.Resolver.Race` gets whatever it is called with. Here the two are put together, the way `start`
does it: there is one resolver, and the tasks of all workers and connections share it. A task that
calls it waits for that call, and goes on when the call comes to its end. All other steps are made by
the one or by the other alone.

When a task is dropped that waits, its call is dropped with it. That happens to the queries of a
worker after `abort_all`. The tasks of connections are only dropped with the runtime.
-/

namespace Dnser

open Race (Outcome)

/-- A task that can wait for the resolver. -/
inductive Waiter where
  /-- The task that has this datagram. -/
  | query (number : Nat)
  /-- The task of this connection. -/
  | conn (k : Nat)
  deriving DecidableEq

/-- What a task has to do with the resolver. -/
inductive Contact where
  | calls (query : Message)
  /-- The call has returned this, or was dropped. -/
  | returns (result : Option Outcome)

/-- What a task waits for. -/
def QueryPhase.awaited : QueryPhase → Option Message
  | resolving query => some query
  | _ => none

/-- The same for a connection. -/
def ConnPhase.awaited : ConnPhase → Option Message
  | resolving query => some query
  | _ => none

/-- What a step of a task has to do with the resolver. -/
def QueryTask.contact {Addr : Type} (t : QueryTask Addr) (cache : Cache) (act : QueryAct) :
    Option Contact :=
  match t.phase.awaited, act with
  | some _, .resolved outcome _ _ => some (.returns (some outcome))
  | some _, _ => some (.returns none)
  | none, _ => ((t.step cache act).bind fun (t', _) => t'.phase.awaited).map .calls

/-- The same for a connection. -/
def ConnTask.contact (t : ConnTask) (cache : Cache) (act : ConnTaskAct) : Option Contact :=
  match t.phase.awaited, act with
  | some _, .resolved outcome _ _ => some (.returns (some outcome))
  | some _, _ => some (.returns none)
  | none, _ => ((t.step cache act).bind fun (t', _) => t'.phase.awaited).map .calls

/-- What a step of the server has to do with the resolver, and which task it is. -/
def Service.contact {Addr : Type} {n : Nat} (s : Service Addr n) :
    ServiceAct Addr n → Option (Waiter × Contact)
  | .query w i act =>
      (s.workers w).queries[i]?.bind fun t => (t.contact s.cache act).map (Waiter.query t.number, ·)
  | .conn k act => s.conns[k]?.bind fun t => (t.contact s.cache act).map (Waiter.conn k, ·)
  | _ => none

/-- A server with `n` workers, and its resolver with `m` upstreams. -/
structure Program (Addr : Type) (n m : Nat) where
  service : Service Addr n
  resolver : Race.State m
  /-- The calls that tasks wait for. -/
  calls : Waiter → Option Nat

/-- What can happen. -/
inductive ProgramAct (Addr : Type) (n m : Nat) where
  | service (act : ServiceAct Addr n)
  | resolver (act : Race.Act m)

namespace Program

variable {Addr : Type} {n m : Nat}

/-- `start`. -/
def start (cache : Cache) (n m udpMaxInflight tcpMaxConnections : Nat) : Program Addr n m :=
  { service := Service.start cache n udpMaxInflight tcpMaxConnections
    resolver := Race.init m
    calls := fun _ => none }

/-- Whoever waits for this call is dropped. -/
def Dropped (p : Program Addr n m) (q : Nat) : Prop :=
  (∃ w, ∃ t ∈ (p.service.workers w).queries,
    t.phase.awaited.isSome ∧ t.aborted ∧ p.calls (.query t.number) = some q) ∨
    ∃ k, p.calls (.conn k) = some q

/-- What the resolver does by itself. -/
def Internal (p : Program Addr n m) : Race.Act m → Prop
  | .call _ | .ends _ _ => False
  | .cancel q => p.Dropped q
  | _ => True

/-- The steps of the program. -/
inductive Step : Program Addr n m → ProgramAct Addr n m → Program Addr n m → Prop where
  | serves {p : Program Addr n m} {a : ServiceAct Addr n} {service : Service Addr n} :
      p.service.Step a service → p.service.contact a = none → Step p (.service a) { p with service }
  | calls {p : Program Addr n m} {a : ServiceAct Addr n} {service : Service Addr n} {waiter : Waiter}
      {query : Message} {resolver : Race.State m} :
      p.service.Step a service → p.service.contact a = some (waiter, .calls query) →
      Race.Step p.resolver (.call query) resolver →
      Step p (.service a)
        { service, resolver, calls := Function.update p.calls waiter (some p.resolver.made) }
  | returns {p : Program Addr n m} {a : ServiceAct Addr n} {service : Service Addr n} {waiter : Waiter}
      {result : Option Outcome} {q : Nat} {resolver : Race.State m} :
      p.service.Step a service → p.service.contact a = some (waiter, .returns result) →
      p.calls waiter = some q → Race.Step p.resolver (.ends q result) resolver →
      Step p (.service a) { service, resolver, calls := Function.update p.calls waiter none }
  | resolves {p : Program Addr n m} {a : Race.Act m} {resolver : Race.State m} :
      Race.Step p.resolver a resolver → p.Internal a → Step p (.resolver a) { p with resolver }

end Program

end Dnser
