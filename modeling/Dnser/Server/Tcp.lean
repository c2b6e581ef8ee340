import Dnser.Lib.Loop
import Dnser.Net.Framing
import Dnser.Server.Handler

/-!
# The TCP path

`handle_conn`, which answers the queries on one connection, one after the other. It shares the
cache with every other connection and worker, so what each query finds there is an argument, as
is what the resolver does with it.
-/

namespace Dnser

open Abort Loop

/-- What the connection meets while it waits for a query and answers it. -/
structure ConnTurn where
  /-- The idle timeout strikes before the query is in. -/
  idle : Bool := false
  /-- The cache as the query finds it. -/
  cache : Cache
  now : Nat
  w : Awaited

/-- The reply to the query. -/
def ConnTurn.reply (t : ConnTurn) (query : Message) : Message :=
  (processQuery t.cache query t.now t.w).1

/-- `QueryError`, with the one I/O error that framing makes. -/
inductive ConnError where
  | parse (e : ParseError)
  | write (e : WriteError)
  | io (e : FrameError)
  deriving DecidableEq

/-- The locals of `handle_conn`. -/
structure ConnLoop where
  /-- How many queries were answered. -/
  turn : Nat
  /-- What the client is still going to send. -/
  input : List UInt8
  /-- What was sent to it. -/
  output : List UInt8

/-- What is left when the connection is closed. -/
structure ConnEnd where
  output : List UInt8
  result : Except (Abort ConnError) Unit

/-- One turn of `handle_conn`. -/
def handleConnBody (turns : Nat → ConnTurn) (s : ConnLoop) : Turn ConnLoop ConnEnd :=
  if (turns s.turn).idle then .done ⟨s.output, .ok ()⟩
  else
    match readFramed s.input with
    | (none, _) => .done ⟨s.output, .ok ()⟩
    | (some body, input) =>
        match liftAbort .parse (Message.parse body) with
        | .error e => .done ⟨s.output, .error e⟩
        | .ok query =>
            match liftAbort .write ((turns s.turn).reply query).toBytes with
            | .error e => .done ⟨s.output, .error e⟩
            | .ok bytes =>
                match writeFramed s.output bytes with
                | .error e => .done ⟨s.output, .error (.err (.io e))⟩
                | .ok output => .again ⟨s.turn + 1, input, output⟩

/-- A frame that is read is taken off the stream. -/
theorem length_readFramed {stream stream' body : List UInt8}
    (h : readFramed stream = (some body, stream')) : stream'.length < stream.length := by
  unfold readFramed readExact at h
  split at h
  · cases h
  · rename_i lenBuf rest hlen
    split at hlen
    · cases hlen
      dsimp only at h
      split at h
      · cases h
      · split at h
        · cases h
          simp only [List.length_drop]
          omega
        · cases h
    · cases hlen

theorem handleConnBody_decreases (turns : Nat → ConnTurn) :
    Decreases (fun s => (.ok (handleConnBody turns s) : Except Empty _))
      (fun s => s.input.length) := by
  intro s s' h
  have h := Except.ok.inj h
  unfold handleConnBody at h
  split at h
  · cases h
  · split at h
    · cases h
    · rename_i body input hread
      split at h
      · cases h
      · split at h
        · cases h
        · split at h
          · cases h
          · cases h
            exact length_readFramed hread

/-- `handle_conn`. -/
def handleConn (turns : Nat → ConnTurn) (input : List UInt8) : ConnEnd :=
  match loop (fun s => (.ok (handleConnBody turns s) : Except Empty _)) (fun s => s.input.length)
    (handleConnBody_decreases turns) ⟨0, input, []⟩ with
  | .ok a => a
  | .error e => nomatch e

end Dnser
