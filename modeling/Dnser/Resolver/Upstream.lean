import Dnser.Net.Framing
import Dnser.Resolver.Response

/-!
# Asking upstreams

`UpstreamSocket::query`, the TCP fallback behind it, and `Resolver::resolve` over the results.
An upstream is what it sends back for what it is sent; how ids are allocated and datagrams find
their query is in `Dnser.Resolver.InFlight`.
-/

namespace Dnser

open Bytes Abort

/-- What a query that is on its way waits for. -/
inductive Received where
  /-- A datagram with the query's id. -/
  | datagram (bytes : List UInt8)
  /-- The sender's end of the channel was dropped. -/
  | closed
  | timeout

/-- What comes of a TCP connection. -/
inductive TcpReceived where
  /-- The bytes sent on it before it is closed. -/
  | stream (bytes : List UInt8)
  | ioError
  | timeout

/-- An upstream. -/
structure Peer where
  /-- What comes of a datagram, unless it cannot be sent. -/
  udp : List UInt8 → Option Received
  /-- What comes of a stream. -/
  tcp : List UInt8 → TcpReceived

/-- The id and the RD bit, patched into an encoded query. -/
def patchQuery (bytes : List UInt8) (assignedId : UInt16) :
    Except (Abort ResolveError) (List UInt8) :=
  match bytes with
  | _ :: _ :: flags :: rest => .ok (be16 assignedId ++ (flags ||| (Header.RD >>> 8).toUInt8) :: rest)
  | _ => .error .panic

/-- `tcp_query`. The query is sent as the client sent it. -/
def tcpQuery (peer : Peer) (query : Message) : Except (Abort ResolveError) Message := do
  let bytes ← liftAbort .write query.toBytes
  match writeFramed [] bytes with
  | .error _ => .error (.err .io)
  | .ok sent =>
      match peer.tcp sent with
      | .ioError => .error (.err .io)
      | .timeout => .error (.err .timeout)
      | .stream received =>
          match (readFramed received).1 with
          | none => .error (.err .invalidResponse)
          | some body => parseValidatedResponse body query query.header.id

/-- `UpstreamSocket::query`, with the id it is assigned, if there is one left. -/
def UpstreamSocket.query (peer : Peer) (assigned : Option UInt16) (query : Message) :
    Except (Abort ResolveError) Message := do
  let bytes ← liftAbort .write query.toBytes
  match assigned with
  | none => .error (.err .idSpaceExhausted)
  | some id =>
      let sent ← patchQuery bytes id
      match peer.udp sent with
      | none => .error (.err .io)
      | some .closed => .error (.err .allFailed)
      | some .timeout => .error (.err .timeout)
      | some (.datagram response) =>
          let msg ← parseValidatedResponse response query query.header.id
          if msg.header.isTruncated then tcpQuery peer query else .ok msg

/-- The loop of `resolve`: the first message, whatever failed before it. -/
def firstOk : List (Except (Abort ResolveError) Message) → Except (Abort ResolveError) Message
  | [] => .error (.err .allFailed)
  | .ok msg :: _ => .ok msg
  | .error (.err _) :: results => firstOk results
  | .error .panic :: _ => .error .panic

/-- `Resolver::resolve`, on the results of its upstreams in the order in which they come in. -/
def resolve (results : List (Except (Abort ResolveError) Message)) :
    Except (Abort ResolveError) Message :=
  if results.isEmpty then .error (.err .noUpstreams) else firstOk results

end Dnser
