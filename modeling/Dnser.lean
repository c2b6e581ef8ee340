import Dnser.Cache.Abstract
import Dnser.Cache.Concurrent
import Dnser.Cache.Key
import Dnser.Cache.Store
import Dnser.Lib.Abort
import Dnser.Lib.Bytes
import Dnser.Lib.Family
import Dnser.Lib.Loop
import Dnser.Lib.Steps
import Dnser.Lib.Table
import Dnser.Lib.TimedMap
import Dnser.Lib.Utf8
import Dnser.Net.Framing
import Dnser.Proof.Allocate
import Dnser.Proof.Alone
import Dnser.Proof.Answers
import Dnser.Proof.Append
import Dnser.Proof.CacheRefines
import Dnser.Proof.CacheSize
import Dnser.Proof.CacheStep
import Dnser.Proof.Capacity
import Dnser.Proof.Codec
import Dnser.Proof.Complete
import Dnser.Proof.Concurrent
import Dnser.Proof.Confusion
import Dnser.Proof.Datagrams
import Dnser.Proof.Drain
import Dnser.Proof.Echo
import Dnser.Proof.Edns
import Dnser.Proof.Encodes
import Dnser.Proof.Extension
import Dnser.Proof.FirstReply
import Dnser.Proof.Forward
import Dnser.Proof.Frame
import Dnser.Proof.Grammar
import Dnser.Proof.InFlight
import Dnser.Proof.Lengths
import Dnser.Proof.Lifetimes
import Dnser.Proof.Linear
import Dnser.Proof.Names
import Dnser.Proof.Parsed
import Dnser.Proof.Program
import Dnser.Proof.Progress
import Dnser.Proof.Provenance
import Dnser.Proof.Race
import Dnser.Proof.ReadName
import Dnser.Proof.Refresh
import Dnser.Proof.Relay
import Dnser.Proof.Replies
import Dnser.Proof.Robust
import Dnser.Proof.RoundTrip
import Dnser.Proof.Safety
import Dnser.Proof.Separate
import Dnser.Proof.Service
import Dnser.Proof.Settle
import Dnser.Proof.Shutdown
import Dnser.Proof.Size
import Dnser.Proof.Streams
import Dnser.Proof.Tcp
import Dnser.Proof.Udp
import Dnser.Proof.Upstream
import Dnser.Proof.Verbatim
import Dnser.Proof.Wire
import Dnser.Proof.WriteName
import Dnser.Proof.WriterRun
import Dnser.Proto.Message
import Dnser.Proto.Reader
import Dnser.Proto.Types
import Dnser.Proto.Writer
import Dnser.Resolver.InFlight
import Dnser.Resolver.Race
import Dnser.Resolver.Response
import Dnser.Resolver.Upstream
import Dnser.Server.Config
import Dnser.Server.Handler
import Dnser.Server.Program
import Dnser.Server.Service
import Dnser.Server.Shutdown
import Dnser.Server.Tcp
