import LbProxy.Lib.Bytes
import LbProxy.Lib.Text
import LbProxy.Lib.Head
import LbProxy.Lib.HeadParser
import LbProxy.Lib.Tokens
import LbProxy.Lib.Stream
import LbProxy.Lib.PathRouter
import LbProxy.Lib.RouterOrder
import LbProxy.Lib.HeaderMap
import LbProxy.Lib.Uri
import LbProxy.Lib.SmoothRoundRobin
import LbProxy.Lib.Windows
import LbProxy.Lib.Runs
import LbProxy.Lib.Calendar
import LbProxy.Lib.Lanes
import LbProxy.Lib.SocketAddr
import LbProxy.Lib.Overflow
import LbProxy.Lib.Search
import LbProxy.Lib.Csv
import LbProxy.Lib.Edits
import LbProxy.Lib.Mixer
import LbProxy.Lib.Sweep
import LbProxy.Core.Simd
import LbProxy.Core.Target
import LbProxy.Core.Fairness
import LbProxy.Core.Smoothness
import LbProxy.Core.Windows
import LbProxy.Core.Filter
import LbProxy.Core.Proxy
import LbProxy.Core.HopByHop
import LbProxy.Core.RouteTable
import LbProxy.Core.Lookup
import LbProxy.Core.SimdPaths
import LbProxy.Core.HostTiers
import LbProxy.Core.Gateway
import LbProxy.Core.Soundness
import LbProxy.Core.Precedence
import LbProxy.Core.EndpointChurn
import LbProxy.Core.Rewrite
import LbProxy.Core.Scoped
import LbProxy.Core.Backends
import LbProxy.Core.Balancer
import LbProxy.Core.Config
import LbProxy.Core.RuleFilters
import LbProxy.Core.Hash
import LbProxy.Core.Reconcile
import LbProxy.Core.EndpointStore
import LbProxy.Core.Dialled
import LbProxy.Core.Controller
import LbProxy.Core.Rebuild
import LbProxy.Core.Convergence
import LbProxy.Bench.Hardware
import LbProxy.Bench.Preflight
import LbProxy.Bench.Csv
import LbProxy.Bench.Runner
import LbProxy.Hyper.Server
import LbProxy.Pingora.ProxyService
import LbProxy.Pingora.Hygiene
import LbProxy.Pingora.Replay
import LbProxy.Pingora.Phases
import LbProxy.Monoio.Http2
import LbProxy.Monoio.Http1
import LbProxy.Monoio.Heads
import LbProxy.Monoio.HeadLines
import LbProxy.Monoio.Framing
import LbProxy.Monoio.Forward
import LbProxy.Monoio.Ambiguity
import LbProxy.Monoio.Values
import LbProxy.Monoio.Hygiene
import LbProxy.Monoio.EndToEnd
import LbProxy.Monoio.Return
import LbProxy.Monoio.Pool
import LbProxy.Monoio.Server
import LbProxy.Monoio.Exchange
import LbProxy.Monoio.Relay
import LbProxy.Monoio.Sniff
import LbProxy.Monoio.ChunkedRelay
import LbProxy.Monoio.Pipeline
import LbProxy.Monoio.HeadLimit
import LbProxy.Monoio.Reuse
import LbProxy.Monoio.Disposition
import LbProxy.Monoio.LengthRelay
import LbProxy.Monoio.Answers
import LbProxy.Monoio.Silence
import LbProxy.Monoio.Worker
import LbProxy.Monoio.Progress
import LbProxy.Forwarded
import LbProxy.Planes
import LbProxy.Routing
import LbProxy.RuleHeaders
import LbProxy.RuleTargets
import LbProxy.System
