import Azugate.Machine
import Azugate.Incremental
import Azugate.Bytes
import Azugate.Router
import Azugate.RouterRuns
import Azugate.RoundRobin
import Azugate.Fairness
import Azugate.RouteTargets
import Azugate.PrefixRoutes
import Azugate.Binding
import Azugate.RateLimiter
import Azugate.TokenBucket
import Azugate.Headers
import Azugate.Cookies
import Azugate.Pico
import Azugate.HeaderRead
import Azugate.Relay
import Azugate.WebSocket
import Azugate.Server
import Azugate.Ipv4
import Azugate.Handler
import Azugate.HttpMessage
import Azugate.HttpParser
import Azugate.RequestGrammar
import Azugate.FileParser
import Azugate.SocketParser
import Azugate.Chunked
import Azugate.Compression
import Azugate.CompressorRuns
import Azugate.Socket
import Azugate.GzipBody
import Azugate.LocalFiles
import Azugate.Urls
import Azugate.GrpcWeb
import Azugate.PicoGrammar
import Azugate.TwoParsers
import Azugate.PicoResponse
import Azugate.IsComplete
import Azugate.Gateway
import Azugate.Startup
import Azugate.Proxying
import Azugate.ChunkDecoder
import Azugate.ChunkedBodies
import Azugate.LocalReply
