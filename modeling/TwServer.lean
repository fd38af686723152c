import TwServer.Lib.Program
import TwServer.Lib.Runs
import TwServer.Lib.Blocks
import TwServer.Lib.Counting
import TwServer.Lib.Tokens
import TwServer.Lib.OrderedSet
import TwServer.ByteArray.Model
import TwServer.ByteArray.Typed
import TwServer.ByteArray.Chain
import TwServer.ByteArray.Capacity
import TwServer.ByteArray.Writers
import TwServer.ByteArray.FlatFile
import TwServer.Scheduler.Fiber
import TwServer.IOManager.Model
import TwServer.IOManager.Registration
import TwServer.IOManager.Report
import TwServer.IOManager.Runs
import TwServer.IOManager.Handling
import TwServer.IOManager.Pending
import TwServer.IOManager.CancelAll
import TwServer.Scheduler.Model
import TwServer.Scheduler.Shutdown
import TwServer.Wake.Model
import TwServer.Wake.Safety
import TwServer.Wake.Delivery
import TwServer.Timer.Model
import TwServer.Timer.Order
import TwServer.IOManager.Tickle
import TwServer.IOManager.WakeUp
import TwServer.IOManager.EpollTimeout
import TwServer.Hook.DoIo
import TwServer.Hook.Timeout
import TwServer.Lib.Automaton
import TwServer.Timer.Lifecycle
import TwServer.Timer.Flag
import TwServer.Timer.Expiry
import TwServer.Lib.Octets
import TwServer.ByteArray.Stream
import TwServer.ByteArray.Integers
import TwServer.ByteArray.Zigzag
import TwServer.ByteArray.Strings
import TwServer.ByteArray.Positional
import TwServer.Hook.FdManager
import TwServer.Hook.SockOpt
import TwServer.Hook.Fcntl
import TwServer.Hook.Connect
import TwServer.Hook.Close
import TwServer.Http.Request
import TwServer.Http.Parser
import TwServer.Http.Scanning
import TwServer.Http.Session
import TwServer.Http.Table
import TwServer.Http.Segmentation
import TwServer.Http.KeepAlive
import TwServer.Http.Memory
import TwServer.Http.Serialise
import TwServer.Http.Framing
import TwServer.Http.Grammar
import TwServer.Http.RoundTrip
import TwServer.Http.Announce
import TwServer.ByteArray.Segments
import TwServer.ByteArray.File
import TwServer.ByteArray.Truncated
import TwServer.Stream.FixSize
import TwServer.Stream.SocketStream
import TwServer.Http.Body
import TwServer.Http.ContentLength
import TwServer.Address.Model
import TwServer.Address.Order
import TwServer.Lib.Ipv6Text
import TwServer.Address.Print
import TwServer.Address.Prefix
import TwServer.Socket.Model
import TwServer.TcpServer.Bind
import TwServer.Socket.Cache
import TwServer.Http.Method
import TwServer.Http.RespondParser
import TwServer.IOManager.Tables
import TwServer.Timer.Delay
import TwServer.Http.RespondTable
import TwServer.Http.Respond
import TwServer.Http.RespondHead
import TwServer.Http.RespondRoundTrip
import TwServer.Http.RespondChunk
import TwServer.IOManager.Quit
import TwServer.IOManager.QuitSafety
import TwServer.Lib.Coroutines
import TwServer.Scheduler.Exclusive
import TwServer.Scheduler.Switch
import TwServer.ByteArray.Lifetime
import TwServer.Socket.Descriptors
import TwServer.TcpServer.Lifecycle
