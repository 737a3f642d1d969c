import Azure.Reasoning.Runs
import Azure.Reasoning.OrderedSet
import Azure.Timer.Model
import Azure.Timer.Lifecycle
import Azure.Timer.Wakeup
import Azure.ByteArray.Model
import Azure.ByteArray.Flat
import Azure.ByteArray.Refinement
import Azure.ByteArray.Codec
import Azure.ByteArray.RoundTrip
import Azure.Scheduler.Model
import Azure.Scheduler.Moves
import Azure.Scheduler.Conservation
import Azure.IOManager.Events
import Azure.IOManager.PendingCount
import Azure.Scheduler.Resume
import Azure.IOManager.Model
import Azure.IOManager.Shutdown
import Azure.Hook.Descriptors
import Azure.Hook.Model
import Azure.Hook.Recycling
import Azure.Hook.NonBlocking
import Azure.IOManager.Growth
import Azure.Reasoning.Scanner
import Azure.Stream.Transfer
import Azure.Http.Pool
import Azure.Reasoning.Ownership
import Azure.Http.Accounting
import Azure.Scheduler.Assertions
import Azure.IOManager.Waiters
import Azure.Hook.BlockingMoves
import Azure.Hook.Blocking
import Azure.Hook.Protocol
import Azure.Http.Message
import Azure.Http.Parser
import Azure.Http.Receive
import Azure.Http.Tokens
import Azure.Reasoning.Pieces
import Azure.Http.KeepAlive
import Azure.Http.Chunked
import Azure.Http.Exchange
import Azure.Http.Discard
import Azure.Http.Segmentation
import Azure.ByteArray.Buffers
import Azure.Log.Formatter
import Azure.Log.Model
import Azure.Log.Inheritance
import Azure.Log.Reload
import Azure.Log.Define
import Azure.Http.Dump
import Azure.Http.Framing
import Azure.Reasoning.Machine
import Azure.Uri.Model
import Azure.Uri.Rfc3986
import Azure.Uri.Parts
import Azure.Uri.Firing
import Azure.Uri.Authority
import Azure.Uri.Execution
import Azure.Uri.AuthorityRun
import Azure.Uri.Boundary
import Azure.Uri.Create
import Azure.Uri.Extraction
import Azure.Uri.Printing
import Azure.Uri.Ipv6
import Azure.Uri.Hosts
import Azure.Uri.Acceptance
import Azure.Timer.Calls
import Azure.Timer.Expiry
import Azure.IOManager.Timeout
import Azure.ByteArray.Strings
import Azure.ByteArray.Session
import Azure.ByteArray.Host
import Azure.ByteArray.Growth
import Azure.ByteArray.StringRoundTrip
import Azure.ByteArray.File
import Azure.Address.Lookup
import Azure.Address.Model
import Azure.Address.Subnets
import Azure.Address.Text
import Azure.Http.Accessors
import Azure.Http.Methods
import Azure.Log.Patterns
import Azure.Http.ChunkSizes
import Azure.Http.Limits
import Azure.Http.Rewriting
import Azure.ByteArray.Varints
import Azure.ByteArray.Zigzag
import Azure.Config.Updates
import Azure.Hook.Sleep
import Azure.Hook.Bounds
import Azure.Hook.Contexts
import Azure.Socket.Addresses
import Azure.Hook.Connected
import Azure.Reasoning.Passes
import Azure.Http.RequestLine
import Azure.Http.HeaderLines
import Azure.Http.RequestRoundTrip
import Azure.Reasoning.Registry
import Azure.Http.Servlet
import Azure.Http.Server
import Azure.Http.Waiting
import Azure.Http.ResponseFields
import Azure.Http.ResponseLines
import Azure.Http.ResponseRoundTrip
import Azure.Http.Conversation
import Azure.Http.Targets
import Azure.Http.Client
import Azure.Http.Forward
import Azure.Stream.Buffered
import Azure.Stream.Messages
import Azure.Config.Registry
import Azure.Reasoning.Stamps
import Azure.Config.Directory
import Azure.Tcp.Model
import Azure.Tcp.Clients
import Azure.Tcp.Stopping
