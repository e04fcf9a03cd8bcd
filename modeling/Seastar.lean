import Seastar.Net.Tcp.Received
import Seastar.Net.Tcp.OptionArea
import Seastar.Net.Tcp.ClosedWindow
import Seastar.Net.Tcp.Reassembly
import Seastar.Net.Tcp.ReceiveAccounting
import Seastar.Net.Tcp.SendStream
import Seastar.Net.Tcp.SendAccounting
import Seastar.Net.Tcp.CongestionWindow
import Seastar.Net.Tcp.LimitedTransmit
import Seastar.Net.Tcp.FastRecovery
import Seastar.Net.Tcp.PositiveWindow
import Seastar.Net.Tcp.SendWindow
import Seastar.Net.Tcp.Negotiation
import Seastar.Net.Tcp.Backlog
import Seastar.Net.Tcp.HeaderLength
import Seastar.Core.Semaphore
import Seastar.Core.SharedMutex
import Seastar.Core.TimerSetClear
import Seastar.Core.CircularBufferLifetimes
import Seastar.Core.CircularBufferFixedCapacity
import Seastar.Core.ChunkedFifo
import Seastar.Lib.Ring
import Seastar.Core.ExpiringFifoRuns
import Seastar.IO.InputStream
import Seastar.IO.Skip
import Seastar.IO.StreamFlush
import Seastar.Core.FairQueue
import Seastar.IO.FileDataSink
import Seastar.IO.AppendChallengedReads
import Seastar.IO.DmaReads
import Seastar.IO.OutputStream
import Seastar.IO.FileDataSource
import Seastar.Core.SmallPool
import Seastar.Rpc.Frame
import Seastar.Rpc.CompressorFactory
import Seastar.Rpc.Lz4Messages
import Seastar.Rpc.TimeoutPropagation
import Seastar.Rpc.ServerResources
import Seastar.Rpc.StreamReceive
import Seastar.Memcached.PlainMap
import Seastar.Memcached.CompareAndSwap
import Seastar.Memcached.Protocol
import Seastar.Memcached.ParserBuffers
import Seastar.Memcached.StoreLine
import Seastar.Memcached.StoredItems
import Seastar.Core.Scheduler
import Seastar.Core.CompleteTimers
import Seastar.Core.SmpMessageQueue
import Seastar.Core.PagesInUse
import Seastar.Net.Steering
import Seastar.Net.FlowSteering
import Seastar.Net.Tcp.LocalPort
import Seastar.Net.Headroom
import Seastar.Net.PacketBytes
import Seastar.Net.ChecksumPieces
import Seastar.Net.Udp
import Seastar.Net.Ipv4.FragmentMemory
import Seastar.Core.DeleterSharing
import Seastar.Net.Virtio.Queues
import Seastar.Net.Virtio.Conservation
import Seastar.Http.ContentReplace
import Seastar.Http.ConnectionLoops
import Seastar.Http.QueryParams
import Seastar.Http.Routes
import Seastar.Http.FileHandler
import Seastar.Lib.Replace
import Seastar.Core.ChunkedFifoReserve
import Seastar.Core.FairQueueCosts
import Seastar.Core.IoQueue
import Seastar.Core.MapReduce
import Seastar.Core.AioConservation
import Seastar.Core.FlushPendingAio
import Seastar.Core.SStringAgreement
import Seastar.Core.PipeRuns
import Seastar.Core.SimpleStreamRuns
import Seastar.Json.FormatterFidelity
import Seastar.Json.Elements
import Seastar.Memcached.TokenHistory
import Seastar.Core.SizeClasses
import Seastar.Net.Dhcp.Client
import Seastar.Core.IoQueueTopology
import Seastar.Core.ScollectdRuns
import Seastar.Core.SharedPtrRuns
import Seastar.Net.ConntrackRuns
import Seastar.Core.ParallelForEachRuns
import Seastar.Net.Ipv4.Send
