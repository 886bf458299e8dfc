import Ruyi.Outcome
import Ruyi.Usize
import Ruyi.Base.Machine
import Ruyi.Base.Simulation
import Ruyi.Base.BoundedQueue
import Ruyi.Base.Segment
import Ruyi.Base.Region
import Ruyi.Base.Search
import Ruyi.Base.Scan
import Ruyi.Base.Groups
import Ruyi.Base.Queues
import Ruyi.Base.Utf8
import Ruyi.Slab
import Ruyi.SlabMap
import Ruyi.SlabReserve
import Ruyi.Buf.Block
import Ruyi.Buf.ByteBuf
import Ruyi.Buf.Find
import Ruyi.Buf.RFind
import Ruyi.Buf.Window
import Ruyi.Buf.Windows
import Ruyi.Buf.WindowsNth
import Ruyi.Buf.ReadIter
import Ruyi.Buf.FixedWidth
import Ruyi.Buf.Codec
import Ruyi.Buf.Append
import Ruyi.Buf.Appending
import Ruyi.Buf.Prepend
import Ruyi.Buf.Prepending
import Ruyi.Buf.Cursor
import Ruyi.Buf.GetIter
import Ruyi.Buf.Consuming
import Ruyi.Buf.GetCodec
import Ruyi.Buf.SetIter
import Ruyi.Buf.SetContent
import Ruyi.Buf.Buffers
import Ruyi.Buf.BufferRegions
import Ruyi.Buf.BufferContent
import Ruyi.Buf.Growing
import Ruyi.Buf.Addressing
import Ruyi.Buf.Order
import Ruyi.Buf.Views
import Ruyi.Buf.HexDump
import Ruyi.Buf.HexText
import Ruyi.Buf.HexListing
import Ruyi.Buf.Varint
import Ruyi.Buf.RoundTrip
import Ruyi.Buf.ByteOrder
import Ruyi.Buf.Failing
import Ruyi.Buf.CallContent
import Ruyi.Buf.Strings
import Ruyi.Buf.Queries
import Ruyi.Proto.Prefix
import Ruyi.Proto.Decoder
import Ruyi.Proto.Framing
import Ruyi.Proto.U8Prefix
import Ruyi.Proto.Streaming
import Ruyi.Proto.Polling
import Ruyi.Sync.RingBuffer
import Ruyi.Sync.RingOrder
import Ruyi.Sync.RingFifo
import Ruyi.Sync.RingCalls
import Ruyi.Sync.Channel
import Ruyi.Sync.ChannelOrder
import Ruyi.Sync.RingQueue
import Ruyi.Sync.RingDrop
import Ruyi.Sync.ChannelDelivery
import Ruyi.Sync.ChannelSends
import Ruyi.Sync.ChannelWakeup
import Ruyi.Sync.ChannelSignals
import Ruyi.Sync.PipeChannel
import Ruyi.Sync.IocpChannel
import Ruyi.Sync.ChannelQueue
import Ruyi.Sys.Nio
import Ruyi.Sys.Interest
import Ruyi.Sys.RecvBuffer
import Ruyi.Sys.Tcp
import Ruyi.Net.Tcp
import Ruyi.Net.TcpSink
import Ruyi.Net.Inbound
import Ruyi.Net.Framed
import Ruyi.Net.TcpWakeup
import Ruyi.Net.Connect
import Ruyi.Net.Overlapped
import Ruyi.Net.OverlappedReads
import Ruyi.Reactor.Wheel
import Ruyi.Reactor.WheelLinks
import Ruyi.Reactor.WheelRing
import Ruyi.Reactor.WheelTick
import Ruyi.Reactor.WheelTimers
import Ruyi.Reactor.WheelQueues
import Ruyi.Reactor.WheelClock
import Ruyi.Reactor.WheelSleep
import Ruyi.Reactor.Timeout
import Ruyi.Reactor.Rearming
import Ruyi.Reactor.WheelHistory
import Ruyi.Reactor.WheelFutures
import Ruyi.Reactor.WheelOwners
import Ruyi.Reactor.TimerQueue
import Ruyi.Reactor.TimerMatched
import Ruyi.Reactor.TimerPoll
import Ruyi.Reactor.TimerSleep
import Ruyi.Reactor.TimerReturns
import Ruyi.Reactor.PeriodicStream
import Ruyi.Reactor.OneshotTimers
import Ruyi.Reactor.TimerFutures
import Ruyi.Reactor.EventLoop
import Ruyi.Reactor.LoopShape
import Ruyi.Reactor.LoopWaiters
import Ruyi.Reactor.LoopTurns
import Ruyi.Reactor.LoopExit
import Ruyi.Reactor.MainTask
import Ruyi.Reactor.LoopTasks
import Ruyi.Reactor.Spawning
import Ruyi.Reactor.LoopEvents
import Ruyi.Reactor.LoopTicker
import Ruyi.Reactor.Gates
import Ruyi.Service.Server
import Ruyi.Service.Dispatcher
import Ruyi.Service.Deliveries
import Ruyi.Service.ChannelDispatch
