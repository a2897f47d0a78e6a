import Sophon.Lib.Fifo
import Sophon.Lib.Ring
import Sophon.Lib.BitRank
import Sophon.Lib.Buckets
import Sophon.Lib.LinkList
import Sophon.Lib.Lru
import Sophon.Lib.Loop
import Sophon.Lib.Aggregate
import Sophon.Server.OverwriteQueue
import Sophon.Server.OverwriteQueueSpec
import Sophon.Server.OverwriteQueueRun
import Sophon.Server.PortRange
import Sophon.Server.Ddbs
import Sophon.Server.DdbsSpec
import Sophon.Server.DdbsLookup
import Sophon.Server.DdbsMemory
import Sophon.Server.Interest
import Sophon.Server.InterestSpec
import Sophon.Server.U64Lru
import Sophon.Server.U64LruSpec
import Sophon.Server.U64LruRefine
import Sophon.Server.U64LruRun
import Sophon.Server.U128Lru
import Sophon.Server.U128LruSpec
import Sophon.Server.U128LruRefine
import Sophon.Server.U128LruRun
import Sophon.Agent.FirstPath
import Sophon.Agent.FirstPathSpec
import Sophon.Agent.FastPath
import Sophon.Agent.FastPathSpec
import Sophon.Agent.OverwriteQueue
import Sophon.Agent.OverwriteQueueSpec
import Sophon.Agent.OverwriteQueueRun
import Sophon.Agent.FlowMap
import Sophon.Agent.FlowMapSort
import Sophon.Agent.FlowMapFlush
import Sophon.Agent.FlowMapSpec
import Sophon.Agent.QuadGen
import Sophon.Lib.Block
import Sophon.Lib.Utf8
import Sophon.Server.PortSegment
import Sophon.Server.PortSegmentSpec
import Sophon.Agent.PortRange
import Sophon.Agent.PortSegment
import Sophon.Agent.PortSegmentSpec
import Sophon.Agent.Cidr
import Sophon.Agent.Labeler
import Sophon.Agent.TcpSeq
import Sophon.Agent.Bytes
import Sophon.Agent.Decapsulate
import Sophon.Agent.Dns
import Sophon.Agent.DnsSpec
import Sophon.Lib.Cuts
import Sophon.Server.PortRangeSpec
import Sophon.Agent.PortRangeSpec
import Sophon.Agent.SqlObfuscate
import Sophon.Agent.SqlObfuscateSpec
import Sophon.Lib.ByteCoding
import Sophon.Server.Codec
import Sophon.Server.CodecSpec
import Sophon.Server.CodecRoundTrip
import Sophon.Server.CodecGo
import Sophon.Server.CodecBounds
import Sophon.Lib.Sorted
import Sophon.Server.IdAllocator
import Sophon.Server.IdAllocatorSpec
import Sophon.Lib.LruDoubleKey
import Sophon.Server.U64DoubleKeyLru
import Sophon.Server.U64DoubleKeyLruSpec
import Sophon.Server.U64DoubleKeyLruRefine
import Sophon.Server.U64DoubleKeyLruRun
import Sophon.Lib.SlotWindow
import Sophon.Agent.QuadGenSpec
import Sophon.Agent.QuadGenRun
import Sophon.Agent.TcpSeqSpec
import Sophon.Agent.DnsNames
import Sophon.Agent.DnsQuery
import Sophon.Agent.DnsResponse
import Sophon.Agent.DecapsulateVxlan
