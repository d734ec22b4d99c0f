import Genode.Lib.Chain
import Genode.Lib.Exec
import Genode.Util.Fifo
import Genode.Util.List
import Genode.Kernel.IpcNode
import Genode.Lib.Run
import Genode.Kernel.IpcInvariant
import Genode.Kernel.IpcHistory
import Genode.Kernel.Helping
import Genode.Kernel.DoubleList
import Genode.Kernel.CpuScheduler
import Genode.Kernel.ListScheduler
import Genode.Kernel.SchedulerRefinement
import Genode.Kernel.SchedulerRuns
import Genode.Kernel.SchedulerSelection
import Genode.Kernel.SchedulerQuota
import Genode.Kernel.Timer
import Genode.Kernel.SignalReceiver
import Genode.Kernel.SignalInvariant
import Genode.Kernel.SignalLifetime
import Genode.Kernel.SignalRuns
import Genode.Util.BitAllocator
import Genode.Kernel.RecvCaps
import Genode.Lib.LinkedTree
import Genode.Util.AvlShape
import Genode.Util.AvlTree
import Genode.Util.AvlRefinement
import Genode.Util.AvlOperations
import Genode.Util.AvlRuns
import Genode.Util.AvlBalance
import Genode.Base.AllocatorAvl
import Genode.Core.QuotaGuard
import Genode.Lib.Refs
import Genode.Core.Account
import Genode.Core.PdSession
import Genode.Core.CpuSession
import Genode.Core.CpuSessionRuns
import Genode.Os.PacketQueue
import Genode.Core.AddrRange
import Genode.Core.RegionMap
import Genode.Core.PageFault
import Genode.Core.UnmapRegion
import Genode.Lib.Reach
import Genode.Util.Token
import Genode.Util.TokenBounds
import Genode.Lib.Nesting
import Genode.Util.XmlNode
import Genode.Util.XmlScan
import Genode.Lib.Bytes
import Genode.Util.XmlGenerator
import Genode.Util.XmlText
import Genode.Util.XmlTags
import Genode.Util.XmlRoundTrip
import Genode.Lib.Codec
import Genode.Tresor.Types
import Genode.Tresor.VirtualBlockDevice
import Genode.Lib.Steps
import Genode.Tresor.FreeTree
import Genode.Tresor.FreeTreeScan
import Genode.Tresor.FreeTreeExchange
import Genode.Tresor.FreeTreePass
import Genode.Tresor.FreeTreeUpdate
import Genode.Tresor.FreeTreeAllocation
import Genode.Tresor.BlockIo
import Genode.Tresor.VbdRead
import Genode.Tresor.Superblock
import Genode.Tresor.SuperblockControl
import Genode.Tresor.SuperblockRuns
import Genode.Tresor.SuperblockSessions
import Genode.Tresor.SuperblockSlots
import Genode.Tresor.VbdSnapshots
import Genode.Tresor.VbdWrite
import Genode.Tresor.CurrentSnapshot
import Genode.Tresor.CurrentSnapshotRuns
import Genode.Tresor.OnDisc
import Genode.Tresor.OnDiscFormat
import Genode.Tresor.CryptoKeys
import Genode.Tresor.CryptoKeysRuns
import Genode.Lib.RingBuffer
import Genode.Tresor.RequestPool
import Genode.Tresor.RequestPoolRuns
import Genode.Tresor.TreeExtension
import Genode.Tresor.TreeExtensionRuns
import Genode.Lib.StoredTree
import Genode.Tresor.MetaTree
import Genode.Tresor.MetaTreeBooks
import Genode.Tresor.MetaTreeWalk
import Genode.Tresor.MetaTreePath
import Genode.Tresor.MetaTreeSteps
import Genode.Tresor.MetaTreeExchange
import Genode.Tresor.MetaTreeRuns
import Genode.Kernel.TimerOrder
import Genode.Kernel.SchedulerPreemption
import Genode.Lib.Cover
import Genode.Base.AllocatorTree
import Genode.Base.AllocatorSearch
import Genode.Base.AllocatorOperations
import Genode.Base.AllocatorRanges
import Genode.Base.AllocatorRuns
import Genode.Base.AllocatorCalls
import Genode.Os.PacketAllocator
import Genode.Os.PacketAllocatorRuns
import Genode.Base.Registry
import Genode.Util.Number
import Genode.Util.ListModel
import Genode.Util.ListModelEffect
import Genode.Util.ArgString
import Genode.Util.ArgFind
import Genode.Util.ArgRemove
import Genode.Util.ArgUpdate
import Genode.Core.RegionAttach
import Genode.Util.XmlException
import Genode.Lib.Looping
import Genode.Util.TokenLoops
import Genode.Util.XmlLoops
import Genode.Util.XmlTermination
import Genode.Util.TokenReturns
import Genode.Util.XmlReturns
import Genode.Util.XmlSubNodes
import Genode.Util.XmlReadBack
import Genode.Core.Affinity
import Genode.Lib.EndAroundCarry
import Genode.Net.InternetChecksum
import Genode.Os.PacketStream
import Genode.Net.Ipv4Packet
import Genode.Lib.FieldWalk
import Genode.Net.ArpWaiters
import Genode.Net.DhcpPacket
import Genode.Net.DhcpOptions
import Genode.Net.DhcpRoundTrip
import Genode.Base.IdSpace
import Genode.Lib.Segments
import Genode.Os.Path
import Genode.Net.Ipv4AddressPrefix
import Genode.Os.PathCanonical
import Genode.Net.DirectRules
import Genode.Net.TransportRules
import Genode.Core.RamDataspace
import Genode.Core.RamDataspaceQuota
import Genode.Base.AllocatorNeighbours
import Genode.Base.AllocatorContent
import Genode.Os.RamFsChunk
import Genode.Os.RamFsContent
import Genode.Base.Slab
import Genode.Base.SlabPool
import Genode.Base.SlabRuns
import Genode.Os.RamFsFile
import Genode.Hw.PageInsert
import Genode.Hw.PageInsertLevels
import Genode.Hw.PageRemove
import Genode.Hw.PageRemoveLevels
import Genode.Hw.PageTableRuns
import Genode.Hw.TableAllocator
import Genode.Hw.AddressSpace
import Genode.Net.PortAllocator
import Genode.Base.TraceBuffer
import Genode.Base.TracePartitions
