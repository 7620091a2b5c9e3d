import MicroProfiler.Lib.Runs
import MicroProfiler.Lib.Keys
import MicroProfiler.Lib.Layout
import MicroProfiler.Lib.Multimap
import MicroProfiler.Lib.Aggregates
import MicroProfiler.Lib.Matching
import MicroProfiler.Lib.Forest
import MicroProfiler.Lib.ThreeWay
import MicroProfiler.Lib.TreeOrder
import MicroProfiler.Lib.PriorityQueue
import MicroProfiler.Lib.Progress
import MicroProfiler.Lib.Stripes
import MicroProfiler.Lib.Flow
import MicroProfiler.Common.Primitives
import MicroProfiler.Common.Account
import MicroProfiler.Common.Unicode
import MicroProfiler.Common.PodVector
import MicroProfiler.Common.PoolAllocator
import MicroProfiler.Common.Elf
import MicroProfiler.Common.ExecutableMemory
import MicroProfiler.Common.Formatting
import MicroProfiler.Collector.CallGraph
import MicroProfiler.Collector.CallTree
import MicroProfiler.Collector.ShadowStack
import MicroProfiler.Collector.Statistics
import MicroProfiler.Collector.Analyzer
import MicroProfiler.Collector.CallsCollectorThread
import MicroProfiler.Collector.ThreadMonitor
import MicroProfiler.Collector.Unwinding
import MicroProfiler.Collector.BuffersQueue
import MicroProfiler.Collector.BuffersAccounting
import MicroProfiler.Collector.BuffersFifo
import MicroProfiler.Collector.BuffersPolicy
import MicroProfiler.Collector.ThreadQueueManager
import MicroProfiler.Sdb.Index
import MicroProfiler.Sdb.Table
import MicroProfiler.Sdb.GroupBy
import MicroProfiler.Sdb.Join
import MicroProfiler.Sdb.PendingIndex
import MicroProfiler.Sdb.SelfJoin
import MicroProfiler.Frontend.ShutdownDelivery
import MicroProfiler.Frontend.StatisticsTable
import MicroProfiler.Frontend.TableModel
import MicroProfiler.Frontend.Updates
import MicroProfiler.Collector.ModuleTracker
import MicroProfiler.Collector.ModuleMappings
import MicroProfiler.Collector.ModuleIds
import MicroProfiler.Collector.XXHash32
import MicroProfiler.Frontend.Patcher
import MicroProfiler.Reqm.MultiplexingRequest
import MicroProfiler.Ipc.Sessions
import MicroProfiler.Ipc.SocketServer
import MicroProfiler.Ipc.Framing
import MicroProfiler.Ipc.MarshalledSession
import MicroProfiler.Frontend.Metadata
import MicroProfiler.Frontend.SymbolResolver
import MicroProfiler.Frontend.Finalization
import MicroProfiler.Frontend.Persistence
import MicroProfiler.Frontend.FrontendManager
import MicroProfiler.Frontend.Hierarchy
import MicroProfiler.Frontend.RecordIds
import MicroProfiler.Frontend.DerivedStatistics
import MicroProfiler.Frontend.Cumulative
import MicroProfiler.Frontend.FlatView
import MicroProfiler.Frontend.Comparisons
import MicroProfiler.Frontend.HierarchicalOrder
import MicroProfiler.Patcher.PatchCalls
import MicroProfiler.Patcher.Jumper
import MicroProfiler.Patcher.RelativeOperands
import MicroProfiler.Patcher.BinaryTranslation
import MicroProfiler.Patcher.DisplacedReferences
import MicroProfiler.Patcher.FragmentLength
import MicroProfiler.Math.Histogram
import MicroProfiler.Scheduler.TaskQueue
import MicroProfiler.Scheduler.ThreadQueue
import MicroProfiler.Scheduler.PrivateQueue
import MicroProfiler.Frontend.AsyncFile
import MicroProfiler.Views.Pipeline
import MicroProfiler.Lib.StackMachine
import MicroProfiler.Patcher.Trampoline
import MicroProfiler.Patcher.TrampolineImage
