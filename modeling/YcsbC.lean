import YcsbC.Foundation.Program
import YcsbC.Foundation.Interleaving
import YcsbC.Foundation.Heap
import YcsbC.Foundation.UnorderedMap
import YcsbC.Lib.VmpString
import YcsbC.Lib.StlHashtable
import YcsbC.Core.DB
import YcsbC.Db.Store
import YcsbC.Db.HashtableDB
import YcsbC.Db.Custody
import YcsbC.Db.Operations
import YcsbC.Db.Calls
import YcsbC.Db.RecordMap
import YcsbC.Db.Writers
import YcsbC.Db.Race
import YcsbC.Db.LostUpdate
import YcsbC.Db.KeyIndex
import YcsbC.Core.CoreWorkload
import YcsbC.Core.Client
import YcsbC.Core.Load
import YcsbC.Core.Transactions
import YcsbC.Db.Schema
import YcsbC.Core.Benchmark
import YcsbC.Core.KeyFolding
import YcsbC.Foundation.Window
import YcsbC.Xihu.Client
import YcsbC.Xihu.Transfer
import YcsbC.Xihu.Pipeline
import YcsbC.Xihu.BlockServer
import YcsbC.Db.Readers
import YcsbC.Db.Releases
import YcsbC.Db.UseAfterRelease
import YcsbC.Ceph.RealCephDB
import YcsbC.Ceph.RealCephSystem
import YcsbC.Ceph.AsyncOps
import YcsbC.Ceph.LostWakeup
import YcsbC.Ceph.Buffers
import YcsbC.Ceph.MmapCephDB
import YcsbC.Ceph.CephSystem
import YcsbC.Ceph.Dues
import YcsbC.Ceph.MmapCounters
import YcsbC.Ceph.RealCounters
import YcsbC.Ceph.Blocks
import YcsbC.Ceph.MmapBlocks
import YcsbC.Ceph.Throughput
import YcsbC.Ceph.StreamCephDB
import YcsbC.Ceph.Variants
import YcsbC.Redis.Arguments
import YcsbC.Redis.Connection
import YcsbC.Redis.Replies
import YcsbC.Redis.RedisDB
import YcsbC.Redis.BackEnds
import YcsbC.Db.WriteLaws
import YcsbC.Db.ScanOrder
import YcsbC.Db.StringOwnership
import YcsbC.Lib.KeyBlocks
import YcsbC.Core.FieldNames
import YcsbC.Ceph.KeyRanges
import YcsbC.Core.DiscreteGenerator
import YcsbC.Core.ZipfianGenerator
import YcsbC.Core.ZipfianDistribution
import YcsbC.Core.ZipfianGrowth
import YcsbC.Core.SkewedLatestGenerator
import YcsbC.Core.ScrambledZipfianGenerator
import YcsbC.Foundation.Lines
import YcsbC.Foundation.Overrides
import YcsbC.Core.PropertyFiles
import YcsbC.Main.CommandLine
import YcsbC.Main.Startup
import YcsbC.Xihu.BufferPool
import YcsbC.Foundation.StreamMachine
import YcsbC.Redis.ReplyStream
import YcsbC.Redis.ReplyGrammar
import YcsbC.Redis.ReplyDerivations
import YcsbC.Redis.Commands
import YcsbC.Redis.Context
import YcsbC.Redis.Exchanges
import YcsbC.Redis.Delivery
import YcsbC.Foundation.Chains
import YcsbC.Redis.DictRuns
import YcsbC.Redis.AsyncServer
import YcsbC.Redis.PubSub
import YcsbC.Redis.Monitor
