import LsmTree.LittleEndian
import LsmTree.WalFormat
import LsmTree.WalScan
import LsmTree.PositionalFile
import LsmTree.WalTornLog
import LsmTree.Transition
import LsmTree.Faults
import LsmTree.WalImage
import LsmTree.WalRemains
import LsmTree.WalRing
import LsmTree.WalGroupCommit
import LsmTree.LayeredMap
import LsmTree.SkipList
import LsmTree.Memtable
import LsmTree.Merge
import LsmTree.Compaction
import LsmTree.CompactionCrash
import LsmTree.Engine
import LsmTree.EngineRefinement
import LsmTree.LogSize
import LsmTree.FailedFlush
import LsmTree.CrashStore
import LsmTree.StoreInvariant
import LsmTree.CrashMachine
import LsmTree.CrashSafety
import LsmTree.DurablePrefix
import LsmTree.CompactionRun
import LsmTree.BloomFilter
import LsmTree.ByteStream
import LsmTree.TableFormat
import LsmTree.TableReader
import LsmTree.TableRoundTrip
import LsmTree.TableLookup
import LsmTree.RangeScan
import LsmTree.TableShortRead
import LsmTree.StreamFaults
import LsmTree.FaultPoints
import LsmTree.WalLifecycle
import LsmTree.FailureLatch
import LsmTree.SkipListLevels
import LsmTree.ConcurrentSkipList
import LsmTree.FailedClear
import LsmTree.LruBlockCache
import LsmTree.MemtableRun
import LsmTree.SharedCache
import LsmTree.WalLengths
import LsmTree.WalBitFlip
import LsmTree.TableDecoders
import LsmTree.TableOpen
import LsmTree.PendingWrites
import LsmTree.PendingFailures
import LsmTree.BloomProbes
import LsmTree.WalBurst
import LsmTree.Arena
import LsmTree.TableMove
import LsmTree.TableNames
import LsmTree.TableNumbers
import LsmTree.NumberingRuns
import LsmTree.CompactionNumbers
import LsmTree.NumberingCorrectness
import LsmTree.EngineNames
import LsmTree.FileEngine
import LsmTree.FileEngineRefinement
import LsmTree.TreeShape
import LsmTree.AtomicObject
import LsmTree.Blocking
import LsmTree.GroupCommit
import LsmTree.EngineLinearizability
import LsmTree.PowerLoss
import LsmTree.PowerLossPrograms
import LsmTree.PowerLossRuns
import LsmTree.ReturningLog
import LsmTree.ConcurrentContents
import LsmTree.ConcurrentMemtable
import LsmTree.MemtableLinearizability
import LsmTree.MemtableIteration
import LsmTree.MemtableAccounting
