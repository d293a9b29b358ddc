import Uldb.HamtMap
import Uldb.CompactionOrder
import Uldb.WalWriter
import Uldb.Memtable
import Uldb.Cache
import Uldb.PageStore
import Uldb.Engine
import Uldb.EngineCalls
import Uldb.TornTail
import Uldb.Server
import Uldb.Replay
import Uldb.CrashAtomicity
import Uldb.Sessions
import Uldb.Visibility
import Uldb.Branches
import Uldb.Mvcc
import Uldb.MvccCommit
import Uldb.MvccSnapshot
import Uldb.Serializable
import Uldb.WalRecovery
import Uldb.Writes
import Uldb.Reference
import Uldb.CacheCoherence
import Uldb.Reopen
import Uldb.Bm25
import Uldb.Lib.Runs
import Uldb.Bm25Ingest
import Uldb.MvccAtomic
import Uldb.IndexReplay
import Uldb.MvccSimulation
import Uldb.Levels
import Uldb.PageFiles
import Uldb.MvccGc
import Uldb.Durability
import Uldb.SnapshotRestore
import Uldb.Agents
import Uldb.MvccSkew
import Uldb.MvccLostUpdate
import Uldb.HamtDigits
import Uldb.Promotion
import Uldb.Fusion
import Uldb.GraphFile
import Uldb.Snapshots
import Uldb.IndexSearch
import Uldb.Lib.BinaryHeap
import Uldb.Hnsw
import Uldb.HnswFile
import Uldb.AgentSessions
import Uldb.BranchDiff
import Uldb.TxWrites
import Uldb.TxReads
import Uldb.Requests
import Uldb.FlushFailure
import Uldb.TxFailure
import Uldb.BatchWrites
import Uldb.PageDamage
import Uldb.HnswCalls
import Uldb.HnswLoaded
import Uldb.HnswLayers
import Uldb.HnswSearch
import Uldb.HnswRoutes
import Uldb.DepthFirst
import Uldb.GraphLoaded
import Uldb.GraphEdges
import Uldb.Lib.BreadthFirst
import Uldb.Breadth
import Uldb.Lib.DepthFirst
import Uldb.Depth
import Uldb.Neighbours
import Uldb.GraphStep
import Uldb.Lib.EditDistance
import Uldb.Levenshtein
import Uldb.Fuzzy
import Uldb.FuzzyReput
import Uldb.FuzzyExact
import Uldb.FuzzyRecall
import Uldb.LengthCheck
import Uldb.Lib.RecencyList
import Uldb.CacheLru
import Uldb.Lib.BitArray
import Uldb.Bloom
import Uldb.Tokenize
import Uldb.Namespaces
import Uldb.QueryNamespace
import Uldb.Planner
import Uldb.Merging
import Uldb.Indices
import Uldb.Queries
import Uldb.Lib.SelfDelimiting
import Uldb.Frames
import Uldb.Handlers
import Uldb.MapServer
import Uldb.Registry
import Uldb.Lifecycle
import Uldb.IndexFiles
import Uldb.LiveTrie
import Uldb.TxServer
import Uldb.Connection
import Uldb.VersionServer
import Uldb.SearchServer
