import FawnKV.Fawn.Runs
import FawnKV.Fawn.Stream
import FawnKV.Fawn.SplitMerge
import FawnKV.Fawn.Compaction
import FawnKV.Fawn.KeyIdentity
import FawnKV.Fawn.Occupancy
import FawnKV.Fawn.Offsets
import FawnKV.Silt.CuckooRuns
import FawnKV.Silt.OrderedTrie
import FawnKV.Silt.ConvertRuns
import FawnKV.Silt.RecordIds
import FawnKV.Silt.Slices
import FawnKV.Silt.CombiQueries
import FawnKV.Silt.CombiTasks
import FawnKV.Silt.DirtyChunks
import FawnKV.Silt.FailedCalls
import FawnKV.Silt.TableIterator
import FawnKV.Silt.TableRuns
import FawnKV.Chain.Queues
import FawnKV.Chain.Concurrent
import FawnKV.Chain.Repair
import FawnKV.Chain.HopLaw
import FawnKV.Chain.Requests
import FawnKV.Chain.Containment
import FawnKV.Membership.TempTail
import FawnKV.Membership.FailNode
import FawnKV.Membership.RingOrder
import FawnKV.Membership.DistinctNeighbours
import FawnKV.FrontEnd.Coherence
import FawnKV.FrontEnd.Responses
import FawnKV.FrontEnd.Targets
import FawnKV.Fawn.Sizing
import FawnKV.Silt.CuckooIndexing
import FawnKV.Silt.DirectIO
import FawnKV.Cindex.IndexCreation
import FawnKV.Cindex.TwolevelReloff
import FawnKV.Cindex.SemiDirectReloff
import FawnKV.Cindex.HuffmanCoder
import FawnKV.Cindex.HuffmanOptimal
import FawnKV.Cindex.ExpGolombVector
import FawnKV.Cindex.BitVectorRuns
import FawnKV.Cindex.CopySet
import FawnKV.Cindex.KeyRouting
import FawnKV.FrontEnd.CacheRuns
import FawnKV.Silt.RateLimiter
import FawnKV.Silt.ValueOrder
import FawnKV.Silt.TaskScheduler
import FawnKV.Silt.PartitionStores
import FawnKV.Silt.SharedSchedulers
import FawnKV.Silt.FlushTasks
import FawnKV.Chain.TailFailure
import FawnKV.Utils.BobHash
import FawnKV.FrontEnd.Client
import FawnKV.Cindex.SemiDirectAbsoff
import FawnKV.Silt.GlobalLimits
import FawnKV.Silt.Enumerate
import FawnKV.Silt.BackStores
import FawnKV.Chain.Linearizable
import FawnKV.Membership.Aging
