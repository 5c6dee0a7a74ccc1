import SmcPim.Bfs.Layout
import SmcPim.Cache.Flush
import SmcPim.Checker.Agreement
import SmcPim.Checker.Verdicts
import SmcPim.Counters.Bounds
import SmcPim.Counters.Coarse
import SmcPim.Crossbar.Responses
import SmcPim.Dma.Coverage
import SmcPim.Dma.Events
import SmcPim.Dma.Isolation
import SmcPim.Driver.Maximal
import SmcPim.Driver.Release
import SmcPim.FcQueue.Fifo
import SmcPim.FineList.Mutexes
import SmcPim.FlatCombining.Partitions
import SmcPim.FlatCombining.Protocol
import SmcPim.Graphs.Discipline
import SmcPim.Graphs.ShortestPaths
import SmcPim.Handshake.Proofs
import SmcPim.Hmc.Sequence
import SmcPim.Host.Budget
import SmcPim.Image.RoundTrip
import SmcPim.LazyList.History
import SmcPim.MatrixAdd.Sum
import SmcPim.PimList.Sentinels
import SmcPim.PimList.Test
import SmcPim.Sgraph.Pinned
import SmcPim.SkipList.Passes
import SmcPim.SpinList.Calls
import SmcPim.Stats.Values
import SmcPim.Timestamp.Reading
import SmcPim.Timestamp.Verdict
import SmcPim.Tlb.Agreement
import SmcPim.Tlb.Replacement
import SmcPim.Topology.Sizes
import SmcPim.Tree.Check
import SmcPim.Tree.Search
