import ChampSim.Lib.Run
import ChampSim.Lib.Scan
import ChampSim.Lib.Ring
import ChampSim.FastSet.Correct
import ChampSim.FastSet.Refine
import ChampSim.Packet
import ChampSim.Lib.Slots
import ChampSim.Dram.Model
import ChampSim.Dram.Invariant
import ChampSim.Dram.Moves
import ChampSim.Dram.Arrivals
import ChampSim.Dram.Agreement
import ChampSim.Dram.Conservation
import ChampSim.Dram.Timing
import ChampSim.Lib.Fields
import ChampSim.Dram.Decode
import ChampSim.CodeInfo.Numbering
import ChampSim.CodeInfo.Agreement
import ChampSim.Core.Instr
import ChampSim.Core.Pipeline
import ChampSim.Core.Order
import ChampSim.Cache.Model
import ChampSim.Cache.Handlers
import ChampSim.Cache.Merge
import ChampSim.Cache.Abstract
import ChampSim.Cache.Refine
import ChampSim.Cache.Simulate
import ChampSim.Cache.Serve
import ChampSim.Cache.Unique
import ChampSim.Cache.Store
import ChampSim.Lib.Inverse
import ChampSim.Paging.Model
import ChampSim.Paging.Bijection
import ChampSim.Paging.Cores
import ChampSim.Cache.Levels
import ChampSim.Paging.Swap
import ChampSim.CodeInfo.CallStack
import ChampSim.CodeInfo.Past
import ChampSim.CodeInfo.Informer
import ChampSim.Lib.Bound
import ChampSim.CodeInfo.Table
import ChampSim.Lib.Group
import ChampSim.Lib.Text
import ChampSim.CodeInfo.Channel
import ChampSim.Lib.Tally
import ChampSim.Cache.Books
import ChampSim.Cache.Arrive
import ChampSim.Cache.Trade
import ChampSim.Cache.Writes
import ChampSim.Cache.Dirty
import ChampSim.Cache.Outstanding
import ChampSim.Cache.Waiters
import ChampSim.Cache.Plain
import ChampSim.Core.Requests
import ChampSim.Hierarchy.Model
import ChampSim.Hierarchy.Matched
import ChampSim.Hierarchy.Misses
import ChampSim.Hierarchy.Delivery
import ChampSim.O3.Cycle
import ChampSim.O3.Issued
import ChampSim.O3.Stall
import ChampSim.O3.StoreArray
import ChampSim.O3.Overrun
import ChampSim.Cache.Rings
import ChampSim.Replacement.Lru
import ChampSim.Replacement.Victims
import ChampSim.Replacement.EmptyFirst
import ChampSim.Replacement.Blocked
import ChampSim.O3.Retire
import ChampSim.Core.Decode
import ChampSim.Core.Stream
import ChampSim.O3.Schedule
import ChampSim.O3.Writers
import ChampSim.O3.Forward
import ChampSim.Replacement.Sampler
import ChampSim.Replacement.Dueling
import ChampSim.Kpcp.Operate
import ChampSim.Prefetch.Stride
import ChampSim.CodeInfo.RealCalls
import ChampSim.CodeInfo.Ranges
import ChampSim.Branch.HashedPerceptron
import ChampSim.Branch.Perceptron
import ChampSim.Prefetch.Temporal
import ChampSim.Prefetch.Events
import ChampSim.Prefetch.Sisb
import ChampSim.Prefetch.Levels
import ChampSim.Cache.Prefetched
import ChampSim.Tlb.Agree
import ChampSim.Tlb.Once
import ChampSim.Branch.Bimodal
import ChampSim.Branch.Gshare
import ChampSim.Tracer.Records
import ChampSim.Lib.Codec
import ChampSim.Tracer.Replay
import ChampSim.O3.Counts
import ChampSim.O3.Asked
import ChampSim.O3.Commit
import ChampSim.Main.Loop
import ChampSim.Lib.Flags
import ChampSim.Main.Phases
