import AllocSitter.ByteMemory
import AllocSitter.LinkedChain
import AllocSitter.Tiling
import AllocSitter.Runs
import AllocSitter.BlockStore
import AllocSitter.PlainText
import AllocSitter.ShellText
import AllocSitter.Intervals
import AllocSitter.Allocator
import AllocSitter.FirstFit
import AllocSitter.Segregated
import AllocSitter.Client
import AllocSitter.HeapLayout
import AllocSitter.Representation
import AllocSitter.MallocSpec
import AllocSitter.HeldBlocks
import AllocSitter.Contract
import AllocSitter.SegregatedSpec
import AllocSitter.FirstFitSpec
import AllocSitter.FirstFitRealloc
import AllocSitter.ClientInvariant
import AllocSitter.HeapShape
import AllocSitter.Isolation
import AllocSitter.Coalescing
import AllocSitter.ArenaBreak
import AllocSitter.Accounting
import AllocSitter.RequestArithmetic
import AllocSitter.ResizeArithmetic
import AllocSitter.Placement
import AllocSitter.ResizedBlocks
import AllocSitter.ResizeMerging
import AllocSitter.SegregatedResize
import AllocSitter.ExactChunks
import AllocSitter.PooledHeap
import AllocSitter.PooledRuns
import AllocSitter.SessionRefinement
import AllocSitter.ReplayLoop
import AllocSitter.TraceText
import AllocSitter.ReplayStatistics
import AllocSitter.TraceReplay
import AllocSitter.RequestStatistics
import AllocSitter.LowerBound
import AllocSitter.SteadyState
import AllocSitter.CheckInvariant
import AllocSitter.FailedCalls
import AllocSitter.CheckOutcome
import AllocSitter.TreeCursor
import AllocSitter.NodeCount
import AllocSitter.CStrings
import AllocSitter.SourceFiles
import AllocSitter.DriverMain
import AllocSitter.BenchScripts
import AllocSitter.ExactFit
import AllocSitter.LifoReuse
import AllocSitter.ArenaWrites
import AllocSitter.StaleTags
import AllocSitter.ResizeSlack
import AllocSitter.HeaderBits
import AllocSitter.DoubleFree
import AllocSitter.SegregatedSteps
import AllocSitter.MeasuredCounters
import AllocSitter.SearchCost
import AllocSitter.Relocation
import AllocSitter.Footprint
