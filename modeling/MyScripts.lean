import MyScripts.Library.Run
import MyScripts.Shark.Worker
import MyScripts.Shark.Release
import MyScripts.Shark.Manager
import MyScripts.Shark.CheckTeardown
import MyScripts.Shark.ManagerInvariant
import MyScripts.Library.ThreadSum
import MyScripts.Shark.WorkerPool
import MyScripts.Shark.PoolConservation
import MyScripts.Library.Decimal
import MyScripts.Library.Tokens
import MyScripts.Shark.Ops
import MyScripts.Shark.JournalRecord
import MyScripts.Shark.JournalText
import MyScripts.Shark.JournalFraming
import MyScripts.Shark.JournalPipeline
import MyScripts.Shark.PipelineDelivery
import MyScripts.Shark.FileNode
import MyScripts.Shark.FileOps
import MyScripts.Shark.FileTableInvariant
import MyScripts.Shark.FileTableRuns
import MyScripts.Shark.ExactRelease
import MyScripts.Library.DirTree
import MyScripts.Shark.CheckTree
import MyScripts.Shark.CheckCompleteness
import MyScripts.Shark.PoolProgress
import MyScripts.Shark.ErrorMinimum
import MyScripts.Shark.ErrorSymmetry
import MyScripts.Shark.WriterShutdown
import MyScripts.Multithread.Posix
import MyScripts.Library.Slots
import MyScripts.Shark.LayoutTable
import MyScripts.ErasureCode.DotProd
import MyScripts.Shark.OpClass
import MyScripts.ErasureCode.Fragments
import MyScripts.ErasureCode.Rebuild
import MyScripts.ErasureCode.RoundTrip
import MyScripts.Library.Forest
import MyScripts.Shark.UseCounts
import MyScripts.Shark.PathIndex
import MyScripts.Shark.CreateFailure
import MyScripts.Shark.DepthBound
import MyScripts.Library.RandomStream
import MyScripts.Shark.OriginalFiles
import MyScripts.Shark.GroupCount
import MyScripts.Library.Imperative
import MyScripts.Shark.SystemCall
import MyScripts.Shark.Executor
import MyScripts.Shark.FaithfulExecution
import MyScripts.Shark.NodeRelease
import MyScripts.Shark.PartialFailure
import MyScripts.Shark.Unlinking
import MyScripts.Shark.UnlinkAgreement
import MyScripts.Shark.OwnRelease
import MyScripts.Shark.NodeDestruction
import MyScripts.Library.ParentLoop
import MyScripts.Shark.TreeAccesses
import MyScripts.Shark.AccessRuns
import MyScripts.Shark.ParentLoops
import MyScripts.Shark.Progress
import MyScripts.ErasureCode.Combination
import MyScripts.Library.Combinations
import MyScripts.ErasureCode.Patterns
import MyScripts.ErasureCode.DecodeMatrix
import MyScripts.Shark.WideArguments
import MyScripts.Shark.ReaderOffsets
import MyScripts.Shark.SelectionFrequency
import MyScripts.Shark.Traversal
import MyScripts.Shark.XattrCompare
import MyScripts.ErasureCode.FailurePropagation
import MyScripts.ErasureCode.DecodeBounds
import MyScripts.Library.SumOfProducts
import MyScripts.Library.Exceptions
import MyScripts.CreateConfig.Schemes
import MyScripts.CreateConfig.NewGroups
import MyScripts.CreateConfig.GapCounts
import MyScripts.CreateConfig.DiskPool
import MyScripts.CreateConfig.NodeReuse
import MyScripts.CreateConfig.Expansion
import MyScripts.CreateConfig.SchemeItems
import MyScripts.CreateConfig.GapExpansion
import MyScripts.CreateConfig.MoveSearch
import MyScripts.CreateConfig.DiskDemand
import MyScripts.CreateConfig.PlanOutcome
import MyScripts.Library.Segments
import MyScripts.MemoryMonitor.Analysis
import MyScripts.MemoryMonitor.PidSegments
import MyScripts.MemoryMonitor.PidSplit
import MyScripts.Library.FileTree
import MyScripts.Library.LastOccurrence
import MyScripts.Library.RenamePass
import MyScripts.Library.TreeListing
import MyScripts.StringReplace.FileNames
import MyScripts.StringReplace.RenameOutcome
import MyScripts.Library.KeyedList
import MyScripts.Library.RedBlackTree
import MyScripts.Shark.RbTable
import MyScripts.Shark.RbInsertion
import MyScripts.Shark.RbDeletion
import MyScripts.Shark.NodeTrees
import MyScripts.Library.LockOrder
import MyScripts.Shark.UsecntWalks
import MyScripts.Library.CircularList
import MyScripts.Shark.ListHead
import MyScripts.Shark.ListRemoval
import MyScripts.Shark.GroupMemory
import MyScripts.Shark.LinkedPipeline
import MyScripts.Shark.LinkedRefinement
import MyScripts.Shark.MemoryBlocks
import MyScripts.Shark.PoolMemory
import MyScripts.Shark.PoolPieces
import MyScripts.Shark.PoolLedger
import MyScripts.Shark.LinkedPool
import MyScripts.Shark.LinkedPoolRefinement
