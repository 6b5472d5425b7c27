import MetaPB.Lib.Transition
import MetaPB.Lib.Sequence
import MetaPB.Lib.Makespan
import MetaPB.Lib.Word
import MetaPB.Lib.Sorting
import MetaPB.Lib.BlockMemory
import MetaPB.Lib.Workers
import MetaPB.Lib.Loop
import MetaPB.Lib.Best
import MetaPB.Utils.Stats
import MetaPB.Operator.Registry
import MetaPB.Operator.OperatorBase
import MetaPB.Operator.OperatorManager
import MetaPB.Operator.CpuOperators
import MetaPB.Operator.Transfer
import MetaPB.Operator.DpuKernels
import MetaPB.Operator.ChunkFunction
import MetaPB.Operator.Agreement
import MetaPB.Executor.TaskGraph
import MetaPB.Executor.ParseGraph
import MetaPB.Executor.TransferPlan
import MetaPB.Executor.HeteroComputePool
import MetaPB.Executor.QueueModel
import MetaPB.Executor.Progress
import MetaPB.Executor.Safety
import MetaPB.Executor.Timeline
import MetaPB.Executor.TrainedRange
import MetaPB.Scheduler.HEFTScheduler
import MetaPB.Scheduler.UpwardRank
import MetaPB.Scheduler.RankOrder
import MetaPB.Optimizer.Coordinate
import MetaPB.Optimizer.OptimizerBase
import MetaPB.Optimizer.Exploitation
import MetaPB.Optimizer.Memo
import MetaPB.Optimizer.GlobalBest
import MetaPB.Lib.OrderedMap
import MetaPB.Optimizer.PointCompare
import MetaPB.Optimizer.OrderedMemo
import MetaPB.Optimizer.Variants
import MetaPB.Optimizer.SearchBox
import MetaPB.Optimizer.InitialFrame
import MetaPB.Optimizer.GridSpots
import MetaPB.Optimizer.Exploration
import MetaPB.Optimizer.SearchSpace
import MetaPB.Optimizer.ParticleMemory
import MetaPB.Optimizer.Representable
import MetaPB.Optimizer.Launch
import MetaPB.Optimizer.CumulatedPoints
import MetaPB.Lib.Ledger
import MetaPB.Operator.DpuGlobal
import MetaPB.Scheduler.GreedyScheduler
import MetaPB.Scheduler.MetaScheduler
import MetaPB.Scheduler.BestOfThree
import MetaPB.Lib.Timetable
import MetaPB.Scheduler.Placement
import MetaPB.Scheduler.Feasibility
import MetaPB.Scheduler.Repeat
import MetaPB.Scheduler.Pricing
import MetaPB.Executor.MemoryPlan
import MetaPB.Executor.DataMovement
import MetaPB.Operator.Disagreement
import MetaPB.Lib.Counter
import MetaPB.Operator.SampleSlots
import MetaPB.Lib.LongestPath
import MetaPB.Scheduler.RankPaths
import MetaPB.Scheduler.RecordedTimes
import MetaPB.Executor.Coverage
import MetaPB.Lib.Decimal
import MetaPB.Lib.Delimited
import MetaPB.Operator.ModelCacheFile
import MetaPB.Lib.Moments
import MetaPB.Utils.Accumulate
import MetaPB.Utils.ReportUtils
import MetaPB.Executor.GraphBuilder
import MetaPB.Lib.Butterfly
import MetaPB.Workloads.FFT
import MetaPB.Workloads.Butterfly
import MetaPB.Workloads.Gaussian
import MetaPB.Workloads.EntryExit
import MetaPB.Executor.SemaphoreExecutor
import MetaPB.Executor.SemaphoreInvariant
import MetaPB.Executor.SemaphoreProgress
import MetaPB.Utils.MetricsGather
import MetaPB.Utils.ChronoTrigger
import MetaPB.Utils.ChronoHistory
import MetaPB.Utils.ChronoReports
import MetaPB.Operator.Probe
import MetaPB.Executor.Sensitivity
import MetaPB.Scheduler.Baselines
import MetaPB.Operator.CacheStore
import MetaPB.Operator.CachedDeduction
import MetaPB.Lib.Occupancy
import MetaPB.Executor.Timings
import MetaPB.Executor.Elapsed
import MetaPB.Executor.Completion
import MetaPB.Scheduler.Execution
import MetaPB.Operator.ManagerCalls
import MetaPB.Operator.Offloading
import MetaPB.Operator.Footprint
import MetaPB.Executor.Memory
import MetaPB.Scheduler.HeapNeed
import MetaPB.Workloads.Tasks
import MetaPB.Workloads.RandomWorkloads
