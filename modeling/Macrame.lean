import Macrame.Lib.Machine
import Macrame.Access
import Macrame.Pipe
import Macrame.PipeLedger
import Macrame.TaskBlock
import Macrame.System
import Macrame.Accounts
import Macrame.BlockCycle
import Macrame.BlockMoves
import Macrame.AccountsKept
import Macrame.Coherence
import Macrame.PipeLaws
import Macrame.Lifecycle
import Macrame.AccessContext
import Macrame.GrantEpochs
import Macrame.Lib.Commutation
import Macrame.Lib.Kahn
import Macrame.Graph
import Macrame.Lib.SortedSet
import Macrame.Compile
import Macrame.GraphDeterminism
import Macrame.Lending
import Macrame.LinkSlab
import Macrame.BlockSteps
import Macrame.Lib.Tally
import Macrame.GraphRun
import Macrame.RunAccounts
import Macrame.GraphSystem
import Macrame.GraphCoherence
import Macrame.GraphLaws
import Macrame.Lib.WaitFor
import Macrame.CircularWait
import Macrame.Batch
import Macrame.Tenure
import Macrame.Coroutines
import Macrame.Ranks
import Macrame.Gates
import Macrame.LendRun
import Macrame.Containment
import Macrame.Lib.PowerRing
import Macrame.Lib.TwoEnded
import Macrame.WorkStealingDeque
import Macrame.Lib.Custody
import Macrame.MpmcQueue
import Macrame.MpmcRing
import Macrame.MpmcLaws
import Macrame.Segments
import Macrame.SegmentLaws
import Macrame.JournalLaws
import Macrame.Ownership
import Macrame.Deferred
import Macrame.DeferredLaws
import Macrame.Lib.Relay
import Macrame.Versioned
import Macrame.VersionedLaws
import Macrame.VersionedReplicas
import Macrame.VersionedGates
import Macrame.Colored
import Macrame.ColoredLaws
import Macrame.ReleaseSteps
import Macrame.RankVerdict
import Macrame.CommitFatal
import Macrame.ReentrantCommit
import Macrame.AccessOps
import Macrame.AccessOpLaws
import Macrame.CommitRecord
import Macrame.Awaiters
import Macrame.AwaiterLaws
import Macrame.NoLostWakeup
import Macrame.ShutdownDrains
import Macrame.BandArithmetic
import Macrame.ParallelLoopLaws
import Macrame.ClaimOverflow
import Macrame.PhaseLoopLaws
import Macrame.EventDelivery
import Macrame.CallbacksKept
import Macrame.TimerLaws
import Macrame.PeriodicLaws
import Macrame.StarvationValves
import Macrame.AgingCounters
import Macrame.SerialOrder
import Macrame.RecorderSlots
import Macrame.MpmcCapacity
import Macrame.Utilization
import Macrame.Quantile
import Macrame.CriticalChain
import Macrame.GraphIntrospect
import Macrame.Lib.Inside
import Macrame.NestedDispatch
import Macrame.NestedDispatchRuns
import Macrame.FrameGate
import Macrame.FrameGateLaws
import Macrame.Lib.Turns
import Macrame.ColoredSolve
import Macrame.ClothColoring
import Macrame.Lib.Linked
import Macrame.SuspensionRegistry
import Macrame.TaskOwnership
import Macrame.Lib.Sections
import Macrame.PipeSections
import Macrame.DeadlockNet
