import DurableRunner.Guarantees.Authority
import DurableRunner.Guarantees.WellFormedRows
import DurableRunner.Guarantees.EventHistory
import DurableRunner.Guarantees.Linearizability
import DurableRunner.Guarantees.DeliveryOrder
import DurableRunner.Guarantees.WatermarkCursor
import DurableRunner.Guarantees.Reconnection
import DurableRunner.Guarantees.ObservedHistory
import DurableRunner.Guarantees.OneEffect
import DurableRunner.Guarantees.Lifecycle
import DurableRunner.Guarantees.BoundedLifetime
import DurableRunner.Guarantees.ColumnProvenance
import DurableRunner.Guarantees.FailureReports
import DurableRunner.Guarantees.RetryTiming
import DurableRunner.Guarantees.ClaimOrder
import DurableRunner.Guarantees.Sweeping
import DurableRunner.Guarantees.Contention
import DurableRunner.Guarantees.EffectSink
import DurableRunner.Guarantees.DeadLetters
import DurableRunner.Guarantees.CaBundle
import DurableRunner.Guarantees.ResumePosition
import DurableRunner.Guarantees.StreamShutdown
import DurableRunner.Guarantees.StreamDisconnect
import DurableRunner.Guarantees.WorkerProtocol
import DurableRunner.Guarantees.TransientFailures
import DurableRunner.Guarantees.WireFormat
import DurableRunner.Guarantees.BrowserFeed
import DurableRunner.Guarantees.EveryStep
import DurableRunner.Guarantees.LoopRefinement
import DurableRunner.Guarantees.ExecutedRows
import DurableRunner.Guarantees.WorkerExit
import DurableRunner.Guarantees.CoordinatorShutdown
import DurableRunner.Guarantees.OwnershipAudit
import DurableRunner.Guarantees.ClaimContention
import DurableRunner.Guarantees.BacklogPhase
