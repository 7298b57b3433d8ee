import WebhookRecovery.InterleavedPrograms
import WebhookRecovery.RecoverySchema
import WebhookRecovery.DeliveryPolicy
import WebhookRecovery.MetricsSeries
import WebhookRecovery.DeliveryAdmission
import WebhookRecovery.LeaseReaper
import WebhookRecovery.EventIngest
import WebhookRecovery.ConductorPass
import WebhookRecovery.DeliveryPipeline
import WebhookRecovery.QueueUsage
import WebhookRecovery.PassGuarantee
import WebhookRecovery.DeliveryFile
import WebhookRecovery.PipelineInvariant
import WebhookRecovery.LeaseProtocol
import WebhookRecovery.DeliveryLifecycle
import WebhookRecovery.RateCeilings
import WebhookRecovery.ClockControl
import WebhookRecovery.SeriesContiguity
import WebhookRecovery.CursorAgreement
import WebhookRecovery.FairAllocation
import WebhookRecovery.CoalesceOrder
import WebhookRecovery.CompletionDeadlock
import WebhookRecovery.LeaseClock
import WebhookRecovery.LeaderElection
import WebhookRecovery.SerialPasses
import WebhookRecovery.LockHandover
import WebhookRecovery.StalenessBound
import WebhookRecovery.ConcurrencyBound
import WebhookRecovery.WeightedAllocation
import WebhookRecovery.MetricsFeed
import WebhookRecovery.KeyUniqueness
import WebhookRecovery.RetirementRace
import WebhookRecovery.RetiredChart
import WebhookRecovery.ConsistentRows
import WebhookRecovery.SimulationIsolation
import WebhookRecovery.PolicyVerdicts
import WebhookRecovery.AdmittedRows
import WebhookRecovery.WorkConservation
import WebhookRecovery.FifoScan
import WebhookRecovery.IdlePass
import WebhookRecovery.IdleProgress
import WebhookRecovery.StepTilings
import WebhookRecovery.ClockAlgebra
import WebhookRecovery.MapFolds
import WebhookRecovery.ShareWindows
import WebhookRecovery.HighWaterMarks
import WebhookRecovery.ProducerWindows
import WebhookRecovery.SeriesCalls
import WebhookRecovery.CounterExactness
import WebhookRecovery.PassWalk
import WebhookRecovery.TerminalReasons
import WebhookRecovery.RetrySpacing
import WebhookRecovery.TalliedRuns
import WebhookRecovery.BoundedWork
import WebhookRecovery.ConsumerTransport
import WebhookRecovery.AttemptOutcomes
import WebhookRecovery.ProcessRegistry
import WebhookRecovery.ProcessRunner
import WebhookRecovery.FleetDrain
import WebhookRecovery.KillProtocol
import WebhookRecovery.OutageGate
import WebhookRecovery.ScenarioSeed
import WebhookRecovery.LedgerJoins
import WebhookRecovery.ScenarioDrops
import WebhookRecovery.ReadPlane
import WebhookRecovery.SimulationFrames
import WebhookRecovery.PausedRuns
import WebhookRecovery.OverlappingRequests
import WebhookRecovery.BacklogChart
import WebhookRecovery.BoundedResponse
import WebhookRecovery.RestedBacklog
import WebhookRecovery.DrainRounds
