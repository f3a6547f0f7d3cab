import MustDpor.Foundations.AscendingMap
import MustDpor.Foundations.TopologicalOrder
import MustDpor.Foundations.ColourSearch
import MustDpor.Foundations.VectorClock
import MustDpor.Foundations.SearchForest
import MustDpor.Foundations.Positions
import MustDpor.Foundations.ChannelReplay
import MustDpor.Foundations.Selection
import MustDpor.Foundations.PendingSearch
import MustDpor.Foundations.MarkedWalk
import MustDpor.Foundations.SharedTally
import MustDpor.Model.Event
import MustDpor.Model.Program
import MustDpor.Model.ExecutionGraph
import MustDpor.Model.UsedIndices
import MustDpor.Model.Relation
import MustDpor.Model.ExplorationGraph
import MustDpor.Model.Rollback
import MustDpor.Model.Restriction
import MustDpor.Model.Tables
import MustDpor.Model.Readers
import MustDpor.Model.Porf
import MustDpor.Model.Consistency
import MustDpor.Model.Causality
import MustDpor.Model.EventIndices
import MustDpor.Model.Validation
import MustDpor.Model.Fifo
import MustDpor.Model.Reachability
import MustDpor.Model.Acyclicity
import MustDpor.Model.CachedGraph
import MustDpor.Model.MalformedReads
import MustDpor.Model.Inverse
import MustDpor.Model.CacheCoherence
import MustDpor.Model.Robustness
import MustDpor.Model.Acceptance
import MustDpor.Model.InducedSubgraph
import MustDpor.Model.ClosedRestriction
import MustDpor.Model.RestrictionReplay
import MustDpor.Model.KnownAcyclic
import MustDpor.Model.Attempts
import MustDpor.Model.Execution
import MustDpor.Model.ExecutionPast
import MustDpor.Algo.NextEvent
import MustDpor.Algo.TraceBuffers
import MustDpor.Algo.Revisit
import MustDpor.Algo.Explorer
import MustDpor.Algo.MaskedView
import MustDpor.Algo.Tiebreaker
import MustDpor.Algo.ConsTiebreaker
import MustDpor.Algo.ReusedContext
import MustDpor.Algo.TiebreakerAgreement
import MustDpor.Algo.FifoRestriction
import MustDpor.Algo.RevisitCondition
import MustDpor.Algo.BackwardRevisit
import MustDpor.Algo.Replay
import MustDpor.Algo.Visit
import MustDpor.Algo.Explored
import MustDpor.Algo.HandlerSteps
import MustDpor.Algo.Verify
import MustDpor.Algo.Unwinding
import MustDpor.Algo.Refinement
import MustDpor.Algo.Sequential
import MustDpor.Algo.Termination
import MustDpor.Algo.Soundness
import MustDpor.Algo.Rounds
import MustDpor.Algo.Guarantees
import MustDpor.Algo.StepBound
import MustDpor.Algo.Rescheduling
import MustDpor.Algo.NoDeadEnds
import MustDpor.Algo.Approach
import MustDpor.Algo.ApproachNext
import MustDpor.Algo.Onward
import MustDpor.Algo.Arrival
import MustDpor.Algo.InsertionOrder
import MustDpor.Algo.Optimality
import MustDpor.Algo.Completeness
import MustDpor.Algo.MaximalExecutions
import MustDpor.Algo.ErrorTerminals
import MustDpor.Algo.SettledErrors
import MustDpor.Parallel.WorkerPool
import MustDpor.Parallel.Exploration
import MustDpor.Parallel.Conservation
import MustDpor.Parallel.Equivalence
import MustDpor.Parallel.Counters
import MustDpor.Parallel.Enumeration
