import Cdcl.Data.DenseSet
import Cdcl.Data.IntegerMap
import Cdcl.Data.ScoredHeap
import Cdcl.Solver.Session
import Cdcl.Proofs.Attachment
import Cdcl.Proofs.Backtracking
import Cdcl.Proofs.Cores
import Cdcl.Proofs.Decisions
import Cdcl.Proofs.FrozenClauses
import Cdcl.Proofs.Reduced
import Cdcl.Proofs.SetAside
import Cdcl.Proofs.Simplified
import Cdcl.Proofs.Vivified
import Cdcl.Proofs.Compacted
import Cdcl.Proofs.AnalysisEnds
import Cdcl.Proofs.GivenClauses
import Cdcl.Proofs.Epochs
import Cdcl.Proofs.Upkeep
import Cdcl.Proofs.SearchSteps
import Cdcl.Proofs.NewVariables
import Cdcl.Proofs.Solving
import Cdcl.Proofs.Sessions
import Cdcl.Proofs.Verdicts
import Cdcl.Proofs.Searches
import Cdcl.Proofs.StoredFormula
import Cdcl.Proofs.ImplicationGraph
import Cdcl.Proofs.Termination
import Cdcl.Proofs.ConsistencyCheck
import Cdcl.Proofs.MatchingWatches
import Cdcl.Proofs.ClauseBooks
import Cdcl.Proofs.TwinCalls
import Cdcl.Proofs.Contradictions
import Cdcl.Proofs.OpenVariables
import Cdcl.Proofs.Facts
import Cdcl.Proofs.UnitPropagation
import Cdcl.Proofs.Progress
import Cdcl.Proofs.GarbageChecks
import Cdcl.Proofs.Record
import Cdcl.Proofs.RecentClauses
import Cdcl.Proofs.ReductionSchedule
import Cdcl.Proofs.CleanClauses
import Cdcl.Proofs.PureLiterals
import Cdcl.Proofs.Restoration
import Cdcl.Proofs.OverlookedClauses
import Cdcl.Proofs.CallsInRange
import Cdcl.Proofs.HeapOrder
import Cdcl.Proofs.RecentValues
import Cdcl.Proofs.StoredCounts
import Cdcl.Proofs.PackedArena
