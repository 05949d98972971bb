import Proximity.Clustering.Grids
import Proximity.Engine
import Proximity.Neighbours.Tree.Search
import Proximity.Proofs.Distance
import Proximity.Proofs.Assignment
import Proximity.Proofs.Elkan
import Proximity.Proofs.Agreement
import Proximity.Proofs.Clusters
import Proximity.Proofs.TransferSteps
import Proximity.Proofs.TransferStages
import Proximity.Proofs.TransferRuns
import Proximity.Proofs.Potential
import Proximity.Proofs.Visits
import Proximity.Proofs.Convergence
import Proximity.Proofs.Metrics
import Proximity.Proofs.Boxes
import Proximity.Proofs.Trees
import Proximity.Proofs.RadiusSearch
import Proximity.Proofs.ClosePairs
import Proximity.Proofs.BoundedHeap
import Proximity.Proofs.Smallest
import Proximity.Proofs.NearestTables
import Proximity.Proofs.NearestSearch
import Proximity.Proofs.NewRows
import Proximity.Proofs.Widths
import Proximity.Proofs.TreeArena
import Proximity.Proofs.Counters
import Proximity.Proofs.CountingDown
import Proximity.Proofs.Breaches
import Proximity.Proofs.Sessions
import Proximity.Proofs.Inertia
import Proximity.Proofs.Tasks
import Proximity.Proofs.GreedyChoice
import Proximity.Proofs.GreedySeeding
import Proximity.Proofs.Comparisons
import Proximity.Proofs.LeastColumn
import Proximity.Proofs.Sweeps
import Proximity.Proofs.Bookkeeping
import Proximity.Proofs.Restarts
import Proximity.Proofs.HeapInserts
import Proximity.Proofs.ParallelHeap
import Proximity.Proofs.RadiusLists
import Proximity.Proofs.DistancePaths
import Proximity.Proofs.FilledRows
import Proximity.Proofs.RoundCounts
import Proximity.Proofs.FailedCalls
import Proximity.Proofs.Layouts
import Proximity.Proofs.TwoNearest
import Proximity.Proofs.Words
import Proximity.Proofs.Ingestion
import Proximity.Proofs.TreeWords
import Proximity.Proofs.BlockRanges
