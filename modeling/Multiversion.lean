import Multiversion.Gc.WorkerRun
import Multiversion.Main
import Multiversion.Observe.Scope
import Multiversion.Proofs.Queue.Sorted
import Multiversion.Queue.Waiter
import Multiversion.Wait
import Multiversion.Proofs.Queue.Grant
import Multiversion.Proofs.Queue.Calls
import Multiversion.Proofs.Queue.Exact
import Multiversion.Proofs.Sequencer.Calls
import Multiversion.Proofs.Sequencer.Exact
import Multiversion.Proofs.Sequencer.Readiness
import Multiversion.Proofs.Queue.Drain
import Multiversion.Proofs.Node.Session
import Multiversion.Proofs.Node.Drained
import Multiversion.Proofs.Node.DrainOrder
import Multiversion.Proofs.Position
import Multiversion.Proofs.Store.LastWrite
import Multiversion.Proofs.Node.Visible
import Multiversion.Proofs.Node.Act
import Multiversion.Proofs.Node.Stock
import Multiversion.Proofs.Node.Snapshot
import Multiversion.Proofs.Cluster.Collection
import Multiversion.Proofs.Cluster.Cycles
import Multiversion.Proofs.Queue.Run
import Multiversion.Proofs.Queue.Roster
import Multiversion.Proofs.Queue.Refinement
import Multiversion.Proofs.Queue.Progress
import Multiversion.Proofs.Queue.Numbers
import Multiversion.Proofs.Queue.Leaves
import Multiversion.Proofs.Sequencer.Numbering
import Multiversion.Proofs.Sequencer.Crew
import Multiversion.Proofs.Sequencer.Exclusion
import Multiversion.Proofs.Queue.Arrival
import Multiversion.Proofs.Queue.Prefix
import Multiversion.Proofs.Sequencer.Run
import Multiversion.Proofs.Sequencer.Sequence
import Multiversion.Proofs.Queue.Repeat
import Multiversion.Proofs.Sequencer.Alike
import Multiversion.Proofs.Sequencer.Repeat
import Multiversion.Proofs.Cluster.Asking
import Multiversion.Proofs.Cluster.Membership
import Multiversion.Proofs.Cluster.Aborted
import Multiversion.Proofs.Cluster.Needed
import Multiversion.Proofs.Queue.Yields
import Multiversion.Proofs.Sequencer.Turns
import Multiversion.Proofs.Sequencer.Once
import Multiversion.Proofs.Queue.Bypass
import Multiversion.Proofs.Simulation.Plan
import Multiversion.Proofs.Simulation.Standing
import Multiversion.Proofs.Simulation.InOrder
import Multiversion.Proofs.Simulation.Housed
import Multiversion.Proofs.Simulation.Tracks
import Multiversion.Proofs.Simulation.Orderly
import Multiversion.Proofs.Simulation.Race
import Multiversion.Proofs.Simulation.Start
import Multiversion.Proofs.Simulation.Completion
import Multiversion.Proofs.Simulation.Conclusion
import Multiversion.Proofs.Simulation.Outcome
import Multiversion.Proofs.Cluster.Floor
import Multiversion.Proofs.CommitLog
import Multiversion.Proofs.Store.Collected
import Multiversion.Proofs.Applied
import Multiversion.Proofs.Successive
import Multiversion.Proofs.Queue.Signals
import Multiversion.Proofs.Gc.Wakes
import Multiversion.Proofs.Observe.Line
import Multiversion.Proofs.Queue.Catalogue
