import TemporalMonitor.Compile
import TemporalMonitor.Dot
import TemporalMonitor.Proofs.Expansion
import TemporalMonitor.Proofs.Interning
import TemporalMonitor.Proofs.Semantics
import TemporalMonitor.Proofs.TableauEdges
import TemporalMonitor.Proofs.FairRuns
import TemporalMonitor.Proofs.Paths
import TemporalMonitor.Proofs.Sessions
import TemporalMonitor.Proofs.Settling
import TemporalMonitor.Proofs.FirstVerdict
import TemporalMonitor.Proofs.PickOrder
import TemporalMonitor.Proofs.Safety
import TemporalMonitor.Proofs.CoSafety
import TemporalMonitor.Proofs.Descent
import TemporalMonitor.Proofs.Firings
import TemporalMonitor.Proofs.TriggerPlacement
import TemporalMonitor.Proofs.Timers
import TemporalMonitor.Proofs.CurrentStates
import TemporalMonitor.Proofs.Subscriptions
import TemporalMonitor.Proofs.Replay
import TemporalMonitor.Proofs.Isomorphism
import TemporalMonitor.Proofs.Mirror
import TemporalMonitor.Proofs.Representation
import TemporalMonitor.Proofs.Sharing
import TemporalMonitor.Proofs.Remembering
import TemporalMonitor.Proofs.Observers
import TemporalMonitor.Proofs.PlacementRule
import TemporalMonitor.Proofs.OneStep
import TemporalMonitor.Proofs.Horizon
import TemporalMonitor.Proofs.DepthFirst
import TemporalMonitor.Proofs.SingleTimer
import TemporalMonitor.Proofs.Readability
import TemporalMonitor.Proofs.Labels
