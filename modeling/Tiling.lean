import Tiling.Display.Trace
import Tiling.Main
import Tiling.Messenger
import Tiling.Proofs.Command
import Tiling.Proofs.Daemon.Dispatch
import Tiling.Proofs.Daemon.Failures
import Tiling.Proofs.Daemon.FifoAnswers
import Tiling.Proofs.Daemon.Handover
import Tiling.Proofs.Daemon.Leftovers
import Tiling.Proofs.Daemon.Refusals
import Tiling.Proofs.Daemon.Reports
import Tiling.Proofs.DisplayName
import Tiling.Proofs.Messenger
import Tiling.Proofs.Model.Adjacent
import Tiling.Proofs.Model.Foreground
import Tiling.Proofs.Model.Geometry
import Tiling.Proofs.Model.InputFocus
import Tiling.Proofs.Model.OnScreen
import Tiling.Proofs.Model.Preselection
import Tiling.Proofs.Model.Screen
import Tiling.Proofs.Model.Seen
import Tiling.Proofs.Model.Stacking
import Tiling.Proofs.Relay
import Tiling.Proofs.Rules.Consequences
import Tiling.Proofs.Rules.Tickets
import Tiling.Proofs.Settings
import Tiling.Proofs.Snapshot.RoundTrip
import Tiling.Proofs.Stack.Edits
import Tiling.Proofs.Stack.Levels
import Tiling.Proofs.Stack.Rebuild
import Tiling.Proofs.Subscribers.Fifos
import Tiling.Proofs.Successor
import Tiling.Proofs.Tree.Growth
import Tiling.Proofs.Tree.Traversals
import Tiling.Proofs.Wire
import Tiling.Session
import Tiling.Startup.Service
