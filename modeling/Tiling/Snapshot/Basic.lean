import Tiling.Model.Basic
import Tiling.Subscribers.Record
/-!
# Snapshots

What a successor needs to go on: the model, with its stack flattened to an order, and the
records of the subscribers.
-/

namespace Tiling

/-- The state that outlives the program. -/
structure Snapshot where
  monitors : List Monitor
  focusedMonitor : Nat
  nextId : UInt32
  tree : Tree
  /-- Stacked leaves, bottom first. -/
  stack : List NodeId
  subscribers : List SubscriberRecord
  deriving DecidableEq, Repr

namespace Snapshot

def capture (m : Model) (subscribers : List SubscriberRecord) : Snapshot :=
  ⟨m.monitors, m.focusedMonitor, m.nextId, m.tree, m.stack.toList, subscribers⟩

/-- The model of a snapshot; a focused monitor that does not exist gives way to the last one. -/
def model (s : Snapshot) : Model :=
  { monitors := s.monitors
    focusedMonitor := min s.focusedMonitor (s.monitors.length - 1)
    tree := s.tree
    stack := Stack.ofList s.stack
    nextId := s.nextId }

end Snapshot

end Tiling
