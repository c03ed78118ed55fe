import Tiling.Daemon.Control
import Tiling.Daemon.Events
/-!
# Run loop

Each time the program wakes up it deals with one cause, then with all events of the display; it
stops if the display is lost, and lets go of subscribers that have hung up. At the end of a run
that restarts, the state is handed over.
-/

namespace Tiling.Daemon

/-- What wakes the program up. -/
inductive Cause where
  /-- A classifier ended. -/
  | classified
  /-- A request came in on a connection. -/
  | connection (connection : Stream) (request : Bytes)
  /-- The display has events, or is lost. -/
  | display
  /-- A signal asks the program to end. -/
  | signal

def attend (env : Surroundings) (d : Daemon) : Cause → Daemon × Option Bytes
  | .classified => (resolveNext env d, none)
  | .connection connection request => d.serve connection request
  | .display => (d, none)
  | .signal => ({ d with runState := .stopping }, none)

/-- Stops a running program whose display is lost. -/
def noticeLoss (d : Daemon) (lost : Bool) : Daemon :=
  if lost && d.runState == .running then { d with runState := .stopping } else d

/-- One turn of the loop; hands back what a connection is answered. -/
def wakeUp (env : Surroundings) (d : Daemon) (cause : Cause) (events : List DisplayEvent)
    (lost : Bool) : Daemon × Option Bytes :=
  let (d, answer) := attend env d cause
  let d := (events.foldl (receive env) d).noticeLoss lost
  ({ d with subscribers := d.subscribers.prune }, answer)

/-- The classifier of a window ends, which wakes the program up; hands back what the classifier
had been told. -/
def finishClassifier (d : Daemon) (env : Surroundings) (window : Window) (answer : Option String) :
    Option (List String × Daemon) :=
  (d.pending.classifier? window).map fun c =>
    let d := { d with pending := d.pending.complete c.task answer }
    (c.arguments, (d.wakeUp env .classified [] false).1)

def enter (d : Daemon) : Daemon := { d with runState := .running }

def isRunning (d : Daemon) : Bool := d.runState == .running

/-- What a restarting program hands over, with the streams that stay open for its successor. -/
structure Handover where
  snapshot : Snapshot
  streams : List Subscriber

def handOver (env : Surroundings) (d : Daemon) : Daemon × Handover :=
  let d := settlePending env d
  let (subscribers, released) := d.subscribers.beginRestart.release
  ({ d with subscribers := subscribers },
    ⟨.capture d.model (released.map Subscriber.record), released⟩)

/-- The end of a run. Its exit status tells of a failure when the program should have been
replaced and goes on to here. -/
def leave (env : Surroundings) (d : Daemon) : Daemon × Option Handover :=
  let terminate (d : Daemon) : Daemon :=
    { d with runState := .terminated, pending := d.pending.drain.2 }
  if d.runState = .restarting then
    let (d, handover) := handOver env d
    (terminate { d with exitStatus := 1 }, some handover)
  else (terminate d, none)

/-- The streams that a successor finds open. -/
def Handover.stream? (h : Handover) (descriptor : Int32) : Option Stream :=
  (h.streams.find? fun sub => Int32.ofNat sub.descriptor == descriptor).map Subscriber.stream

end Tiling.Daemon
