import Tiling.Command.Reader
import Tiling.Model.Neighbour
import Tiling.Model.Windows
import Tiling.Rules.Pending
import Tiling.Snapshot.Basic
import Tiling.Subscribers
/-!
# Daemon

The running program: the window model in use, the subscribers, and the windows that wait for
their classifier. Whatever an operation on the model announces is sent to the subscribers in the
same order, and its effects join the history.
-/

namespace Tiling

/-- Phases of a run. -/
inductive RunState where
  | starting
  | configured
  | running
  | restarting
  | stopping
  | terminated
  deriving DecidableEq, Repr

def RunState.name : RunState → String
  | .starting => "Init"
  | .configured => "Configured"
  | .running => "Running"
  | .restarting => "Restarting"
  | .stopping => "Stopping"
  | .terminated => "Terminated"

/-- What surrounds the program while it handles something. -/
structure Surroundings where
  screen : Screen
  /-- The command can be started. -/
  canRun : String → Bool

/-- The program in a run. -/
structure Daemon where
  stage : Stage
  subscribers : Subscribers
  pending : Pending
  runState : RunState
  exitStatus : Int32
  /-- The number of the next stream. -/
  nextDescriptor : Nat

namespace Daemon

/-- A program that has just started: a monitor for each output, and no windows. -/
def start (outputs : List (String × Rect)) (config : Config) (feedbackIds : FeedbackIds)
    (files : FifoDirectory) : Daemon :=
  { stage := ⟨Model.fresh outputs config.desktopNames, config.settings, feedbackIds, []⟩
    subscribers := .empty files
    pending := .empty
    runState := .starting
    exitStatus := 0
    nextDescriptor := 0 }

def model (d : Daemon) : Model := d.stage.model

def settings (d : Daemon) : Settings := d.stage.settings

/-- Effects in the order in which they happened. -/
def effects (d : Daemon) : List Effect := d.stage.effects

/-- Takes over a stage whose history is what has just happened. -/
def adopt (d : Daemon) (stage : Stage) : Daemon :=
  { d with
    stage := { stage with history := stage.history ++ d.stage.history }
    subscribers := d.subscribers.publishAll stage.effects }

def quietStage (d : Daemon) : Stage := { d.stage with history := [] }

/-- Leaves what happened so far behind. -/
def forget (d : Daemon) : Daemon := { d with stage := d.quietStage }

/-- Carries out an operation on the model. -/
def perform (d : Daemon) (operation : Stage → Stage) : Daemon := d.adopt (operation d.quietStage)

def request (d : Daemon) (r : Request) : Daemon := d.perform fun s => s.request r

def report (d : Daemon) : String := d.model.report d.settings.statusPrefix

/-- Takes over what a predecessor left: its model, and those of its subscribers whose streams are
open. -/
def restore (d : Daemon) (snapshot : Snapshot) (stream? : Int32 → Option Stream) : Daemon :=
  { d with
    stage := d.stage.withModel snapshot.model
    subscribers :=
      (snapshot.subscribers.filterMap (Subscriber.ofRecord? stream?)).foldl Subscribers.add
        d.subscribers }

/-- The shown desktop of every monitor that has one. -/
def shownDesktops (m : Model) : List DesktopRef :=
  let shown (i : Nat) (monitor : Monitor) : Option DesktopRef :=
    monitor.active.map fun j => ⟨i, j⟩
  (m.monitors.mapIdx shown).filterMap id

/-- Puts the windows of the shown desktops in their places and publishes the stack. -/
def configure (d : Daemon) : Daemon :=
  let d := d.perform fun s => (shownDesktops s.model).foldl Stage.applyLayout s
  let d := d.request (.clientList (d.model.stack.windows d.model.tree))
  { d with runState := .configured }

end Daemon

end Tiling
