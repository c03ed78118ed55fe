import Tiling.Daemon.Basic
import Tiling.Snapshot.Encode
import Tiling.Wire
/-!
# Control requests

Carrying out commands. The steps of a command are carried out one after the other; if one fails,
those before it stand. A connection is answered and closed, unless it becomes the stream of a
subscriber.
-/

namespace Tiling.Daemon

/-- What becomes of a connection. -/
inductive Reply where
  | text (s : String)
  /-- It becomes the stream of a subscriber. -/
  | stream (topics : Topics) (budget : Int32)
  deriving DecidableEq, Repr

/-- Carries out a step on a node. -/
def nodeStep (n : NodeId) (step : NodeStep) (s : Stage) : Stage × Option CommandError :=
  match step with
  | .focus => (s.focusNode (some n), none)
  | .focusNeighbour dir =>
    match s.model.neighbour? n dir s.settings.tightness with
    | some other => (s.focusNode (some other), none)
    | none => (s, some (.noTarget .node))
  | .state state => (s.setState n state, none)
  | .layer layer => (s.setLayer n layer, none)
  | .flag flag value => (s.setFlag n flag (value.getD !(s.flag n flag)), none)
  | .presel dir => (s.presel n dir, none)

/-- Carries out steps on a node up to the first that fails. -/
def nodeSteps (n : NodeId) : List NodeStep → Stage → Stage × Option CommandError
  | [], s => (s, none)
  | step :: rest, s =>
    match nodeStep n step s with
    | (s, none) => nodeSteps n rest s
    | (s, some e) => (s, some e)

/-- Carries out a step on a desktop. -/
def desktopStep (r : DesktopRef) (s : Stage) : DesktopStep → Stage
  | .focus => s.focusDesktop r
  | .layout layout => s.setLayout r layout

/-- The node that a command is about. -/
def targetNode? (m : Model) : NodeTarget → Option NodeId
  | .focused => m.focusedNode?
  | .window w => m.tree.findWindow? w

/-- The desktop that a command is about. -/
def targetDesktop? (m : Model) : Option String → Option DesktopRef
  | some name => m.findDesktop? name
  | none => m.focusedDesktop?

/-- Carries out a `node` command. -/
def runNode (d : Daemon) (target : NodeTarget) (steps : List NodeStep) :
    Daemon × Except CommandError Reply :=
  match targetNode? d.model target with
  | none => (d, .error (.noTarget .node))
  | some n =>
    let (stage, failure) := nodeSteps n steps d.quietStage
    (d.adopt stage, match failure with
      | none => .ok (.text "")
      | some e => .error e)

/-- Carries out a `desktop` command. -/
def runDesktop (d : Daemon) (name : Option String) (steps : List DesktopStep) :
    Daemon × Except CommandError Reply :=
  match targetDesktop? d.model name with
  | none => (d, .error (.noTarget .desktop))
  | some r => (d.perform fun s => steps.foldl (desktopStep r) s, .ok (.text ""))

/-- The stem of the names of FIFOs. -/
def fifoStem : String := "splitwm_fifo"

/-- Takes in a subscriber with the next stream. -/
def subscribe (d : Daemon) (stream : Stream) (fifo : Option String) (topics : Topics)
    (budget : Int32) : Daemon :=
  let sub : Subscriber := ⟨d.nextDescriptor, stream, fifo, topics, budget⟩
  { d with
    subscribers := d.subscribers.register sub d.report
    nextDescriptor := d.nextDescriptor + 1 }

/-- Makes a FIFO, takes in a subscriber that gets it as its stream, and answers with its path. -/
def subscribeFifo (d : Daemon) (topics : Topics) (budget : Int32) :
    Daemon × Except CommandError Reply :=
  match d.subscribers.files.make fifoStem with
  | .error e => (d, .error (.subscribe e.message))
  | .ok (files, path) =>
    let d := { d with subscribers := { d.subscribers with files := files } }
    (d.subscribe (.through (.fifo .drained)) (some path) topics budget, .ok (.text (path ++ "\n")))

/-- The list that a query asks for. -/
def answerQuery (m : Model) : Query → String
  | .monitors => m.listMonitors
  | .desktops => m.listDesktops
  | .nodes => m.listNodes
  | .stack => m.listStack

def snapshot (d : Daemon) : Snapshot := .capture d.model d.subscribers.records

/-- Carries out a request about the program itself. -/
def runControl (d : Daemon) : Control → Daemon × Reply
  | .restart => ({ d with runState := .restarting }, .text "")
  | .dumpState => (d, .text (d.snapshot.render ++ "\n"))
  | .status => (d, .text d.report)

def runConfig (d : Daemon) (key : String) (value : Option String) :
    Daemon × Except CommandError Reply :=
  match value with
  | none =>
    match d.settings.get key with
    | .ok text => (d, .ok (.text (text ++ "\n")))
    | .error e => (d, .error (.setting e))
  | some text =>
    match d.settings.set key text with
    | .ok settings => ({ d with stage := { d.stage with settings := settings } }, .ok (.text ""))
    | .error e => (d, .error (.setting e))

def execute (d : Daemon) : Command → Daemon × Except CommandError Reply
  | .query what => (d, .ok (.text (answerQuery d.model what)))
  | .subscribe false budget topics => (d, .ok (.stream topics budget))
  | .subscribe true budget topics => d.subscribeFifo topics budget
  | .wm what =>
    let (d, reply) := d.runControl what
    (d, .ok reply)
  | .quit status =>
    ({ d with exitStatus := status.getD 0, runState := .stopping }, .ok (.text ""))
  | .config key value => d.runConfig key value
  | .node target steps => d.runNode target steps
  | .desktop name steps => d.runDesktop name steps

/-- Carries out the request of some arguments. -/
def handle (d : Daemon) (arguments : List String) : Daemon × Except CommandError Reply :=
  match Command.ofArguments arguments with
  | .ok command => d.execute command
  | .error e => (d, .error e)

/-- Serves a connection: hands back what is written to it before it is closed, which is nothing
when it stays open. -/
def serve (d : Daemon) (connection : Stream) (request : Bytes) : Daemon × Option Bytes :=
  match d.handle (Wire.decodeRequest (request.take Wire.capacity)) with
  | (d, .ok (.text s)) => (d, some (Text.encode s))
  | (d, .ok (.stream topics budget)) => (d.subscribe connection none topics budget, none)
  | (d, .error e) => (d, some (Wire.failure (e.message ++ "\n")))

end Tiling.Daemon
