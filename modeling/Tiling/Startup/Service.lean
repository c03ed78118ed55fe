import Tiling.Startup.Manager
/-!
# Services

The window manager as a service: from its command line to its exit code. A restart does not end
the service, it makes it begin anew as a successor on the control socket that stays open.
-/

namespace Tiling

open CommandLine

/-- The service and what it leaves behind. -/
structure Service where
  host : Host
  /-- The window manager; none if the service has ended. -/
  manager : Option Manager
  /-- How the service has ended. -/
  exit : Exit
  /-- The arguments of the autostart script, once for every run of it. -/
  notes : List (List String)
  /-- The file of the control socket is there. -/
  hasSocket : Bool
  /-- The usual settings file was made. -/
  madeSettings : Bool
  /-- Snapshots that were read and deleted. -/
  consumed : List String

namespace Service

def socketDescriptor : Int32 := 3

def before (h : Host) (hasSocket : Bool) : Service :=
  ⟨h, none, ⟨0, [], []⟩, [], hasSocket, false, []⟩

def finished (s : Service) (e : Exit) : Service := { s with manager := none, exit := e }

/-- The usual settings file is made, if it is looked for and not there. -/
def makeSettings (s : Service) (options : Options) : Service :=
  { s with madeSettings := s.madeSettings ||
      (options.settings.isNone && (s.host.settings none).isNone) }

/-- A snapshot is there: one that was found, or one that was left for a successor which ended
before it took it. -/
def hasSnapshot (s : Service) (path : String) : Bool := (s.host.snapshot path).isSome

/-- Snapshots are deleted. -/
def consume (s : Service) (path : Option String) : Service :=
  let left (other : String) : Option Bytes :=
    if path.any (FilePath.mk · == FilePath.mk other) then none else s.host.snapshot other
  { s with
    host := { s.host with snapshot := left }
    consumed := s.consumed ++ path.toList }

/-- Runs a command line; hands back what reaches the display. -/
def launch (s : Service) (commandLine : List String) : Service × List X11.Packet :=
  match Options.ofArguments (commandLine.drop 1) with
  | .error stop => (s.finished (.ofStop Options.program stop), [])
  | .ok options =>
    let startup := Manager.start s.host commandLine options
    let s := (s.makeSettings options).consume startup.consumed
    match startup.result with
    | .error e => (s.finished ⟨1, [], Text.encode (e.message ++ "\n")⟩, startup.packets)
    | .ok m =>
      ({ s with
          manager := some m
          hasSocket := true
          notes := s.notes ++ (s.host.invocation? options m.level).toList }, startup.packets)

/-- Goes on with a manager: as it is while its loop runs, else to the exit or the successor. The
snapshot for a successor is written before that is started, and stays if it does not come to it. -/
def proceed (s : Service) (canRun : String → Bool) (m : Manager) : Service × List X11.Packet :=
  if m.daemon.isRunning then ({ s with manager := some m }, [])
  else
    match m.leave canRun with
    | (m, packets, none) =>
      ({ s.finished ⟨m.exitCode, [], []⟩ with hasSocket := false }, packets)
    | (m, packets, some handover) =>
      let host := m.successorHost s.host handover socketDescriptor
      let (s, others) :=
        ({ s with host := host } : Service).launch (m.successorLine socketDescriptor)
      (s, packets ++ others)

/-- One turn of the loop; hands back what reaches the display and what a connection is answered. -/
def wakeUp (s : Service) (canRun : String → Bool) (cause : Daemon.Cause)
    (events : List DisplayEvent) : Service × List X11.Packet × Option Bytes :=
  match s.manager with
  | none => (s, [], none)
  | some m =>
    let (m, packets, answer) := m.wakeUp canRun cause events
    let (s, others) := s.proceed canRun m
    (s, packets ++ others, answer)

/-- The classifier of a window ends, if one runs. -/
def finishClassifier (s : Service) (canRun : String → Bool) (window : Window)
    (answer : Option String) : Option (Service × List X11.Packet) := do
  let m ← s.manager
  let (m, packets) ← m.finishClassifier canRun window answer
  let (s, others) := s.proceed canRun m
  return (s, packets ++ others)

def modifyConnection (s : Service) (f : X11.Connection → X11.Connection) : Service :=
  { s with manager := s.manager.map fun m => { m with connection := f m.connection } }

def waiting (s : Service) : List Window :=
  match s.manager with
  | some m => m.daemon.pending.rules.map PendingRule.window
  | none => []

end Service

end Tiling
