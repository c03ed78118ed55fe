import Tiling.CommandLine.Exit
import Tiling.Daemon.Run
import Tiling.Snapshot.Encode
import Tiling.Startup.Host
/-!
# Managers

The window manager on a display: it comes up, wakes up again and again, and ends or is replaced
by a successor, which finds the same surroundings, the streams of the subscribers, and the
snapshot.
-/

namespace Tiling

/-- The window manager with its connection to the display. -/
structure Manager where
  /-- The command line, with the name of the program. -/
  commandLine : List String
  daemon : Daemon
  connection : X11.Connection
  /-- The path of the control socket. -/
  socketPath : FilePath
  /-- The path of the snapshot for a successor. -/
  statePath : FilePath
  level : RunLevel

/-- An attempt to come up. -/
structure Startup where
  /-- What reached the display. -/
  packets : List X11.Packet
  /-- The snapshot that was taken and deleted. -/
  consumed : Option String
  result : Except StartupError Manager

/-- Nothing but an error came of an attempt. -/
def Startup.failed (packets : List X11.Packet) (e : StartupError) : Startup :=
  ⟨packets, none, .error e⟩

namespace Manager

/-- The packets of the requests in the history of a program. -/
def packetsOf (c : X11.Connection) (d : Daemon) : List X11.Packet :=
  (d.effects.filterMap Effect.request?).flatMap c.packets

/-- The program on a display, with everything in its place. -/
def daemonOn (h : Host) (config : Config) (c : X11.Connection) (options : Options) : Daemon :=
  let fresh := Daemon.start c.outputs config c.ids h.files
  let d := { fresh with nextDescriptor := h.firstDescriptor }
  (match h.taken? options with
    | some snapshot => d.restore snapshot h.stream?
    | none => d).configure

/-- Comes up on a display. -/
def startOn (h : Host) (commandLine : List String) (options : Options) (config : Config)
    (c : X11.Connection) (packets : List X11.Packet) : Startup :=
  match h.listen options.socket with
  | .error e => .failed packets e
  | .ok path =>
    let d := daemonOn h config c options
    { packets := packets ++ packetsOf c d
      consumed := h.consumed? options
      result := .ok
        { commandLine := commandLine
          daemon := d.enter
          connection := c
          socketPath := path
          statePath := h.statePath
          level := ⟨(h.taken? options).isSome, options.socket.isSome⟩ } }

def start (h : Host) (commandLine : List String) (options : Options) : Startup :=
  match Config.load (h.settings options.settings) with
  | .error e => .failed [] (.config e)
  | .ok config =>
    match h.connect with
    | (packets, .error e) => .failed packets (.display e)
    | (packets, .ok c) => startOn h commandLine options config c packets

/-- What surrounds the program while it handles something. -/
def surroundings (m : Manager) (canRun : String → Bool) : Surroundings :=
  ⟨m.connection.screen, canRun⟩

/-- Goes on as another daemon, with the packets of its last requests that reach the display. -/
def proceed (m : Manager) (d : Daemon) : Manager × List X11.Packet :=
  let (c, packets) := m.connection.send (packetsOf m.connection d)
  ({ m with daemon := d.forget, connection := c }, packets)

/-- One turn of the loop; hands back what reaches the display and what a connection is answered. -/
def wakeUp (m : Manager) (canRun : String → Bool) (cause : Daemon.Cause)
    (events : List DisplayEvent) : Manager × List X11.Packet × Option Bytes :=
  let c := m.connection.poll
  let (d, answer) := m.daemon.forget.wakeUp (m.surroundings canRun) cause events c.isBroken
  let (m, packets) := { m with connection := c }.proceed d
  (m, packets, answer)

/-- The classifier of a window ends, if one runs. -/
def finishClassifier (m : Manager) (canRun : String → Bool) (window : Window)
    (answer : Option String) : Option (Manager × List X11.Packet) :=
  (m.daemon.forget.finishClassifier (m.surroundings canRun) window answer).map fun r =>
    m.proceed r.2

/-- The end of the loop; a program that restarts hands over. -/
def leave (m : Manager) (canRun : String → Bool) :
    Manager × List X11.Packet × Option Daemon.Handover :=
  let (d, handover) := m.daemon.forget.leave (m.surroundings canRun)
  let (m, packets) := m.proceed d
  (m, packets, handover)

def exitCode (m : Manager) : UInt8 := CommandLine.Exit.codeOf m.daemon.exitStatus

def successorLine (m : Manager) (socket : Int32) : List String :=
  successorArguments m.commandLine m.statePath.text socket

/-- What a successor finds. -/
def successorHost (m : Manager) (h : Host) (handover : Daemon.Handover) (socket : Int32) : Host :=
  { h with
    snapshot := fun path =>
      if FilePath.mk path == m.statePath then some (Text.encode handover.snapshot.render)
      else h.snapshot path
    isOpen := fun n => n = socket || h.isOpen n
    stream? := handover.stream?
    files := m.daemon.subscribers.files
    firstDescriptor := m.daemon.nextDescriptor }

end Manager

end Tiling
