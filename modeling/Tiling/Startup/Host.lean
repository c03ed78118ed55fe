import Tiling.Autostart
import Tiling.CommandLine.Options
import Tiling.Config.File
import Tiling.DisplayName
import Tiling.Fifo
import Tiling.Stream
import Tiling.Successor
import Tiling.X11.Server
/-!
# Hosts

What the window manager finds around it when it starts, and what it gets hold of one after the
other: a connection to the display, the control socket, and the snapshot of a predecessor.
-/

namespace Tiling

/-- What the window manager finds around it. -/
structure Host where
  /-- The display, if it is named. -/
  display : Option String
  /-- The path of the control socket, if it is set. -/
  socket : Option String
  /-- Where files of the running program are kept. -/
  runtimeDirectory : String
  /-- The content of a settings file, the usual one without a path. -/
  settings : Option String → Option Bytes
  /-- The content of a snapshot. -/
  snapshot : String → Option Bytes
  /-- The script at a path, the usual one without a path. -/
  script : Option String → Script
  /-- The server of the display and the screen that is asked for. -/
  server : Option (X11.Server × Nat)
  canBind : String → Bool
  /-- The descriptor was left open. -/
  isOpen : Int32 → Bool
  /-- The stream behind a descriptor that was left open. -/
  stream? : Int32 → Option Stream
  files : FifoDirectory
  /-- The number of the first new stream. -/
  firstDescriptor : Nat

/-- Why the window manager does not come up. -/
inductive StartupError where
  | config (e : ConfigError)
  | display (e : X11.ConnectError)
  | socketPath (e : SocketPathError)
  | bind (path : String)
  | descriptor (n : Int32)
  deriving DecidableEq, Repr

def StartupError.message : StartupError → String
  | .config e => "Failed to load configuration: " ++ e.message
  | .display e => e.message?.getD "The display server does not know the names of properties"
  | .socketPath e => e.message
  | .bind path => "Failed to bind the socket " ++ Text.quoteName path
  | .descriptor n => "Inherited socket descriptor " ++ Numeral.decimal n.toInt ++ " is not open"

namespace Host

/-- Where a successor finds the snapshot. -/
def statePath (h : Host) : FilePath :=
  match h.display.bind DisplayName.ofText? with
  | some d => d.statePath
  | none => ⟨h.runtimeDirectory ++ "/splitwm-state"⟩

def connect (h : Host) : List X11.Packet × Except X11.ConnectError X11.Connection :=
  match h.server with
  | some (server, screen) => X11.connect server screen
  | none => ([], .error .unreachable)

/-- Gets hold of the control socket: of the one that was left open, or of a new one at its path,
which is handed back. -/
def listen (h : Host) (inherited : Option Int32) : Except StartupError FilePath :=
  match DisplayName.findSocket h.socket h.display, inherited with
  | .error e, _ => .error (.socketPath e)
  | .ok path, some n => if h.isOpen n then .ok path else .error (.descriptor n)
  | .ok path, none => if h.canBind path.text then .ok path else .error (.bind path.text)

/-- The snapshot that the options name, if there is one. -/
def taken? (h : Host) (options : Options) : Option Snapshot :=
  options.snapshot.bind fun path => (Snapshot.load path (h.snapshot path)).toOption

/-- The path of a snapshot that was read, whatever was in it. -/
def consumed? (h : Host) (options : Options) : Option String :=
  options.snapshot.filter fun path => Snapshot.isConsumed (h.snapshot path)

/-- The arguments of the autostart script; none if it is not run. -/
def invocation? (h : Host) (options : Options) (level : RunLevel) : Option (List String) :=
  (h.script options.autostart).invocation? level.toUInt8

end Host

end Tiling
