import Tiling.CommandLine.Reader
/-!
# Options of the window manager

The window manager takes four options and no words.
-/

namespace Tiling

open CommandLine

/-- How the window manager was started. -/
structure Options where
  /-- Path of the autostart script. -/
  autostart : Option String
  /-- Path of a snapshot. -/
  snapshot : Option String
  /-- Descriptor of the control socket. -/
  socket : Option Int32
  /-- Path of the settings file. -/
  settings : Option String
  deriving DecidableEq, Repr

namespace Options

def autostartSwitch : Switch :=
  ⟨some 'c', none, .path "CONFIG_PATH",
    "Autostart script (default: ~/.config/splitwm/splitwmrc)"⟩

def snapshotSwitch : Switch :=
  ⟨some 's', none, .path "STATE_PATH", "State file left by a restarting instance"⟩

def socketSwitch : Switch :=
  ⟨some 'o', none, .number "SOCKET_FD",
    "Control socket descriptor inherited from a restarting instance"⟩

def settingsSwitch : Switch :=
  ⟨none, some "config-file", .path "PATH",
    "Settings file (default: ~/.config/splitwm/config.toml)"⟩

def program : Program :=
  { name := "splitwm"
    version := "0.1.0"
    purpose := "Tiling window manager daemon"
    switches := [autostartSwitch, snapshotSwitch, socketSwitch, settingsSwitch]
    words := none }

def ofReading (r : Reading) : Options :=
  { autostart := r.value? autostartSwitch
    snapshot := r.value? snapshotSwitch
    socket := (r.value? socketSwitch).bind fun text => (number text).toOption
    settings := r.value? settingsSwitch }

/-- Reads the arguments after the name of the program. -/
def ofArguments (arguments : List String) : Except Stop Options :=
  (program.read .empty arguments).map ofReading

end Options

end Tiling
