import Tiling.Messenger
import Tiling.Startup.Service
/-!
# Command line

One executable is both programs: with `splitc` as its first argument it is the messenger, else
the window manager. It looks around, hands over to the library, and carries out what that says
about files and output. Displays and control sockets are beyond what it can open by itself, so
it ends where they are needed as if there were none.
-/

namespace Tiling

/-- The content of a file, if it can be read. -/
def readFile (path : String) : IO (Option Bytes) := do
  try
    return some (← IO.FS.readBinFile path).toList
  catch _ => return none

/-- Does something to a file; it is no matter if that fails. -/
def attempt (action : IO Unit) : IO Unit := do
  try action catch _ => return

/-- The directory of configurations: as set, if that is an absolute path, else the usual one. -/
def configurationHome : IO String := do
  let usual := ((← IO.getEnv "HOME").getD "") ++ "/.config"
  return ((← IO.getEnv "XDG_CONFIG_HOME").filter fun path => path.startsWith "/").getD usual

/-- Writes what a program leaves behind, and exits. -/
def conclude (e : CommandLine.Exit) : IO UInt32 := do
  let output ← IO.getStdout
  output.write ⟨e.output.toArray⟩
  output.flush
  (← IO.getStderr).write ⟨e.errors.toArray⟩
  return e.code.toUInt32

def runMessenger (arguments : List String) : IO UInt32 := do
  let env : Messenger.Surroundings :=
    { socket := ← IO.getEnv "SPLITWM_SOCKET"
      display := ← IO.getEnv "DISPLAY"
      reach := fun _ => .error .missing }
  conclude (Messenger.run env arguments).exit

/-- What the window manager finds, as far as its options ask for it. -/
def lookAround (home : String) (options : Options) : IO Host := do
  let settings ← readFile (options.settings.getD (home ++ "/splitwm/config.toml"))
  let snapshot ← match options.snapshot with
    | some path => readFile path
    | none => pure none
  let directory := (← IO.getEnv "XDG_RUNTIME_DIR").getD "/tmp"
  return {
    display := ← IO.getEnv "DISPLAY"
    socket := ← IO.getEnv "SPLITWM_SOCKET"
    runtimeDirectory := directory
    settings := fun _ => settings
    snapshot := fun _ => snapshot
    script := fun _ => .absent
    server := none
    canBind := fun _ => false
    isOpen := fun _ => false
    stream? := fun _ => none
    files := ⟨directory ++ "/", true, []⟩
    firstDescriptor := 4 }

/-- Makes and deletes files as the window manager says. -/
def settleFiles (home : String) (s : Service) : IO Unit := do
  if s.madeSettings then
    attempt (IO.FS.createDirAll (home ++ "/splitwm"))
    attempt (IO.FS.writeFile (home ++ "/splitwm/config.toml") Config.standardText)
  for path in s.consumed do
    attempt (IO.FS.removeFile path)

def runManager (arguments : List String) : IO UInt32 := do
  let home ← configurationHome
  let options := (Options.ofArguments arguments).toOption.getD ⟨none, none, none, none⟩
  let host ← lookAround home options
  let (s, _) := (Service.before host false).launch (Options.program.name :: arguments)
  settleFiles home s
  conclude s.exit

end Tiling

/-- Runs the program that the first argument names. -/
def main (arguments : List String) : IO UInt32 :=
  match arguments with
  | "splitc" :: rest => Tiling.runMessenger rest
  | _ => Tiling.runManager arguments
