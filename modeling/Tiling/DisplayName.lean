import Tiling.FilePath
import Tiling.Numeral
/-!
# Display names

Names of displays such as `:0` and `host:1.2`, and the files that belong to a display.
-/

namespace Tiling

/-- A display: a host, one of its displays, and a screen of that. -/
structure DisplayName where
  host : String
  display : UInt32
  screen : UInt32
  deriving DecidableEq, Repr

/-- Why there is no path for the control socket. -/
inductive SocketPathError where
  /-- The display is not named, or not in the known form. -/
  | unnamedDisplay
  deriving DecidableEq, Repr

def SocketPathError.message : SocketPathError → String
  | .unnamedDisplay => "can't determine the socket path: DISPLAY is unset or malformed"

namespace DisplayName

/-- The first screen of the first local display. -/
def standard : DisplayName := ⟨"", 0, 0⟩

/-- Drops the marker of a local connection. -/
def dropMarker : List Char → List Char
  | 'u' :: 'n' :: 'i' :: 'x' :: '/' :: rest => rest
  | name => name

/-- The parts before and after the last colon. -/
def splitAtLastColon? (name : List Char) : Option (List Char × List Char) :=
  match name.reverse.span (· != ':') with
  | (_, []) => none
  | (number, _ :: host) => some (host.reverse, number.reverse)

/-- The display and screen numbers; the screen is the first one unless it is named after a
point. -/
def numbers? (text : List Char) : Option (UInt32 × UInt32) :=
  match text.span (· != '.') with
  | (display, []) => (Numeral.uint32? (String.ofList display)).map (·, 0)
  | (display, _ :: screen) => do
    return (← Numeral.uint32? (String.ofList display), ← Numeral.uint32? (String.ofList screen))

def ofText? (text : String) : Option DisplayName := do
  let (host, rest) ← splitAtLastColon? (dropMarker text.toList)
  let (display, screen) ← numbers? rest
  return ⟨String.ofList host, display, screen⟩

/-- Where the files of a display are. -/
def fileStem (d : DisplayName) : String :=
  "/tmp/splitwm" ++ d.host ++ "_" ++ toString d.display.toNat ++ "_" ++ toString d.screen.toNat

def socketPath (d : DisplayName) : FilePath := ⟨d.fileStem ++ "-socket"⟩

/-- The file that carries the state of a display over a restart. -/
def statePath (d : DisplayName) : FilePath := ⟨d.fileStem ++ "-state"⟩

/-- The control socket: as set, or that of the display. -/
def findSocket (socket display : Option String) : Except SocketPathError FilePath :=
  match socket with
  | some path => .ok ⟨path⟩
  | none =>
    match display.bind ofText? with
    | some d => .ok d.socketPath
    | none => .error .unnamedDisplay

/-- The control socket, that of the local display if nothing else is known. -/
def findSocketOrLocal (socket display : Option String) : FilePath :=
  match findSocket socket display with
  | .ok path => path
  | .error _ => standard.socketPath

end DisplayName

end Tiling
