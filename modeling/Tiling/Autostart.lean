import Tiling.Numeral
/-!
# Autostart

The script that is run once the program is set up. Its only argument is the run level, which
tells it what the program took over from a predecessor.
-/

namespace Tiling

/-- What the program took over from a predecessor. -/
structure RunLevel where
  stateRestored : Bool
  socketInherited : Bool
  deriving DecidableEq, Repr

/-- The number of a run level: one for the state and two for the socket. -/
def RunLevel.toUInt8 (level : RunLevel) : UInt8 :=
  (if level.stateRestored then 1 else 0) + (if level.socketInherited then 2 else 0)

/-- A file that may be a script. -/
structure Script where
  present : Bool
  executable : Bool
  deriving DecidableEq, Repr

namespace Script

/-- Where the script usually is, below the directory of configurations. -/
def standardPath : String := "splitwm/splitwmrc"

def absent : Script := ⟨false, false⟩

/-- The arguments with which a script is run; none if it is not run. -/
def invocation? (s : Script) (level : UInt8) : Option (List String) :=
  if s.present && s.executable then some [Numeral.decimal level.toNat] else none

end Script

end Tiling
