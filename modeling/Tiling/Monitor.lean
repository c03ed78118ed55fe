import Tiling.Tree.Arrange
/-!
# Monitors and desktops

A monitor shows one of its desktops at a time; a desktop owns the tree of its windows by the root
and remembers which of them has the focus. A desktop is addressed by two positions, because names
repeat.
-/

namespace Tiling

/-- A set of windows that is shown together. -/
structure Desktop where
  id : UInt32
  name : String
  layout : Layout
  root : Option NodeId
  focus : Option NodeId
  deriving DecidableEq, Repr

/-- An output with its desktops. -/
structure Monitor where
  id : UInt32
  name : String
  rect : Rect
  desktops : List Desktop
  /-- Position of the desktop that is shown. -/
  active : Option Nat
  deriving DecidableEq, Repr

namespace Monitor

def activeDesktop? (m : Monitor) : Option Desktop := m.active.bind fun i => m.desktops[i]?

end Monitor

/-- Position of a monitor, and of a desktop on it. -/
structure DesktopRef where
  monitor : Nat
  desktop : Nat
  deriving DecidableEq, Repr

end Tiling
