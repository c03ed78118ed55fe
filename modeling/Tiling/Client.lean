import Tiling.Geometry
/-!
# Clients

A managed window: what it is called, how it is shown, and its level in the stacking order. The
level is `3 * layer + state`, so the layer decides first.
-/

namespace Tiling

/-- Identifier of a window on the display. -/
abbrev Window := UInt32

/-- How a window is shown. -/
inductive ClientState where
  | tiled
  | pseudoTiled
  | floating
  | fullscreen
  deriving DecidableEq, Repr

/-- The stacking layer of a window, whatever its state. -/
inductive Layer where
  | below
  | normal
  | above
  deriving DecidableEq, Repr

/-- A mark on a node that can be switched on and off. -/
inductive Flag where
  | sticky
  /-- The flag called `private`. -/
  | exclusive
  | locked
  | marked
  deriving DecidableEq, Repr

/-- The flags of a node. -/
structure Flags where
  sticky : Bool
  exclusive : Bool
  locked : Bool
  marked : Bool
  deriving DecidableEq, Repr, Inhabited

namespace ClientState

def word : ClientState → String
  | .tiled => "tiled"
  | .pseudoTiled => "pseudo_tiled"
  | .floating => "floating"
  | .fullscreen => "fullscreen"

def ofWord? : String → Option ClientState
  | "tiled" => some .tiled
  | "pseudo_tiled" => some .pseudoTiled
  | "floating" => some .floating
  | "fullscreen" => some .fullscreen
  | _ => none

theorem ofWord?_word (s : ClientState) : ofWord? s.word = some s := by
  cases s <;> rfl

/-- Tiled and pseudo-tiled windows are placed by the layout. -/
def isTiled : ClientState → Bool
  | .tiled | .pseudoTiled => true
  | .floating | .fullscreen => false

def letter : ClientState → Char
  | .tiled => 'T'
  | .pseudoTiled => 'P'
  | .floating => 'F'
  | .fullscreen => '='

/-- Rank of a state within a layer. -/
def rank : ClientState → Nat
  | .tiled | .pseudoTiled => 0
  | .floating => 1
  | .fullscreen => 2

end ClientState

namespace Layer

def word : Layer → String
  | .below => "below"
  | .normal => "normal"
  | .above => "above"

def ofWord? : String → Option Layer
  | "below" => some .below
  | "normal" => some .normal
  | "above" => some .above
  | _ => none

theorem ofWord?_word (l : Layer) : ofWord? l.word = some l := by
  cases l <;> rfl

def rank : Layer → Nat
  | .below => 0
  | .normal => 1
  | .above => 2

end Layer

namespace Flag

def word : Flag → String
  | .sticky => "sticky"
  | .exclusive => "private"
  | .locked => "locked"
  | .marked => "marked"

def ofWord? : String → Option Flag
  | "sticky" => some .sticky
  | "private" => some .exclusive
  | "locked" => some .locked
  | "marked" => some .marked
  | _ => none

theorem ofWord?_word (f : Flag) : ofWord? f.word = some f := by
  cases f <;> rfl

end Flag

namespace Flags

def none : Flags := ⟨false, false, false, false⟩

def get (flags : Flags) : Flag → Bool
  | .sticky => flags.sticky
  | .exclusive => flags.exclusive
  | .locked => flags.locked
  | .marked => flags.marked

def set (flags : Flags) (flag : Flag) (value : Bool) : Flags :=
  match flag with
  | .sticky => { flags with sticky := value }
  | .exclusive => { flags with exclusive := value }
  | .locked => { flags with locked := value }
  | .marked => { flags with marked := value }

theorem get_set_same (flags : Flags) (flag : Flag) (value : Bool) :
    (flags.set flag value).get flag = value := by
  cases flag <;> rfl

theorem get_set_other (flags : Flags) {flag other : Flag} (value : Bool) (h : flag ≠ other) :
    (flags.set flag value).get other = flags.get other := by
  cases flag <;> cases other <;> first | rfl | exact absurd rfl h

/-- The initials of the set flags. -/
def letters (flags : Flags) : String :=
  (if flags.sticky then "S" else "") ++ (if flags.exclusive then "P" else "") ++
    (if flags.locked then "L" else "") ++ (if flags.marked then "M" else "")

end Flags

/-- The words `on` and `off`. -/
def onOff (value : Bool) : String := if value then "on" else "off"

/-- A truth value written `on`, `true`, `off` or `false`. -/
def switch? : String → Option Bool
  | "on" => some true
  | "true" => some true
  | "off" => some false
  | "false" => some false
  | _ => none

theorem switch?_onOff (value : Bool) : switch? (onOff value) = some value := by
  cases value <;> rfl

/-- A managed window. -/
structure Client where
  window : Window
  className : String
  instanceName : String
  state : ClientState
  layer : Layer
  urgent : Bool
  /-- Geometry of the window while it floats. -/
  floatingRect : Rect
  deriving DecidableEq, Repr

namespace Client

/-- A tiled window of which nothing else is known. -/
def plain (window : Window) : Client :=
  ⟨window, "", "", .tiled, .normal, false, Rect.empty⟩

/-- Level of a layer and state in the stacking order. -/
def levelOf (layer : Layer) (state : ClientState) : Nat := 3 * layer.rank + state.rank

/-- Level of a window in the stacking order. -/
def level (c : Client) : Nat := levelOf c.layer c.state

end Client

end Tiling
