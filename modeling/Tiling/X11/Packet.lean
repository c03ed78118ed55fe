import Tiling.Display
/-!
# Packets

What goes over a connection to an X11 server: a request to the display becomes one packet or
several. Sizes and positions are brought into the ranges that a packet has room for.
-/

namespace Tiling.X11

/-- Changes below a window are reported. -/
def structureNotify : UInt32 := 0x80000

/-- Changes below a window that others ask for are handed over instead of made. -/
def structureRedirect : UInt32 := 0x100000

def propertyChange : UInt32 := 0x400000

/-- The property with the stacked windows. -/
def clientListName : String := "_NET_CLIENT_LIST_STACKING"

/-- The property with the focused window. -/
def activeWindowName : String := "_NET_ACTIVE_WINDOW"

def classProperty : String := "WM_CLASS"

def hintsProperty : String := "WM_HINTS"

/-- A request on the connection. -/
inductive Packet where
  | selectEvents (window : Window) (mask : UInt32)
  | place (window : Window) (rect : Rect)
  | restack (window sibling : Window) (above : Bool)
  | map (window : Window)
  | unmap (window : Window)
  | destroy (window : Window)
  /-- Sets a property to a list of windows. -/
  | putWindows (window : Window) (property : String) (value : List Window)
  | focus (window : Window)
  | internAtom (name : String)
  | getProperty (window : Window) (property typeName : String)
  | create (id : Window) (depth : Nat) (parent : Window) (x y : Int) (width height : Nat)
      (background : UInt32)
  deriving DecidableEq, Repr

def decimal (n : Int) : String := Numeral.decimal n

def labelled (name : String) (n : Int) : String := " " ++ name ++ "=" ++ decimal n

/-- A packet in one line, with the names of the protocol. -/
def Packet.render : Packet → String
  | .selectEvents window mask =>
    "ChangeWindowAttributes " ++ decimal window.toNat ++ labelled "event_mask" mask.toNat
  | .place window rect =>
    "ConfigureWindow " ++ decimal window.toNat ++ labelled "x" rect.x.toInt ++
      labelled "y" rect.y.toInt ++ labelled "width" rect.width.toNat ++
      labelled "height" rect.height.toNat
  | .restack window sibling above =>
    "ConfigureWindow " ++ decimal window.toNat ++ labelled "sibling" sibling.toNat ++
      " stack_mode=" ++ (if above then "above" else "below")
  | .map window => "MapWindow " ++ decimal window.toNat
  | .unmap window => "UnmapWindow " ++ decimal window.toNat
  | .destroy window => "DestroyWindow " ++ decimal window.toNat
  | .putWindows window property value =>
    "ChangeProperty " ++ decimal window.toNat ++ " replace " ++ property ++ " WINDOW 32 [" ++
      ", ".intercalate (value.map fun w => decimal w.toNat) ++ "]"
  | .focus window =>
    "SetInputFocus " ++ decimal window.toNat ++ labelled "revert_to" 1 ++ labelled "time" 0
  | .internAtom name => "InternAtom " ++ name ++ labelled "only_if_exists" 0
  | .getProperty window property typeName =>
    "GetProperty " ++ decimal window.toNat ++ " " ++ property ++ " " ++ typeName
  | .create id depth parent x y width height background =>
    "CreateWindow " ++ decimal id.toNat ++ labelled "depth" depth ++
      labelled "parent" parent.toNat ++ labelled "x" x ++ labelled "y" y ++
      labelled "width" width ++ labelled "height" height ++ labelled "border" 0 ++
      labelled "class" 1 ++ labelled "visual" 0 ++
      labelled "background_pixel" background.toNat ++ labelled "override_redirect" 1

def clampPosition (n : Int) : Int := max (-32768) (min 32767 n)

/-- The nearest size of a window: at least one, at most what 16 bits hold. -/
def clampSize (n : Nat) : Nat := max 1 (min 65535 n)

/-- A rectangle that is not empty. -/
def atLeastOne (rect : Rect) : Rect :=
  { rect with width := max rect.width 1, height := max rect.height 1 }

/-- The packet that asks for all events of a root window. -/
def takeRoot (root : Window) : Packet :=
  .selectEvents root (structureRedirect ||| propertyChange ||| structureNotify)

/-- The packet that asks for all events of a root window but changes below it. -/
def quietRoot (root : Window) : Packet :=
  .selectEvents root (structureRedirect ||| propertyChange)

/-- The packets of a request, on a screen with this root window and depth. Unmapping goes
without a report of it; without a window, the root gets the focus. -/
def packets (root : Window) (depth : Nat) : Request → List Packet
  | .stackAbove window sibling => [.restack window sibling true]
  | .stackBelow window sibling => [.restack window sibling false]
  | .clientList windows => [.putWindows root clientListName windows]
  | .configure window rect => [.place window (atLeastOne rect)]
  | .map window => [.map window]
  | .unmap window => [quietRoot root, .unmap window, takeRoot root]
  | .watch window => [.selectEvents window propertyChange]
  | .focus window =>
    [.focus (window.getD root), .putWindows root activeWindowName [window.getD 0]]
  | .createFeedback rect color (some id) =>
    [.create id depth root (clampPosition rect.x.toInt) (clampPosition rect.y.toInt)
      (clampSize rect.width.toNat) (clampSize rect.height.toNat) color, .map id]
  | .createFeedback _ _ none => []
  | .destroy window => [.destroy window]
  | .readClass window => [.getProperty window classProperty "STRING"]
  | .readHints window => [.getProperty window hintsProperty hintsProperty]

end Tiling.X11
