import Tiling.X11.Packet
import Tiling.X11.Property
/-!
# Servers and connections

What an X11 server answers, and a connection to it by the one program that manages its windows.
Requests never fail at once: a connection that is lost is found out by the next attempt to use
it, and from then on nothing arrives and every question has its default answer.
-/

namespace Tiling.X11

/-- A screen with its root window. -/
structure Root where
  window : Window
  width : Nat
  height : Nat
  depth : Nat
  deriving DecidableEq, Repr

/-- A server. -/
structure Server where
  roots : List Root
  /-- The first identifier for windows of the program, and the bits that may vary. -/
  idBase : UInt32
  idMask : UInt32
  refuses : Bool
  /-- Another program manages the windows. -/
  isTaken : Bool
  /-- Names of properties can be made known. -/
  hasAtoms : Bool
  /-- Windows about which every request fails. -/
  badWindows : List Window
  properties : List ((Window × String) × Property)
  deriving DecidableEq, Repr

namespace Server

/-- The property of a window, if the server hands it out. -/
def property? (s : Server) (window : Window) (name : String) : Option Property :=
  if s.badWindows.contains window then none else s.properties.lookup (window, name)

def setProperty (s : Server) (window : Window) (name : String) (p : Property) : Server :=
  { s with properties := ((window, name), p) :: s.properties.filter (·.1 != (window, name)) }

def classOf (s : Server) (window : Window) : WindowClass :=
  ((s.property? window classProperty).bind Property.windowClass?).getD .unknown

def isUrgent (s : Server) (window : Window) : Bool :=
  (s.property? window hintsProperty).any Property.isUrgent

def lowestBit (n : Nat) : Nat :=
  if n = 0 then 0 else Nat.pow 2 (((List.range 32).find? n.testBit).getD 0)

/-- The identifiers that the server grants, in steps of the lowest bit that may vary. -/
def ids (s : Server) : FeedbackIds :=
  let step := lowestBit s.idMask.toNat
  .counting s.idBase.toNat step (((s.idBase ||| s.idMask).toNat - s.idBase.toNat) / step + 1)

end Server

/-- Why there is no connection. -/
inductive ConnectError where
  | unreachable
  | taken
  | noAtoms
  deriving DecidableEq, Repr

/-- The wording of an error; the last one has none of its own. -/
def ConnectError.message? : ConnectError → Option String
  | .unreachable => some "Failed to connect to X server"
  | .taken => some "Another window manager is already running"
  | .noAtoms => none

/-- A connection. -/
structure Connection where
  server : Server
  root : Root
  ids : FeedbackIds
  /-- The server is there. -/
  isOpen : Bool
  /-- The loss of the server was noticed. -/
  isBroken : Bool

/-- Connects to a screen, with the packets that reach the server. -/
def connect (server : Server) (screen : Nat) : List Packet × Except ConnectError Connection :=
  match server.roots[screen]? with
  | none => ([], .error .unreachable)
  | some root =>
    let names := [Packet.internAtom clientListName, .internAtom activeWindowName]
    if server.refuses ∨ server.idMask = 0 then ([], .error .unreachable)
    else if server.isTaken ∨ server.badWindows.contains root.window then
      ([takeRoot root.window], .error .taken)
    else if !server.hasAtoms then (takeRoot root.window :: names.take 1, .error .noAtoms)
    else (takeRoot root.window :: names, .ok ⟨server, root, server.ids, true, false⟩)

namespace Connection

def outputs (c : Connection) : List (String × Rect) :=
  [("screen0", ⟨0, 0, UInt32.ofNat c.root.width, UInt32.ofNat c.root.height⟩)]

def packets (c : Connection) (r : Request) : List Packet :=
  X11.packets c.root.window c.root.depth r

/-- Sends packets; hands back those that arrive. -/
def send (c : Connection) (ps : List Packet) : Connection × List Packet :=
  if c.isOpen then (c, ps) else ({ c with isBroken := c.isBroken || !ps.isEmpty }, [])

def request (c : Connection) (r : Request) : Connection × List Packet := c.send (c.packets r)

/-- Makes a feedback window if there is an identifier for it. The first time there is none, the
server is asked for more. -/
def createFeedback (c : Connection) (rect : Rect) (color : UInt32) :
    Option Window × Connection × List Packet :=
  let (granted, ids) := c.ids.next
  let c := { c with ids := ids }
  match granted with
  | some id => (some id, c.request (.createFeedback rect color (some id)))
  | none =>
    let isFirst := ids.asked = 1 ∨ (ids.answer (ids.asked - 2)).isSome
    (none, { c with isBroken := c.isBroken || (!c.isOpen && decide isFirst) }, [])

def classOf (c : Connection) (window : Window) : WindowClass :=
  if c.isOpen then c.server.classOf window else .unknown

def isUrgent (c : Connection) (window : Window) : Bool := c.isOpen && c.server.isUrgent window

/-- What the program learns from the server while it handles events. -/
def screen (c : Connection) : Screen := ⟨c.classOf, c.isUrgent⟩

def lose (c : Connection) : Connection := { c with isOpen := false }

/-- Looks for events, which finds a loss. -/
def poll (c : Connection) : Connection := { c with isBroken := c.isBroken || !c.isOpen }

end Connection

/-- An event of the server. -/
inductive Event where
  | mapRequest (window : Window) (sequence : UInt16)
  | unmapNotify (window : Window)
  | destroyNotify (window : Window)
  | configureRequest (window : Window) (rect : Rect)
  | propertyNotify (window : Window) (property : String)
  /-- Anything else, errors included. -/
  | other
  deriving DecidableEq, Repr

/-- What an event means to the program, if anything. -/
def Event.display? : Event → Option DisplayEvent
  | .mapRequest window sequence => some (.mapRequest window sequence)
  | .unmapNotify window => some (.unmapped window)
  | .destroyNotify window => some (.destroyed window)
  | .configureRequest window rect => some (.configureRequest window rect)
  | .propertyNotify window property =>
    if property = hintsProperty then some (.hintsChanged window) else none
  | .other => none

end Tiling.X11
