import Tiling.Monitor
import Tiling.Stack.Basic
/-!
# Window model

Monitors with their desktops, the trees of all desktops, and the stack. This module holds the
look-ups: which desktop a node is on, what has the focus, what can be seen.
-/

namespace Tiling

/-- All that is known about monitors, desktops and windows. -/
structure Model where
  monitors : List Monitor
  /-- Position of the monitor that has the focus. -/
  focusedMonitor : Nat
  tree : Tree
  stack : Stack
  /-- Identifier of the next monitor or desktop. -/
  nextId : UInt32
  deriving DecidableEq, Repr

namespace Model

/-- The first identifier of a monitor. -/
def firstId : UInt32 := 0x00200001

/-- A monitor with empty desktops, numbered from `id` on. -/
def freshMonitor (id : UInt32) (name : String) (rect : Rect) (desktopNames : List String) :
    Monitor :=
  let desktops : List Desktop := desktopNames.mapIdx fun i name =>
    ⟨id + 1 + UInt32.ofNat i, name, .tiled, none, none⟩
  ⟨id, name, rect, desktops, if desktops.isEmpty then none else some 0⟩

def addMonitor (desktopNames : List String) (m : Model) (output : String × Rect) : Model :=
  { m with
    monitors := m.monitors ++ [freshMonitor m.nextId output.1 output.2 desktopNames]
    nextId := m.nextId + 1 + UInt32.ofNat desktopNames.length }

/-- A model without windows: one monitor per output, each with the named desktops. -/
def fresh (outputs : List (String × Rect)) (desktopNames : List String) : Model :=
  outputs.foldl (addMonitor desktopNames) ⟨[], 0, Tree.empty, Stack.empty, firstId⟩

def monitor? (m : Model) (r : DesktopRef) : Option Monitor := m.monitors[r.monitor]?

def desktop? (m : Model) (r : DesktopRef) : Option Desktop :=
  (m.monitor? r).bind fun monitor => monitor.desktops[r.desktop]?

def root? (m : Model) (r : DesktopRef) : Option NodeId := (m.desktop? r).bind Desktop.root

def focus? (m : Model) (r : DesktopRef) : Option NodeId := (m.desktop? r).bind Desktop.focus

/-- Identifiers of the monitor and of the desktop at a position. -/
def ids (m : Model) (r : DesktopRef) : UInt32 × UInt32 :=
  (((m.monitor? r).map Monitor.id).getD 0, ((m.desktop? r).map Desktop.id).getD 0)

/-- Changes the desktop at a position. -/
def modifyDesktop (m : Model) (r : DesktopRef) (f : Desktop → Desktop) : Model :=
  { m with monitors := m.monitors.modify r.monitor fun monitor =>
      { monitor with desktops := monitor.desktops.modify r.desktop f } }

/-- Makes a desktop the shown one of its monitor. -/
def activate (m : Model) (r : DesktopRef) : Model :=
  { m with monitors := m.monitors.modify r.monitor fun monitor =>
      { monitor with active := some r.desktop } }

/-- The shown desktop of the focused monitor. -/
def focusedDesktop? (m : Model) : Option DesktopRef :=
  (m.monitors[m.focusedMonitor]?.bind Monitor.active).map fun i => ⟨m.focusedMonitor, i⟩

def focusedNode? (m : Model) : Option NodeId := m.focusedDesktop?.bind m.focus?

/-- The first desktop that satisfies `p`, monitor by monitor from position `i` on. -/
def findDesktopFrom (p : Desktop → Bool) : Nat → List Monitor → Option DesktopRef
  | _, [] => none
  | i, monitor :: rest =>
    match monitor.desktops.findIdx? p with
    | some j => some ⟨i, j⟩
    | none => findDesktopFrom p (i + 1) rest

def findDesktop? (m : Model) (name : String) : Option DesktopRef :=
  findDesktopFrom (·.name == name) 0 m.monitors

/-- The desktop whose tree holds a node. -/
def locate? (m : Model) (n : NodeId) : Option DesktopRef :=
  (m.tree.rootOf n).bind fun root => findDesktopFrom (·.root == some root) 0 m.monitors

/-- The desktop is the shown one of its monitor. -/
def isVisible (m : Model) (r : DesktopRef) : Bool :=
  (m.monitor? r).any (·.active == some r.desktop)

/-- The windows of a desktop from left to right. -/
def clientsOf (m : Model) (d : Desktop) : List Client :=
  (m.tree.leaves d.root).filterMap m.tree.client?

/-- A window of the desktop asks for attention. -/
def isUrgent (m : Model) (d : Desktop) : Bool := (m.clientsOf d).any Client.urgent

/-- Every desktop, monitor by monitor. -/
def desktops (m : Model) : List Desktop := m.monitors.flatMap Monitor.desktops

end Model

end Tiling
