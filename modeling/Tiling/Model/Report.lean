import Tiling.Model.Basic
/-!
# Report

The status report is one line: per monitor its name, its desktops and the layout of the shown
one, with the focused node's state and flags. Upper case marks what has the focus or is shown.
-/

namespace Tiling.Model

/-- The letter for a desktop: urgent, free or occupied; upper case when it is shown. -/
def occupancyLetter (m : Model) (d : Desktop) (shown : Bool) : Char :=
  let letter := if m.isUrgent d then 'u' else if d.root.isNone then 'f' else 'o'
  if shown then letter.toUpper else letter

/-- The part on the focused node. -/
def nodeReport (node : Node) : String :=
  ":T" ++ String.singleton ((node.client.map (·.state.letter)).getD '@') ++ ":G" ++
    node.flags.letters

/-- The part on the shown desktop. -/
def activeReport (m : Model) (d : Desktop) : String :=
  ":L" ++ String.singleton d.layout.letter ++
    (((d.focus.bind m.tree.get?).map nodeReport).getD "")

def monitorReport (m : Model) (i : Nat) (monitor : Monitor) : String :=
  (if i = m.focusedMonitor then "M" else "m") ++ monitor.name ++
    String.join (monitor.desktops.mapIdx fun j d =>
      ":" ++ String.singleton (m.occupancyLetter d (monitor.active == some j)) ++ d.name) ++
    ((monitor.activeDesktop?.map m.activeReport).getD "")

def report (m : Model) (start : String) : String :=
  start ++ ":".intercalate (m.monitors.mapIdx m.monitorReport) ++ "\n"

def lines (texts : List String) : String := String.join (texts.map (· ++ "\n"))

def listMonitors (m : Model) : String := lines (m.monitors.map Monitor.name)

def listDesktops (m : Model) : String := lines (m.desktops.map Desktop.name)

/-- Managed windows, desktop by desktop. -/
def listNodes (m : Model) : String :=
  lines ((m.desktops.flatMap m.clientsOf).map fun c => Numeral.hex8 c.window)

/-- Stacked windows, bottom first. -/
def listStack (m : Model) : String := lines ((m.stack.windows m.tree).map Numeral.hex8)

end Tiling.Model
