/-!
# Topics

What subscribers can listen to: the status report and the kinds of change that are announced. A
set of topics is a word of one bit per topic, so a set of unknown topics does not exist.
-/

namespace Tiling

/-- The status report, or a kind of change. -/
inductive Topic where
  | report
  | monitorAdd
  | monitorRename
  | monitorRemove
  | monitorSwap
  | monitorFocus
  | monitorGeometry
  | desktopAdd
  | desktopRename
  | desktopRemove
  | desktopSwap
  | desktopTransfer
  | desktopFocus
  | desktopActivate
  | desktopLayout
  | nodeAdd
  | nodeRemove
  | nodeSwap
  | nodeTransfer
  | nodeFocus
  | nodeActivate
  | nodePresel
  | nodeStack
  | nodeGeometry
  | nodeState
  | nodeFlag
  | nodeLayer
  | pointerAction
  deriving DecidableEq, Repr

namespace Topic

/-- All topics in the order of their bits. -/
def all : List Topic :=
  [.report, .monitorAdd, .monitorRename, .monitorRemove, .monitorSwap, .monitorFocus,
    .monitorGeometry, .desktopAdd, .desktopRename, .desktopRemove, .desktopSwap, .desktopTransfer,
    .desktopFocus, .desktopActivate, .desktopLayout, .nodeAdd, .nodeRemove, .nodeSwap,
    .nodeTransfer, .nodeFocus, .nodeActivate, .nodePresel, .nodeStack, .nodeGeometry, .nodeState,
    .nodeFlag, .nodeLayer, .pointerAction]

def bit (t : Topic) : Nat := t.ctorIdx

def word : Topic → String
  | .report => "report"
  | .monitorAdd => "monitor_add"
  | .monitorRename => "monitor_rename"
  | .monitorRemove => "monitor_remove"
  | .monitorSwap => "monitor_swap"
  | .monitorFocus => "monitor_focus"
  | .monitorGeometry => "monitor_geometry"
  | .desktopAdd => "desktop_add"
  | .desktopRename => "desktop_rename"
  | .desktopRemove => "desktop_remove"
  | .desktopSwap => "desktop_swap"
  | .desktopTransfer => "desktop_transfer"
  | .desktopFocus => "desktop_focus"
  | .desktopActivate => "desktop_activate"
  | .desktopLayout => "desktop_layout"
  | .nodeAdd => "node_add"
  | .nodeRemove => "node_remove"
  | .nodeSwap => "node_swap"
  | .nodeTransfer => "node_transfer"
  | .nodeFocus => "node_focus"
  | .nodeActivate => "node_activate"
  | .nodePresel => "node_presel"
  | .nodeStack => "node_stack"
  | .nodeGeometry => "node_geometry"
  | .nodeState => "node_state"
  | .nodeFlag => "node_flag"
  | .nodeLayer => "node_layer"
  | .pointerAction => "pointer_action"

end Topic

/-- A set of topics. -/
abbrev Topics := BitVec 28

namespace Topics

def none : Topics := 0

def single (t : Topic) : Topics := BitVec.twoPow 28 t.bit

def ofList (ts : List Topic) : Topics := ts.foldl (fun set t => set ||| single t) none

/-- The known topics among the bits of a word. -/
def ofBits (bits : Nat) : Topics := BitVec.ofNat 28 bits

def all : Topics := BitVec.allOnes 28

def monitor : Topics :=
  ofList [.monitorAdd, .monitorRename, .monitorRemove, .monitorSwap, .monitorFocus,
    .monitorGeometry]

def desktop : Topics :=
  ofList [.desktopAdd, .desktopRename, .desktopRemove, .desktopSwap, .desktopTransfer,
    .desktopFocus, .desktopActivate, .desktopLayout]

/-- Changes of windows. -/
def node : Topics :=
  ofList [.nodeAdd, .nodeRemove, .nodeSwap, .nodeTransfer, .nodeFocus, .nodeActivate, .nodePresel,
    .nodeStack, .nodeGeometry, .nodeState, .nodeFlag, .nodeLayer]

def has (set : Topics) (t : Topic) : Bool := set.getLsbD t.bit

def meets (a b : Topics) : Bool := a &&& b != 0

def groups : List (String × Topics) :=
  [("all", all), ("monitor", monitor), ("desktop", desktop), ("node", node)]

/-- The topics that a word stands for: a group, or one topic. -/
def ofWord? (text : String) : Option Topics :=
  (groups.lookup text).or ((Topic.all.find? (·.word == text)).map single)

end Topics

end Tiling
