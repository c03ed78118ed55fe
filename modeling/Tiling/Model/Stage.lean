import Tiling.Display
import Tiling.Model.Report
import Tiling.Settings
import Tiling.Stack.Restack
/-!
# Stage

The model together with what its operations need, the settings and the supply of feedback
windows, and with what they leave behind, the effects. An operation is a function on stages; its
requests and messages go to the front of the history, so the latest one comes first.
-/

namespace Tiling

/-- A model in use. -/
structure Stage where
  model : Model
  settings : Settings
  feedbackIds : FeedbackIds
  /-- Effects so far, the latest first. -/
  history : List Effect

namespace Stage

/-- Effects in the order in which they happened. -/
def effects (s : Stage) : List Effect := s.history.reverse

def withModel (s : Stage) (m : Model) : Stage := { s with model := m }

def modifyTree (s : Stage) (f : Tree → Tree) : Stage :=
  s.withModel { s.model with tree := f s.model.tree }

def emit (s : Stage) (effects : List Effect) : Stage :=
  { s with history := effects.reverse ++ s.history }

def request (s : Stage) (r : Request) : Stage := s.emit [.request r]

/-- Asks the display for each of some things. -/
def requests (s : Stage) (rs : List Request) : Stage := s.emit (rs.map Effect.request)

/-- Announces a change: its topic, whose word starts the line, and the words after it. -/
def announce (s : Stage) (topic : Topic) (words : List String) : Stage :=
  s.emit [.message ⟨.single topic, " ".intercalate (topic.word :: words) ++ "\n"⟩]

/-- The words that name a desktop in announcements. -/
def place (s : Stage) (r : DesktopRef) : List String :=
  let (monitor, desktop) := s.model.ids r
  [Numeral.hex8 monitor, Numeral.hex8 desktop]

def announceAt (s : Stage) (topic : Topic) (r : DesktopRef) (words : List String) : Stage :=
  s.announce topic (s.place r ++ words)

def publishReport (s : Stage) : Stage :=
  s.emit [.message ⟨.single .report, s.model.report s.settings.statusPrefix⟩]

/-- Places the windows under a node in the stack. -/
def restack (s : Stage) (n : NodeId) (promote : Bool) : Stage :=
  let root := (s.model.locate? n).bind s.model.root?
  let (stack, effects) :=
    s.model.stack.restack s.model.tree root n promote s.settings.autoRaise
  (s.withModel { s.model with stack := stack }).emit effects

/-- Brings the feedback windows of a desktop above the topmost tiled window. -/
def raiseFeedback (s : Stage) (r : DesktopRef) : Stage :=
  s.emit (s.model.stack.raiseFeedback s.model.tree (s.model.root? r))

/-- Where a window that the layout does not place is put. -/
def freeRect? (area : Rect) (c : Client) : Option Rect :=
  match c.state with
  | .floating => some c.floatingRect
  | .fullscreen => some area
  | .tiled | .pseudoTiled => none

/-- Sends every window of a desktop to its place: first the tiled ones, then the others. -/
def applyLayout (s : Stage) (r : DesktopRef) : Stage :=
  match s.model.monitor? r, s.model.desktop? r with
  | some monitor, some desktop =>
    let (tree, placed) := s.model.tree.arrange desktop.root monitor.rect desktop.layout
    let free := ((tree.leaves desktop.root).filterMap tree.client?).filterMap fun c =>
      (freeRect? monitor.rect c).map (c.window, ·)
    (s.withModel { s.model with tree := tree }).requests
      ((placed ++ free).map fun (window, rect) => .configure window rect)
  | _, _ => s

/-- Maps or unmaps every window of a desktop. -/
def setMapped (s : Stage) (r : DesktopRef) (mapped : Bool) : Stage :=
  match s.model.desktop? r with
  | none => s
  | some desktop =>
    s.requests ((s.model.clientsOf desktop).map fun c =>
      if mapped then .map c.window else .unmap c.window)

/-- Shows a desktop in place of the one that its monitor shows. -/
def switchTo (s : Stage) (r : DesktopRef) (shown : Option Nat) : Stage :=
  let s := match shown with
    | some old => s.setMapped ⟨r.monitor, old⟩ false
    | none => s
  ((s.withModel (s.model.activate r)).setMapped r true).announceAt .desktopActivate r []

/-- Shows a desktop and gives its monitor the focus. -/
def showDesktop (s : Stage) (r : DesktopRef) : Stage :=
  match s.model.monitor? r with
  | none => s
  | some monitor =>
    let s := if monitor.active = some r.desktop then s else s.switchTo r monitor.active
    let s :=
      if s.model.focusedMonitor = r.monitor then s
      else (s.withModel { s.model with focusedMonitor := r.monitor }).announce .monitorFocus
        [Numeral.hex8 monitor.id]
    s.announceAt .desktopFocus r []

/-- Shows a desktop and gives the input focus to its focused window. -/
def focusDesktop (s : Stage) (r : DesktopRef) : Stage :=
  let s := s.showDesktop r
  (s.request (.focus ((s.model.focus? r).bind s.model.tree.window?))).publishReport

def setLayout (s : Stage) (r : DesktopRef) (layout : Layout) : Stage :=
  match s.model.desktop? r with
  | none => s
  | some desktop =>
    if desktop.layout = layout then s
    else
      let s := s.withModel (s.model.modifyDesktop r fun d => { d with layout := layout })
      ((s.announceAt .desktopLayout r [layout.word]).applyLayout r).publishReport

end Stage

end Tiling
