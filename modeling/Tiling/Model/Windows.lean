import Tiling.Model.Stage
import Tiling.Rules
import Tiling.Tree.Edit
/-!
# Operations on windows

Taking a window into the model, letting go of it, and changing its focus, state, layer, flags and
geometry. Every operation keeps the display and the subscribers up to date.
-/

namespace Tiling.Stage

/-- Gives a node the focus, showing its desktop if need be; without a node, clears the input
focus. -/
def focusNode (s : Stage) (n : Option NodeId) : Stage :=
  match n with
  | none => (s.request (.focus none)).publishReport
  | some n =>
    match s.model.locate? n with
    | none => s
    | some r =>
      let s := if s.model.focusedDesktop? = some r then s else s.showDesktop r
      let s := s.withModel (s.model.modifyDesktop r fun d => { d with focus := some n })
      let window := s.model.tree.window? n
      let s := (s.request (.focus window)).restack n true
      (s.announceAt .nodeFocus r [Numeral.hex8 (window.getD 0)]).publishReport

/-- A quarter of the area in its middle, where a window floats at first. -/
def centre (area : Rect) : Rect :=
  ⟨area.x + (area.width / 4).toInt32, area.y + (area.height / 4).toInt32, area.width / 2,
    area.height / 2⟩

def newClient (window : Window) (named : WindowClass) (csq : Consequences) (area : Rect) : Client :=
  { window := window
    className := named.className
    instanceName := named.instanceName
    state := csq.state.getD .tiled
    layer := csq.layer.getD .normal
    urgent := false
    floatingRect := centre area }

/-- Takes a preselection from a node and destroys its feedback window. -/
def takePresel (s : Stage) (n : NodeId) : Stage × Option Presel :=
  let presel := (s.model.tree.get? n).bind Node.presel
  let s := s.modifyTree fun t => t.modify n fun node => { node with presel := none }
  (match presel.bind Presel.feedback with
    | some feedback => s.request (.destroy feedback)
    | none => s, presel)

/-- The desktop for a new window: the one that is named, else the focused one. -/
def targetDesktop? (s : Stage) (csq : Consequences) : Option DesktopRef :=
  ((csq.desktop.bind s.model.findDesktop?).or s.model.focusedDesktop?).filter fun _ => csq.manage

/-- Puts a client into the tree of a desktop, beside its focused window. -/
def insertClient (s : Stage) (r : DesktopRef) (desktop : Desktop) (client : Client)
    (csq : Consequences) : Stage × NodeId :=
  let (s, presel) := match desktop.focus with
    | some n => s.takePresel n
    | none => (s, none)
  let newFirst := presel.any fun p => p.dir == .west || p.dir == .north
  let (tree, root, n) := s.model.tree.insertLeaf desktop.root desktop.focus client newFirst
  let tree := tree.modify n fun node => { node with flags := csq.flags }
  let model := { s.model with tree := tree }.modifyDesktop r fun d =>
    { d with root := root, focus := d.focus.or (some n) }
  (s.withModel model, n)

/-- Takes a window into the model as its consequences say. A window that is managed already is
left alone; one that is not to be managed is only shown. -/
def manage (s : Stage) (window : Window) (named : WindowClass) (csq : Consequences) :
    Stage × Option NodeId :=
  if (s.model.tree.findWindow? window).isSome then (s, none)
  else
    match s.targetDesktop? csq with
    | none => (s.request (.map window), none)
    | some r =>
      match s.model.monitor? r, s.model.desktop? r with
      | some monitor, some desktop =>
        let (s, n) := s.insertClient r desktop (newClient window named csq monitor.rect) csq
        let beside := (desktop.focus.bind s.model.tree.window?).getD 0
        let s := s.announceAt .nodeAdd r [Numeral.hex8 beside, Numeral.hex8 window]
        let s := (s.request (.watch window)).applyLayout r
        let s := if s.model.isVisible r then s.request (.map window) else s
        let s := s.restack n true
        let s := if csq.focus && s.model.focusedDesktop? == some r then s.focusNode (some n)
          else s.publishReport
        (s, some n)
      | _, _ => (s, none)

/-- Takes a leaf out of the stack and of the tree of its desktop; its focus goes to the last
leaf. -/
def removeClient (s : Stage) (r : DesktopRef) (desktop : Desktop) (n : NodeId) : Stage :=
  let stack := s.model.stack.remove s.model.tree n
  let (tree, root, _) := s.model.tree.removeLeaf desktop.root n
  let focus := if desktop.focus = some n then (tree.leaves root).getLast? else desktop.focus
  s.withModel ({ s.model with stack := stack, tree := tree }.modifyDesktop r fun d =>
    { d with root := root, focus := focus })

/-- Lets go of a window; says whether it was managed. -/
def unmanage (s : Stage) (window : Window) : Stage × Bool :=
  match s.model.tree.findWindow? window with
  | none => (s, false)
  | some n =>
    match s.model.locate? n with
    | none => (s, false)
    | some r =>
      let s := s.announceAt .nodeRemove r [Numeral.hex8 window]
      let s := match (s.model.tree.get? n).bind Node.feedback? with
        | some feedback => s.request (.destroy feedback)
        | none => s
      match s.model.desktop? r with
      | none => (s, false)
      | some desktop =>
        let s := (s.removeClient r desktop n).applyLayout r
        let s := s.request (.clientList (s.model.stack.windows s.model.tree))
        if desktop.focus = some n ∧ s.model.focusedDesktop? = some r then
          (s.focusNode (s.model.focus? r), true)
        else (s.publishReport, true)

def isDesktopFocus (s : Stage) (r : DesktopRef) (n : NodeId) : Bool := s.model.focus? r == some n

/-- A client that changes state; a tiled window begins to float where it is. -/
def changeState (rect : Rect) (state : ClientState) (c : Client) : Client :=
  { c with
    state := state
    floatingRect :=
      if state = .floating ∧ c.state.isTiled = true ∧ rect ≠ Rect.empty then rect
      else c.floatingRect }

def setState (s : Stage) (n : NodeId) (state : ClientState) : Stage :=
  match s.model.tree.get? n with
  | none => s
  | some node =>
    match node.client with
    | none => s
    | some client =>
      if client.state = state then s
      else
        let s := s.modifyTree fun t => t.modifyClient n (changeState node.rect state)
        match s.model.locate? n with
        | none => s
        | some r =>
          let window := Numeral.hex8 client.window
          let s := s.announceAt .nodeState r [window, client.state.word, onOff false]
          let s := s.announceAt .nodeState r [window, state.word, onOff true]
          let s := s.applyLayout r
          (s.restack n (s.isDesktopFocus r n)).publishReport

def setLayer (s : Stage) (n : NodeId) (layer : Layer) : Stage :=
  match s.model.tree.client? n with
  | none => s
  | some client =>
    if client.layer = layer then s
    else
      let s := s.modifyTree fun t => t.modifyClient n fun c => { c with layer := layer }
      match s.model.locate? n with
      | none => s
      | some r =>
        let s := s.announceAt .nodeLayer r [Numeral.hex8 client.window, layer.word]
        s.restack n (s.isDesktopFocus r n)

/-- Whether a flag of a node is set. -/
def flag (s : Stage) (n : NodeId) (flag : Flag) : Bool :=
  (s.model.tree.get? n).any fun node => node.flags.get flag

def setFlag (s : Stage) (n : NodeId) (flag : Flag) (value : Bool) : Stage :=
  match s.model.tree.get? n with
  | none => s
  | some node =>
    if node.flags.get flag = value then s
    else
      let s := s.modifyTree fun t =>
        t.modify n fun node => { node with flags := node.flags.set flag value }
      match s.model.locate? n with
      | none => s
      | some r =>
        let window := ((node.client.map Client.window).getD 0)
        (s.announceAt .nodeFlag r [Numeral.hex8 window, flag.word, onOff value]).publishReport

/-- Asks for a window that shows a preselection. -/
def createFeedback (s : Stage) (rect : Rect) : Stage × Option Window :=
  let (granted, ids) := s.feedbackIds.next
  (({ s with feedbackIds := ids } : Stage).request
    (.createFeedback rect s.settings.feedbackPixel granted), granted)

/-- Preselects where the next window goes, shown if the desktop is. -/
def choosePresel (s : Stage) (r : DesktopRef) (n : NodeId) (rect : Rect) (dir : Direction) :
    Stage :=
  let (s, feedback) :=
    if s.model.isVisible r then s.createFeedback (rect.half dir) else (s, none)
  s.modifyTree fun t => t.modify n fun node => { node with presel := some ⟨dir, feedback⟩ }

/-- Preselects where the next window goes, or takes the preselection back. -/
def presel (s : Stage) (n : NodeId) (dir : Option Direction) : Stage :=
  match s.model.locate? n, s.model.tree.get? n with
  | some r, some node =>
    let (s, _) := s.takePresel n
    let (s, change) := match dir with
      | some dir => (s.choosePresel r n node.rect dir, ["dir", dir.word])
      | none => (s, ["cancel"])
    let window := (node.client.map Client.window).getD 0
    (s.announceAt .nodePresel r (Numeral.hex8 window :: change)).raiseFeedback r
  | _, _ => s

/-- Answers a window that asks for a geometry: floating and unmanaged windows get it, the others
are put back in place. -/
def configure (s : Stage) (window : Window) (rect : Rect) : Stage :=
  match s.model.tree.findWindow? window with
  | none => s.request (.configure window rect)
  | some n =>
    match s.model.tree.get? n with
    | none => s
    | some node =>
      match node.client.map Client.state with
      | none => s
      | some .floating =>
        (s.modifyTree fun t => t.modifyClient n fun c => { c with floatingRect := rect }).request
          (.configure window rect)
      | some .fullscreen =>
        let area := ((s.model.locate? n).bind s.model.monitor?).map Monitor.rect
        s.request (.configure window (area.getD Rect.empty))
      | some .tiled | some .pseudoTiled => s.request (.configure window node.rect)

/-- Notes whether a window asks for attention. -/
def setUrgency (s : Stage) (window : Window) (urgent : Bool) : Stage :=
  match s.model.tree.findWindow? window with
  | none => s
  | some n =>
    match s.model.tree.client? n with
    | none => s
    | some client =>
      if client.urgent = urgent then s
      else
        (s.modifyTree fun t => t.modifyClient n fun c => { c with urgent := urgent }).publishReport

end Tiling.Stage
