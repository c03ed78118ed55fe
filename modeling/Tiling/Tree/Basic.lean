import Tiling.Client
import Tiling.Slots
/-!
# Window tree

Nodes of binary trees in a slot store. Leaves hold clients; an inner node splits its rectangle
between two children. Nodes name each other by index, upwards and downwards, and one store holds
the trees of all desktops.
-/

namespace Tiling

/-- Index of a node. -/
structure NodeId where
  index : Nat
  deriving DecidableEq, Repr, Inhabited

/-- The form in which a node is named. -/
def NodeId.render (n : NodeId) : String := "#" ++ toString n.index

/-- Where the next window goes beside a leaf, with the window that shows it, if there is one. -/
structure Presel where
  dir : Direction
  feedback : Option Window
  deriving DecidableEq, Repr

/-- A leaf or an inner node. -/
structure Node where
  parent : Option NodeId
  firstChild : Option NodeId
  secondChild : Option NodeId
  rect : Rect
  client : Option Client
  presel : Option Presel
  flags : Flags
  deriving DecidableEq, Repr

namespace Node

/-- A node without links and contents. -/
def blank : Node := ⟨none, none, none, Rect.empty, none, none, Flags.none⟩

/-- A leaf that is not linked yet. -/
def leaf (client : Client) : Node := { blank with client := some client }

/-- An inner node over two children. -/
def inner (parent : Option NodeId) (first second : NodeId) : Node :=
  { blank with parent := parent, firstChild := some first, secondChild := some second }

def isLeaf (n : Node) : Bool := n.firstChild.isNone && n.secondChild.isNone

def feedback? (n : Node) : Option Window := n.presel.bind Presel.feedback

end Node

/-- The nodes of all trees. -/
structure Tree where
  nodes : Slots Node
  deriving DecidableEq, Repr

namespace Tree

def empty : Tree := ⟨Slots.empty⟩

/-- The node of an index, if there is one. -/
def get? (t : Tree) (n : NodeId) : Option Node := t.nodes.get? n.index

def size (t : Tree) : Nat := t.nodes.size

def client? (t : Tree) (n : NodeId) : Option Client := (t.get? n).bind Node.client

def window? (t : Tree) (n : NodeId) : Option Window := (t.client? n).map Client.window

/-- Stacking level of a node; zero without a client. -/
def level (t : Tree) (n : NodeId) : Nat := ((t.client? n).map Client.level).getD 0

def parent? (t : Tree) (n : NodeId) : Option NodeId := (t.get? n).bind Node.parent

/-- Changes a node; without one, nothing. -/
def modify (t : Tree) (n : NodeId) (f : Node → Node) : Tree := ⟨t.nodes.modify n.index f⟩

/-- Changes the client in a node; without one, nothing. -/
def modifyClient (t : Tree) (n : NodeId) (f : Client → Client) : Tree :=
  t.modify n fun node => { node with client := node.client.map f }

def alloc (t : Tree) (node : Node) : Tree × NodeId :=
  let (nodes, index) := t.nodes.alloc node
  (⟨nodes⟩, ⟨index⟩)

/-- Gives up the slot of a node. -/
def release (t : Tree) (n : NodeId) : Tree := ⟨t.nodes.release n.index⟩

/-- The leaf that holds a window, on any desktop. -/
def findWindow? (t : Tree) (window : Window) : Option NodeId :=
  (t.nodes.findIdx? fun node => node.client.any (·.window == window)).map NodeId.mk

theorem get?_modify_same {t : Tree} {n : NodeId} {node : Node} (f : Node → Node)
    (h : t.get? n = some node) : (t.modify n f).get? n = some (f node) :=
  Slots.get?_modify_same f h

theorem get?_modify_other (t : Tree) {n m : NodeId} (f : Node → Node) (h : n ≠ m) :
    (t.modify n f).get? m = t.get? m :=
  Slots.get?_modify_other t.nodes f fun e => h (congrArg NodeId.mk e)

theorem get?_release_same (t : Tree) (n : NodeId) : (t.release n).get? n = none :=
  Slots.get?_release_same t.nodes n.index

theorem get?_release_other (t : Tree) {n m : NodeId} (h : n ≠ m) :
    (t.release n).get? m = t.get? m :=
  Slots.get?_release_other t.nodes fun e => h (congrArg NodeId.mk e)

end Tree

end Tiling
