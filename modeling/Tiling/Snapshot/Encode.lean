import Tiling.Json.Printer
import Tiling.Snapshot.Basic
/-!
# Writing snapshots

The document of a snapshot: an object per structure with its fields in a fixed order, words for
the enumerations, null for what is absent. Free slots are listed in the order in which they were
released.
-/

namespace Tiling.Snapshot

open Json (Value)

def encodeNat (n : Nat) : Value := .number (toString n)

def encodeInt (n : Int) : Value := .number (Numeral.decimal n)

/-- A value, or null. -/
def encodeOption {α : Type} (encode : α → Value) : Option α → Value
  | none => .null
  | some a => encode a

def encodeList {α : Type} (encode : α → Value) (items : List α) : Value :=
  .array (items.map encode)

def encodeNodeId (n : NodeId) : Value := encodeNat n.index

def encodeWord (w : UInt32) : Value := encodeNat w.toNat

def encodeRect (r : Rect) : Value :=
  .object [("x", encodeInt r.x.toInt), ("y", encodeInt r.y.toInt),
    ("width", encodeWord r.width), ("height", encodeWord r.height)]

def encodeDesktop (d : Desktop) : Value :=
  .object [("id", encodeWord d.id), ("name", .string d.name), ("layout", .string d.layout.word),
    ("root", encodeOption encodeNodeId d.root), ("focus", encodeOption encodeNodeId d.focus)]

def encodeMonitor (m : Monitor) : Value :=
  .object [("id", encodeWord m.id), ("name", .string m.name), ("rectangle", encodeRect m.rect),
    ("desktops", encodeList encodeDesktop m.desktops), ("active", encodeOption encodeNat m.active)]

def encodeClient (c : Client) : Value :=
  .object [("window", encodeWord c.window), ("class_name", .string c.className),
    ("instance_name", .string c.instanceName), ("state", .string c.state.word),
    ("layer", .string c.layer.word), ("urgent", .bool c.urgent),
    ("floating_rectangle", encodeRect c.floatingRect)]

def encodePresel (p : Presel) : Value :=
  .object [("dir", .string p.dir.word), ("feedback", encodeOption encodeWord p.feedback)]

def encodeNode (n : Node) : Value :=
  .object [("parent", encodeOption encodeNodeId n.parent),
    ("first_child", encodeOption encodeNodeId n.firstChild),
    ("second_child", encodeOption encodeNodeId n.secondChild),
    ("rectangle", encodeRect n.rect), ("client", encodeOption encodeClient n.client),
    ("presel", encodeOption encodePresel n.presel), ("sticky", .bool n.flags.sticky),
    ("private", .bool n.flags.exclusive), ("locked", .bool n.flags.locked),
    ("marked", .bool n.flags.marked)]

def encodeTree (t : Tree) : Value :=
  .object [("nodes", encodeList (encodeOption encodeNode) t.nodes.cells.toList),
    ("free", encodeList encodeNat t.nodes.free.reverse)]

def encodeRecord (r : SubscriberRecord) : Value :=
  .object [("fd", encodeInt r.descriptor.toInt), ("fifo_path", encodeOption .string r.fifo),
    ("mask", encodeWord r.topics), ("count", encodeInt r.budget.toInt)]

def encode (s : Snapshot) : Value :=
  .object [("monitors", encodeList encodeMonitor s.monitors),
    ("focused_monitor", encodeNat s.focusedMonitor), ("next_id", encodeWord s.nextId),
    ("tree", encodeTree s.tree), ("stack", encodeList encodeNodeId s.stack),
    ("subscribers", encodeList encodeRecord s.subscribers)]

def render (s : Snapshot) : String := s.encode.render

end Tiling.Snapshot
