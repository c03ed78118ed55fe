import Tiling.Json.Value
import Tiling.Snapshot.Basic
/-!
# Reading snapshots

A structure is read from an object, in which unknown members are passed over and none of its
fields may stand twice, or from an array of all its fields in order. What may be absent may be
null or missing. Integers have neither fraction nor exponent and lie within their range.
-/

namespace Tiling.Snapshot

open Json (Value)

/-- The values of some fields; a missing one is `none`. -/
def fields? (keys : List String) : Value → Option (List (Option Value))
  | .array items => if items.length = keys.length then some (items.map some) else none
  | .object members =>
    let known := (members.map Prod.fst).filter keys.contains
    if known.Nodup then some (keys.map fun key => List.lookup key members) else none
  | _ => none

/-- Reads a field that may be absent. -/
def optional {α : Type} (decode : Value → Option α) : Option Value → Option (Option α)
  | none => some none
  | some .null => some none
  | some v => (decode v).map some

/-- Reads a natural number of at most `bound`. -/
def decodeNat (bound : Nat) : Value → Option Nat
  | .number spelling => (Numeral.readNat 10 bound spelling.toList).toOption
  | _ => none

/-- Reads a signed 32-bit word. A zero with a sign is no integer. -/
def decodeInt32 : Value → Option Int32
  | .number spelling => if spelling = "-0" then none else Numeral.int32? spelling
  | _ => none

def decodeWord (v : Value) : Option UInt32 := (decodeNat (UInt32.size - 1) v).map UInt32.ofNat

def decodeIndex (v : Value) : Option Nat := decodeNat (UInt64.size - 1) v

def decodeNodeId (v : Value) : Option NodeId := (decodeIndex v).map NodeId.mk

def decodeBool : Value → Option Bool
  | .bool b => some b
  | _ => none

def decodeText : Value → Option String
  | .string text => some text
  | _ => none

/-- Reads a word of an enumeration, alone or as the only key of an object with the value null. -/
def decodeChoice {α : Type} (ofWord? : String → Option α) : Value → Option α
  | .string word => ofWord? word
  | .object [(word, .null)] => ofWord? word
  | _ => none

/-- Reads the items of an array. -/
def decodeList {α : Type} (decode : Value → Option α) : Value → Option (List α)
  | .array items => items.mapM decode
  | _ => none

def decodeRect (v : Value) : Option Rect := do
  let [x, y, width, height] ← fields? ["x", "y", "width", "height"] v | none
  return ⟨← x.bind decodeInt32, ← y.bind decodeInt32, ← width.bind decodeWord,
    ← height.bind decodeWord⟩

def decodeDesktop (v : Value) : Option Desktop := do
  let [id, name, layout, root, focus] ← fields? ["id", "name", "layout", "root", "focus"] v | none
  return ⟨← id.bind decodeWord, ← name.bind decodeText,
    ← layout.bind (decodeChoice Layout.ofWord?),
    ← optional decodeNodeId root, ← optional decodeNodeId focus⟩

def decodeMonitor (v : Value) : Option Monitor := do
  let [id, name, rect, desktops, active] ←
    fields? ["id", "name", "rectangle", "desktops", "active"] v | none
  return ⟨← id.bind decodeWord, ← name.bind decodeText, ← rect.bind decodeRect,
    ← desktops.bind (decodeList decodeDesktop), ← optional decodeIndex active⟩

def decodeClient (v : Value) : Option Client := do
  let [window, className, instanceName, state, layer, urgent, rect] ←
    fields? ["window", "class_name", "instance_name", "state", "layer", "urgent",
      "floating_rectangle"] v | none
  return ⟨← window.bind decodeWord, ← className.bind decodeText,
    ← instanceName.bind decodeText,
    ← state.bind (decodeChoice ClientState.ofWord?), ← layer.bind (decodeChoice Layer.ofWord?),
    ← urgent.bind decodeBool, ← rect.bind decodeRect⟩

def decodePresel (v : Value) : Option Presel := do
  let [dir, feedback] ← fields? ["dir", "feedback"] v | none
  return ⟨← dir.bind (decodeChoice Direction.ofWord?), ← optional decodeWord feedback⟩

def decodeNode (v : Value) : Option Node := do
  let [parent, first, second, rect, client, presel, sticky, exclusive, locked, marked] ←
    fields? ["parent", "first_child", "second_child", "rectangle", "client", "presel", "sticky",
      "private", "locked", "marked"] v | none
  return ⟨← optional decodeNodeId parent, ← optional decodeNodeId first,
    ← optional decodeNodeId second, ← rect.bind decodeRect, ← optional decodeClient client,
    ← optional decodePresel presel,
    ⟨← sticky.bind decodeBool, ← exclusive.bind decodeBool, ← locked.bind decodeBool,
      ← marked.bind decodeBool⟩⟩

/-- Reads the nodes of all trees. -/
def decodeTree (v : Value) : Option Tree := do
  let [nodes, free] ← fields? ["nodes", "free"] v | none
  let cells ← nodes.bind (decodeList fun v => optional decodeNode (some v))
  let free ← free.bind (decodeList decodeIndex)
  return ⟨⟨cells.toArray, free.reverse⟩⟩

def decodeRecord (v : Value) : Option SubscriberRecord := do
  let [descriptor, fifo, topics, budget] ← fields? ["fd", "fifo_path", "mask", "count"] v | none
  return ⟨← descriptor.bind decodeInt32, ← optional decodeText fifo,
    ← topics.bind decodeWord, ← budget.bind decodeInt32⟩

def decode (v : Value) : Option Snapshot := do
  let [monitors, focusedMonitor, nextId, tree, stack, subscribers] ←
    fields? ["monitors", "focused_monitor", "next_id", "tree", "stack", "subscribers"] v | none
  return ⟨← monitors.bind (decodeList decodeMonitor), ← focusedMonitor.bind decodeIndex,
    ← nextId.bind decodeWord, ← tree.bind decodeTree, ← stack.bind (decodeList decodeNodeId),
    ← subscribers.bind (decodeList decodeRecord)⟩

def ofText? (text : String) : Option Snapshot := (Value.ofText? text).bind decode

end Tiling.Snapshot
