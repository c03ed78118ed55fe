import Tiling.Tree.Walk
/-!
# Stack

The stacking order as a doubly linked list of tree leaves in a slot store, bottom first. Entries
are named by slots, so an anchor taken earlier may be stale: its entry gone, or its slot taken
by another one. A leaf has at most one entry; placing it anew removes the old entry first.
-/

namespace Tiling

/-- Slot of an entry. -/
structure EntryId where
  index : Nat
  deriving DecidableEq, Repr, Inhabited

/-- A leaf between its neighbours. -/
structure Entry where
  node : NodeId
  prev : Option EntryId
  next : Option EntryId
  deriving DecidableEq, Repr

/-- The entries with the bottom and the front of the list. -/
structure Stack where
  entries : Slots Entry
  head : Option EntryId
  tail : Option EntryId
  deriving DecidableEq, Repr

namespace Stack

def empty : Stack := ⟨Slots.empty, none, none⟩

def entry? (s : Stack) (id : EntryId) : Option Entry := s.entries.get? id.index

def node? (s : Stack) (id : EntryId) : Option NodeId := (s.entry? id).map Entry.node

def isEmpty (s : Stack) : Bool := s.head.isNone

/-- Follows links for at most `fuel` entries. -/
def follow (s : Stack) (link : Entry → Option EntryId) : Nat → Option EntryId → List EntryId
  | 0, _ => []
  | _, none => []
  | fuel + 1, some id => id :: follow s link fuel ((s.entry? id).bind link)

/-- Slots from the bottom to the front. -/
def upward (s : Stack) : List EntryId := s.follow Entry.next (s.entries.size + 1) s.head

/-- Slots from the front to the bottom. -/
def downward (s : Stack) : List EntryId := s.follow Entry.prev (s.entries.size + 1) s.tail

/-- Leaves from the bottom to the front. -/
def toList (s : Stack) : List NodeId := s.upward.filterMap s.node?

def length (s : Stack) : Nat := s.toList.length

def find? (s : Stack) (n : NodeId) : Option EntryId := s.upward.find? fun id => s.node? id == some n

def singleton (n : NodeId) : Stack :=
  let (entries, index) := (Slots.empty : Slots Entry).alloc ⟨n, none, none⟩
  ⟨entries, some ⟨index⟩, some ⟨index⟩⟩

def modifyEntry (s : Stack) (id : EntryId) (f : Entry → Entry) : Stack :=
  { s with entries := s.entries.modify id.index f }

/-- Makes `next` follow `id`, or come first without an `id`. -/
def linkNext (s : Stack) (id next : Option EntryId) : Stack :=
  match id.filter fun i => (s.entry? i).isSome with
  | some i => s.modifyEntry i fun e => { e with next := next }
  | none => { s with head := next }

/-- Makes `prev` precede `id`, or come last without an `id`. -/
def linkPrev (s : Stack) (id prev : Option EntryId) : Stack :=
  match id.filter fun i => (s.entry? i).isSome with
  | some i => s.modifyEntry i fun e => { e with prev := prev }
  | none => { s with tail := prev }

/-- Takes an entry out and joins its neighbours. -/
def unlink (s : Stack) (id : EntryId) : Stack :=
  match s.entry? id with
  | none => s
  | some e =>
    let s := { s with entries := s.entries.release id.index }
    (s.linkNext e.prev e.next).linkPrev e.next e.prev

/-- Takes out the entry of a leaf. -/
def removeNode (s : Stack) (n : NodeId) : Stack :=
  match s.find? n with
  | none => s
  | some id => s.unlink id

/-- Adds an entry between two neighbours. -/
def link (s : Stack) (n : NodeId) (prev next : Option EntryId) : Stack :=
  let (entries, index) := s.entries.alloc ⟨n, prev, next⟩
  let id : EntryId := ⟨index⟩
  (({ s with entries := entries } : Stack).linkNext prev (some id)).linkPrev next (some id)

/-- Places a leaf directly above the anchor; without an anchor it becomes the whole list. -/
def insertAfter (s : Stack) (anchor : Option EntryId) (n : NodeId) : Stack :=
  match anchor with
  | none => singleton n
  | some a =>
    if s.node? a == some n then s
    else
      let s := s.removeNode n
      match s.entry? a with
      | none => s
      | some e => s.link n (some a) e.next

/-- Places a leaf directly below the anchor; without an anchor it becomes the whole list. -/
def insertBefore (s : Stack) (anchor : Option EntryId) (n : NodeId) : Stack :=
  match anchor with
  | none => singleton n
  | some a =>
    if s.node? a == some n then s
    else
      let s := s.removeNode n
      match s.entry? a with
      | none => s
      | some e => s.link n e.prev (some a)

/-- The list of some leaves, bottom first; of equal leaves the last one counts. -/
def ofList (order : List NodeId) : Stack := order.foldl (fun s n => s.insertAfter s.tail n) empty

/-- Takes out every leaf under a node. -/
def remove (s : Stack) (t : Tree) (n : NodeId) : Stack :=
  (t.leaves (some n)).foldl removeNode s

/-- The stacked windows, bottom first. -/
def windows (s : Stack) (t : Tree) : List Window := s.toList.filterMap t.window?

/-- Level of the leaf in a slot. -/
def levelAt (s : Stack) (t : Tree) (id : EntryId) : Nat := ((s.node? id).map t.level).getD 0

/-- The anchor for a leaf that comes to the front of its level: the lowest entry above the level,
else the front entry; the entry below it when that is the leaf's own. -/
def limitAbove (s : Stack) (t : Tree) (n : NodeId) : Option EntryId :=
  ((s.upward.find? fun id => t.level n < s.levelAt t id).or s.tail).bind fun id =>
    if s.node? id == some n then (s.entry? id).bind Entry.prev else some id

/-- The anchor for a leaf that goes to the back of its level: the highest entry below the level,
else the bottom entry; the entry above it when that is the leaf's own. -/
def limitBelow (s : Stack) (t : Tree) (n : NodeId) : Option EntryId :=
  ((s.downward.find? fun id => s.levelAt t id < t.level n).or s.head).bind fun id =>
    if s.node? id == some n then (s.entry? id).bind Entry.next else some id

end Stack

end Tiling
