import Tiling.Display
import Tiling.Stack.Basic
/-!
# Restacking

Leaves take their places in the stack by level, and the display and the subscribers are told each
placement. Preselection feedback stays directly above the topmost tiled window.
-/

namespace Tiling

/-- On which side of the other a window was placed. -/
inductive Relation where
  | above
  | below
  deriving DecidableEq, Repr

namespace Relation

def word : Relation → String
  | .above => "above"
  | .below => "below"

/-- The request that brings a window there. -/
def request : Relation → Window → Window → Request
  | .above => .stackAbove
  | .below => .stackBelow

end Relation

namespace Stack

def placementMessage (window other : Window) (relation : Relation) : Message :=
  ⟨.single .nodeStack, "node_stack " ++ Numeral.hex8 window ++ " " ++ relation.word ++ " " ++
    Numeral.hex8 other ++ "\n"⟩

/-- A leaf goes below an anchor of a higher level, and of its own level unless it is promoted. -/
def relationTo (t : Tree) (promote : Bool) (n anchor : NodeId) : Relation :=
  if t.level n < t.level anchor ∨ (t.level n = t.level anchor ∧ promote = false) then .below
  else .above

/-- Where a leaf goes: the anchor, its window and the side of it. -/
def destination? (s : Stack) (t : Tree) (promote : Bool) (n : NodeId) :
    Option (EntryId × Window × Relation) := do
  let anchor ← if promote then s.limitAbove t n else s.limitBelow t n
  let other ← s.node? anchor
  let window ← t.window? other
  return (anchor, window, relationTo t promote n other)

/-- Places one leaf. Floating windows stay where they are unless `autoRaise` holds. -/
def restackLeaf (t : Tree) (promote autoRaise : Bool) (s : Stack) (n : NodeId) :
    Stack × List Effect :=
  match t.client? n with
  | none => (s, [])
  | some client =>
    if client.state == .floating && !autoRaise then (s, [])
    else if s.isEmpty then (s.insertAfter none n, [])
    else
      match s.destination? t promote n with
      | none => (s, [])
      | some (anchor, other, relation) =>
        let placed := match relation with
          | .above => s.insertAfter (some anchor) n
          | .below => s.insertBefore (some anchor) n
        (placed, [.request (relation.request client.window other),
          .message (placementMessage client.window other relation)])

/-- Places leaves one after the other. -/
def restackLeaves (t : Tree) (promote autoRaise : Bool) :
    Stack → List NodeId → Stack × List Effect
  | s, [] => (s, [])
  | s, n :: rest =>
    let (s, first) := restackLeaf t promote autoRaise s n
    let (s, others) := restackLeaves t promote autoRaise s rest
    (s, first ++ others)

def topmostTiled? (s : Stack) (t : Tree) : Option Window :=
  (((s.downward.filterMap s.node?).filterMap t.client?).find? (·.state.isTiled)).map Client.window

/-- Requests that bring the feedback windows of a tree above the topmost tiled window. -/
def raiseFeedback (s : Stack) (t : Tree) (desktopRoot : Option NodeId) : List Effect :=
  match s.topmostTiled? t with
  | none => []
  | some top =>
    ((t.preorder desktopRoot).filterMap fun n => (t.get? n).bind Node.feedback?).map fun feedback =>
      .request (.stackAbove feedback top)

/-- Places every leaf under a node, at the front of its level when promoted and at the back
otherwise. -/
def restack (s : Stack) (t : Tree) (desktopRoot : Option NodeId) (n : NodeId)
    (promote autoRaise : Bool) : Stack × List Effect :=
  let (s, placements) := restackLeaves t promote autoRaise s (t.leaves (some n))
  (s, placements ++ .request (.clientList (s.windows t)) :: s.raiseFeedback t desktopRoot)

end Stack

end Tiling
