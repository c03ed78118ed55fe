import Tiling.Tree.Walk
/-!
# Arrangement

Rectangles for the nodes of a tree. Tiled, an inner node splits its rectangle along the longer
side between its children; monocle, every node gets the whole area. Both are written down in the
nodes, and the places of the tiled windows are listed from left to right.
-/

namespace Tiling

/-- How the windows of a desktop share its area. -/
inductive Layout where
  | tiled
  | monocle
  deriving DecidableEq, Repr

namespace Layout

def word : Layout → String
  | .tiled => "tiled"
  | .monocle => "monocle"

def ofWord? : String → Option Layout
  | "tiled" => some .tiled
  | "monocle" => some .monocle
  | _ => none

theorem ofWord?_word (l : Layout) : ofWord? l.word = some l := by
  cases l <;> rfl

/-- The letter for a layout in the status report. -/
def letter : Layout → Char
  | .tiled => 'T'
  | .monocle => 'M'

/-- The rectangles of the children of a node. -/
def share (layout : Layout) (r : Rect) : Rect × Rect :=
  match layout with
  | .monocle => (r, r)
  | .tiled => r.split

end Layout

namespace Tree

/-- The tiled window of a node, with its place. -/
def placement? (node : Node) (r : Rect) : Option (Window × Rect) :=
  (node.client.filter (·.state.isTiled)).map fun c => (c.window, r)

/-- Arranges the pending nodes, each before its children. -/
def arrangeFrom (layout : Layout) :
    Nat → Tree → List (NodeId × Rect) → Tree × List (Window × Rect)
  | 0, t, _ => (t, [])
  | _, t, [] => (t, [])
  | fuel + 1, t, (n, r) :: pending =>
    match t.get? n with
    | none => arrangeFrom layout fuel t pending
    | some node =>
      let (first, second) := layout.share r
      let children :=
        (node.firstChild.map (·, first)).toList ++ (node.secondChild.map (·, second)).toList
      let (t, placed) := arrangeFrom layout fuel
        (t.modify n fun node => { node with rect := r }) (children ++ pending)
      (t, (placement? node r).toList ++ placed)

/-- Assigns rectangles within an area and lists the places of the tiled windows. -/
def arrange (t : Tree) (root : Option NodeId) (area : Rect) (layout : Layout) :
    Tree × List (Window × Rect) :=
  arrangeFrom layout t.visitBound t (root.map (·, area)).toList

/-- The rectangles that a shape shares out of an area, parents first. -/
def Shape.rects (layout : Layout) : Shape → Rect → List (NodeId × Rect)
  | .leaf n, r => [(n, r)]
  | .fork n a b, r =>
    (n, r) :: (a.rects layout (layout.share r).1 ++ b.rects layout (layout.share r).2)

end Tree

end Tiling
