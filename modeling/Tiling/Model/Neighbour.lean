import Tiling.Model.Basic
/-!
# Neighbours

The closest window of the same desktop in a direction, by the rectangles that are on screen.
Among equally close ones the first in reading order is taken.
-/

namespace Tiling.Model

/-- Where the window of a node is on screen. -/
def visibleRect? (m : Model) (n : NodeId) : Option Rect := do
  let node ← m.tree.get? n
  let client ← node.client
  return if client.state == .floating then client.floatingRect else node.rect

/-- The nearer of two places as seen from a rectangle. -/
def closeness (r : Rect) (dir : Direction) (a b : Rect) : Ordering :=
  (compare (r.edgeDistance a dir) (r.edgeDistance b dir)).then (a.readingOrder b)

/-- The first of the closest places. -/
def closest? (r : Rect) (dir : Direction) : List (NodeId × Rect) → Option (NodeId × Rect)
  | [] => none
  | first :: rest => some (rest.foldl (fun best place =>
      if closeness r dir place.2 best.2 == .lt then place else best) first)

/-- The other windows of the desktop that lie on the wanted side. -/
def candidates (m : Model) (n : NodeId) (root : Option NodeId) (r : Rect) (dir : Direction)
    (tightness : Tightness) : List (NodeId × Rect) :=
  ((m.tree.leaves root).filter (· != n)).filterMap fun c =>
    ((m.visibleRect? c).filter fun place => r.onSide place dir tightness).map (c, ·)

def neighbour? (m : Model) (n : NodeId) (dir : Direction) (tightness : Tightness) :
    Option NodeId := do
  let desktop ← (m.locate? n).bind m.desktop?
  let r ← m.visibleRect? n
  let place ← closest? r dir (m.candidates n desktop.root r dir tightness)
  return place.1

end Tiling.Model
