import Tiling.Numeral
/-!
# Geometry

Axis-aligned rectangles in root window coordinates. A rectangle covers the columns `x ≤ c <
right` and the rows `y ≤ r < bottom`; its last column and row are one less than these edges.
Edges are computed in the integers, so no predicate overflows; only `Rect.split` and `Rect.half`
move an origin, in 32-bit arithmetic.
-/

namespace Tiling

/-- A point of the root window. -/
structure Point where
  x : Int32
  y : Int32
  deriving DecidableEq, Repr

/-- An axis-aligned rectangle. -/
structure Rect where
  x : Int32
  y : Int32
  width : UInt32
  height : UInt32
  deriving DecidableEq, Repr, Inhabited

/-- A cardinal direction. -/
inductive Direction where
  | north
  | west
  | south
  | east
  deriving DecidableEq, Repr

/-- How strictly a rectangle must lie to one side of another. -/
inductive Tightness where
  /-- Facing edges are compared. -/
  | low
  /-- Edges of the same side are compared. -/
  | high
  deriving DecidableEq, Repr

namespace Direction

/-- All directions, in the order in which they are listed. -/
def all : List Direction := [.north, .west, .south, .east]

def word : Direction → String
  | .north => "north"
  | .west => "west"
  | .south => "south"
  | .east => "east"

def ofWord? : String → Option Direction
  | "north" => some .north
  | "west" => some .west
  | "south" => some .south
  | "east" => some .east
  | _ => none

theorem ofWord?_word (d : Direction) : ofWord? d.word = some d := by
  cases d <;> rfl

end Direction

namespace Tightness

def word : Tightness → String
  | .high => "high"
  | .low => "low"

def ofWord? : String → Option Tightness
  | "high" => some .high
  | "low" => some .low
  | _ => none

theorem ofWord?_word (t : Tightness) : ofWord? t.word = some t := by
  cases t <;> rfl

end Tightness

namespace Rect

/-- The rectangle at the origin without extent. -/
def empty : Rect := ⟨0, 0, 0, 0⟩

def right (r : Rect) : Int := r.x.toInt + r.width.toNat

def bottom (r : Rect) : Int := r.y.toInt + r.height.toNat

def lastColumn (r : Rect) : Int := r.right - 1

def lastRow (r : Rect) : Int := r.bottom - 1

def area (r : Rect) : Nat := r.width.toNat * r.height.toNat

/-- Width, height and signed origin: `1920x1080+0-5`. -/
def render (r : Rect) : String :=
  toString r.width.toNat ++ "x" ++ toString r.height.toNat ++
    Numeral.signed r.x.toInt ++ Numeral.signed r.y.toInt

def covers (r : Rect) (p : Point) : Bool :=
  r.x.toInt ≤ p.x.toInt && p.x.toInt < r.right && r.y.toInt ≤ p.y.toInt && p.y.toInt < r.bottom

/-- The second rectangle lies within the first, edges included. -/
def contains (a b : Rect) : Bool :=
  a.x.toInt ≤ b.x.toInt && b.right ≤ a.right && a.y.toInt ≤ b.y.toInt && b.bottom ≤ a.bottom

/-- Distance from the edge of `a` that faces `dir` to the opposite edge of `b`, at most `2 ^ 32 -
1`. -/
def edgeDistance (a b : Rect) (dir : Direction) : Nat :=
  let d := match dir with
    | .north => b.lastRow - a.y.toInt
    | .west => b.lastColumn - a.x.toInt
    | .south => a.lastRow - b.y.toInt
    | .east => a.lastColumn - b.x.toInt
  min d.natAbs (UInt32.size - 1)

/-- `b` starts on the wrong side of `a` to be reached in direction `dir`. -/
def beyond (a b : Rect) (dir : Direction) (tightness : Tightness) : Bool :=
  match tightness, dir with
  | .low, .north => a.lastRow < b.y.toInt
  | .low, .west => a.lastColumn < b.x.toInt
  | .low, .south => b.lastRow < a.y.toInt
  | .low, .east => b.lastColumn < a.x.toInt
  | .high, .north => a.y.toInt ≤ b.y.toInt
  | .high, .west => a.x.toInt ≤ b.x.toInt
  | .high, .south => b.lastRow ≤ a.lastRow
  | .high, .east => b.lastColumn ≤ a.lastColumn

/-- The rectangles share a row (for west and east) or a column (for north and south). -/
def faces (a b : Rect) (dir : Direction) : Bool :=
  match dir with
  | .north | .south => b.x.toInt ≤ a.lastColumn && a.x.toInt ≤ b.lastColumn
  | .west | .east => b.y.toInt ≤ a.lastRow && a.y.toInt ≤ b.lastRow

/-- `b` lies to the `dir` side of `a`. -/
def onSide (a b : Rect) (dir : Direction) (tightness : Tightness) : Bool :=
  !beyond a b dir tightness && faces a b dir

/-- Reading order: from top to bottom, from left to right, and then the larger one first. -/
def readingOrder (a b : Rect) : Ordering :=
  if b.bottom ≤ a.y.toInt then .gt
  else if a.bottom ≤ b.y.toInt then .lt
  else if b.right ≤ a.x.toInt then .gt
  else if a.right ≤ b.x.toInt then .lt
  else compare b.area a.area

/-- The left and right halves; the left one takes the smaller half of an odd width. -/
def splitColumns (r : Rect) : Rect × Rect :=
  let w := r.width / 2
  (⟨r.x, r.y, w, r.height⟩, ⟨r.x + w.toInt32, r.y, r.width - w, r.height⟩)

/-- The upper and lower halves; the upper one takes the smaller half of an odd height. -/
def splitRows (r : Rect) : Rect × Rect :=
  let h := r.height / 2
  (⟨r.x, r.y, r.width, h⟩, ⟨r.x, r.y + h.toInt32, r.width, r.height - h⟩)

/-- The two halves along the longer side; a square is split into columns. -/
def split (r : Rect) : Rect × Rect :=
  if r.height ≤ r.width then r.splitColumns else r.splitRows

/-- The half of a rectangle on one of its sides. -/
def half (r : Rect) : Direction → Rect
  | .north => r.splitRows.1
  | .south => r.splitRows.2
  | .west => r.splitColumns.1
  | .east => r.splitColumns.2

end Rect

end Tiling
