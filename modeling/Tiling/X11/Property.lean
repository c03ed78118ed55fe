import Tiling.Display
import Tiling.Text.Utf8
/-!
# Properties

Values that windows carry, and what two of them say: the class of a window, and whether it asks
for attention. A value of another type or format says nothing.
-/

namespace Tiling.X11

/-- The value of a property. -/
structure Property where
  typeName : String
  /-- Bits of an element. -/
  format : Nat
  value : Bytes
  deriving DecidableEq, Repr

namespace Property

/-- What a window calls itself: the instance up to the first NUL, and then the class, less a
final NUL. -/
def windowClass? (p : Property) : Option WindowClass :=
  if p.typeName = "STRING" ∧ p.format = 8 then
    let (instanceName, rest) := p.value.span (· != 0)
    some ⟨Text.decode (Text.dropFinalNul (rest.drop 1)), Text.decode instanceName⟩
  else none

/-- The number in four bytes, lowest first. -/
def littleEndian (bytes : Bytes) : Nat := bytes.foldr (fun b n => b.toNat + 256 * n) 0

def word (p : Property) (i : Nat) : Nat := littleEndian ((p.value.drop (4 * i)).take 4)

/-- Bytes of the shortest hints. -/
def hintsSize : Nat := 32

/-- The states that a window can start in. -/
def initialStates : List Nat := [1, 3]

/-- The hints can be read: they are long enough, and a state that is given is a state. -/
def isHints (p : Property) : Bool :=
  p.typeName == "WM_HINTS" && p.format == 32 && decide (hintsSize ≤ p.value.length) &&
    (!(p.word 0).testBit 1 || initialStates.contains (p.word 2))

def isUrgent (p : Property) : Bool := p.isHints && (p.word 0).testBit 8

end Property

end Tiling.X11
