/-!
# White space

The characters with the Unicode property `White_Space`, and the fields of a text that they
separate.
-/

namespace Tiling.Text

/-- Inclusive ranges of code points with the property `White_Space`. -/
def blankRanges : List (Nat × Nat) :=
  [(0x09, 0x0d), (0x20, 0x20), (0x85, 0x85), (0xa0, 0xa0), (0x1680, 0x1680), (0x2000, 0x200a),
    (0x2028, 0x2029), (0x202f, 0x202f), (0x205f, 0x205f), (0x3000, 0x3000)]

def isBlank (c : Char) : Bool :=
  blankRanges.any fun (first, last) => first ≤ c.toNat && c.toNat ≤ last

/-- Adds a character to the fields that follow it; an open field is the first of them. -/
def addToFields (c : Char) : List Char × List (List Char) → List Char × List (List Char)
  | (opened, fields) =>
    if isBlank c then ([], if opened.isEmpty then fields else opened :: fields)
    else (c :: opened, fields)

/-- The maximal runs of other characters between white space. -/
def fieldsOf (cs : List Char) : List (List Char) :=
  let (opened, fields) := cs.foldr addToFields ([], [])
  if opened.isEmpty then fields else opened :: fields

def fields (text : String) : List String := (fieldsOf text.toList).map String.ofList

end Tiling.Text
