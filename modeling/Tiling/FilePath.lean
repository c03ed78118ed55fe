/-!
# Paths of files

A path is written as names with slashes between them. Paths are compared by what they lead
through, not by how they are written.
-/

namespace Tiling

/-- A path as it is written. -/
structure FilePath where
  text : String
  deriving Repr

namespace FilePath

/-- What a path leads through. -/
inductive Component where
  | root
  /-- A point at the beginning. -/
  | here
  | name (text : List Char)
  deriving DecidableEq, Repr

/-- The pieces between the slashes. -/
def pieces (p : FilePath) : List (List Char) := p.text.toList.splitOn '/'

/-- After a slash, an empty piece and a point lead nowhere else. -/
def isName (piece : List Char) : Bool := piece != [] && piece != ['.']

def Component.first (piece : List Char) : Component :=
  if piece = [] then .root else if piece = ['.'] then .here else .name piece

def components (p : FilePath) : List Component :=
  match p.pieces with
  | [] | [[]] => []
  | first :: rest => .first first :: (rest.filter isName).map .name

instance : BEq FilePath := ⟨fun p q => p.components == q.components⟩

end FilePath

end Tiling
