/-!
# Scanning

Readers take something from the front of a text and hand it back with what follows; a reader
without a result refuses the text. Here are the gaps between the parts of a document: blanks,
comments and line ends.
-/

namespace Tiling.Toml

/-- Takes something from the front of a text. -/
abbrev Scanner (α : Type) := List Char → Option (α × List Char)

def isBlank (c : Char) : Bool := c == ' ' || c == '\t'

/-- A character of a comment: a tab, or anything but a control character. -/
def isCommentChar (c : Char) : Bool :=
  c == '\t' || (0x20 ≤ c.toNat && c.toNat != 0x7f)

def skipBlanks (cs : List Char) : List Char := cs.dropWhile isBlank

/-- What follows a line end, if the text starts with one. -/
def newline? : List Char → Option (List Char)
  | '\n' :: rest => some rest
  | '\r' :: '\n' :: rest => some rest
  | _ => none

/-- What follows a line end; the end of the text is one. -/
def lineEnd? : List Char → Option (List Char)
  | [] => some []
  | cs => newline? cs

/-- Drops a comment, if the text starts with one. -/
def skipComment : List Char → List Char
  | '#' :: rest => rest.dropWhile isCommentChar
  | cs => cs

/-- What follows a line on which nothing else stands than blanks and a comment. -/
def restOfLine? (cs : List Char) : Option (List Char) := lineEnd? (skipComment (skipBlanks cs))

/-- Drops blanks, comments and line ends; a comment has to end with its line. -/
def skipGapFrom : Nat → List Char → Option (List Char)
  | 0, cs => some cs
  | fuel + 1, cs =>
    match skipBlanks cs with
    | '#' :: rest => (newline? (rest.dropWhile isCommentChar)).bind (skipGapFrom fuel)
    | '\n' :: rest => skipGapFrom fuel rest
    | '\r' :: rest =>
      match rest with
      | '\n' :: rest => skipGapFrom fuel rest
      | _ => none
    | rest => some rest

/-- Drops blanks, comments and line ends. -/
def skipGap (cs : List Char) : Option (List Char) := skipGapFrom cs.length cs

/-- What follows a character that the text starts with. -/
def expect? (c : Char) : List Char → Option (List Char)
  | d :: rest => if d = c then some rest else none
  | [] => none

/-- What follows the characters that the text starts with. -/
def expectAll? : List Char → List Char → Option (List Char)
  | [], rest => some rest
  | c :: cs, d :: rest => if d = c then expectAll? cs rest else none
  | _ :: _, [] => none

end Tiling.Toml
