import Tiling.Json.Value
/-!
# Printing JSON

The indented form: one item or member to a line, two spaces to a level, nothing between the
brackets of an empty array or object. In strings the quote, the backslash and the control
characters are escaped.
-/

namespace Tiling.Json

def lowerHexDigit (n : Nat) : Char :=
  if n < 10 then Char.ofNat (48 + n) else Char.ofNat (87 + n)

/-- A character as it stands in a string literal. -/
def escape (c : Char) : List Char :=
  match c with
  | '"' => ['\\', '"']
  | '\\' => ['\\', '\\']
  | '\x08' => ['\\', 'b']
  | '\x0c' => ['\\', 'f']
  | '\n' => ['\\', 'n']
  | '\r' => ['\\', 'r']
  | '\t' => ['\\', 't']
  | c =>
    if c.toNat < 0x20 then
      ['\\', 'u', '0', '0', lowerHexDigit (c.toNat / 16), lowerHexDigit (c.toNat % 16)]
    else [c]

def quote (text : String) : List Char := '"' :: text.toList.flatMap escape ++ ['"']

def lineBreak (level : Nat) : List Char := '\n' :: List.replicate (2 * level) ' '

namespace Value

mutual

/-- The indented form of a value at a level. -/
def print (level : Nat) : Value → List Char
  | .null => ['n', 'u', 'l', 'l']
  | .bool true => ['t', 'r', 'u', 'e']
  | .bool false => ['f', 'a', 'l', 's', 'e']
  | .number spelling => spelling.toList
  | .string text => quote text
  | .array [] => ['[', ']']
  | .array (v :: items) =>
    '[' :: lineBreak (level + 1) ++ print (level + 1) v ++ printItems (level + 1) items ++
      lineBreak level ++ [']']
  | .object [] => ['\x7b', '\x7d']
  | .object ((key, v) :: members) =>
    '\x7b' :: lineBreak (level + 1) ++ quote key ++ [':', ' '] ++ print (level + 1) v ++
      printMembers (level + 1) members ++ lineBreak level ++ ['\x7d']
  | .void => ['n', 'u', 'l', 'l']

/-- The items after the first one. -/
def printItems (level : Nat) : List Value → List Char
  | [] => []
  | v :: items => ',' :: lineBreak level ++ print level v ++ printItems level items

/-- The members after the first one. -/
def printMembers (level : Nat) : List (String × Value) → List Char
  | [] => []
  | (key, v) :: members =>
    ',' :: lineBreak level ++ quote key ++ [':', ' '] ++ print level v ++ printMembers level members

end

def render (v : Value) : String := String.ofList (v.print 0)

end Value

end Tiling.Json
