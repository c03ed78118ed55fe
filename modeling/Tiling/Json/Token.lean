import Tiling.Numeral
/-!
# JSON tokens

The lexical level: brackets, separators, literals, numbers and strings, taken from the front of a
text. Numbers keep their spelling. A string literal is a list of pieces, characters and 16-bit
units, because a unit escape may name half of a surrogate pair; such a literal is well-formed but
spells no text.
-/

namespace Tiling.Json

/-- A lexical unit. A string without a text is one whose surrogates are not paired. -/
inductive Token where
  | openArray
  | closeArray
  | openObject
  | closeObject
  | colon
  | comma
  | null
  | bool (b : Bool)
  | number (spelling : String)
  | string (text : Option String)
  deriving DecidableEq, Repr

/-- Part of a string literal. -/
inductive Piece where
  | char (c : Char)
  /-- A unit written as four hexadecimal digits. -/
  | unit (n : Nat)
  deriving DecidableEq, Repr

/-- The unit is the first half of a surrogate pair. -/
def isLeading (n : Nat) : Bool := 0xd800 ≤ n && n < 0xdc00

/-- The unit is the second half of a surrogate pair. -/
def isTrailing (n : Nat) : Bool := 0xdc00 ≤ n && n < 0xe000

/-- The code point of a surrogate pair. -/
def pairValue (leading trailing : Nat) : Nat :=
  0x10000 + (leading - 0xd800) * 0x400 + (trailing - 0xdc00)

/-- The text of some pieces before `acc`, if all surrogates are paired. Pieces come last first. -/
def textOfPieces : List Char → List Piece → Option (List Char)
  | acc, [] => some acc
  | acc, .char c :: rest => textOfPieces (c :: acc) rest
  | acc, .unit n :: rest =>
    if isTrailing n then
      match rest with
      | .unit m :: rest =>
        if isLeading m then textOfPieces (Char.ofNat (pairValue m n) :: acc) rest else none
      | _ => none
    else if isLeading n then none
    else textOfPieces (Char.ofNat n :: acc) rest

def escaped? : Char → Option Char
  | '"' => some '"'
  | '\\' => some '\\'
  | '/' => some '/'
  | 'b' => some '\x08'
  | 'f' => some '\x0c'
  | 'n' => some '\n'
  | 'r' => some '\r'
  | 't' => some '\t'
  | _ => none

/-- The number of four hexadecimal digits. -/
def hex4? (a b c d : Char) : Option Nat := do
  let a ← Numeral.digit? 16 a
  let b ← Numeral.digit? 16 b
  let c ← Numeral.digit? 16 c
  let d ← Numeral.digit? 16 d
  return ((a * 16 + b) * 16 + c) * 16 + d

/-- Reads a string literal to its closing quote; the pieces come last first. -/
def scanString : List Piece → List Char → Option (List Piece × List Char)
  | _, [] => none
  | acc, '"' :: rest => some (acc, rest)
  | acc, '\\' :: 'u' :: a :: b :: c :: d :: rest =>
    match hex4? a b c d with
    | some n => scanString (.unit n :: acc) rest
    | none => none
  | acc, '\\' :: c :: rest =>
    match escaped? c with
    | some c => scanString (.char c :: acc) rest
    | none => none
  | acc, c :: rest => if c.toNat < 0x20 then none else scanString (.char c :: acc) rest

def isNumberChar (c : Char) : Bool :=
  c.isDigit || c == '-' || c == '+' || c == '.' || c == 'e' || c == 'E'

/-- An exponent, or nothing. -/
def isExponent : List Char → Bool
  | [] => true
  | e :: rest =>
    (e == 'e' || e == 'E') &&
      match rest with
      | '+' :: digits | '-' :: digits => !digits.isEmpty && digits.all Char.isDigit
      | digits => !digits.isEmpty && digits.all Char.isDigit

/-- A fraction, or nothing, and then an exponent. -/
def isFraction : List Char → Bool
  | '.' :: rest => (rest.headD ' ').isDigit && isExponent (rest.dropWhile Char.isDigit)
  | rest => isExponent rest

/-- An unsigned number; an integer part does not start with a zero unless it is one. -/
def isUnsignedNumber : List Char → Bool
  | '0' :: rest => isFraction rest
  | c :: rest => c.isDigit && isFraction (rest.dropWhile Char.isDigit)
  | [] => false

def isNumber : List Char → Bool
  | '-' :: rest => isUnsignedNumber rest
  | rest => isUnsignedNumber rest

def isGap (c : Char) : Bool := c == ' ' || c == '\n' || c == '\t' || c == '\r'

/-- The first token of a text that does not start with a gap, and what follows. -/
def Token.next? : List Char → Option (Token × List Char)
  | [] => none
  | '[' :: rest => some (.openArray, rest)
  | ']' :: rest => some (.closeArray, rest)
  | '\x7b' :: rest => some (.openObject, rest)
  | '\x7d' :: rest => some (.closeObject, rest)
  | ':' :: rest => some (.colon, rest)
  | ',' :: rest => some (.comma, rest)
  | '"' :: rest =>
    (scanString [] rest).map fun (pieces, rest) =>
      (.string ((textOfPieces [] pieces).map String.ofList), rest)
  | 'n' :: 'u' :: 'l' :: 'l' :: rest => some (.null, rest)
  | 't' :: 'r' :: 'u' :: 'e' :: rest => some (.bool true, rest)
  | 'f' :: 'a' :: 'l' :: 's' :: 'e' :: rest => some (.bool false, rest)
  | text =>
    let spelling := text.takeWhile isNumberChar
    if isNumber spelling then
      some (.number (String.ofList spelling), text.dropWhile isNumberChar)
    else none

end Tiling.Json
