import Tiling.Numeral
import Tiling.Toml.Scan
/-!
# Strings

The four kinds of strings: basic ones with escapes and literal ones without, each on one line or
on several. On several lines a first line end is dropped, line ends are single characters, up to
two quotes may stand inside and before the closing three, and an escaped line end joins lines.
-/

namespace Tiling.Toml

/-- A character that stands for itself in a string, the quotes apart. -/
def isPlain (c : Char) : Bool := c == '\t' || (0x20 ≤ c.toNat && c.toNat != 0x7f)

def hexNumber? (digits : List Char) : Option Nat :=
  digits.foldl (fun n c => n.bind fun n => (Numeral.digit? 16 c).map (n * 16 + ·)) (some 0)

/-- The character of a code point. -/
def charOf? (n : Nat) : Option Char := if n.isValidChar then some (Char.ofNat n) else none

/-- The character of a code point in a number of hexadecimal digits. -/
def codePoint? (count : Nat) (cs : List Char) : Option (Char × List Char) :=
  let digits := cs.take count
  if digits.length < count then none
  else do
    let n ← hexNumber? digits
    let c ← charOf? n
    return (c, cs.drop count)

/-- The character of an escape, after its backslash. -/
def escape? : Scanner Char
  | 'b' :: rest => some ('\x08', rest)
  | 'f' :: rest => some ('\x0c', rest)
  | 'n' :: rest => some ('\n', rest)
  | 'r' :: rest => some ('\r', rest)
  | 't' :: rest => some ('\t', rest)
  | '\\' :: rest => some ('\\', rest)
  | '"' :: rest => some ('"', rest)
  | 'u' :: rest => codePoint? 4 rest
  | 'U' :: rest => codePoint? 8 rest
  | _ => none

/-- The text of characters that come last first. -/
def textOf (acc : List Char) : String := String.ofList acc.reverse

def basicFrom : Nat → List Char → Scanner String
  | 0, _, _ => none
  | _, _, [] => none
  | fuel + 1, acc, c :: rest =>
    if c = '"' then some (textOf acc, rest)
    else if c = '\\' then
      match escape? rest with
      | some (c, rest) => basicFrom fuel (c :: acc) rest
      | none => none
    else if isPlain c then basicFrom fuel (c :: acc) rest else none

/-- A literal string after its opening quote. -/
def literalFrom : List Char → Scanner String
  | _, [] => none
  | acc, c :: rest =>
    if c = '\'' then some (textOf acc, rest)
    else if isPlain c then literalFrom (c :: acc) rest else none

def skipBlankLines : List Char → List Char
  | '\r' :: '\n' :: rest => skipBlankLines rest
  | c :: rest => if isBlank c || c == '\n' then skipBlankLines rest else c :: rest
  | [] => []

/-- What follows an escaped line end, after its backslash: the next line that is not blank. -/
def joinedLine? (cs : List Char) : Option (List Char) :=
  (newline? (skipBlanks cs)).map skipBlankLines

/-- A quote inside a string on several lines: quotes that belong to it, and what follows the
string if these are its last. -/
def quoteRun (quote : Char) (cs : List Char) : Nat × Option (List Char) :=
  let count := (cs.takeWhile (· == quote)).length
  if count < 3 then (count, none)
  else
    let inside := min (count - 3) 2
    (inside, some (cs.drop (inside + 3)))

/-- A string on several lines after its opening quotes and a first line end. -/
def multilineFrom (quote : Char) (escapes : Bool) : Nat → List Char → Scanner String
  | 0, _, _ => none
  | _, _, [] => none
  | fuel + 1, acc, c :: rest =>
    if c = quote then
      match quoteRun quote (c :: rest) with
      | (inside, some after) => some (textOf (List.replicate inside quote ++ acc), after)
      | (inside, none) =>
        multilineFrom quote escapes fuel (List.replicate inside quote ++ acc)
          ((c :: rest).drop inside)
    else if c = '\\' ∧ escapes = true then
      match joinedLine? rest with
      | some after => multilineFrom quote escapes fuel acc after
      | none =>
        match escape? rest with
        | some (c, after) => multilineFrom quote escapes fuel (c :: acc) after
        | none => none
    else if isPlain c then multilineFrom quote escapes fuel (c :: acc) rest
    else
      match newline? (c :: rest) with
      | some after => multilineFrom quote escapes fuel ('\n' :: acc) after
      | none => none

/-- A string on several lines after its opening quotes. -/
def multiline (quote : Char) (escapes : Bool) (cs : List Char) : Option (String × List Char) :=
  multilineFrom quote escapes (cs.length + 1) [] ((newline? cs).getD cs)

def quotation : Scanner String
  | '"' :: rest => basicFrom (rest.length + 1) [] rest
  | '\'' :: rest => literalFrom [] rest
  | _ => none

def string : Scanner String
  | '"' :: '"' :: '"' :: rest => multiline '"' true rest
  | '\'' :: '\'' :: '\'' :: rest => multiline '\'' false rest
  | cs => quotation cs

end Tiling.Toml
