import Tiling.Toml.Quotation
import Tiling.Toml.Table
/-!
# Documents

A document is a sequence of lines: headers, keys with their values, comments. Arrays may span
lines, tables written as values may not. Neither values nor keys may be nested deeper than a
fixed limit.
-/

namespace Tiling.Toml

/-- Arrays and tables as values lie within each other less deep than this; so do the parts of a
key. -/
def depthLimit : Nat := 80

/-- A character of a key without quotes. -/
def isBareKeyChar (c : Char) : Bool := c.isAlphanum || c == '-' || c == '_'

def keyPart (cs : List Char) : Option (String × List Char) :=
  match cs with
  | '"' :: _ | '\'' :: _ => quotation cs
  | _ =>
    let name := cs.takeWhile isBareKeyChar
    if name.isEmpty then none else some (String.ofList name, cs.dropWhile isBareKeyChar)

/-- The parts of a key, between points. -/
def keyParts : Nat → Scanner (List String)
  | 0, _ => none
  | fuel + 1, cs => do
    let (part, cs) ← keyPart (skipBlanks cs)
    match skipBlanks cs with
    | '.' :: rest => do
      let (parts, rest) ← keyParts fuel rest
      return (part :: parts, rest)
    | rest => return ([part], rest)

/-- A key: the parts that lead to it, and the last part. -/
def key (cs : List Char) : Option ((List String × String) × List Char) := do
  let (parts, rest) ← keyParts (depthLimit - 1) cs
  let last ← parts.getLast?
  return ((parts.dropLast, last), rest)

/-- Items of an array after its bracket, the last first. -/
def arrayItems (item : Scanner Item) : Nat → List Item → Scanner Item
  | 0, _, _ => none
  | fuel + 1, acc, cs => do
    let cs ← skipGap cs
    match cs with
    | ']' :: rest => return (.array acc.reverse, rest)
    | _ =>
      let (value, cs) ← item cs
      let cs ← skipGap cs
      match cs with
      | ',' :: rest => arrayItems item fuel (value :: acc) rest
      | ']' :: rest => return (.array (value :: acc).reverse, rest)
      | _ => none

def keyValue (item : Scanner Item) (cs : List Char) :
    Option (((List String × String) × Item) × List Char) := do
  let (name, cs) ← key cs
  let cs ← expect? '=' cs
  let (value, cs) ← item (skipBlanks cs)
  return ((name, value), cs)

/-- Keys of a table as a value, after its brace or a comma. -/
def inlineEntries (item : Scanner Item) : Nat → Entries → Scanner Item
  | 0, _, _ => none
  | fuel + 1, entries, cs => do
    let (((path, last), value), cs) ← keyValue item cs
    let entries ← addValue entries path last value
    match skipBlanks cs with
    | ',' :: rest => inlineEntries item fuel entries rest
    | '\x7d' :: rest => return (.inline entries, rest)
    | _ => none

/-- A table as a value, after its brace. -/
def inlineTable (item : Scanner Item) (cs : List Char) : Option (Item × List Char) :=
  match skipBlanks cs with
  | '\x7d' :: rest => some (.inline [], rest)
  | _ => inlineEntries item (cs.length + 1) [] cs

def simpleValue (cs : List Char) : Option (Item × List Char) :=
  match cs with
  | '"' :: _ | '\'' :: _ => (string cs).map fun (s, rest) => (.text s, rest)
  | _ => (scalar cs).map fun (s, rest) => (.scalar s, rest)

/-- A value with less than so many levels of parts. -/
def value : Nat → Scanner Item
  | depth + 1, '[' :: rest => arrayItems (value depth) (rest.length + 1) [] rest
  | depth + 1, '\x7b' :: rest => inlineTable (value depth) rest
  | _, cs => simpleValue cs

/-- A header after its opening brackets. -/
def header (repeated : Bool) (cs : List Char) : Option (Section × List Char) := do
  let ((path, last), cs) ← key cs
  let cs ← expectAll? (if repeated then [']', ']'] else [']']) cs
  let cs ← restOfLine? cs
  return (⟨path, last, repeated⟩, cs)

/-- Reads a line that does not start with a blank. -/
def line (d : Draft) (cs : List Char) : Option (Draft × List Char) :=
  match cs with
  | '#' :: _ | '\n' :: _ | '\r' :: _ => (restOfLine? cs).map (d, ·)
  | '[' :: '[' :: rest => do
    let (s, rest) ← header true rest
    return (← d.begin s, rest)
  | '[' :: rest => do
    let (s, rest) ← header false rest
    return (← d.begin s, rest)
  | _ => do
    let (((path, last), item), cs) ← keyValue (value (depthLimit - 1)) cs
    let cs ← restOfLine? cs
    return (← d.add path last item, cs)

/-- Reads at most `fuel` lines. -/
def linesFrom : Nat → Draft → List Char → Option Draft
  | 0, _, _ => none
  | fuel + 1, d, cs =>
    match skipBlanks cs with
    | [] => some d
    | cs =>
      match line d cs with
      | none => none
      | some (d, rest) => linesFrom fuel d rest

def skipMark : List Char → List Char
  | '\ufeff' :: rest => rest
  | cs => cs

/-- The table that a document describes. -/
def document (text : String) : Option Entries :=
  let cs := skipMark text.toList
  (linesFrom (cs.length + 1) .start cs).bind Draft.finish

end Tiling.Toml
