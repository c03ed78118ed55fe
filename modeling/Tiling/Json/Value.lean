import Tiling.Json.Token
/-!
# JSON values

The values of JSON texts and their reading. Reading pushes tokens one by one into a partial
value, the innermost open bracket first, so its depth is not limited. An object may hold a key
several times.
-/

namespace Tiling.Json

/-- A value of a JSON text. -/
inductive Value where
  | null
  | bool (b : Bool)
  | number (spelling : String)
  | string (text : String)
  | array (items : List Value)
  | object (members : List (String × Value))
  /-- A well-formed value that says nothing: a string that spells no text, or an object with
  such a key. -/
  | void
  deriving Inhabited, Repr

/-- An open bracket with what it holds so far, the last first. -/
inductive Frame where
  | array (items : List Value)
  /-- Members, whether a key spelled no text, and the key that waits for its value. -/
  | object (members : List (String × Value)) (spoilt : Bool) (key : Option String)

/-- What may come next. -/
inductive Expected where
  | value
  /-- A value, or the end of an empty array. -/
  | firstItem
  /-- A key, or the end of an empty object. -/
  | firstKey
  | key
  | colon
  /-- A comma, or the end of the innermost bracket. -/
  | separator

/-- A text read in part. -/
inductive Partial where
  | within (frames : List Frame) (expected : Expected)
  | complete (value : Value)

namespace Partial

def start : Partial := .within [] .value

/-- Puts a finished value in its place. -/
def place (v : Value) : List Frame → Option Partial
  | [] => some (.complete v)
  | .array items :: frames => some (.within (.array (v :: items) :: frames) .separator)
  | .object members _ none :: frames =>
    some (.within (.object members true none :: frames) .separator)
  | .object members spoilt (some key) :: frames =>
    some (.within (.object ((key, v) :: members) spoilt none :: frames) .separator)

def closedObject (members : List (String × Value)) (spoilt : Bool) : Value :=
  if spoilt then .void else .object members.reverse

/-- Reads a token where a value may start. -/
def pushValue (frames : List Frame) : Token → Option Partial
  | .openArray => some (.within (.array [] :: frames) .firstItem)
  | .openObject => some (.within (.object [] false none :: frames) .firstKey)
  | .null => place .null frames
  | .bool b => place (.bool b) frames
  | .number spelling => place (.number spelling) frames
  | .string (some text) => place (.string text) frames
  | .string none => place .void frames
  | _ => none

/-- Reads a token where a key may stand. -/
def pushKey : List Frame → Token → Option Partial
  | .object members spoilt _ :: frames, .string key =>
    some (.within (.object members spoilt key :: frames) .colon)
  | _, _ => none

/-- Reads a token after a value inside a bracket. -/
def pushSeparator : List Frame → Token → Option Partial
  | .array items :: frames, .comma => some (.within (.array items :: frames) .value)
  | .array items :: frames, .closeArray => place (.array items.reverse) frames
  | .object members spoilt key :: frames, .comma =>
    some (.within (.object members spoilt key :: frames) .key)
  | .object members spoilt _ :: frames, .closeObject => place (closedObject members spoilt) frames
  | _, _ => none

def push : Partial → Token → Option Partial
  | .complete _, _ => none
  | .within frames expected, token =>
    match expected, token, frames with
    | .value, _, _ => pushValue frames token
    | .firstItem, .closeArray, .array items :: frames => place (.array items.reverse) frames
    | .firstItem, _, _ => pushValue frames token
    | .firstKey, .closeObject, .object members spoilt _ :: frames =>
      place (closedObject members spoilt) frames
    | .firstKey, _, _ => pushKey frames token
    | .key, _, _ => pushKey frames token
    | .colon, .colon, _ => some (.within frames .value)
    | .colon, _, _ => none
    | .separator, _, _ => pushSeparator frames token

/-- The value, when it is complete. -/
def value? : Partial → Option Value
  | .complete v => some v
  | .within _ _ => none

end Partial

namespace Value

/-- Reads at most `fuel` gaps and tokens. -/
def readFrom : Nat → Partial → List Char → Option Partial
  | 0, _, _ => none
  | _, p, [] => some p
  | fuel + 1, p, c :: rest =>
    if isGap c then readFrom fuel p rest
    else
      match Token.next? (c :: rest) with
      | none => none
      | some (token, rest) =>
        match p.push token with
        | none => none
        | some p => readFrom fuel p rest

def ofChars? (text : List Char) : Option Value :=
  (readFrom (text.length + 1) .start text).bind Partial.value?

def ofText? (text : String) : Option Value := ofChars? text.toList

end Value

end Tiling.Json
