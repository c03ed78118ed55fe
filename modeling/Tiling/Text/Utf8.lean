/-!
# UTF-8

Byte strings as lists. Decoding of bytes that may be ill-formed puts a replacement character in
the place of every maximal ill-formed part: of a sequence that breaks off, as many bytes as
could still have begun a character, else a single byte.
-/

namespace Tiling

/-- A byte string. -/
abbrev Bytes := List UInt8

namespace Text

def encodeChars (cs : List Char) : Bytes := cs.flatMap String.utf8EncodeChar

def encode (text : String) : Bytes := encodeChars text.toList

/-- The character at the front of a byte string. -/
def firstChar? (bytes : Bytes) : Option Char :=
  (ByteArray.mk (bytes.take 4).toArray).utf8DecodeChar? 0

/-- The byte continues a sequence. -/
def isContinuation (b : UInt8) : Bool := 0x80 ≤ b && b < 0xc0

/-- The second byte fits the first one of a sequence of three or four. -/
def isSecond (first second : UInt8) : Bool :=
  if first = 0xe0 then 0xa0 ≤ second && second < 0xc0
  else if first = 0xed then 0x80 ≤ second && second < 0xa0
  else if first = 0xf0 then 0x90 ≤ second && second < 0xc0
  else if first = 0xf4 then 0x80 ≤ second && second < 0x90
  else isContinuation second

/-- Length of the ill-formed part at the front of a byte string that does not start with a
character. -/
def brokenLength : Bytes → Nat
  | first :: second :: rest =>
    if 0xe0 ≤ first && first < 0xf0 && isSecond first second then 2
    else if 0xf0 ≤ first && first < 0xf5 && isSecond first second then
      match rest with
      | third :: _ => if isContinuation third then 3 else 2
      | [] => 2
    else 1
  | _ => 1

/-- Decodes at most `fuel` characters after `acc`, which comes last first. -/
def decodeFrom : Nat → List Char → Bytes → List Char
  | 0, acc, _ => acc.reverse
  | _, acc, [] => acc.reverse
  | fuel + 1, acc, b :: rest =>
    match firstChar? (b :: rest) with
    | some c => decodeFrom fuel (c :: acc) ((b :: rest).drop c.utf8Size)
    | none => decodeFrom fuel ('\ufffd' :: acc) ((b :: rest).drop (brokenLength (b :: rest)))

/-- The text of some bytes, with replacement characters where they are ill-formed. -/
def decode (bytes : Bytes) : String := String.ofList (decodeFrom bytes.length [] bytes)

/-- The text of some bytes, if they are well-formed. -/
def decode? (bytes : Bytes) : Option String := String.fromUTF8? (ByteArray.mk bytes.toArray)

def dropFinalNul (bytes : Bytes) : Bytes :=
  if bytes.getLast? = some 0 then bytes.dropLast else bytes

end Text

end Tiling
