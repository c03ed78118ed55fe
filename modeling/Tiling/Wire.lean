import Tiling.Text.Utf8
/-!
# Wire format

A request is a list of arguments, each followed by a NUL, in one buffer of bounded size;
arguments that do not fit are left out from the first such one on. A response that starts with
the failure byte is an error message.
-/

namespace Tiling.Wire

def capacity : Nat := 8192

/-- The byte that marks an error message. -/
def failureByte : UInt8 := 7

def frame (argument : String) : Bytes := Text.encode argument ++ [0]

/-- The frames that fit into `room` bytes. -/
def encodeWithin (room : Nat) : List String → Bytes
  | [] => []
  | argument :: rest =>
    let bytes := frame argument
    if bytes.length ≤ room then bytes ++ encodeWithin (room - bytes.length) rest else []

/-- The request that carries some arguments. -/
def encodeRequest (arguments : List String) : Bytes := encodeWithin capacity arguments

/-- The parts between NULs; `part` is the current one, last byte first. -/
def splitFrom (part : Bytes) : Bytes → List Bytes
  | [] => [part.reverse]
  | b :: rest => if b = 0 then part.reverse :: splitFrom [] rest else splitFrom (b :: part) rest

def decodeRequest (bytes : Bytes) : List String :=
  let bytes := Text.dropFinalNul bytes
  if bytes.isEmpty then [] else (splitFrom [] bytes).map Text.decode

/-- The response that carries an error message. -/
def failure (message : String) : Bytes := failureByte :: Text.encode message

/-- The response, or its beginning, carries an error message. -/
def isFailure (response : Bytes) : Bool := response.head? == some failureByte

end Tiling.Wire
