import Tiling.FilePath
import Tiling.Snapshot.Decode
import Tiling.Text.Quoted
import Tiling.Text.Utf8
/-!
# Successors

A program that restarts leaves its snapshot in a file and is replaced by a successor, which is
started with that file and the descriptor of the control socket. The successor deletes the file
as it reads it.
-/

namespace Tiling

/-- Why a file has no snapshot. -/
inductive SnapshotError where
  /-- There is no such file, or it is no text. -/
  | unreadable (path : String)
  | malformed
  deriving DecidableEq, Repr

def SnapshotError.message : SnapshotError → String
  | .unreadable path => "Failed to read state file " ++ Text.quoteName path
  | .malformed => "Failed to parse state file"

namespace Snapshot

def load (path : String) (content : Option Bytes) : Except SnapshotError Snapshot :=
  match content.bind Text.decode? with
  | none => .error (.unreadable path)
  | some text =>
    match ofText? text with
    | some s => .ok s
    | none => .error .malformed

/-- Loading deletes the file: it was read, whatever was in it. -/
def isConsumed (content : Option Bytes) : Bool := (content.bind Text.decode?).isSome

end Snapshot

/-- The arguments of a successor: those of the program up to its snapshot option, the snapshot
and the descriptor. -/
def successorArguments (arguments : List String) (path : String) (descriptor : Int32) :
    List String :=
  arguments.takeWhile (· != "-s") ++ ["-s", path, "-o", Numeral.decimal descriptor.toInt]

/-- Why the program was not replaced. -/
inductive ReplacementError where
  | noProgram
  /-- There is no such program. -/
  | missing (program : String)
  /-- The name of the program is longer than a file name can be. -/
  | nameTooLong (program : String)
  /-- An argument cannot be passed on. -/
  | nulByte (program : String)
  deriving DecidableEq, Repr

/-- The wording of an error, with its cause. -/
def ReplacementError.message : ReplacementError → String
  | .noProgram => "Empty restart command line"
  | .missing program =>
    "Failed to execute " ++ Text.quoteName program ++ ": No such file or directory (os error 2)"
  | .nameTooLong program =>
    "Failed to execute " ++ Text.quoteName program ++ ": File name too long (os error 36)"
  | .nulByte program =>
    "Failed to execute " ++ Text.quoteName program ++ ": nul byte found in provided data"

/-- Why a command whose program is nowhere to be found fails. -/
def replacementError (command : List String) : ReplacementError :=
  match command with
  | [] => .noProgram
  | program :: _ =>
    if command.any (·.contains '\x00') then .nulByte program
    else if 4095 < program.utf8ByteSize ∨
        (FilePath.pieces ⟨program⟩).any fun name => 255 < (String.ofList name).utf8ByteSize then
      .nameTooLong program
    else .missing program

end Tiling
