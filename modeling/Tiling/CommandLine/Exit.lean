import Tiling.CommandLine.Reader
import Tiling.Text.Utf8
/-!
# Exits

What a program that ends writes, and its exit code. Help and the version are written to the
standard output; a usage error has an exit code of its own.
-/

namespace Tiling.CommandLine

/-- The end of a program. -/
structure Exit where
  code : UInt8
  output : Bytes
  errors : Bytes
  deriving DecidableEq, Repr

namespace Exit

def usageCode : UInt8 := 2

/-- The exit of a program whose arguments end it. -/
def ofStop (p : Program) : Stop → Exit
  | .help => ⟨0, Text.encode p.helpText, []⟩
  | .version => ⟨0, Text.encode p.versionText, []⟩
  | .usage e => ⟨usageCode, [], Text.encode (p.complaint e)⟩

/-- The code for an exit status, which may be out of the range of codes. -/
def codeOf (status : Int32) : UInt8 :=
  if 0 ≤ status ∧ status ≤ 255 then UInt8.ofNat status.toInt.toNat else 1

end Exit

end Tiling.CommandLine
