/-!
# FIFO names

FIFOs are made in a directory under the lowest free number of a common stem, of which there are a
thousand. A number is free again as soon as the file is gone.
-/

namespace Tiling

/-- A directory for FIFOs. -/
structure FifoDirectory where
  /-- What stands before the name of a file in its path. -/
  location : String
  /-- The directory exists. -/
  present : Bool
  /-- Paths of the files in it. -/
  paths : List String
  deriving DecidableEq, Repr

/-- Why no FIFO can be made. -/
inductive FifoError where
  | noDirectory
  | nameTooLong
  | noFreeName
  deriving DecidableEq, Repr

def FifoError.message : FifoError → String
  | .noDirectory => "No such file or directory (os error 2)"
  | .nameTooLong => "File name too long (os error 36)"
  | .noFreeName => "no free FIFO name"

namespace FifoDirectory

/-- How many FIFOs of one stem there can be. -/
def capacity : Nat := 1000

/-- Bytes of the longest file name. -/
def longestName : Nat := 255

def has (d : FifoDirectory) (path : String) : Bool := d.paths.contains path

def nameOf (stem : String) (n : Nat) : String := stem ++ "-" ++ toString n

def pathOf (d : FifoDirectory) (stem : String) (n : Nat) : String := d.location ++ nameOf stem n

/-- The lowest number whose name is free. -/
def freeNumber? (d : FifoDirectory) (stem : String) : Option Nat :=
  (List.range capacity).find? fun n => !d.has (d.pathOf stem n)

/-- Makes a FIFO and hands back its path; a stem with a slash would lie in another directory,
which does not exist. -/
def make (d : FifoDirectory) (stem : String) : Except FifoError (FifoDirectory × String) :=
  if !d.present || stem.contains '/' then .error .noDirectory
  else
    match d.freeNumber? stem with
    | none => .error .noFreeName
    | some n =>
      if longestName < (nameOf stem n).utf8ByteSize then .error .nameTooLong
      else
        let path := d.pathOf stem n
        .ok ({ d with paths := path :: d.paths }, path)

def remove (d : FifoDirectory) (path : String) : FifoDirectory :=
  { d with paths := d.paths.filter (· != path) }

theorem has_remove_same (d : FifoDirectory) (path : String) : (d.remove path).has path = false := by
  simp [has, remove]

theorem has_remove_other (d : FifoDirectory) {path other : String} (h : other ≠ path) :
    (d.remove path).has other = d.has other := by
  simp [has, remove, h]

end FifoDirectory

end Tiling
