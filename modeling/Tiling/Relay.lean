import Tiling.Wire
/-!
# Relaying a response

A response comes in pieces. Its first byte decides whether it is written to the output or,
without that byte, to the errors. A place that does not take all of a piece gets no more.
-/

namespace Tiling

/-- How a read is answered. -/
inductive ReadAnswer where
  /-- Some bytes; none at the end of the response. -/
  | received (bytes : Bytes)
  | interrupted
  /-- Any other error, with what the system says about it. -/
  | failed (reason : String)
  deriving DecidableEq, Repr

/-- A place that is written to. -/
structure Sink where
  written : Bytes
  /-- How many more bytes it takes; none if it takes any number. -/
  room : Option Nat
  deriving DecidableEq, Repr

namespace Sink

def takes (s : Sink) (bytes : Bytes) : Bool := s.room.all (bytes.length ≤ ·)

/-- Writes as much as the place takes. -/
def write (s : Sink) (bytes : Bytes) : Sink :=
  match s.room with
  | none => ⟨s.written ++ bytes, none⟩
  | some room => ⟨s.written ++ bytes.take room, some (room - bytes.length)⟩

end Sink

/-- Why there is no more reading. -/
inductive RelayStop where
  /-- The place did not take all of a piece, such as a closed pipe. -/
  | refused
  | unreadable (reason : String)
  deriving DecidableEq, Repr

/-- What was written so far. -/
structure Relay where
  /-- Whether the response is a failure, once that is known. -/
  failed : Option Bool
  output : Sink
  errors : Sink
  stop : Option RelayStop
  deriving DecidableEq, Repr

namespace Relay

/-- Nothing is written yet; the places take so many bytes. -/
def onto (output errors : Option Nat) : Relay := ⟨none, ⟨[], output⟩, ⟨[], errors⟩, none⟩

/-- Nothing is written yet, and everything will be taken. -/
def start : Relay := onto none none

/-- Where a failure or a success is written. -/
def place (r : Relay) (failed : Bool) : Sink := if failed then r.errors else r.output

/-- Writes to the place of a failure or to that of a success. -/
def write (r : Relay) (failed : Bool) (bytes : Bytes) : Relay :=
  let stop := if (r.place failed).takes bytes then r.stop else some .refused
  if failed then ⟨some true, r.output, r.errors.write bytes, stop⟩
  else ⟨some false, r.output.write bytes, r.errors, stop⟩

/-- Takes a piece that is not empty. -/
def take (r : Relay) (bytes : Bytes) : Relay :=
  match r.failed with
  | some failed => r.write failed bytes
  | none => if Wire.isFailure bytes then r.write true (bytes.drop 1) else r.write false bytes

/-- Reads up to the end of the response, a piece that is refused, or an error. -/
def run (r : Relay) : List ReadAnswer → Relay
  | [] => r
  | .interrupted :: rest => r.run rest
  | .failed reason :: _ => { r with stop := some (.unreadable reason) }
  | .received bytes :: rest =>
    if bytes.isEmpty then r
    else
      let r := r.take bytes
      if r.stop.isSome then r else r.run rest

def isFailure (r : Relay) : Bool := r.failed.getD false

end Relay

end Tiling
