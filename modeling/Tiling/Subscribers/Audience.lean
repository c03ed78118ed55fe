import Tiling.Subscribers
/-!
# Audience

The readers at the other ends of the streams. A reader reads everything that waits for it; once
it has found its stream closed it reads no more. Streams that are handed over to a successor
stay open meanwhile.
-/

namespace Tiling

/-- Somebody at the other end of a stream. -/
structure Reader where
  name : String
  descriptor : Nat
  /-- Path of the FIFO, if the stream is one. -/
  fifo : Option String
  isReading : Bool
  deriving DecidableEq, Repr

/-- What a reader finds. -/
structure Finding where
  name : String
  data : Bytes
  /-- The writer is still there. -/
  isOpen : Bool
  /-- The file of the FIFO is still there. -/
  hasFile : Option Bool
  deriving DecidableEq, Repr

/-- Subscribers with their readers. -/
structure Audience where
  subscribers : Subscribers
  /-- Subscribers on their way to a successor. -/
  handedOver : List Subscriber
  readers : List Reader
  deriving DecidableEq, Repr

namespace Audience

def stream? (a : Audience) (descriptor : Nat) : Option Stream :=
  ((a.handedOver.find? (·.descriptor == descriptor)).map Subscriber.stream).or
    (a.subscribers.stream? descriptor)

def modify (a : Audience) (descriptor : Nat) (f : Stream → Stream) : Audience :=
  { a with
    subscribers := a.subscribers.modifyStream descriptor f
    handedOver := a.handedOver.map fun sub =>
      if sub.descriptor = descriptor then { sub with stream := f sub.stream } else sub }

/-- The stream of a descriptor is open on the writing side. -/
def isOpen (a : Audience) (descriptor : Nat) : Bool := (a.stream? descriptor).any Stream.isOpen

def waiting (a : Audience) (descriptor : Nat) : Bytes :=
  ((a.stream? descriptor).map Stream.waiting).getD []

/-- The file of a reader's FIFO is there, if it has one. -/
def hasFile (a : Audience) (r : Reader) : Option Bool := r.fifo.map a.subscribers.files.has

def reader? (a : Audience) (name : String) : Option Reader := a.readers.find? (·.name == name)

/-- All readers read everything. -/
def read (a : Audience) : List Finding × Audience :=
  let reading := a.readers.filter Reader.isReading
  let found := reading.map fun r =>
    (⟨r.name, a.waiting r.descriptor, a.isOpen r.descriptor, a.hasFile r⟩ : Finding)
  let b := reading.foldl (fun (b : Audience) r => b.modify r.descriptor Stream.drain) a
  (found, { b with readers := b.readers.map fun r =>
    { r with isReading := r.isReading && a.isOpen r.descriptor } })

def close (a : Audience) (name : String) : Audience :=
  match a.reader? name with
  | none => a
  | some r =>
    let a := a.modify r.descriptor Stream.closeReader
    { a with readers := a.readers.map fun other =>
      if other.descriptor = r.descriptor then { other with isReading := false } else other }

/-- A reader comes, in the place of one with its name. -/
def join (a : Audience) (r : Reader) : Audience :=
  let a := a.close r.name
  { a with readers := a.readers.filter (·.name != r.name) ++ [r] }

end Audience

end Tiling
