import Tiling.Text.Utf8
/-!
# Streams

Output that never waits: a write takes some of the bytes, takes none for now, or fails. A socket
takes everything while its reader is there. A FIFO takes what fits: its room is counted in pages,
and a write begins on the last page only if the odd part of it fits there.
-/

namespace Tiling

/-- How a write is answered. -/
inductive WriteAnswer where
  /-- The first bytes were taken. -/
  | accepted (count : Nat)
  | interrupted
  /-- Nothing can be taken now. -/
  | wouldBlock
  | failed
  deriving DecidableEq, Repr

/-- Room in a FIFO. -/
structure Pipe where
  freePages : Nat
  /-- Free bytes on the last page that is in use. -/
  tail : Nat
  deriving DecidableEq, Repr

namespace Pipe

def pageSize : Nat := 4096

/-- A FIFO with nothing in it. -/
def drained : Pipe := ⟨16, 0⟩

/-- The bytes of a write of `n` that go onto the last page. -/
def merged (p : Pipe) (n : Nat) : Nat := if n % pageSize ≤ p.tail then n % pageSize else 0

/-- Puts `n` bytes on new pages as far as there are some; says how many were put. -/
def fill (p : Pipe) (n : Nat) : Pipe × Nat :=
  let pages := min p.freePages ((n + pageSize - 1) / pageSize)
  if pages = 0 then (p, 0)
  else
    let taken := min n (pages * pageSize)
    (⟨p.freePages - pages, pages * pageSize - taken⟩, taken)

/-- Takes what fits of a write of `n` bytes. -/
def write (p : Pipe) (n : Nat) : Pipe × WriteAnswer :=
  let first := p.merged n
  let (p, others) := fill ⟨p.freePages, p.tail - first⟩ (n - first)
  (p, if first + others = 0 then .wouldBlock else .accepted (first + others))

end Pipe

/-- Where a stream leads. -/
inductive Channel where
  /-- A socket, with its reader there or gone. -/
  | socket (readerOpen : Bool)
  /-- A FIFO, which the writer holds open for reading too. -/
  | fifo (pipe : Pipe)
  deriving DecidableEq, Repr

/-- A stream to a subscriber. -/
structure Stream where
  channel : Channel
  /-- Answers to the next writes, before the channel answers for itself. -/
  script : List WriteAnswer
  /-- The writing side is open. -/
  isOpen : Bool
  /-- Bytes taken and not read yet, in pieces, the latest first. -/
  unread : List Bytes
  deriving DecidableEq, Repr

/-- What became of a message. -/
inductive Delivery where
  | sent
  /-- The reader is stalled; nothing was taken. -/
  | stalled
  /-- The stream cannot be used any more. -/
  | broken
  deriving DecidableEq, Repr

namespace Stream

def through (channel : Channel) : Stream := ⟨channel, [], true, []⟩

def waiting (s : Stream) : Bytes := s.unread.reverse.flatten

/-- Takes the first bytes of a write. -/
def take (s : Stream) (count : Nat) (bytes : Bytes) : Stream :=
  { s with unread := bytes.take count :: s.unread }

def drain (s : Stream) : Stream :=
  { s with
    unread := []
    channel := match s.channel with
      | .socket readerOpen => .socket readerOpen
      | .fifo _ => .fifo .drained }

/-- The reader goes away, which a FIFO does not notice. -/
def closeReader (s : Stream) : Stream :=
  { s with channel := match s.channel with
      | .socket _ => .socket false
      | .fifo pipe => .fifo pipe }

def close (s : Stream) : Stream := { s with isOpen := false }

/-- The reader has not hung up. -/
def isAlive (s : Stream) : Bool :=
  match s.channel with
  | .socket readerOpen => readerOpen
  | .fifo _ => true

def write (s : Stream) (bytes : Bytes) : Stream × WriteAnswer :=
  match s.script with
  | .accepted n :: rest =>
    let n := min n bytes.length
    (({ s with script := rest } : Stream).take n bytes, .accepted n)
  | answer :: rest => ({ s with script := rest }, answer)
  | [] =>
    match s.channel with
    | .socket true => (s.take bytes.length bytes, .accepted bytes.length)
    | .socket false => (s, .failed)
    | .fifo pipe =>
      match pipe.write bytes.length with
      | (pipe, .accepted n) =>
        (({ s with channel := .fifo pipe } : Stream).take n bytes, .accepted n)
      | (_, answer) => (s, answer)

/-- Writes what is left of a message in at most `fuel` writes; `begun` holds once some of it was
taken. -/
def sendFrom : Nat → Bool → Stream → Bytes → Stream × Delivery
  | _, _, s, [] => (s, .sent)
  | 0, _, s, _ => (s, .broken)
  | fuel + 1, begun, s, bytes =>
    match s.write bytes with
    | (s, .accepted 0) => (s, .broken)
    | (s, .accepted n) => sendFrom fuel true s (bytes.drop n)
    | (s, .interrupted) => sendFrom fuel begun s bytes
    | (s, .wouldBlock) => (s, if begun then .broken else .stalled)
    | (s, .failed) => (s, .broken)

def send (s : Stream) (message : Bytes) : Stream × Delivery :=
  sendFrom (s.script.length + message.length) false s message

end Stream

end Tiling
