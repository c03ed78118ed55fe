import Tiling.Daemon.Run
import Tiling.Successor
import Tiling.Subscribers.Audience
/-!
# Sessions

The program together with the clients on the other side of its streams, over any number of
restarts. Clients ask, listen and go away; when the program hands over, a successor takes its
place, and the streams in between are open to none but the clients.
-/

namespace Tiling

/-- The program and its clients. -/
structure Session where
  daemon : Daemon
  /-- Subscribers on their way to a successor. -/
  handedOver : List Subscriber
  readers : List Reader

/-- What a client gets for its request. -/
structure Exchange where
  reply : Bytes
  /-- The connection has become the stream of a subscriber. -/
  isOpen : Bool
  /-- For a new FIFO: its file is still there. -/
  hasFifo : Option Bool
  deriving DecidableEq, Repr

namespace Session

def start (d : Daemon) : Session := ⟨d, [], []⟩

def audience (s : Session) : Audience := ⟨s.daemon.subscribers, s.handedOver, s.readers⟩

def withAudience (s : Session) (a : Audience) : Session :=
  { daemon := { s.daemon with subscribers := a.subscribers }
    handedOver := a.handedOver
    readers := a.readers }

/-- All clients that listen read everything. -/
def listen (s : Session) : List Finding × Session :=
  let (found, a) := s.audience.read
  (found, s.withAudience a)

def turn (env : Surroundings) (s : Session) (cause : Daemon.Cause) (events : List DisplayEvent)
    (lost : Bool) : Option Bytes × Session :=
  let (d, answer) := s.daemon.wakeUp env cause events lost
  (answer, { s with daemon := d })

/-- The classifier of a window ends; hands back what it had been told. -/
def settle (env : Surroundings) (s : Session) (window : Window) (answer : Option String) :
    Option (List String) × Session :=
  match s.daemon.finishClassifier env window answer with
  | some (arguments, d) => (some arguments, { s with daemon := d })
  | none => (none, s)

/-- A client sends a request and goes away at once. -/
def abandon (env : Surroundings) (s : Session) (request : Bytes) : Session :=
  (s.turn env (.connection (.through (.socket false)) request) [] false).2

/-- The client has become a subscriber, and listens under a name as long as its stream is open. -/
def subscribed (s : Session) (name : String) (descriptor : Nat) : Exchange × Session :=
  let a := s.audience
  let s := s.withAudience (a.modify descriptor Stream.drain)
  let isOpen := a.isOpen descriptor
  (⟨a.waiting descriptor, isOpen, none⟩,
    if isOpen then s.withAudience (s.audience.join ⟨name, descriptor, none, true⟩) else s)

/-- The client opens the FIFO that it was told of, if its file is there. -/
def openFifo (s : Session) (name : String) (descriptor : Nat) (reply : Bytes) :
    Exchange × Session :=
  let path := Text.decode reply.dropLast
  let isThere := s.daemon.subscribers.files.has path
  (⟨reply, false, some isThere⟩,
    if isThere then s.withAudience (s.audience.join ⟨name, descriptor, some path, true⟩) else s)

/-- A client sends a request and takes what it gets. -/
def ask (env : Surroundings) (s : Session) (name : String) (request : Bytes) :
    Exchange × Session :=
  let descriptor := s.daemon.nextDescriptor
  match s.turn env (.connection (.through (.socket true)) request) [] false with
  | (none, s) => s.subscribed name descriptor
  | (some reply, s) =>
    if s.daemon.nextDescriptor = descriptor then (⟨reply, false, none⟩, s)
    else s.openFifo name descriptor reply

def hangUp (s : Session) (name : String) : Session := s.withAudience (s.audience.close name)

def leave (env : Surroundings) (s : Session) : Session × Option Daemon.Handover :=
  let (d, handover) := s.daemon.leave env
  ({ s with daemon := d, handedOver := (handover.map Daemon.Handover.streams).getD [] }, handover)

/-- The daemon comes up, with a snapshot if there is one. -/
def configure (s : Session) (snapshot : Option Snapshot) (stream? : Int32 → Option Stream) :
    Session :=
  let d := match snapshot with
    | some snapshot => s.daemon.restore snapshot stream?
    | none => s.daemon
  { s with daemon := d.configure }

/-- A successor that has not come up yet, on the same display and with the same clients. -/
def successor (s : Session) (outputs : List (String × Rect)) (config : Config) : Session :=
  let fresh := Daemon.start outputs config s.daemon.stage.feedbackIds s.daemon.subscribers.files
  { s with daemon := { fresh with nextDescriptor := s.daemon.nextDescriptor }, handedOver := [] }

def drop (s : Session) : Session :=
  { s with daemon := { s.daemon with subscribers := s.daemon.subscribers.drop } }

end Session

end Tiling
