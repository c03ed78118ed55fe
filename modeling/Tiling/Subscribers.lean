import Tiling.Display
import Tiling.Fifo
import Tiling.Stream
import Tiling.Subscribers.Record
/-!
# Subscribers

Who gets which messages. A subscriber listens to some topics and may have a budget of messages;
it leaves when the budget is spent, when its stream breaks, and when its reader has hung up. Its
FIFO goes with it. During a restart nothing is closed or deleted, because a successor takes
over.
-/

namespace Tiling

/-- A stream with a subscription. -/
structure Subscriber where
  descriptor : Nat
  stream : Stream
  /-- Path of the FIFO, if the stream is one. -/
  fifo : Option String
  topics : Topics
  /-- Messages left; a negative budget never runs out. -/
  budget : Int32
  deriving DecidableEq, Repr

namespace Subscriber

/-- The record that is handed to a successor. -/
def record (sub : Subscriber) : SubscriberRecord :=
  ⟨Int32.ofNat sub.descriptor, sub.fifo, UInt32.ofNat sub.topics.toNat, sub.budget⟩

/-- The subscriber of a record, if its stream is open. -/
def ofRecord? (stream? : Int32 → Option Stream) (r : SubscriberRecord) : Option Subscriber :=
  (stream? r.descriptor).map fun stream =>
    ⟨r.descriptor.toInt.toNat, stream, r.fifo, Topics.ofBits r.topics.toNat, r.budget⟩

/-- Spends one message of the budget. -/
def spend (sub : Subscriber) : Subscriber :=
  if 0 < sub.budget then { sub with budget := sub.budget - 1 } else sub

def isSpent (sub : Subscriber) : Bool := sub.budget == 0

/-- Sends a message, which costs one of the budget whether it arrives or not. -/
def send (sub : Subscriber) (text : Bytes) : Subscriber × Delivery :=
  let sub := sub.spend
  let (stream, delivery) := sub.stream.send text
  ({ sub with stream := stream }, delivery)

/-- After a message: the subscriber has to leave. -/
def leaves (sub : Subscriber) (delivery : Delivery) : Bool :=
  delivery == .broken || sub.isSpent

/-- Gets a message if it listens to the topics; says whether it stays. -/
def deliver (topics : Topics) (text : Bytes) (sub : Subscriber) : Subscriber × Bool :=
  if sub.topics.meets topics then
    let (sub, delivery) := sub.send text
    (sub, !sub.leaves delivery)
  else (sub, true)

end Subscriber

/-- All subscribers in the order of their registration, and the files of their FIFOs. -/
structure Subscribers where
  members : List Subscriber
  /-- Subscribers that left. -/
  departed : List Subscriber
  /-- A successor is about to take over. -/
  restarting : Bool
  files : FifoDirectory
  deriving DecidableEq, Repr

namespace Subscribers

def empty (files : FifoDirectory) : Subscribers := ⟨[], [], false, files⟩

/-- Somebody listens to one of the topics. -/
def wants (s : Subscribers) (topics : Topics) : Bool := s.members.any (·.topics.meets topics)

/-- Lets go of a subscriber: its stream is closed and its FIFO deleted, unless a successor
follows. -/
def dispose (s : Subscribers) (sub : Subscriber) : Subscribers :=
  if s.restarting then { s with departed := s.departed ++ [sub] }
  else
    { s with
      departed := s.departed ++ [{ sub with stream := sub.stream.close }]
      files := match sub.fifo with
        | some path => s.files.remove path
        | none => s.files }

/-- Splits the members: those that satisfy the mark stay, and the others are let go of. -/
def keep (s : Subscribers) (marked : List (Subscriber × Bool)) : Subscribers :=
  ((marked.filter fun m => !m.2).map Prod.fst).foldl dispose
    { s with members := (marked.filter Prod.snd).map Prod.fst }

/-- Sends a message to everybody who listens to one of the topics. -/
def publish (s : Subscribers) (topics : Topics) (text : String) : Subscribers :=
  s.keep (s.members.map (Subscriber.deliver topics (Text.encode text)))

/-- Sends the messages among some effects. -/
def publishAll (s : Subscribers) (effects : List Effect) : Subscribers :=
  (effects.filterMap Effect.message?).foldl (fun s m => s.publish m.topics m.text) s

/-- Lets go of those whose reader has hung up. -/
def prune (s : Subscribers) : Subscribers :=
  s.keep (s.members.map fun sub => (sub, sub.stream.isAlive))

/-- Adds a subscriber at the end. -/
def add (s : Subscribers) (sub : Subscriber) : Subscribers :=
  { s with members := s.members ++ [sub] }

/-- Takes in a new subscriber; one that listens to the report gets it at once. -/
def register (s : Subscribers) (sub : Subscriber) (report : String) : Subscribers :=
  if sub.topics.has .report then
    let (sub, delivery) := sub.send (Text.encode report)
    if sub.leaves delivery then s.dispose sub else s.add sub
  else s.add sub

def records (s : Subscribers) : List SubscriberRecord := s.members.map Subscriber.record

/-- Makes the descriptors survive, from now on. -/
def beginRestart (s : Subscribers) : Subscribers := { s with restarting := true }

def release (s : Subscribers) : Subscribers × List Subscriber :=
  ({ s with members := [] }, s.members)

/-- The stream of a descriptor, also after its subscriber left. -/
def stream? (s : Subscribers) (descriptor : Nat) : Option Stream :=
  ((s.members ++ s.departed).find? (·.descriptor == descriptor)).map Subscriber.stream

def modifyStream (s : Subscribers) (descriptor : Nat) (f : Stream → Stream) : Subscribers :=
  let change (sub : Subscriber) : Subscriber :=
    if sub.descriptor = descriptor then { sub with stream := f sub.stream } else sub
  { s with members := s.members.map change, departed := s.departed.map change }

/-- The end of the registry: everybody is let go of. -/
def drop (s : Subscribers) : Subscribers := s.members.foldl dispose { s with members := [] }

end Subscribers

end Tiling
