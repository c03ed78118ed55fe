import Tiling.CommandLine.Exit
import Tiling.DisplayName
import Tiling.Relay
import Tiling.Text.Quoted
/-!
# Messenger

The program that hands its arguments to the window manager as one request and relays the
response.
-/

namespace Tiling

open CommandLine

/-- Why the control socket cannot be used. -/
inductive ReachError where
  | missing
  | refused
  | emptyPath
  | longPath
  deriving DecidableEq, Repr

def ReachError.message : ReachError → String
  | .missing => "No such file or directory (os error 2)"
  | .refused => "Connection refused (os error 111)"
  | .emptyPath => "Invalid argument (os error 22)"
  | .longPath => "path must be shorter than SUN_LEN"

/-- Why the messenger gives up. -/
inductive MessengerError where
  | noMessage
  | noPath (e : SocketPathError)
  | unreachable (path : String) (e : ReachError)
  | unreadable (reason : String)
  deriving DecidableEq, Repr

def MessengerError.message : MessengerError → String
  | .noMessage => "no arguments given"
  | .noPath e => e.message
  | .unreachable path e =>
    "Failed to connect to the socket " ++ Text.quoteName path ++ ": " ++ e.message
  | .unreadable reason => "Failed to read the response: " ++ reason

namespace Messenger

/-- The option that asks for the path of the control socket. -/
def pathSwitch : Switch :=
  ⟨none, some "print-socket-path", .mark, "Print the socket path and exit"⟩

def program : Program :=
  { name := "splitc"
    version := "0.1.0"
    purpose := "Send a message to the running splitwm daemon"
    switches := [pathSwitch]
    words := some ⟨"MESSAGE", "Message to send (e.g. `query --monitors`)"⟩ }

/-- What surrounds the messenger. -/
structure Surroundings where
  /-- The control socket, if it is set. -/
  socket : Option String
  /-- The display, if it is named. -/
  display : Option String
  /-- The response at a control socket, in pieces. -/
  reach : FilePath → Except ReachError (List ReadAnswer)

/-- What the messenger does. -/
structure Outcome where
  exit : Exit
  /-- The request that was sent. -/
  request : Option Bytes
  deriving DecidableEq, Repr

/-- Bytes of the longest path of a socket. -/
def longestPath : Nat := 107

def connect (env : Surroundings) (path : FilePath) : Except ReachError (List ReadAnswer) :=
  if path.text.isEmpty then .error .emptyPath
  else if longestPath < path.text.utf8ByteSize then .error .longPath
  else env.reach path

/-- What is written to the errors when the messenger gives up. -/
def complaint (e : MessengerError) : Bytes := Text.encode ("splitc: " ++ e.message ++ "\n")

/-- The end with an error before anything is sent. -/
def fail (e : MessengerError) : Outcome := ⟨⟨1, [], complaint e⟩, none⟩

/-- The end once a response was relayed; a place that takes no more is no error. -/
def conclude (r : Relay) : Exit :=
  match r.stop with
  | some (.unreadable reason) =>
    ⟨1, r.output.written, r.errors.written ++ complaint (.unreadable reason)⟩
  | some .refused | none => ⟨if r.isFailure then 1 else 0, r.output.written, r.errors.written⟩

def send (env : Surroundings) (message : List String) : Outcome :=
  if message.isEmpty then fail .noMessage
  else
    match DisplayName.findSocket env.socket env.display with
    | .error e => fail (.noPath e)
    | .ok path =>
      match connect env path with
      | .error e => fail (.unreachable path.text e)
      | .ok answers =>
        ⟨conclude (Relay.start.run answers), some (Wire.encodeRequest message)⟩

def run (env : Surroundings) (arguments : List String) : Outcome :=
  match program.read .empty arguments with
  | .error stop => ⟨.ofStop program stop, none⟩
  | .ok r =>
    if r.switches.contains pathSwitch then
      let path := DisplayName.findSocketOrLocal env.socket env.display
      ⟨⟨0, Text.encode (path.text ++ "\n"), []⟩, none⟩
    else send env r.words

end Messenger

end Tiling
