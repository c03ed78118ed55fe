import Tiling.Monitor
import Tiling.Settings
import Tiling.Topic
/-!
# Commands

What can be asked for through the control socket, and why a request is refused.
-/

namespace Tiling

/-- What can be listed. -/
inductive Query where
  | monitors
  | desktops
  | nodes
  | stack
  deriving DecidableEq, Repr

/-- Requests about the program itself. -/
inductive Control where
  | restart
  | dumpState
  | status
  deriving DecidableEq, Repr

/-- A step of the `node` command. -/
inductive NodeStep where
  | focus
  /-- Focuses the neighbour in a direction. -/
  | focusNeighbour (dir : Direction)
  | state (s : ClientState)
  | layer (l : Layer)
  /-- Sets or clears a flag; toggles it without a value. -/
  | flag (f : Flag) (value : Option Bool)
  /-- Preselects a side; takes the preselection back without one. -/
  | presel (dir : Option Direction)
  deriving DecidableEq, Repr

/-- A step of the `desktop` command. -/
inductive DesktopStep where
  | focus
  | layout (l : Layout)
  deriving DecidableEq, Repr

/-- The node that a command is about. -/
inductive NodeTarget where
  | focused
  | window (w : Window)
  deriving DecidableEq, Repr

/-- A request in full. -/
inductive Command where
  | query (what : Query)
  /-- A negative budget never runs out. -/
  | subscribe (fifo : Bool) (budget : Int32) (topics : Topics)
  | wm (what : Control)
  | quit (status : Option Int32)
  /-- Reads a setting, or changes it to a value. -/
  | config (key : String) (value : Option String)
  | node (target : NodeTarget) (steps : List NodeStep)
  /-- Without a name the command is about the focused desktop. -/
  | desktop (name : Option String) (steps : List DesktopStep)
  deriving DecidableEq, Repr

/-- The first word of a request. -/
inductive Verb where
  | query
  | subscribe
  | wm
  | quit
  | config
  | node
  | desktop
  deriving DecidableEq, Repr

namespace Verb

def word : Verb → String
  | .query => "query"
  | .subscribe => "subscribe"
  | .wm => "wm"
  | .quit => "quit"
  | .config => "config"
  | .node => "node"
  | .desktop => "desktop"

def ofWord? : String → Option Verb
  | "query" => some .query
  | "subscribe" => some .subscribe
  | "wm" => some .wm
  | "quit" => some .quit
  | "config" => some .config
  | "node" => some .node
  | "desktop" => some .desktop
  | _ => none

theorem ofWord?_word (v : Verb) : ofWord? v.word = some v := by
  cases v <;> rfl

end Verb

/-- Why a request is refused. -/
inductive CommandError where
  | empty
  | unknownCommand (word : String)
  | unknownOption (verb : Verb) (option : String)
  | missingArgument (verb : Verb) (option : String)
  | invalidArgument (verb : Verb) (option value : String)
  | noSteps (verb : Verb)
  | invalidDescriptor (verb : Verb) (descriptor : String)
  /-- What the command is about does not exist. -/
  | noTarget (verb : Verb)
  | setting (error : SettingError)
  /-- No FIFO can be made, for a reason of the system. -/
  | subscribe (reason : String)
  /-- The state cannot be handed over, for a reason of the system. -/
  | restart (reason : String)
  deriving DecidableEq, Repr

def CommandError.message : CommandError → String
  | .empty => "No arguments given."
  | .unknownCommand word => "Unknown domain or command: '" ++ word ++ "'."
  | .unknownOption verb option => verb.word ++ ": Unknown option: '" ++ option ++ "'."
  | .missingArgument verb option => verb.word ++ ": Missing argument for '" ++ option ++ "'."
  | .invalidArgument verb option value =>
    verb.word ++ ": Invalid argument for '" ++ option ++ "': '" ++ value ++ "'."
  | .noSteps verb => verb.word ++ ": No commands given."
  | .invalidDescriptor verb descriptor =>
    verb.word ++ ": Invalid descriptor found in '" ++ descriptor ++ "'."
  | .noTarget verb => verb.word ++ ": No target matched."
  | .setting error => "config: " ++ error.message
  | .subscribe reason => "subscribe: " ++ reason
  | .restart reason => "wm: " ++ reason

end Tiling
