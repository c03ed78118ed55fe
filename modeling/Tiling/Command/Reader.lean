import Tiling.Command.Basic
/-!
# Reading commands

Arguments are read from left to right; the first one that cannot be read decides the error. A
first argument without a leading hyphen names what a `node` or `desktop` command is about.
-/

namespace Tiling.Command

/-- What a `query` option asks for. -/
def queryOption? : String → Option Query
  | "-M" | "--monitors" => some .monitors
  | "-D" | "--desktops" => some .desktops
  | "-N" | "--nodes" => some .nodes
  | "-S" | "--stack" => some .stack
  | _ => none

/-- Reads the arguments of `query`, of which there is one. -/
def readQuery (found : Option Query) : List String → Except CommandError Command
  | [] =>
    match found with
    | some what => .ok (.query what)
    | none => .error (.noSteps .query)
  | word :: rest =>
    match queryOption? word, found with
    | some what, none => readQuery (some what) rest
    | _, _ => .error (.unknownOption .query word)

def readBudget (option value : String) : Except CommandError Int32 :=
  match Numeral.int32? value with
  | none => .error (.invalidArgument .subscribe option value)
  | some n =>
    if n < 1 then .error (.invalidArgument .subscribe option (Numeral.decimal n.toInt)) else .ok n

/-- The option of `subscribe` for a FIFO. -/
def isFifoOption (word : String) : Bool := word == "-f" || word == "--fifo"

/-- The option of `subscribe` for a budget. -/
def isBudgetOption (word : String) : Bool := word == "-c" || word == "--count"

/-- Reads the arguments of `subscribe`; without topics the report is meant. -/
def readSubscribe (fifo : Bool) (budget : Int32) (topics : Topics) :
    List String → Except CommandError Command
  | [] => .ok (.subscribe fifo budget (if topics = Topics.none then .single .report else topics))
  | word :: rest =>
    if isFifoOption word then readSubscribe true budget topics rest
    else if isBudgetOption word then
      match rest with
      | [] => .error (.missingArgument .subscribe word)
      | value :: rest =>
        match readBudget word value with
        | .error e => .error e
        | .ok budget => readSubscribe fifo budget topics rest
    else
      match Topics.ofWord? word with
      | none => .error (.invalidArgument .subscribe "event" word)
      | some more => readSubscribe fifo budget (topics ||| more) rest

/-- What a `wm` option asks for. -/
def controlOption? : String → Option Control
  | "-r" | "--restart" => some .restart
  | "-d" | "--dump-state" => some .dumpState
  | "-g" | "--get-status" => some .status
  | _ => none

/-- Reads the arguments of `wm`. -/
def readControl : List String → Except CommandError Command
  | [] => .error (.noSteps .wm)
  | word :: rest =>
    match controlOption? word, rest with
    | none, _ => .error (.unknownOption .wm word)
    | some what, [] => .ok (.wm what)
    | some _, extra :: _ => .error (.unknownOption .wm extra)

/-- Reads the arguments of `quit`; what follows the status is passed over. -/
def readQuit : List String → Except CommandError Command
  | [] => .ok (.quit none)
  | value :: _ =>
    match Numeral.int32? value with
    | some n => .ok (.quit (some n))
    | none => .error (.invalidArgument .quit "status" value)

/-- Reads the arguments of `config`. -/
def readConfig : List String → Except CommandError Command
  | [] => .error (.missingArgument .config "key")
  | [key] => .ok (.config key none)
  | [key, value] => .ok (.config key (some value))
  | _ :: _ :: extra :: _ => .error (.unknownOption .config extra)

/-- The window of a descriptor: its identifier in decimal, or in hexadecimal after `0x` or `0X`. -/
def windowOf? (descriptor : String) : Option Window :=
  match descriptor.toList with
  | '0' :: 'x' :: digits | '0' :: 'X' :: digits => Numeral.hexUInt32? (String.ofList digits)
  | _ => Numeral.uint32? descriptor

/-- What a descriptor names: the focused node or a window. -/
def nodeTarget? (descriptor : String) : Option NodeTarget :=
  if descriptor = "focused" then some .focused else (windowOf? descriptor).map .window

def flagOf? (word : List Char) : Option Flag := Flag.ofWord? (String.ofList word)

/-- A flag that is toggled, or set or cleared by `=on` or `=off` after its word. -/
def flagStep? (value : String) : Option NodeStep :=
  match value.toList.span (· != '=') with
  | (word, []) => flagOf? word |>.map (.flag · none)
  | (word, '=' :: ['o', 'n']) => flagOf? word |>.map (.flag · (some true))
  | (word, '=' :: ['o', 'f', 'f']) => flagOf? word |>.map (.flag · (some false))
  | _ => none

/-- A side to preselect, or `cancel`. -/
def preselStep? (value : String) : Option NodeStep :=
  if value = "cancel" then some (.presel none)
  else (Direction.ofWord? value).map fun dir => .presel (some dir)

/-- How the argument of a `node` option is read. -/
def nodeOption? : String → Option (String → Option NodeStep)
  | "-t" | "--state" => some fun value => (ClientState.ofWord? value).map .state
  | "-l" | "--layer" => some fun value => (Layer.ofWord? value).map .layer
  | "-g" | "--flag" => some flagStep?
  | "-p" | "--presel-dir" => some preselStep?
  | _ => none

def isFocusOption (word : String) : Bool := word == "-f" || word == "--focus"

/-- Reads the steps of `node`; a direction after the focus option belongs to it. -/
def readNodeSteps : List String → Except CommandError (List NodeStep)
  | [] => .ok []
  | [word] =>
    if isFocusOption word then .ok [.focus]
    else
      match nodeOption? word with
      | none => .error (.unknownOption .node word)
      | some _ => .error (.missingArgument .node word)
  | word :: value :: rest =>
    if isFocusOption word then
      match Direction.ofWord? value with
      | some dir => (readNodeSteps rest).map (.focusNeighbour dir :: ·)
      | none => (readNodeSteps (value :: rest)).map (.focus :: ·)
    else
      match nodeOption? word with
      | none => .error (.unknownOption .node word)
      | some read =>
        match read value with
        | none => .error (.invalidArgument .node word value)
        | some step => (readNodeSteps rest).map (step :: ·)

def someSteps {α : Type} (verb : Verb) (build : List α → Command) :
    List α → Except CommandError Command
  | [] => .error (.noSteps verb)
  | steps => .ok (build steps)

/-- The argument stands for what a command is about, not for an option. -/
def isDescriptor (word : String) : Bool := word.toList.head? != some '-'

/-- Reads the arguments of `node`. -/
def readNode (arguments : List String) : Except CommandError Command :=
  match arguments with
  | [] => .error (.noSteps .node)
  | first :: rest =>
    if isDescriptor first then
      match nodeTarget? first with
      | none => .error (.invalidDescriptor .node first)
      | some target => (readNodeSteps rest).bind (someSteps .node (.node target))
    else (readNodeSteps arguments).bind (someSteps .node (.node .focused))

def isLayoutOption (word : String) : Bool := word == "-l" || word == "--layout"

/-- Reads the steps of `desktop`. -/
def readDesktopSteps : List String → Except CommandError (List DesktopStep)
  | [] => .ok []
  | [word] =>
    if isFocusOption word then .ok [.focus]
    else if isLayoutOption word then .error (.missingArgument .desktop word)
    else .error (.unknownOption .desktop word)
  | word :: value :: rest =>
    if isFocusOption word then (readDesktopSteps (value :: rest)).map (.focus :: ·)
    else if isLayoutOption word then
      match Layout.ofWord? value with
      | none => .error (.invalidArgument .desktop word value)
      | some layout => (readDesktopSteps rest).map (.layout layout :: ·)
    else .error (.unknownOption .desktop word)

/-- Reads the arguments of `desktop`. -/
def readDesktop (arguments : List String) : Except CommandError Command :=
  match arguments with
  | [] => .error (.noSteps .desktop)
  | first :: rest =>
    if isDescriptor first then
      let name := if first = "focused" then none else some first
      (readDesktopSteps rest).bind (someSteps .desktop (.desktop name))
    else (readDesktopSteps arguments).bind (someSteps .desktop (.desktop none))

def readAfter : Verb → List String → Except CommandError Command
  | .query => readQuery none
  | .subscribe => readSubscribe false (-1) Topics.none
  | .wm => readControl
  | .quit => readQuit
  | .config => readConfig
  | .node => readNode
  | .desktop => readDesktop

def ofArguments : List String → Except CommandError Command
  | [] => .error .empty
  | word :: rest =>
    match Verb.ofWord? word with
    | none => .error (.unknownCommand word)
    | some verb => readAfter verb rest

end Tiling.Command
