import Tiling.Client
import Tiling.Text.Blank
/-!
# Rules

What a classifier says about a new window: blank-separated assignments, of which those with an
unknown key or value are passed over. The written form of a set of consequences reads back as
itself.
-/

namespace Tiling

/-- How a new window is treated. -/
structure Consequences where
  state : Option ClientState
  layer : Option Layer
  /-- Name of the desktop it goes to. -/
  desktop : Option String
  flags : Flags
  /-- It gets the focus. -/
  focus : Bool
  /-- It becomes part of the model. -/
  manage : Bool
  deriving DecidableEq, Repr

namespace Consequences

/-- The treatment of a window without rules. -/
def standard : Consequences := ⟨none, none, none, Flags.none, true, true⟩

/-- Carries out one assignment; one without meaning changes nothing. -/
def assign (csq : Consequences) (key value : String) : Consequences :=
  match key with
  | "state" => { csq with state := (ClientState.ofWord? value).or csq.state }
  | "layer" => { csq with layer := (Layer.ofWord? value).or csq.layer }
  | "desktop" => { csq with desktop := if value.isEmpty then csq.desktop else some value }
  | "focus" => { csq with focus := (switch? value).getD csq.focus }
  | "manage" => { csq with manage := (switch? value).getD csq.manage }
  | _ =>
    match Flag.ofWord? key, switch? value with
    | some flag, some b => { csq with flags := csq.flags.set flag b }
    | _, _ => csq

/-- Key and value of a token, parted at the first equals sign. -/
def assignment? (token : String) : Option (String × String) :=
  match token.toList.span (· != '=') with
  | (_, []) => none
  | (key, _ :: value) => some (String.ofList key, String.ofList value)

def applyToken (csq : Consequences) (token : String) : Consequences :=
  match assignment? token with
  | none => csq
  | some (key, value) => csq.assign key value

/-- Carries out the tokens of a text from left to right. -/
def apply (csq : Consequences) (text : String) : Consequences :=
  (Text.fields text).foldl applyToken csq

/-- The assignments that make up a set of consequences. -/
def tokens (csq : Consequences) : List (String × String) :=
  (csq.state.map fun s => ("state", s.word)).toList ++
    (csq.layer.map fun l => ("layer", l.word)).toList ++
    (csq.desktop.map fun d => ("desktop", d)).toList ++
    [("sticky", onOff csq.flags.sticky), ("private", onOff csq.flags.exclusive),
      ("locked", onOff csq.flags.locked), ("marked", onOff csq.flags.marked),
      ("focus", onOff csq.focus), ("manage", onOff csq.manage)]

/-- The written form, as a classifier gets it. -/
def render (csq : Consequences) : String :=
  " ".intercalate (csq.tokens.map fun (key, value) => key ++ "=" ++ value)

end Consequences

end Tiling
