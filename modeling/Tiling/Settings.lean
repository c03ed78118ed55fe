import Tiling.Client
/-!
# Settings

The six settings that can be read and changed while the program runs, by key and as text. A
change that is refused leaves all settings alone.
-/

namespace Tiling

/-- What the program can be told to do differently. -/
structure Settings where
  /-- First characters of every status report. -/
  statusPrefix : String
  /-- Program that classifies new windows; none when empty. -/
  rulesCommand : String
  /-- Milliseconds after which a classifier is given up. -/
  rulesTimeout : UInt64
  /-- Floating windows take part in restacking. -/
  autoRaise : Bool
  tightness : Tightness
  /-- Colour of preselection feedback, as written. -/
  feedbackColor : String
  deriving DecidableEq, Repr

/-- Name of a setting. -/
inductive SettingKey where
  | statusPrefix
  | rulesCommand
  | rulesTimeout
  | autoRaise
  | tightness
  | feedbackColor
  deriving DecidableEq, Repr

namespace SettingKey

/-- All keys in the order in which a settings file lists them. -/
def all : List SettingKey :=
  [.statusPrefix, .rulesCommand, .rulesTimeout, .autoRaise, .tightness, .feedbackColor]

def word : SettingKey → String
  | .statusPrefix => "status_prefix"
  | .rulesCommand => "external_rules_command"
  | .rulesTimeout => "external_rules_timeout_ms"
  | .autoRaise => "auto_raise"
  | .tightness => "directional_focus_tightness"
  | .feedbackColor => "presel_feedback_color"

def ofWord? : String → Option SettingKey
  | "status_prefix" => some .statusPrefix
  | "external_rules_command" => some .rulesCommand
  | "external_rules_timeout_ms" => some .rulesTimeout
  | "auto_raise" => some .autoRaise
  | "directional_focus_tightness" => some .tightness
  | "presel_feedback_color" => some .feedbackColor
  | _ => none

theorem ofWord?_word (k : SettingKey) : ofWord? k.word = some k := by
  cases k <;> rfl

end SettingKey

/-- Why a setting cannot be read or changed. -/
inductive SettingError where
  | unknown (key : String)
  | invalid (key value : String)
  deriving DecidableEq, Repr

def SettingError.message : SettingError → String
  | .unknown key => "Unknown setting: '" ++ key ++ "'."
  | .invalid key value => "Invalid value for '" ++ key ++ "': '" ++ value ++ "'."

/-- The pixel value of a colour: a number sign and six characters that read as a hexadecimal
word. -/
def color? (text : String) : Option UInt32 :=
  match text.toList with
  | '#' :: digits =>
    let digits := String.ofList digits
    if digits.utf8ByteSize = 6 then Numeral.hexUInt32? digits else none
  | _ => none

namespace Settings

/-- The settings that hold where nothing else is said. -/
def standard : Settings := ⟨"W", "", 5000, true, .high, "#4c96ff"⟩

/-- Pixel value of preselection feedback; that of the standard colour where the text is no
colour. -/
def feedbackPixel (s : Settings) : UInt32 := (color? s.feedbackColor).getD 0x4c96ff

def value (s : Settings) : SettingKey → String
  | .statusPrefix => s.statusPrefix
  | .rulesCommand => s.rulesCommand
  | .rulesTimeout => toString s.rulesTimeout.toNat
  | .autoRaise => if s.autoRaise then "true" else "false"
  | .tightness => s.tightness.word
  | .feedbackColor => s.feedbackColor

/-- Gives a setting the value of a text, if it has one for this key. -/
def assign? (s : Settings) (key : SettingKey) (text : String) : Option Settings :=
  match key with
  | .statusPrefix => some { s with statusPrefix := text }
  | .rulesCommand => some { s with rulesCommand := text }
  | .rulesTimeout => (Numeral.uint64? text).map fun n => { s with rulesTimeout := n }
  | .autoRaise => (switch? text).map fun b => { s with autoRaise := b }
  | .tightness => (Tightness.ofWord? text).map fun t => { s with tightness := t }
  | .feedbackColor => (color? text).map fun _ => { s with feedbackColor := text }

/-- Reads a setting by the word for its key. -/
def get (s : Settings) (key : String) : Except SettingError String :=
  match SettingKey.ofWord? key with
  | some k => .ok (s.value k)
  | none => .error (.unknown key)

/-- Changes a setting by the word for its key. -/
def set (s : Settings) (key text : String) : Except SettingError Settings :=
  match SettingKey.ofWord? key with
  | some k =>
    match s.assign? k text with
    | some s => .ok s
    | none => .error (.invalid key text)
  | none => .error (.unknown key)

end Settings

/-- Settings, and the desktops that every monitor starts with. -/
structure Config where
  settings : Settings
  desktopNames : List String
  deriving DecidableEq, Repr

/-- The configuration that holds without a settings file. -/
def Config.standard : Config := ⟨.standard, ["I", "II", "III", "IV"]⟩

end Tiling
