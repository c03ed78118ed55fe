import Tiling.Settings
import Tiling.Text.Utf8
import Tiling.Toml.Document
/-!
# Settings files

A settings file is a document with the tables `settings` and `desktops`. What it does not
mention has its standard value, keys without a meaning are passed over, and a table may also be
given as an array of its values in order. Where no file is, one with the standard configuration
is made.
-/

namespace Tiling

open Toml (Item Entries)

/-- Why there is no configuration. -/
inductive ConfigError where
  /-- The file is no text. -/
  | unreadable
  | malformed
  deriving DecidableEq, Repr

def ConfigError.message : ConfigError → String
  | .unreadable => "Failed to read config file"
  | .malformed => "Failed to parse config file"

namespace Config

/-- The parts of a structure by key, or by position in an array. A date has none of them. -/
def partsOf? (keys : List String) : Item → Option (List (Option Item))
  | .table _ entries | .inline entries => some (keys.map (Entries.find? entries))
  | .array items => some (keys.mapIdx fun i _ => items[i]?)
  | .tables list =>
    some (keys.mapIdx fun i _ => (list.reverse[i]?).map fun entries => .table .header entries)
  | .scalar .moment => some (keys.map fun _ => none)
  | _ => none

def part {α : Type} (standard : α) (read : Item → Option α) : Option Item → Option α
  | none => some standard
  | some item => read item

def textOf? : Item → Option String
  | .text s => some s
  | _ => none

def boolOf? : Item → Option Bool
  | .scalar (.bool b) => some b
  | _ => none

/-- Reads a number that is not negative. -/
def uint64Of? : Item → Option UInt64
  | .scalar (.integer n) => if 0 ≤ n then some (UInt64.ofNat n.toNat) else none
  | _ => none

/-- The item has no parts, where it could have some. -/
def isHollow : Item → Bool
  | .table _ entries | .inline entries => entries.isEmpty
  | .array items => items.isEmpty
  | _ => false

/-- Reads a tightness: its word, or a table of which that is the only key and which says no
more. -/
def tightnessOf? : Item → Option Tightness
  | .text s => Tightness.ofWord? s
  | .table _ [(word, item)] | .inline [(word, item)] =>
    if isHollow item then Tightness.ofWord? word else none
  | _ => none

def textsOf? : Item → Option (List String)
  | .array items => items.mapM textOf?
  | _ => none

def settingsOf? (item : Item) : Option Settings := do
  let standard := Settings.standard
  let [start, command, timeout, raise, tightness, color] ←
    partsOf? (SettingKey.all.map SettingKey.word) item | none
  return {
    statusPrefix := ← part standard.statusPrefix textOf? start
    rulesCommand := ← part standard.rulesCommand textOf? command
    rulesTimeout := ← part standard.rulesTimeout uint64Of? timeout
    autoRaise := ← part standard.autoRaise boolOf? raise
    tightness := ← part standard.tightness tightnessOf? tightness
    feedbackColor := ← part standard.feedbackColor textOf? color }

def desktopNamesOf? (item : Item) : Option (List String) := do
  let [names] ← partsOf? ["names"] item | none
  part Config.standard.desktopNames textsOf? names

def ofEntries? (entries : Entries) : Option Config := do
  return ⟨← part .standard settingsOf? (Entries.find? entries "settings"),
    ← part Config.standard.desktopNames desktopNamesOf? (Entries.find? entries "desktops")⟩

def ofText? (text : String) : Option Config := (Toml.document text).bind ofEntries?

/-- The configuration in a file; the standard one without a file. -/
def load : Option Bytes → Except ConfigError Config
  | none => .ok .standard
  | some content =>
    match Text.decode? content with
    | none => .error .unreadable
    | some text =>
      match ofText? text with
      | some config => .ok config
      | none => .error .malformed

def plainLine (key : SettingKey) (value : String) : String := key.word ++ " = " ++ value ++ "\n"

def textLine (key : SettingKey) (value : String) : String := plainLine key ("\"" ++ value ++ "\"")

/-- The text of a settings file with the standard configuration. -/
def standardText : String :=
  let s := Settings.standard
  "[settings]\n" ++ textLine .statusPrefix s.statusPrefix ++
    textLine .rulesCommand s.rulesCommand ++ plainLine .rulesTimeout (s.value .rulesTimeout) ++
    plainLine .autoRaise (s.value .autoRaise) ++ textLine .tightness s.tightness.word ++
    textLine .feedbackColor s.feedbackColor ++ "\n[desktops]\nnames = [\n" ++
    String.join (Config.standard.desktopNames.map fun name => "    \"" ++ name ++ "\",\n") ++ "]\n"

/-- What the usual settings file holds once it was looked for: itself, or the standard
configuration if it can be made. -/
def settled (content : Option Bytes) (canMake : Bool) : Option Bytes :=
  content.or (if canMake then some (Text.encode standardText) else none)

end Config

end Tiling
