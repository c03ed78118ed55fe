import Tiling.Numeral
/-!
# Switches

The options of a program, how a usage error is worded, and the help text. An option has a letter
or a name or both; its value stands in the next argument, or in the same one, after an equals
sign if it follows a name.
-/

namespace Tiling.CommandLine

/-- What an option stands for. -/
inductive Meaning where
  /-- It takes the path of a file. -/
  | path (placeholder : String)
  /-- It takes a signed 32-bit number. -/
  | number (placeholder : String)
  /-- It says something without a value. -/
  | mark
  | help
  | version
  deriving DecidableEq, Repr

/-- An option of a program. -/
structure Switch where
  letter : Option Char
  name : Option String
  meaning : Meaning
  description : String
  deriving DecidableEq, Repr

namespace Switch

/-- The name of the value that an option takes. -/
def placeholder? (s : Switch) : Option String :=
  match s.meaning with
  | .path p | .number p => some p
  | .mark | .help | .version => none

def help : Switch := ⟨some 'h', some "help", .help, "Print help"⟩

/-- The option asks for the version. -/
def version : Switch := ⟨some 'V', some "version", .version, "Print version"⟩

/-- The value in the description of an option. -/
def valueText (s : Switch) : String :=
  match s.placeholder? with
  | some p => " <" ++ p ++ ">"
  | none => ""

/-- The option as messages call it: by its name, else by its letter. -/
def render (s : Switch) : String :=
  (match s.name, s.letter with
    | some name, _ => "--" ++ name
    | none, some letter => "-" ++ String.singleton letter
    | none, none => "") ++ s.valueText

/-- The option as the help text lists it, by its letter and its name. -/
def listing (s : Switch) : String :=
  (match s.letter, s.name with
    | some letter, some name => "-" ++ String.singleton letter ++ ", --" ++ name
    | some letter, none => "-" ++ String.singleton letter
    | none, some name => "    --" ++ name
    | none, none => "") ++ s.valueText

end Switch

/-- What may follow the options: words of any number. -/
structure Words where
  placeholder : String
  description : String
  deriving DecidableEq, Repr

def Words.render (w : Words) : String := "[" ++ w.placeholder ++ "]..."

/-- A program, as far as its command line is concerned. -/
structure Program where
  name : String
  version : String
  purpose : String
  switches : List Switch
  words : Option Words
  deriving DecidableEq, Repr

/-- What is wrong with a number. -/
inductive NumberFault where
  | malformed (fault : Numeral.Fault)
  /-- It is a number, but not one of 32 bits. -/
  | outOfRange (n : Int)
  deriving DecidableEq, Repr

def NumberFault.message : NumberFault → String
  | .malformed fault => fault.message
  | .outOfRange n => Numeral.decimal n ++ " is not in -2147483648..=2147483647"

/-- A signed 32-bit number: read as one of 64 bits, then checked. -/
def number (text : String) : Except NumberFault Int32 :=
  match Numeral.readInt 10 0x8000000000000000 text.toList with
  | .error fault => .error (.malformed fault)
  | .ok n =>
    if -0x80000000 ≤ n ∧ n < 0x80000000 then .ok (Int32.ofInt n) else .error (.outOfRange n)

/-- Why a command line cannot be understood. -/
inductive UsageError where
  | missingValue (s : Switch)
  | repeated (s : Switch)
  | badNumber (s : Switch) (value : String) (fault : NumberFault)
  /-- An option without a value has got one, after some others. -/
  | surplusValue (used : List Switch) (s : Switch) (value : String)
  | unexpected (argument : String)
  /-- There is no such option, but a similar one, after some others. -/
  | misspelt (used : List Switch) (argument : String) (similar : Switch)
  deriving DecidableEq, Repr

namespace Program

/-- The words at the end of a usage line. -/
def wordsText (p : Program) : String :=
  match p.words with
  | some w => " " ++ w.render
  | none => ""

/-- The usage line, with all options left open or some of them given. -/
def usage (p : Program) (used : List Switch) : String :=
  let options := if used.isEmpty then " [OPTIONS]"
    else String.join (used.map fun s => " " ++ s.render)
  "Usage: " ++ p.name ++ options ++ p.wordsText

/-- All options, with the two that every program has. -/
def allSwitches (p : Program) : List Switch := p.switches ++ [Switch.help, Switch.version]

/-- Spaces after a text that make it as wide as asked. -/
def pad (width : Nat) (text : String) : String := text ++ "".pushn ' ' (width - text.length)

/-- The lines of a list with two columns. -/
def table (rows : List (String × String)) : String :=
  let width := (rows.map fun row => row.1.length).foldl max 0
  String.join (rows.map fun row => "  " ++ pad width row.1 ++ "  " ++ row.2 ++ "\n")

def helpText (p : Program) : String :=
  let words := match p.words with
    | some w => "Arguments:\n" ++ table [(w.render, w.description)] ++ "\n"
    | none => ""
  p.purpose ++ "\n\n" ++ p.usage [] ++ "\n\n" ++ words ++ "Options:\n" ++
    table (p.allSwitches.map fun s => (s.listing, s.description))

def versionText (p : Program) : String := p.name ++ " " ++ p.version ++ "\n"

/-- What an error says in its first line. -/
def headline : UsageError → String
  | .missingValue s => "a value is required for '" ++ s.render ++ "' but none was supplied"
  | .repeated s => "the argument '" ++ s.render ++ "' cannot be used multiple times"
  | .badNumber s value fault =>
    "invalid value '" ++ value ++ "' for '" ++ s.render ++ "': " ++ fault.message
  | .surplusValue _ s value =>
    "unexpected value '" ++ value ++ "' for '" ++ s.render ++ "' found; no more were expected"
  | .unexpected argument => "unexpected argument '" ++ argument ++ "' found"
  | .misspelt _ argument _ => "unexpected argument '" ++ argument ++ "' found"

/-- The name of an option, without its value. -/
def spelling (s : Switch) : String := "--" ++ s.name.getD ""

/-- Paragraphs between the first line and the last one. -/
def advice (p : Program) : UsageError → List String
  | .missingValue _ | .badNumber _ _ _ => []
  | .repeated _ | .unexpected _ => [p.usage []]
  | .surplusValue used s _ => [p.usage (if used.contains s then used else used ++ [s])]
  | .misspelt used _ similar =>
    ["  tip: a similar argument exists: '" ++ spelling similar ++ "'", p.usage used]

def complaint (p : Program) (e : UsageError) : String :=
  "\n\n".intercalate (["error: " ++ headline e] ++ p.advice e ++
    ["For more information, try '--help'.\n"])

end Program

end Tiling.CommandLine
