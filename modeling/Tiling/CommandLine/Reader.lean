import Tiling.CommandLine.Switch
import Tiling.Text.Similarity
/-!
# Reading a command line

Arguments are read one after the other. An option that takes a value and has none attached waits
for the next argument; its value is looked at when the next option is reached or the arguments
end. Words begin with the first argument that is no option, or after two hyphens, and take in
everything that follows; where they are allowed, an argument with a hyphen that is no option is
such a word too.
-/

namespace Tiling.CommandLine

/-- What ends the reading before its time. -/
inductive Stop where
  | help
  | version
  | usage (e : UsageError)
  deriving DecidableEq, Repr

/-- What was read. -/
structure Reading where
  /-- Options with their values, in their order. -/
  given : List (Switch × String)
  /-- The option whose value was not looked at, with the value if it is there. -/
  waiting : Option (Switch × Option String)
  words : List String
  deriving DecidableEq, Repr

namespace Reading

def empty : Reading := ⟨[], none, []⟩

def switches (r : Reading) : List Switch := r.given.map Prod.fst

def value? (r : Reading) (s : Switch) : Option String := r.given.lookup s

/-- What is wrong with a value. -/
def valueError? (s : Switch) (value : String) : Option UsageError :=
  match s.meaning with
  | .path _ => if value.isEmpty then some (.missingValue s) else none
  | .number _ =>
    match number value with
    | .ok _ => none
    | .error fault => some (.badNumber s value fault)
  | .mark | .help | .version => none

/-- Takes an option with its value. -/
def accept (r : Reading) (s : Switch) (value : String) : Except Stop Reading :=
  if r.switches.contains s then .error (.usage (.repeated s))
  else
    match valueError? s value with
    | some e => .error (.usage e)
    | none => .ok { r with given := r.given ++ [(s, value)] }

/-- Looks at the value that was not looked at. -/
def settle (r : Reading) : Except Stop Reading :=
  match r.waiting with
  | none => .ok r
  | some (s, none) => .error (.usage (.missingValue s))
  | some (s, some value) => ({ r with waiting := none } : Reading).accept s value

/-- Takes an option without a value. -/
def mark (r : Reading) (s : Switch) : Except Stop Reading := do
  let r ← r.settle
  match s.meaning with
  | .help => .error .help
  | .version => .error .version
  | _ => r.accept s ""

/-- Takes an option with an attached value, or without one. -/
def option (r : Reading) (s : Switch) (attached : Option String) : Except Stop Reading := do
  let r ← r.settle
  match attached with
  | some value => r.accept s value
  | none => .ok { r with waiting := some (s, none) }

/-- Takes a plain argument as the value that is waited for, if one is. -/
def fill? (r : Reading) (argument : String) : Option Reading :=
  match r.waiting with
  | some (s, none) => some { r with waiting := some (s, some argument) }
  | _ => none

/-- The options that have been begun, whatever their values are worth. -/
def begun (r : Reading) : List Switch :=
  match r.waiting with
  | some (s, some _) => if r.switches.contains s then r.switches else r.switches ++ [s]
  | _ => r.switches

end Reading

namespace Program

def ofLetter? (p : Program) (c : Char) : Option Switch :=
  p.allSwitches.find? fun s => s.letter == some c

def ofName? (p : Program) (name : String) : Option Switch :=
  p.allSwitches.find? fun s => s.name == some name

/-- How alike a name has to be, to be offered instead. -/
def alike : Float := 0.7

/-- The option whose name is most like an unknown one, if it is like it at all. -/
def similar? (p : Program) (name : String) : Option Switch :=
  let scored := p.allSwitches.filterMap fun s => s.name.map fun n =>
    (s, Text.similarity name.toList n.toList)
  ((scored.filter fun x => alike < x.2).foldl (fun best x =>
    match best with
    | some (b : Switch × Float) => if x.2 < b.2 then some b else some x
    | none => some x) none).map Prod.fst

def unknownName (p : Program) (r : Reading) (name : String) : UsageError :=
  match p.similar? name with
  | some s => .misspelt (if r.begun.contains s then r.begun else r.begun ++ [s]) ("--" ++ name) s
  | none => .unexpected ("--" ++ name)

/-- The name and the value, if it has one, of an argument after its two hyphens. -/
def splitName (cs : List Char) : String × Option String :=
  match cs.span (· != '=') with
  | (name, []) => (String.ofList name, none)
  | (name, _ :: value) => (String.ofList name, some (String.ofList value))

/-- The value in the rest of an argument after a letter. -/
def attachedValue? : List Char → Option String
  | [] => none
  | '=' :: value => some (String.ofList value)
  | value => some (String.ofList value)

/-- Reads the letters of an argument up to the first that takes a value. -/
def readLetters (p : Program) (r : Reading) : List Char → Except Stop Reading
  | [] => .ok r
  | c :: rest =>
    match p.ofLetter? c with
    | none => .error (.usage (.unexpected ("-" ++ String.singleton c)))
    | some s =>
      match s.placeholder? with
      | some _ => r.option s (attachedValue? rest)
      | none =>
        match r.mark s with
        | .ok r => p.readLetters r rest
        | .error stop => .error stop

def readNamed (r : Reading) (s : Switch) (value : Option String) : Except Stop Reading :=
  match s.placeholder?, value with
  | some _, value => r.option s value
  | none, some value => .error (.usage (.surplusValue r.switches s value))
  | none, none => r.mark s

def finish (r : Reading) (words : List String) : Except Stop Reading := do
  let r ← r.settle
  return { r with words := words }

/-- Reads what is no option: words, if the program takes any. -/
def readWords (p : Program) (r : Reading) : List String → Except Stop Reading
  | [] => finish r []
  | argument :: rest =>
    if p.words.isSome then finish r (argument :: rest)
    else .error (.usage (.unexpected argument))

/-- An argument, by its first characters. -/
inductive Form where
  /-- Two hyphens. -/
  | divider
  | named (cs : List Char)
  | letters (cs : List Char)
  | plain
  deriving DecidableEq, Repr

/-- The form of an argument; a single hyphen is plain. -/
def Form.of (argument : String) : Form :=
  match argument.toList with
  | ['-', '-'] => .divider
  | '-' :: '-' :: cs => .named cs
  | ['-'] => .plain
  | '-' :: cs => .letters cs
  | _ => .plain

/-- Reads the arguments. -/
def read (p : Program) (r : Reading) : List String → Except Stop Reading
  | [] => finish r []
  | argument :: rest =>
    match Form.of argument with
    | .divider => p.readWords r rest
    | .named cs =>
      let (name, value) := splitName cs
      match p.ofName? name with
      | some s =>
        match readNamed r s value with
        | .ok r => p.read r rest
        | .error stop => .error stop
      | none =>
        if p.words.isSome then p.readWords r (argument :: rest)
        else .error (.usage (p.unknownName r name))
    | .letters cs =>
      if p.words.isSome && cs.any fun c => (p.ofLetter? c).isNone then
        p.readWords r (argument :: rest)
      else
        match p.readLetters r cs with
        | .ok r => p.read r rest
        | .error stop => .error stop
    | .plain =>
      match r.fill? argument with
      | some r => p.read r rest
      | none => p.readWords r (argument :: rest)

end Program

end Tiling.CommandLine
