import Tiling.Toml.Scalar
/-!
# Tables

Values with parts, and how a document may build them. A table is defined once: by its header, by
the dotted keys that lead into it, or only implicitly by the headers of tables inside it, in
which case its own header may still follow. Headers pass through tables of every kind, dotted
keys not through those with a header of their own.
-/

namespace Tiling.Toml

/-- How a table came about. -/
inductive Origin where
  /-- By a header of its own, or as the root. -/
  | header
  /-- By the header of a table inside it. -/
  | implied
  /-- By dotted keys. -/
  | dotted
  deriving DecidableEq, Repr

/-- What a key stands for. -/
inductive Item where
  | text (s : String)
  | scalar (s : Scalar)
  | array (items : List Item)
  /-- A table written as a value; it cannot be added to. -/
  | inline (entries : List (String × Item))
  | table (origin : Origin) (entries : List (String × Item))
  /-- Tables under repeated headers, the latest first. -/
  | tables (list : List (List (String × Item)))
  deriving Inhabited, Repr

/-- Keys with what they stand for. -/
abbrev Entries := List (String × Item)

namespace Entries

def find? (entries : Entries) (key : String) : Option Item := List.lookup key entries

def erase (entries : Entries) (key : String) : Entries := entries.filter (·.1 != key)

/-- Puts a key in, in the place of the old one. -/
def put (entries : Entries) (key : String) (item : Item) : Entries :=
  (key, item) :: erase entries key

end Entries

/-- Changes the table at the end of a path, making the tables on the way that do not exist. -/
def descend {α : Type} (byKeys : Bool) (change : Origin → Entries → Option (Entries × α)) :
    List String → Origin → Entries → Option (Entries × α)
  | [], origin, entries => change origin entries
  | key :: path, _, entries =>
    match entries.find? key with
    | none => do
      let origin := if byKeys then Origin.dotted else .implied
      let (inner, a) ← descend byKeys change path origin []
      return (entries.put key (.table origin inner), a)
    | some (.table origin inner) =>
      if byKeys ∧ origin = .header then none
      else do
        let (inner, a) ← descend byKeys change path origin inner
        return (entries.put key (.table origin inner), a)
    | some (.tables (last :: others)) => do
      let (last, a) ← descend byKeys change path .header last
      return (entries.put key (.tables (last :: others)), a)
    | some _ => none

/-- Adds a key to a table: a plain one not to a table of dotted keys, a dotted one only to such. -/
def addKey (plain : Bool) (key : String) (item : Item) (origin : Origin) (entries : Entries) :
    Option (Entries × Unit) :=
  if (origin == .dotted) == plain then none
  else
    match entries.find? key with
    | some _ => none
    | none => some (entries.put key item, ())

def addValue (entries : Entries) (path : List String) (key : String) (item : Item) :
    Option Entries :=
  (descend true (addKey path.isEmpty key item) path .header entries).map Prod.fst

/-- Begins a table under a header: hands out what is known of it. -/
def openTable (key : String) (_ : Origin) (entries : Entries) : Option (Entries × Entries) :=
  match entries.find? key with
  | none => some (entries, [])
  | some (.table .implied inner) => some (entries.erase key, inner)
  | some _ => none

/-- Begins another table under a repeated header. -/
def openTables (key : String) (_ : Origin) (entries : Entries) : Option (Entries × Entries) :=
  match entries.find? key with
  | none => some (entries.put key (.tables []), [])
  | some (.tables _) => some (entries, [])
  | some _ => none

/-- Puts a finished table in its place. -/
def closeTable (key : String) (inner : Entries) (_ : Origin) (entries : Entries) :
    Option (Entries × Unit) :=
  some (entries.put key (.table .header inner), ())

/-- Puts another finished table under its repeated header. -/
def closeTables (key : String) (inner : Entries) (_ : Origin) (entries : Entries) :
    Option (Entries × Unit) :=
  match entries.find? key with
  | none => some (entries.put key (.tables [inner]), ())
  | some (.tables list) => some (entries.put key (.tables (inner :: list)), ())
  | some _ => none

/-- The table under construction. -/
structure Section where
  /-- Keys on the way to it. -/
  path : List String
  /-- Its own key. -/
  key : String
  repeated : Bool

/-- A document read in part: the tables before the current one, and the current one, which is the
root itself without a header. -/
structure Draft where
  root : Entries
  current : Option Section
  entries : Entries

namespace Draft

def start : Draft := ⟨[], none, []⟩

/-- Puts the current table in its place. -/
def finish (d : Draft) : Option Entries :=
  match d.current with
  | none => some d.entries
  | some s =>
    let close := if s.repeated then closeTables else closeTable
    (descend false (close s.key d.entries) s.path .header d.root).map Prod.fst

def begin (d : Draft) (s : Section) : Option Draft := do
  let root ← d.finish
  let opening := if s.repeated then openTables else openTable
  let (root, entries) ← descend false (opening s.key) s.path .header root
  return ⟨root, some s, entries⟩

/-- Adds a value to the current table. -/
def add (d : Draft) (path : List String) (key : String) (item : Item) : Option Draft :=
  (addValue d.entries path key item).map fun entries => { d with entries := entries }

end Draft

end Tiling.Toml
