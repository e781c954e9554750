import Phrasebook.Table

/-!
TOML documents: values, and the tables that keys and headers build.

A document is a sequence of statements. `Toml.build` runs them: a header opens a table, a key
with dots reaches into tables that other dotted keys made, and nothing is defined twice. Tables
remember how they came about (`Origin`), because that decides who may still add to them.
-/

namespace Phrasebook.Toml

/-- A value, closed to further keys. Numbers other than dates are not told apart. -/
inductive Value where
  | string (s : String)
  | boolean (b : Bool)
  | numeral
  | datetime (s : String)
  | array (items : List Value)
  | table (entries : List (String × Value))
  deriving Inhabited

/-- How a table came about: by a header of its own, as part of a longer header, or as part of a
dotted key. -/
inductive Origin where
  | header
  | implied
  | dotted
  deriving DecidableEq

inductive Item where
  | value (v : Value)
  | table (origin : Origin) (entries : List (String × Item))
  /-- An array of tables, the latest first. -/
  | tables (latest : List (String × Item)) (earlier : List (List (String × Item)))
  deriving Inhabited

/-- The bindings of a table in the making. -/
abbrev Entries := List (String × Item)

/-- A statement of a document. A path is the keys between dots. -/
inductive Statement where
  | header (path : List String)
  | arrayHeader (path : List String)
  | assign (path : List String) (v : Value)

/-- Changes the table at a path. Tables that are missing come about on the way; a dotted key
may not pass through a table with a header of its own. -/
def descend (byKey : Bool) : List String → (Origin → Entries → Option Entries) →
    Origin → Entries → Option Entries
  | [], change, origin, entries => change origin entries
  | key :: path, change, _, entries =>
    match Table.find? entries key with
    | none => do
      let origin := if byKey then Origin.dotted else .implied
      let inner ← descend byKey path change origin []
      return Table.insert entries key (.table origin inner)
    | some (.value _) => none
    | some (.tables latest earlier) => do
      let inner ← descend byKey path change .header latest
      return Table.insert entries key (.tables inner earlier)
    | some (.table origin inner) =>
      if byKey && origin == .header then none
      else do
        let inner ← descend byKey path change origin inner
        return Table.insert entries key (.table origin inner)

/-- Binds a key of a table, once. A dotted key may only end in a table that dotted keys
made. -/
def bind (dotted : Bool) (key : String) (item : Item) (origin : Origin) (entries : Entries) :
    Option Entries :=
  if (dotted && origin != .dotted) || Table.contains entries key then none
  else some (Table.insert entries key item)

def assign (path : List String) (v : Value) (origin : Origin) (entries : Entries) :
    Option Entries :=
  match path.getLast? with
  | none => none
  | some key =>
    descend true path.dropLast (bind (1 < path.length) key (.value v)) origin entries

/-- Opens the table of a header, which may so far have been implied only. -/
def openTable (key : String) (_ : Origin) (entries : Entries) : Option Entries :=
  match Table.find? entries key with
  | none => some (Table.insert entries key (.table .header []))
  | some (.table .implied inner) => some (Table.insert entries key (.table .header inner))
  | some _ => none

/-- Opens one more table of an array. -/
def openElement (key : String) (_ : Origin) (entries : Entries) : Option Entries :=
  match Table.find? entries key with
  | none => some (Table.insert entries key (.tables [] []))
  | some (.tables latest earlier) =>
    some (Table.insert entries key (.tables [] (latest :: earlier)))
  | some _ => none

/-- Runs a statement on a document and the path of the header that it stands under. -/
def run (state : List String × Entries) : Statement → Option (List String × Entries)
  | .header path => do
    let entries ← descend false path.dropLast (openTable (path.getLastD "")) .header state.2
    return (path, entries)
  | .arrayHeader path => do
    let entries ← descend false path.dropLast (openElement (path.getLastD "")) .header state.2
    return (path, entries)
  | .assign path v => do
    let entries ← descend false state.1 (assign path v) .header state.2
    return (state.1, entries)

mutual

def Item.close : Item → Value
  | .value v => v
  | .table _ entries => .table (closeEntries entries)
  | .tables latest earlier => .array ((.table (closeEntries latest) :: closeTables earlier).reverse)

def closeEntries : List (String × Item) → List (String × Value)
  | [] => []
  | (key, item) :: rest => (key, item.close) :: closeEntries rest

def closeTables : List (List (String × Item)) → List Value
  | [] => []
  | entries :: rest => .table (closeEntries entries) :: closeTables rest

end

def build (statements : List Statement) : Option (List (String × Value)) := do
  let (_, entries) ← statements.foldlM run ([], [])
  return closeEntries entries

end Phrasebook.Toml
