import Phrasebook.Number.Reading
import Phrasebook.Table

/-!
Values: what messages take as arguments and what functions work on.

`Value.display` is a value's plain text: a list shows its items and a map its bindings, with
commas between them and no brackets.
-/

namespace Phrasebook

/-- A dynamic value. The names of a map stand in increasing order. -/
inductive Value where
  | null
  | bool (b : Bool)
  | number (x : Number)
  | string (s : String)
  | list (items : List Value)
  | map (entries : List (String × Value))
  deriving Inhabited

namespace Value

mutual

/-- The plain text of a value. -/
def display : Value → String
  | .null => "null"
  | .bool true => "true"
  | .bool false => "false"
  | .number x => x.display
  | .string s => s
  | .list items => ",".intercalate (displayItems items)
  | .map entries => ",".intercalate (displayEntries entries)

def displayItems : List Value → List String
  | [] => []
  | v :: rest => v.display :: displayItems rest

def displayEntries : List (String × Value) → List String
  | [] => []
  | (name, v) :: rest => (name ++ "=" ++ v.display) :: displayEntries rest

end

def string? : Value → Option String
  | .string s => some s
  | _ => none

def number? : Value → Option Number
  | .number x => some x
  | _ => none

def isNull : Value → Bool
  | .null => true
  | _ => false

end Value

/-- The named values that a message is formatted with. -/
abbrev Arguments := Table Value

/-- The named values that come with a function or with markup. -/
abbrev Options := Table Value

end Phrasebook
