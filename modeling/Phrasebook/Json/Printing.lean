import Phrasebook.Json.Basic

/-!
Writing JSON text, on one line (`Json.compact`) or indented by two blanks (`Json.pretty`).

Numbers always have a point or an exponent: the fewest digits that read back, in plain
notation from `10 ^ (-5)` up to `10 ^ 16` and with a signed exponent outside.
-/

namespace Phrasebook.Json

/-! ## Numbers -/

/-- Digits with a point after the first, if there are more. -/
def pointed : List Char → List Char
  | [] => []
  | [d] => [d]
  | d :: ds => d :: '.' :: ds

def exponentText (e : Int) : String :=
  "e" ++ (if e < 0 then "-" else "+") ++ String.ofList (Decimal.digits e.natAbs)

/-- The text of a number; a value that is not finite has none and is written as null. -/
def numberText : Number → String
  | .finite negative m =>
    let (k, j) := Number.shortestDigits .toEven m
    let ds := Decimal.digits k
    let e : Int := ds.length - 1 + j - 1074
    if m = 0 ∨ (-5 ≤ e ∧ e < 16) then ((Number.shortest .toEven negative m).padTo 1).text
    else (if negative then "-" else "") ++ String.ofList (pointed ds) ++ exponentText e
  | _ => "null"

/-! ## Strings -/

def hexDigit (n : Nat) : Char := Nat.digitChar n

def escapeChar (c : Char) : List Char :=
  match c with
  | '"' => ['\\', '"']
  | '\\' => ['\\', '\\']
  | '\x08' => ['\\', 'b']
  | '\x0c' => ['\\', 'f']
  | '\n' => ['\\', 'n']
  | '\r' => ['\\', 'r']
  | '\t' => ['\\', 't']
  | c =>
    if c < ' ' then ['\\', 'u', '0', '0', hexDigit (c.toNat / 16), hexDigit (c.toNat % 16)]
    else [c]

/-- A string between quotes. -/
def quote (s : String) : String := "\"" ++ String.ofList (s.toList.flatMap escapeChar) ++ "\""

/-! ## Values -/

mutual

/-- A value on one line, without blanks. -/
def compact : Json → String
  | .null => "null"
  | .bool true => "true"
  | .bool false => "false"
  | .number x => numberText x
  | .string s => quote s
  | .array items => "[" ++ ",".intercalate (compactItems items) ++ "]"
  | .object members => "\x7b" ++ ",".intercalate (compactMembers members) ++ "\x7d"

def compactItems : List Json → List String
  | [] => []
  | v :: rest => v.compact :: compactItems rest

def compactMembers : List (String × Json) → List String
  | [] => []
  | (name, v) :: rest => (quote name ++ ":" ++ v.compact) :: compactMembers rest

end

/-- A line break and the blanks of so many levels. -/
def newline (level : Nat) : String := "\n" ++ String.ofList (List.replicate (2 * level) ' ')

/-- Texts between brackets, each on a line of its own; without texts, the brackets alone. -/
def block (opening closing : String) (level : Nat) (texts : List String) : String :=
  if texts.isEmpty then opening ++ closing
  else opening ++ newline (level + 1) ++ ("," ++ newline (level + 1)).intercalate texts ++
    newline level ++ closing

mutual

/-- A value on several lines, within so many levels. -/
def prettyAt (level : Nat) : Json → String
  | .null => "null"
  | .bool true => "true"
  | .bool false => "false"
  | .number x => numberText x
  | .string s => quote s
  | .array items => block "[" "]" level (prettyItems (level + 1) items)
  | .object members => block "\x7b" "\x7d" level (prettyMembers (level + 1) members)

def prettyItems (level : Nat) : List Json → List String
  | [] => []
  | v :: rest => v.prettyAt level :: prettyItems level rest

def prettyMembers (level : Nat) : List (String × Json) → List String
  | [] => []
  | (name, v) :: rest => (quote name ++ ": " ++ v.prettyAt level) :: prettyMembers level rest

end

def pretty (v : Json) : String := v.prettyAt 0

end Phrasebook.Json
