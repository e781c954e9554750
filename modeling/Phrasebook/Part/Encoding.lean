import Phrasebook.Json.Basic
import Phrasebook.Part

/-!
The JSON form of values and parts.

A part is an object whose member `type` comes first; members that have nothing to say are left
out. `Part.ofJson?` reads the form back and is liberal: it skips members it does not know,
takes `null` for a missing optional member, and reads an array of a record's fields.
-/

namespace Phrasebook

/-! ## Values -/

namespace Value

mutual

/-- The JSON form of a value. A number that is not finite has none and becomes null. -/
def toJson : Value → Json
  | .null => .null
  | .bool b => .bool b
  | .number x => if x.isFinite then .number x else .null
  | .string s => .string s
  | .list items => .array (itemsToJson items)
  | .map entries => .object (entriesToJson entries)

def itemsToJson : List Value → List Json
  | [] => []
  | v :: rest => v.toJson :: itemsToJson rest

def entriesToJson : List (String × Value) → List (String × Json)
  | [] => []
  | (name, v) :: rest => (name, v.toJson) :: entriesToJson rest

end

mutual

/-- The value of a JSON form. Of members with one name the last one holds. -/
def ofJson : Json → Value
  | .null => .null
  | .bool b => .bool b
  | .number x => .number x
  | .string s => .string s
  | .array items => .list (itemsOfJson items)
  | .object members => .map (Table.ofList (entriesOfJson members))

def itemsOfJson : List Json → List Value
  | [] => []
  | v :: rest => ofJson v :: itemsOfJson rest

def entriesOfJson : List (String × Json) → List (String × Value)
  | [] => []
  | (name, v) :: rest => (name, ofJson v) :: entriesOfJson rest

end

end Value

/-! ## Writing parts -/

namespace Json

/-- A member, if there is something to write. -/
def memberOf? (name : String) (v : Option Json) : List (String × Json) :=
  match v with
  | some v => [(name, v)]
  | none => []

end Json

def MarkupKind.name : MarkupKind → String
  | .opening => "open"
  | .closing => "close"
  | .standalone => "standalone"

def MarkupKind.ofName? : String → Option MarkupKind
  | "open" => some .opening
  | "close" => some .closing
  | "standalone" => some .standalone
  | _ => none

def SubPart.toJson (p : SubPart) : Json :=
  .object (("type", .string p.kind) :: Json.memberOf? "value" (p.value.map Value.toJson))

def ExpressionPart.toMembers (e : ExpressionPart) : List (String × Json) :=
  ("kind", .string e.kind) ::
    (Json.memberOf? "source" (e.source.map .string) ++
      Json.memberOf? "locale" (e.locale.map .string) ++
      Json.memberOf? "value" (e.value.map Value.toJson) ++
      Json.memberOf? "parts" (e.parts.map fun parts => .array (parts.map SubPart.toJson)))

namespace Part

/-- The JSON form of a part. -/
def toJson : Part → Json
  | .text s => .object [("type", .string "text"), ("value", .string s)]
  | .markup kind name options =>
    .object ([("type", .string "markup"), ("kind", .string kind.name), ("name", .string name)] ++
      (if options.isEmpty then [] else [("options", .object (Value.entriesToJson options))]))
  | .isolation mark => .object [("type", .string "bidiIsolation"), ("value", .string mark)]
  | .expression e => .object (("type", .string "expression") :: e.toMembers)

def listToJson (parts : List Part) : Json := .array (parts.map toJson)

end Part

/-! ## Reading parts -/

namespace Json

/-- What an optional field holds, read in some way, or nothing where it is null or missing. -/
def optionalField? {α : Type} (read : Json → Option α) : Option Json → Option (Option α)
  | none => some none
  | some .null => some none
  | some v => (read v).map some

def string? : Json → Option String
  | .string s => some s
  | _ => none

/-- The items of an array, each read in some way. -/
def array? {α : Type} (read : Json → Option α) : Json → Option (List α)
  | .array items => items.mapM read
  | _ => none

end Json

/-- A kind of markup: its name, or an object with the name and nothing in it. -/
def MarkupKind.ofJson? : Json → Option MarkupKind
  | .string name => ofName? name
  | .object [(name, .null)] => ofName? name
  | .object [(name, .object [])] => ofName? name
  | _ => none

def SubPart.ofJson? (v : Json) : Option SubPart :=
  match v.fields? ["type", "value"] with
  | some [some (.string kind), value] => do
    let value ← Json.optionalField? (some ∘ Value.ofJson) value
    return ⟨kind, value⟩
  | _ => none

def ExpressionPart.ofJson? (v : Json) : Option ExpressionPart :=
  match v.fields? ["kind", "source", "locale", "value", "parts"] with
  | some [some (.string kind), source, locale, value, parts] => do
    let source ← Json.optionalField? Json.string? source
    let locale ← Json.optionalField? Json.string? locale
    let value ← Json.optionalField? (some ∘ Value.ofJson) value
    let parts ← Json.optionalField? (Json.array? SubPart.ofJson?) parts
    return ⟨kind, source, locale, value, parts⟩
  | _ => none

namespace Part

/-- The options of markup: the members of an object, none if there is no object. -/
def optionsOfJson? : Option Json → Option Options
  | none => some []
  | some (.object members) => some (Table.ofList (Value.entriesOfJson members))
  | some _ => none

def markupOfJson? (v : Json) : Option Part :=
  match v.fields? ["kind", "name", "options"] with
  | some [some kind, some (.string name), options] => do
    let kind ← MarkupKind.ofJson? kind
    let options ← optionsOfJson? options
    return .markup kind name options
  | _ => none

/-- The text of a record with the single field `value`. -/
def valueOfJson? (v : Json) : Option String :=
  match v.fields? ["value"] with
  | some [some (.string s)] => some s
  | _ => none

/-- The part of a JSON form. -/
def ofJson? (v : Json) : Option Part := do
  let (tag, fields) ← v.tagged?
  if tag = "text" then (valueOfJson? fields).map .text
  else if tag = "markup" then markupOfJson? fields
  else if tag = "bidiIsolation" then (valueOfJson? fields).map .isolation
  else if tag = "expression" then (ExpressionPart.ofJson? fields).map .expression
  else none

def listOfJson? : Json → Option (List Part) := Json.array? ofJson?

end Part

end Phrasebook
