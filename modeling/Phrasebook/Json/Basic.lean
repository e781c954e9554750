import Phrasebook.Number.Reading

/-!
JSON values.

An object keeps its members in the order in which they are written, and a name as often as it
is written; what a repeated name means is up to who reads the object.
-/

namespace Phrasebook

inductive Json where
  | null
  | bool (b : Bool)
  | number (x : Number)
  | string (s : String)
  | array (items : List Json)
  | object (members : List (String × Json))
  deriving Inhabited

namespace Json

/-- The fields of a record, in the order of their names, each if it is there. A record is an
object that has each of the names at most once, whatever else it has, or an array of the first
fields and nothing else. -/
def fields? (names : List String) : Json → Option (List (Option Json))
  | .object members =>
    names.mapM fun name =>
      match members.filter (·.1 == name) with
      | [] => some none
      | [member] => some (some member.2)
      | _ => none
  | .array items =>
    if items.length ≤ names.length then
      some (items.map some ++ List.replicate (names.length - items.length) none)
    else none
  | _ => none

/-- A record's tag and what is left of the record: an object's member `type`, or the first
item of an array. -/
def tagged? : Json → Option (String × Json)
  | .object members =>
    match members.filter (·.1 == "type") with
    | [(_, .string tag)] => some (tag, .object (members.filter (·.1 != "type")))
    | _ => none
  | .array (.string tag :: rest) => some (tag, .array rest)
  | _ => none

end Json

end Phrasebook
