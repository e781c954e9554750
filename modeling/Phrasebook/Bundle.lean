import Phrasebook.Json.Reading
import Phrasebook.Table

/-!
Bundles: the message patterns of one locale, by their keys.
-/

namespace Phrasebook

/-- Why bundles could not be set up. -/
inductive SetupError where
  | duplicateLocale (locale : String)
  | invalidBundle (locale : String)
  | malformedJson
  | malformedConfig
  | unreadableFile
  deriving DecidableEq, Repr

def SetupError.message : SetupError → String
  | .duplicateLocale locale =>
    "duplicate bundle locale '" ++ locale ++ "' is not allowed; pass one bundle per locale"
  | .invalidBundle locale =>
    "bundle for locale '" ++ locale ++ "' must be a JSON object of message patterns"
  | .malformedJson => "malformed JSON"
  | .malformedConfig => "malformed configuration"
  | .unreadableFile => "unreadable file"

structure Bundle where
  locale : String
  messages : Table String := []
  deriving DecidableEq, Repr

namespace Bundle

/-- Adds a pattern, in place of one that has the key. -/
def add (b : Bundle) (key pattern : String) : Bundle :=
  { b with messages := b.messages.insert key pattern }

/-- Adds patterns in turn, so that the last of a key holds. -/
def addAll (b : Bundle) (patterns : List (String × String)) : Bundle :=
  { b with messages := b.messages.insertAll patterns }

/-- The members of an object that are texts; of members with one name the last one counts. -/
def patternsOf (members : List (String × Json)) : List (String × String) :=
  (Table.ofList members).filterMap fun
    | (key, .string pattern) => some (key, pattern)
    | _ => none

/-- Adds the texts of a JSON object and tells how many there were. -/
def addJson (b : Bundle) : Json → Except SetupError (Nat × Bundle)
  | .object members => .ok ((patternsOf members).length, b.addAll (patternsOf members))
  | _ => .error (.invalidBundle b.locale)

def ofText (locale contents : String) : Except SetupError Bundle :=
  match Json.parse? contents with
  | none => .error .malformedJson
  | some v => (Bundle.addJson { locale } v).map (·.2)

def find? (b : Bundle) (key : String) : Option String := b.messages.find? key

end Bundle

end Phrasebook
