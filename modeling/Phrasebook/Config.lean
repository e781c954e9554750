import Phrasebook.Toml.Reading

/-!
Configurations: which locale is active, where the bundles are and whether placeholders are
isolated.
-/

namespace Phrasebook

/-- A configuration; the paths of bundles are relative to its file. -/
structure Config where
  defaultLocale : String := "en"
  bundles : Table String := []
  isolates : Bool := true
  deriving DecidableEq, Repr

namespace Config

/-- A path for each locale. A date stands for a table with one entry, its text. -/
def paths? : Toml.Value → Option (Table String)
  | .table entries =>
    entries.mapM fun
      | (locale, .string path) => some (locale, path)
      | _ => none
  | .datetime s => some [("$__toml_private_datetime", s)]
  | _ => none

/-- What an entry holds, read in some way, or the default if it is missing. -/
def entry? {α : Type} (entries : Table Toml.Value) (name : String)
    (read : Toml.Value → Option α) (default : α) : Option α :=
  match entries.find? name with
  | none => some default
  | some v => read v

/-- The configuration of a TOML text. Entries that are missing keep their defaults, and unknown
ones are passed over. -/
def parse? (s : String) : Option Config := do
  let entries ← Toml.parse? s
  let defaultLocale ← entry? entries "default_locale"
    (fun | .string s => some s | _ => none) ({} : Config).defaultLocale
  let bundles ← entry? entries "bundles" paths? ({} : Config).bundles
  let isolates ← entry? entries "bidi_isolation"
    (fun | .boolean b => some b | _ => none) ({} : Config).isolates
  return { defaultLocale, bundles, isolates }

end Config

end Phrasebook
