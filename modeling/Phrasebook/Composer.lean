import Phrasebook.Bundle
import Phrasebook.Formatter

/-!
Composers: messages looked up by key in the bundle of the active locale.

A composer keeps each formatter that it has made, by locale and key, and hands it out again;
operations that may make one return the composer along with their result. What cannot be
formatted shows as its pattern, and a key without a pattern as the key.
-/

namespace Phrasebook

structure ComposerSettings where
  locale : String
  bundles : List Bundle := []
  /-- Functions beside the builtin ones, which they may replace. -/
  functions : FunctionTable := []
  localizer : Localizer := .basic
  isolates : Bool := true

structure Composer where
  /-- The active locale. -/
  locale : String
  bundles : Table Bundle
  functions : FunctionTable
  localizer : Localizer
  isolates : Bool
  /-- The formatters made so far, by locale and key. -/
  cache : List ((String × String) × Formatter) := []

/-- The pattern of a key, and the locale that it was found in. -/
structure Resolution where
  locale : String
  pattern : String
  deriving DecidableEq, Repr

namespace Composer

/-- Puts bundles into a table by their locales, which have to differ. -/
def shelve (shelved : Table Bundle) : List Bundle → Except SetupError (Table Bundle)
  | [] => .ok shelved
  | b :: rest =>
    if shelved.contains b.locale then .error (.duplicateLocale b.locale)
    else shelve (shelved.insert b.locale b) rest

/-- A composer that has made no formatter yet. -/
def ofSettings (settings : ComposerSettings) : Except SetupError Composer := do
  let bundles ← shelve [] settings.bundles
  return {
    locale := settings.locale
    bundles
    functions := FunctionTable.builtins.insertAll settings.functions
    localizer := settings.localizer
    isolates := settings.isolates }

/-- Makes a locale the active one, whether or not it has a bundle. -/
def setLocale (c : Composer) (locale : String) : Composer := { c with locale }

def locales (c : Composer) : List String := c.bundles.names

def cacheSize (c : Composer) : Nat := c.cache.length

/-- The pattern of a key in the active locale. -/
def resolve? (c : Composer) (key : String) : Option Resolution := do
  let bundle ← c.bundles.find? c.locale
  let pattern ← bundle.find? key
  return ⟨c.locale, pattern⟩

def has (c : Composer) (key : String) : Bool := (c.resolve? key).isSome

def cached? (c : Composer) (locale key : String) : Option Formatter :=
  c.cache.lookup (locale, key)

/-- The formatter of a locale and a key: the one made before, or one made now from a pattern.
A pattern that cannot be read leaves nothing behind. -/
def formatter? (c : Composer) (locale key pattern : String) : Option Formatter × Composer :=
  match c.cached? locale key with
  | some f => (some f, c)
  | none =>
    match Formatter.compile locale pattern c.functions c.localizer c.isolates with
    | .ok f => (some f, { c with cache := ((locale, key), f) :: c.cache })
    | .error _ => (none, c)

def translate (c : Composer) (key : String) (arguments : Arguments) : String × Composer :=
  match c.resolve? key with
  | none => (key, c)
  | some found =>
    match c.formatter? found.locale key found.pattern with
    | (none, c) => (found.pattern, c)
    | (some f, c) => ((f.format arguments).toOption.getD found.pattern, c)

/-- The message of a key as parts; without a message that can be formatted there are none. -/
def translateToParts (c : Composer) (key : String) (arguments : Arguments) :
    List Part × Composer :=
  match c.resolve? key with
  | none => ([], c)
  | some found =>
    match c.formatter? found.locale key found.pattern with
    | (none, c) => ([], c)
    | (some f, c) => ((f.formatToParts arguments).toOption.getD [], c)

end Composer

end Phrasebook
