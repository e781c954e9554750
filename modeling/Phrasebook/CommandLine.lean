import Phrasebook.Config
import Phrasebook.Json.Printing
import Phrasebook.Part.Encoding
import Phrasebook.View.Message

/-!
The command line: one message, formatted as text, as parts in JSON or as HTML.

`Invocation.ofTokens` reads the words of a command line; `Invocation.run` loads the
configuration and its bundles and gives the output. Files are reached through a function, so
that a run can be followed without a file system.
-/

namespace Phrasebook

/-! ## Words -/

inductive Command where
  | format
  | parts
  | render
  deriving DecidableEq, Repr

def Command.ofName? : String → Option Command
  | "format" => some .format
  | "parts" => some .parts
  | "render" => some .render
  | _ => none

/-- What is wrong with a command line. -/
inductive UsageError where
  | malformed
  | valueMissing (option : String)
  | argumentMalformed
  | tagNotAllowed
  deriving DecidableEq, Repr

/-- How the program is used. -/
def usage : String :=
  "usage: mf2-render format [--config <path>] [--locale <tag>] [--arg <name=value>...] <key>\n" ++
  "       mf2-render parts [--config <path>] [--locale <tag>] [--arg <name=value>...] <key>\n" ++
  "       mf2-render render [--config <path>] [--locale <tag>] [--arg <name=value>...] " ++
  "[--tag <name>] <key>"

def UsageError.message : UsageError → String
  | .malformed => usage
  | .valueMissing option => option ++ " requires a value\n\n" ++ usage
  | .argumentMalformed => "--arg expects name=value\n\n" ++ usage
  | .tagNotAllowed => "--tag only applies to render\n\n" ++ usage

/-- What the words after the command say. -/
structure Choices where
  key : Option String := none
  configPath : String := "mf2-render.toml"
  locale : Option String := none
  arguments : Arguments := []
  tag : Option String := none

/-- The value of an argument: that of a JSON text, or else the text itself. -/
def argumentValue (raw : String) : Value :=
  match Json.parse? raw with
  | some v => .ofJson v
  | none => .string raw

/-- The name before the first equals sign, and what follows the sign. -/
def splitArgument? (pair : String) : Option (String × String) :=
  match pair.toList.dropWhile (· != '=') with
  | [] => none
  | _ :: raw => some (String.ofList (pair.toList.takeWhile (· != '=')), String.ofList raw)

namespace Choices

def addArgument (c : Choices) (pair : String) : Except UsageError Choices :=
  match splitArgument? pair with
  | none => .error .argumentMalformed
  | some (name, raw) =>
    .ok { c with arguments := c.arguments.insert name (argumentValue raw) }

/-- Takes a word that is no option and no value of one: the key, which comes once. -/
def addWord (c : Choices) (word : String) : Except UsageError Choices :=
  if word = "--help" ∨ word = "-h" ∨ "--".toList.isPrefixOf word.toList then .error .malformed
  else if c.key.isSome then .error .malformed
  else .ok { c with key := some word }

/-- Reads words in turn. An option takes the next word as its value, whatever that is. -/
def read (c : Choices) : List String → Except UsageError Choices
  | [] => .ok c
  | [word] =>
    if word ∈ ["--config", "--locale", "--tag", "--arg"] then .error (.valueMissing word)
    else c.addWord word
  | word :: next :: rest =>
    if word = "--config" then { c with configPath := next }.read rest
    else if word = "--locale" then { c with locale := some next }.read rest
    else if word = "--tag" then { c with tag := some next }.read rest
    else if word = "--arg" then do (← c.addArgument next).read rest
    else do (← c.addWord word).read (next :: rest)

end Choices

/-- A command line that says what to do. -/
structure Invocation where
  command : Command
  key : String
  configPath : String
  locale : Option String
  arguments : Arguments
  tag : Option String

/-! ## Files -/

/-- What is found at a path. -/
inductive FileContent where
  | missing
  | unreadable
  | text (s : String)
  deriving DecidableEq, Repr

/-- The directory of a file, with its final slash; nothing for a file without one. -/
def directoryOf (path : String) : String :=
  String.ofList (path.toList.reverse.dropWhile (· != '/')).reverse

/-- A path that, unless it starts with a slash, starts in a directory. -/
def pathFrom (directory path : String) : String :=
  if path.toList.head? = some '/' then path else directory ++ path

def Config.load {m : Type → Type} [Monad m] (readFile : String → m FileContent) (path : String) :
    ExceptT SetupError m Config := do
  match ← readFile path with
  | .missing => return {}
  | .unreadable => throw .unreadableFile
  | .text s =>
    match Config.parse? s with
    | some config => return config
    | none => throw .malformedConfig

def Bundle.load {m : Type → Type} [Monad m] (readFile : String → m FileContent)
    (locale path : String) : ExceptT SetupError m Bundle := do
  match ← readFile path with
  | .text s => ExceptT.mk (pure (Bundle.ofText locale s))
  | _ => throw .unreadableFile

namespace Invocation

/-- Reads the words of a command line. -/
def ofTokens : List String → Except UsageError Invocation
  | [] => .error .malformed
  | name :: words =>
    match Command.ofName? name with
    | none => .error .malformed
    | some command => do
      let c ← ({} : Choices).read words
      match c.key with
      | none => throw .malformed
      | some key =>
        if c.tag.isSome && command != .render then throw .tagNotAllowed
        return ⟨command, key, c.configPath, c.locale, c.arguments, c.tag⟩

/-- The instance that the configuration of a command line describes, its bundles read in the
order of their locales. -/
def load {m : Type → Type} [Monad m] (inv : Invocation) (readFile : String → m FileContent) :
    ExceptT SetupError m Instance := do
  let config ← Config.load readFile inv.configPath
  let bundles ← config.bundles.mapM fun (locale, path) =>
    Bundle.load readFile locale (pathFrom (directoryOf inv.configPath) path)
  let settings : ComposerSettings := {
    locale := inv.locale.getD config.defaultLocale
    bundles
    isolates := config.isolates }
  ExceptT.mk (pure (Instance.ofSettings settings []))

def output (inv : Invocation) (i : Instance) : String :=
  match inv.command with
  | .format => (i.composer.translate inv.key inv.arguments).1
  | .parts => (Part.listToJson (i.composer.translateToParts inv.key inv.arguments).1).pretty
  | .render =>
    let view : MessageView := {
      keypath := some inv.key
      arguments := inv.arguments
      tag := inv.tag.getD Node.defaultTag }
    (view.render i).1.html

def run {m : Type → Type} [Monad m] (inv : Invocation) (readFile : String → m FileContent) :
    ExceptT SetupError m String := do
  let i ← inv.load readFile
  return inv.output i

end Invocation

end Phrasebook
