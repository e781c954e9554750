import Phrasebook.Function.Builtin
import Phrasebook.Message.Parse
import Phrasebook.Part

/-!
Formatters: messages ready to be formatted for a locale.

`Formatter.compile` reads the source. `Formatter.resolve` evaluates the declarations in turn,
chooses the pattern and resolves its items; `Formatter.format` gives the text of these and
`Formatter.formatToParts` their parts.
-/

namespace Phrasebook

/-- A message with what it needs to be formatted. -/
structure Formatter where
  locale : String
  source : String
  message : Message
  functions : FunctionTable
  localizer : Localizer
  /-- Whether placeholders stand between marks that isolate their direction. -/
  isolates : Bool

/-- What names refer to: arguments, and before them the values of declarations. -/
structure Scope where
  arguments : Arguments
  locals : Table Resolved := []

/-- An item of a pattern with its values. -/
inductive ResolvedItem where
  | text (s : String)
  | markup (m : Markup) (options : Options)
  | expression (source : String) (value : Resolved)
  deriving Inhabited

namespace Formatter

def compile (locale source : String) (functions : FunctionTable) (localizer : Localizer)
    (isolates : Bool) : Except SyntaxError Formatter := do
  let message ← Message.parse source
  return ⟨locale, source, message, functions, localizer, isolates⟩

theorem compile_of_parse {locale source : String} {functions : FunctionTable}
    {localizer : Localizer} {isolates : Bool} {m : Message} (h : Message.parse source = .ok m) :
    compile locale source functions localizer isolates =
      .ok ⟨locale, source, m, functions, localizer, isolates⟩ := by
  rw [compile, h]
  rfl

/-! ## Expressions -/

def call (f : Formatter) (name source : String) (options : Options) (operand : Option Value) :
    Except FormatError Resolved :=
  match f.functions.find? name with
  | none => .error (.unknownFunction name)
  | some function => function ⟨name, f.locale, source, f.localizer⟩ options operand

/-- A value that no function is named for: a number goes through the function `number`, if there is
one, a text is itself, anything else shows as it is. -/
def implicit (f : Formatter) (source : String) (v : Value) : Except FormatError Resolved :=
  match v with
  | .string s => .ok (.string s)
  | .number _ =>
    if f.functions.contains "number" then f.call "number" source [] (some v)
    else .ok (.unknown v)
  | _ => .ok (.unknown v)

/-- The value of an option. A declared name that has no value falls back to the argument. -/
def optionValue (scope : Scope) : Operand → Option Value
  | .literal text => some (.string text)
  | .variable name =>
    ((scope.locals.find? name).bind (·.value)).or (scope.arguments.find? name)

def resolveOptions (scope : Scope) (entries : List OptionEntry) : Options :=
  entries.foldl
    (fun options entry =>
      match optionValue scope entry.value with
      | some v => options.insert entry.name v
      | none => options)
    []

/-- Formats an operand with the function that an expression names, or without one. -/
def apply (f : Formatter) (scope : Scope) (source : String) (function : Option FunctionUse)
    (operand : Option Value) : Except FormatError Resolved :=
  match function, operand with
  | some use, _ => f.call use.name source (resolveOptions scope use.options) operand
  | none, some v => f.implicit source v
  | none, none => .ok (.fallback source)

/-- The value of an expression. A variable that has no value, or a fallback, gives a fallback
without any call; a declared name without a function keeps its value as it was formatted. -/
def evaluate (f : Formatter) (scope : Scope) (e : Expression) : Except FormatError Resolved :=
  match e.operand with
  | none => f.apply scope e.source e.function none
  | some (.literal text) => f.apply scope e.source e.function (some (.string text))
  | some (.variable name) =>
    match scope.locals.find? name with
    | some bound =>
      if bound.isFallback then .ok (.fallback e.source)
      else if e.function.isNone then .ok bound
      else f.apply scope e.source e.function bound.value
    | none =>
      match scope.arguments.find? name with
      | some v => f.apply scope e.source e.function (some v)
      | none => .ok (.fallback e.source)

/-- Evaluates declarations in turn; each sees the ones before it. -/
def declare (f : Formatter) : Scope → List Declaration → Except FormatError Scope
  | scope, [] => .ok scope
  | scope, d :: rest => do
    let value ← f.evaluate scope d.expression
    f.declare { scope with locals := scope.locals.insert d.name value } rest

/-- What each declaration keeps holds once all of them have been made. -/
theorem declare_keeps {f : Formatter} {I : Scope → Prop} {ds : List Declaration} {s t : Scope}
    (hkeeps : ∀ d ∈ ds, ∀ u value, I u → f.evaluate u d.expression = .ok value →
      I { u with locals := u.locals.insert d.name value })
    (hs : I s) (h : f.declare s ds = .ok t) : I t := by
  induction ds generalizing s with
  | nil =>
    cases h
    exact hs
  | cons d ds ih =>
    rw [declare] at h
    cases hvalue : f.evaluate s d.expression with
    | error e =>
      rw [hvalue] at h
      cases h
    | ok value =>
      rw [hvalue] at h
      have hfirst := hkeeps d List.mem_cons_self s value hs hvalue
      exact ih (fun e he => hkeeps e (List.mem_cons_of_mem d he)) hfirst h

/-! ## Selection -/

/-- How well a key meets a selector, the least number the best: 0 for the value itself, 1 for
its plural category, 2 for the catch-all. -/
def rankKey (f : Formatter) : VariantKey → Selector → Option Nat
  | .catchAll, _ => some 2
  | .literal _, .none => none
  | .literal key, .text s => if s = key then some 0 else none
  | .literal key, .number x exactOnly =>
    if (Number.read? key).any (·.equals x) then some 0
    else if !exactOnly && (f.localizer.pluralCategory f.locale x).name == key then some 1
    else none

/-- The ranks of keys for selectors, if each key meets its selector. -/
def rankKeys (f : Formatter) : List VariantKey → List Selector → Option (List Nat)
  | [], _ => some []
  | _ :: _, [] => none
  | key :: keys, selector :: selectors => do
    let rank ← f.rankKey key selector
    let ranks ← f.rankKeys keys selectors
    return rank :: ranks

/-- The first variant whose ranks come first in the order of words, with its ranks. -/
def bestVariant (f : Formatter) (selectors : List Selector) :
    List Variant → Option (List Nat × Variant) → Option (List Nat × Variant)
  | [], best => best
  | v :: rest, best =>
    match f.rankKeys v.keys selectors, best with
    | none, _ => f.bestVariant selectors rest best
    | some ranks, none => f.bestVariant selectors rest (some (ranks, v))
    | some ranks, some (bestRanks, w) =>
      f.bestVariant selectors rest
        (some (if ranks < bestRanks then (ranks, v) else (bestRanks, w)))

def selector (f : Formatter) (scope : Scope) (name : String) : Except FormatError Selector :=
  match scope.locals.find? name with
  | some bound => .ok bound.selector
  | none =>
    match scope.arguments.find? name with
    | some v => (f.implicit ("$" ++ name) v).map (·.selector)
    | none => .ok .none

def selectPattern (f : Formatter) (scope : Scope) (m : Matcher) : Except FormatError Pattern := do
  let selectors ← m.selectors.mapM (f.selector scope)
  match f.bestVariant selectors m.variants none with
  | some (_, v) => return v.pattern
  | none => throw (.failed "match" "no variant matched")

/-! ## Formatting -/

def resolveItem (f : Formatter) (scope : Scope) : PatternItem → Except FormatError ResolvedItem
  | .text s => .ok (.text s)
  | .markup m => .ok (.markup m (resolveOptions scope m.options))
  | .expression e => (f.evaluate scope e).map (.expression e.source)

def bodyPattern (f : Formatter) (scope : Scope) : Body → Except FormatError Pattern
  | .pattern p => .ok p
  | .choice m => f.selectPattern scope m

def resolve (f : Formatter) (arguments : Arguments) : Except FormatError (List ResolvedItem) := do
  let scope ← f.declare { arguments } f.message.declarations
  let pattern ← f.bodyPattern scope f.message.body
  pattern.mapM (f.resolveItem scope)

/-- The text of an item; markup has none. -/
def itemText (f : Formatter) : ResolvedItem → String
  | .text s => s
  | .markup .. => ""
  | .expression _ value =>
    if f.isolates then isolateStart ++ value.text ++ isolateEnd else value.text

/-- The part of a placeholder's value; a fallback belongs to no locale. -/
def expressionPart (f : Formatter) (source : String) (value : Resolved) : ExpressionPart where
  kind := value.kind
  source := some source
  locale := if value.isFallback then none else some f.locale
  value := value.value
  parts := value.parts

def itemParts (f : Formatter) : ResolvedItem → List Part
  | .text s => [.text s]
  | .markup m options => [.markup m.kind m.name options]
  | .expression source value =>
    let part := Part.expression (f.expressionPart source value)
    if f.isolates then [.isolation isolateStart, part, .isolation isolateEnd] else [part]

/-- The message as text, without its markup. -/
def format (f : Formatter) (arguments : Arguments) : Except FormatError String := do
  let items ← f.resolve arguments
  return String.join (items.map f.itemText)

def formatToParts (f : Formatter) (arguments : Arguments) : Except FormatError (List Part) := do
  let items ← f.resolve arguments
  return items.flatMap f.itemParts

end Formatter

end Phrasebook
