/-!
Messages: the data model of a pattern in a localized text.

A message is a list of declarations and a body; the body is one pattern, or variants of which
selectors choose one. A pattern is a sequence of texts, expressions in braces and markup. Each
part that stands in braces keeps the `Span` of source text it was read from.
-/

namespace Phrasebook

instance coeUInt32Nat : Coe UInt32 Nat := ⟨UInt32.toNat⟩

/-- A stretch of source text: offsets in bytes of UTF-8, the line and column of its start
counted from one, the column in characters. Lines and columns are counted in 32 bits. -/
structure Span where
  start : Nat
  stop : Nat
  line : UInt32
  column : UInt32
  deriving DecidableEq, Repr

/-- What an expression or an option refers to. -/
inductive Operand where
  | variable (name : String)
  | literal (text : String)
  deriving DecidableEq, Repr

/-- An option of a function or of markup, as written. -/
structure OptionEntry where
  name : String
  value : Operand
  deriving DecidableEq, Repr

/-- A function named in an expression. -/
structure FunctionUse where
  name : String
  options : List OptionEntry
  deriving DecidableEq, Repr

/-- A placeholder for a value. -/
structure Expression where
  operand : Option Operand
  function : Option FunctionUse
  span : Span
  deriving DecidableEq, Repr

inductive MarkupKind where
  | opening
  | closing
  | standalone
  deriving DecidableEq, Repr

/-- A placeholder for markup. -/
structure Markup where
  kind : MarkupKind
  name : String
  options : List OptionEntry
  span : Span
  deriving DecidableEq, Repr

inductive PatternItem where
  | text (s : String)
  | expression (e : Expression)
  | markup (m : Markup)
  deriving DecidableEq, Repr

abbrev Pattern := List PatternItem

/-- What a variant asks of one selector. -/
inductive VariantKey where
  | literal (text : String)
  | catchAll
  deriving DecidableEq, Repr

structure Variant where
  keys : List VariantKey
  pattern : Pattern
  span : Span
  deriving DecidableEq, Repr

/-- Variants, and the variables whose values choose among them. -/
structure Matcher where
  selectors : List String
  variants : List Variant
  span : Span
  deriving DecidableEq, Repr

/-- An `input` declaration annotates an argument; a `binding` names the value of an
expression. -/
inductive DeclarationKind where
  | input
  | binding
  deriving DecidableEq, Repr

structure Declaration where
  kind : DeclarationKind
  name : String
  expression : Expression
  deriving DecidableEq, Repr

inductive Body where
  | pattern (p : Pattern)
  | choice (m : Matcher)
  deriving DecidableEq, Repr

structure Message where
  declarations : List Declaration
  body : Body
  deriving DecidableEq, Repr

/-- Whether every key of the variant is the catch-all. -/
def Variant.isCatchAll (v : Variant) : Bool := v.keys.all (· == .catchAll)

/-- The characters of a literal with a backslash before each bar and each backslash. -/
def Operand.escape : List Char → List Char
  | [] => []
  | c :: rest => if c == '|' || c == '\\' then '\\' :: c :: escape rest else c :: escape rest

/-- An operand as it identifies a placeholder: a variable with its sigil, a literal between
bars with bars and backslashes escaped. -/
def Operand.source : Operand → String
  | .variable name => "$" ++ name
  | .literal text => "|" ++ String.ofList (escape text.toList) ++ "|"

/-- The text that identifies a placeholder in fallbacks and in parts. -/
def Expression.source (e : Expression) : String :=
  match e.operand, e.function with
  | some operand, _ => operand.source
  | none, some function => ":" ++ function.name
  | none, none => ""

end Phrasebook
