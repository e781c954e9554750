import Phrasebook.Localizer

/-!
Functions: what an expression calls to format its operand.

A `MessageFunction` gets the call it serves, the options and the operand, and gives a
`Resolved` value or a `FormatError`. A function table binds functions to the names that
messages call them by.
-/

namespace Phrasebook

/-- How a resolved value chooses among variants. -/
inductive Selector where
  | none
  | text (s : String)
  | number (x : Number) (exactOnly : Bool)
  deriving DecidableEq, Inhabited

/-- A formatted value. The kind names what formatted it, or is `fallback` for a placeholder
without a value. -/
structure Resolved where
  kind : String
  value : Option Value
  text : String
  parts : Option (List SubPart)
  selector : Selector
  deriving Inhabited

namespace Resolved

/-- A text that is its own value. -/
def string (s : String) : Resolved := ⟨"string", some (.string s), s, none, .text s⟩

/-- A value shown as it is, when no function formats it. -/
def unknown (v : Value) : Resolved := ⟨"unknown", some v, v.display, none, .text v.display⟩

/-- The echo of a placeholder that has no value. -/
def fallback (source : String) : Resolved :=
  ⟨"fallback", none, "\x7b" ++ source ++ "\x7d", none, .none⟩

def isFallback (r : Resolved) : Bool := r.kind == "fallback"

theorem isFallback_fallback (source : String) : (fallback source).isFallback = true := rfl

end Resolved

/-- What is wrong with an operand: one of the faults of the built-in functions, or what another
function says. -/
inductive OperandFault where
  | missing
  | notANumber (shown : String)
  | notADate (shown : String)
  | other (message : String)
  deriving DecidableEq, Repr

def OperandFault.message : OperandFault → String
  | .missing => "missing operand"
  | .notANumber shown => "'" ++ shown ++ "' is not a number"
  | .notADate shown => "'" ++ shown ++ "' is not a date"
  | .other message => message

/-- What is wrong with an option, in the same way. -/
inductive OptionFault where
  | notADigitCount
  | unsupportedSelection (mode : String)
  | unsupportedStyle (style : String)
  | other (message : String)
  deriving DecidableEq, Repr

def OptionFault.message : OptionFault → String
  | .notADigitCount => "expected an integer between 0 and 20"
  | .unsupportedSelection mode => "unsupported selection '" ++ mode ++ "'"
  | .unsupportedStyle style => "unsupported style '" ++ style ++ "'"
  | .other message => message

/-- Why a message could not be formatted. -/
inductive FormatError where
  | unknownFunction (name : String)
  | badOperand (function : String) (fault : OperandFault)
  | badOption (function option : String) (fault : OptionFault)
  | failed (function message : String)
  deriving DecidableEq, Repr

def FormatError.message : FormatError → String
  | .unknownFunction name => "unknown function ':" ++ name ++ "'"
  | .badOperand function fault => "bad operand for ':" ++ function ++ "': " ++ fault.message
  | .badOption function option fault =>
    "bad option '" ++ option ++ "' for ':" ++ function ++ "': " ++ fault.message
  | .failed function message => "function ':" ++ function ++ "' failed: " ++ message

/-- What a function is told about its call. -/
structure FunctionCall where
  /-- The name that the message calls the function by. -/
  name : String
  locale : String
  /-- The text that identifies the placeholder. -/
  source : String
  localizer : Localizer

/-- A function that formats an operand, if it has one, with options. -/
abbrev MessageFunction := FunctionCall → Options → Option Value → Except FormatError Resolved

/-- Functions by the names that messages call them by. -/
abbrev FunctionTable := Table MessageFunction

/-- The function that makes a text of its operand. -/
def MessageFunction.ofText (f : FunctionCall → Options → Option Value → String) :
    MessageFunction := fun call options operand => .ok (.string (f call options operand))

end Phrasebook
