import Phrasebook.Message.Scanner

/-!
Scanners for what stands in braces: expressions and markup, with options and attributes.

Attributes (`@name` or `@name=literal`) are checked for their form and then dropped.
-/

namespace Phrasebook.Scanner

def optionValue : Scanner Operand := do
  if (← peek) = some '$' then
    skip 1
    return .variable (← name)
  else return .literal (← literal)

/-- One option after blanks, if a name follows them; else nothing, and the blanks stay. -/
def option? (found : List OptionEntry) : Scanner (Option OptionEntry) := do
  let after := (← get).skipWhile isBlank
  if after.rest.length < (← get).rest.length && after.rest.head?.any isNameStart then
    set after
    let name ← identifier
    if found.any (·.name == name) then
      failAt (.duplicateOption name) (← spanFrom after.position)
    let _ ← skipBlanks
    expect '='
    let _ ← skipBlanks
    return some ⟨name, ← optionValue⟩
  else return none

def options : Scanner (List OptionEntry) := collect option?

/-- The value of an attribute after an equals sign, if there is one; else the blanks stay. -/
def attributeValue : Scanner Unit := do
  let after := (← get).skipWhile isBlank
  if after.rest.head? = some '=' then
    set (after.skip 1)
    let _ ← skipBlanks
    let _ ← literal

def attribute? : Scanner (Option Unit) := do
  let after := (← get).skipWhile isBlank
  if after.rest.head? = some '@' then
    set (after.skip 1)
    let _ ← identifier
    attributeValue
    return some ()
  else return none

def attributes : Scanner Unit := do let _ ← collect fun _ => attribute?

def closingBrace : Scanner Unit := do
  match ← peek with
  | some '\x7d' => skip 1
  | none => fail .placeholderUnclosed
  | some c => fail (.unexpectedInPlaceholder c)

/-- Attributes, blanks and, if it comes next, a slash, which makes markup standalone. -/
def markupKind : Scanner MarkupKind := do
  attributes
  let _ ← skipBlanks
  if (← peek) = some '/' then
    skip 1
    return .standalone
  else return .opening

/-- Opening or standalone markup from its number sign on. -/
def openingMarkup (start : Position) : Scanner Markup := do
  skip 1
  let name ← identifier
  let options ← options
  let kind ← markupKind
  closingBrace
  return ⟨kind, name, options, ← spanFrom start⟩

def closingMarkup (start : Position) : Scanner Markup := do
  skip 1
  let name ← identifier
  let options ← options
  attributes
  let _ ← skipBlanks
  closingBrace
  return ⟨.closing, name, options, ← spanFrom start⟩

/-- The operand of an expression, if it does not start with its function. -/
def operand? : Scanner (Option Operand) := do
  match ← peek with
  | none => fail .placeholderUnclosed
  | some '$' => do
    skip 1
    return some (.variable (← name))
  | some ':' => return none
  | some c =>
    if c = '|' || isLiteralStart c then return some (.literal (← literal))
    else fail .expressionExpected

/-- The function of an expression, if there is one; blanks part it from an operand. -/
def functionUse? (afterOperand : Bool) : Scanner (Option FunctionUse) := do
  let parted ← if afterOperand then skipBlanks else pure true
  if (← peek) = some ':' then
    if !parted then fail .blankNeededBeforeFunction
    skip 1
    let name ← identifier
    return some ⟨name, ← options⟩
  else return none

/-- An expression from after its opening brace and blanks on. -/
def expressionBody (start : Position) : Scanner Expression := do
  let operand ← operand?
  let function ← functionUse? operand.isSome
  attributes
  let _ ← skipBlanks
  closingBrace
  return ⟨operand, function, ← spanFrom start⟩

def placeholder : Scanner PatternItem := do
  let start ← position
  expect '\x7b'
  let _ ← skipBlanks
  match ← peek with
  | some '#' => return .markup (← openingMarkup start)
  | some '/' => return .markup (← closingMarkup start)
  | _ => return .expression (← expressionBody start)

def expression : Scanner Expression := do
  let start ← position
  expect '\x7b'
  let _ ← skipBlanks
  match ← peek with
  | some '#' | some '/' => fail .markupNotAllowed
  | _ => expressionBody start

end Phrasebook.Scanner
